import RedisCpp.Store.Concurrent
import RedisCpp.Store.Reference

/-!
# Linearizability of the store

Every operation takes effect in one lock-protected section: a mutator where it
writes the shard, `get` in its shared section (the second section only removes what
nobody can see), `ttl` and `on_ttl_expired` in their only one.  The store refines the
reference map that the effects so far have produced, so the effects form a legal
serial order; the library turns this into linearizability of the history.
-/

namespace RedisCpp.Store

open Linearizability

/-- The point is one of the call: same operation, and the clock was read after the
call was made. -/
def Explains (input : Op × ℤ) (point : TimedOp) : Prop :=
  point.op = input.1 ∧ input.2 ≤ point.now ∧ point.now ≤ point.later

/-- The return delivers the result, and the clock was read before it. -/
def Delivers (point : TimedOp) (result : Result) (output : Result × ℤ) : Prop :=
  output.1 = result ∧ point.later ≤ output.2

namespace RefMap

/-- The results the reference allows.  A `del` finds every visible key and none that
was never there; on an entry past its deadline it may answer either way. -/
def Allows (map : RefMap) (call : TimedOp) (result : Result) : Prop :=
  match call.op with
  | .del key => ∃ success, result = .flag success ∧ (map key = none → success = false) ∧
      ((map.see key call.now).isSome → success = true)
  | _ => result = map.guardedResult call

/-- A serial execution of the reference. -/
def Legal : RefMap → List (TimedOp × Result) → Prop
  | _, [] => True
  | map, (call, result) :: rest => map.Allows call result ∧ (map.guardedNext call).Legal rest

theorem legal_append_singleton {map : RefMap} {points : List (TimedOp × Result)}
    {point : TimedOp × Result} :
    map.Legal (points ++ [point]) ↔
      map.Legal points ∧ (map.run (points.map Prod.fst)).Allows point.1 point.2 := by
  induction points generalizing map with
  | nil => simp [Legal, run]
  | cons first rest inductionHypothesis =>
      simp only [List.cons_append, Legal, inductionHypothesis, List.map_cons, and_assoc]
      rfl

theorem run_append_singleton (map : RefMap) (points : List (TimedOp × Result))
    (point : TimedOp × Result) :
    map.run ((points ++ [point]).map Prod.fst) =
      (map.run (points.map Prod.fst)).guardedNext point.1 := by
  simp [run]

end RefMap

/-- A legal serial order in which the effects follow the clock. -/
def LegalOrder (points : List (TimedOp × Result)) : Prop :=
  RefMap.empty.Legal points ∧ points.Pairwise fun earlier later => earlier.1.later ≤ later.1.later

/-! ## Moves -/

namespace Pc

/-- Before the effect: the running operation and the clock reading it has taken. -/
def running : Pc → Option (Op × Option ℤ)
  | .called op => some (op, none)
  | .setLocked key value | .setLogged key value => some (.set key value, none)
  | .setExTimed key value ttlS now | .setExLocked key value ttlS now
  | .setExLogged key value ttlS now => some (.setEx key value ttlS, some now)
  | .delLocked key | .delLogged key => some (.del key, none)
  | .expireLocked key ttlS => some (.expire key ttlS, none)
  | .expireTimed key ttlS now => some (.expire key ttlS, some now)
  | .persistLocked key => some (.persist key, none)
  | _ => none

/-- After the effect: the result on its way back. -/
def outcome : Pc → Option Result
  | .setExStored _ _ | .expireAssigned _ _ | .expireLogged _ _ | .persistCleared _ _ =>
      some (.flag true)
  | .getStale _ => some (.value none)
  | .unlocking result | .returning result => some result
  | _ => none

/-- The deadline to be stored is the exact sum and positive. -/
def Timely : Pc → Prop
  | .setExTimed _ _ ttlS now | .setExLocked _ _ ttlS now | .setExLogged _ _ ttlS now
  | .expireTimed _ ttlS now =>
      0 < ttlS ∧ 0 < exactDeadline now ttlS ∧ exactDeadline now ttlS ≤ int64Max
  | .expireLocked _ ttlS => 0 < ttlS
  | _ => True

/-- One thread changes its program counter. -/
theorem forall_update {Tid : Type} [DecidableEq Tid] {threads : Tid → Pc} {property : Pc → Prop}
    (all : ∀ tid, property (threads tid)) (tid : Tid) {pc : Pc} (own : property pc) (other : Tid) :
    property (Function.update threads tid pc other) := by
  have updated : ∀ other, property (Function.update threads tid pc other) :=
    (Function.forall_update_iff threads fun _ pc => property pc).mpr
      ⟨own, fun other _ => all other⟩
  exact updated other

end Pc

theorem exactDeadline_of_defined {clock ttlS : ℤ} (nonneg : 0 ≤ clock) (accepted : 0 < ttlS)
    (defined : DeadlineDefined clock ttlS) :
    0 < exactDeadline clock ttlS ∧ exactDeadline clock ttlS ≤ int64Max := by
  rcases defined with ⟨-, -, upper⟩
  simp only [exactDeadline, Int.mul_comm 1000 ttlS]
  omega

namespace Move

variable {store after : KvStore} {clock : ℤ} {pc next : Pc} {use : LockUse}
  {effect : Option (TimedOp × Result)}

/-- A move is made on the way to the effect, at it, or on the way back. -/
theorem phases (move : Move store clock pc after next use effect) :
    (effect = none ∧ ∃ op reading reached, pc.running = some (op, reading) ∧
        next.running = some (op, reached) ∧ next.outcome = none ∧
        (reached = reading ∨ reading = none ∧ reached = some clock)) ∨
      (∃ op reading result, pc.running = some (op, reading) ∧
        effect = some (⟨op, reading.getD clock, clock⟩, result) ∧
        next.outcome = some result ∧ next.running = none) ∨
      effect = none ∧ ∃ result, pc.outcome = some result ∧ next.outcome = some result ∧
        next.running = none := by
  cases move with
  | setLock | setLog | setExLock | setExLog | delLock | delLog | expireLock | persistLock =>
      exact Or.inl ⟨rfl, _, _, _, rfl, rfl, rfl, Or.inl rfl⟩
  | setExTime | expireTime => exact Or.inl ⟨rfl, _, _, _, rfl, rfl, rfl, Or.inr ⟨rfl, rfl⟩⟩
  | setStore | setExRefuse | setExStore | delErase | expireRefuse | expireFail | expireAssign
  | persistFail | persistClear | getMissing | getHit | getStale | ttl | onTtlExpired =>
      exact Or.inr (Or.inl ⟨_, _, _, rfl, rfl, rfl, rfl⟩)
  | setExSchedule | expireLog | expireSchedule | persistLog | getReap | unlock =>
      exact Or.inr (Or.inr ⟨rfl, _, rfl, rfl, rfl⟩)

/-- The effect is stamped with the clock of its section. -/
theorem later_eq (move : Move store clock pc after next use effect) {point : TimedOp × Result}
    (equal : effect = some point) : point.1.later = clock := by
  rcases move.phases with ⟨none, -⟩ | ⟨op, reading, result, -, some, -⟩ | ⟨none, -⟩
  · rw [none] at equal
    cases equal
  · rw [some] at equal
    cases equal
    rfl
  · rw [none] at equal
    cases equal

theorem timely (move : Move store clock pc after next use effect) (nonneg : 0 ≤ clock)
    (timely : pc.Timely) : next.Timely := by
  cases move with
  | setExTime key value ttlS accepted defined =>
      exact ⟨accepted, exactDeadline_of_defined nonneg accepted defined⟩
  | expireTime key ttlS defined =>
      exact ⟨timely, exactDeadline_of_defined nonneg timely defined⟩
  | expireLock key ttlS accepted => exact accepted
  | setExLock | setExLog => exact timely
  | setLock | setLog | setStore | setExRefuse | setExStore | setExSchedule | delLock | delLog
  | delErase | expireRefuse | expireFail | expireAssign | expireLog | expireSchedule
  | persistLock | persistFail | persistClear | persistLog | getMissing | getHit | getStale
  | getReap | ttl | onTtlExpired | unlock => trivial

end Move

/-- The reference map after a move. -/
def RefMap.advance (map : RefMap) : Option (TimedOp × Result) → RefMap
  | none => map
  | some point => map.guardedNext point.1

namespace Refines

variable {clock : ℤ} {store : KvStore} {map : RefMap}

/-- A key the reference does not hold is not in memory, and a visible one is. -/
theorem allows_del (refines : Refines clock store map) (key : Bytes) :
    map.Allows ⟨.del key, clock, clock⟩ (.flag (store.find key).isSome) := by
  refine ⟨_, rfl, ?_, ?_⟩
  · intro absent
    cases present : store.find key with
    | none => rfl
    | some entry =>
        have held : store.slots key = some entry.toSlot := by simp [KvStore.slots, present]
        simp [refines.purged.reference_eq held] at absent
  · intro visible
    cases present : store.find key with
    | none =>
        simp only [refines.see_of_none present] at visible
        exact visible
    | some entry => rfl

/-- What has to be shown of a move with an effect. -/
theorem effect {after : KvStore} {call : TimedOp} {result : Result}
    (shown : Refines clock after (map.guardedNext call) ∧ map.Allows call result) :
    Refines clock after (map.advance (some (call, result))) ∧
      ∀ found answer, some (call, result) = some (found, answer) → map.Allows found answer := by
  refine ⟨shown.1, ?_⟩
  rintro found answer ⟨⟩
  exact shown.2

theorem refuse (refines : Refines clock store map) {op : Op} (refusal : op.refused = true)
    (now later : ℤ) :
    Refines clock store (map.guardedNext ⟨op, now, later⟩) ∧
      map.Allows ⟨op, now, later⟩ (.flag false) := by
  simp only [RefMap.guardedNext, refusal, if_true]
  refine ⟨refines, ?_⟩
  cases op with
  | setEx | expire => simp only [RefMap.Allows, RefMap.guardedResult, refusal, if_true]
  | set | setAbsolute | get | del | expireAt | persist | ttl | count | onTtlExpired =>
      cases refusal

/-- The exclusive section of `expire`, whether it finds the key or not. -/
theorem expire (refines : Refines clock store map) (key : Bytes) {ttlS now : ℤ}
    (accepted : 0 < ttlS) (positive : 0 < exactDeadline now ttlS)
    (bounded : exactDeadline now ttlS ≤ int64Max) {success : Bool}
    (outcome : (store.assignDeadline key (KvStore.deadlineAt now ttlS) clock).1 = success) :
    Refines clock (store.assignDeadline key (KvStore.deadlineAt now ttlS) clock).2
        (map.guardedNext ⟨.expire key ttlS, now, clock⟩) ∧
      map.Allows ⟨.expire key ttlS, now, clock⟩ (.flag success) := by
  have acceptance : (Op.expire key ttlS).refused = false := by
    simp [Op.refused, accepted]
  rcases refines.assignDeadline key positive with ⟨flag_eq, assigned⟩
  simp only [deadlineAt_eq positive bounded] at outcome ⊢
  simp only [RefMap.guardedNext, RefMap.Allows, RefMap.guardedResult, acceptance,
    Bool.false_eq_true, if_false, RefMap.result, ← flag_eq, outcome]
  exact ⟨assigned, trivial⟩

/-- The exclusive section of `persist`, whether it finds a deadline or not. -/
theorem persisted (refines : Refines clock store map) (key : Bytes) {value : Option Bytes}
    (outcome : (store.clearDeadline key clock).1 = value) :
    Refines clock (store.clearDeadline key clock).2
        (map.guardedNext ⟨.persist key, clock, clock⟩) ∧
      map.Allows ⟨.persist key, clock, clock⟩ (.flag value.isSome) := by
  rcases refines.clearDeadline key with ⟨flag_eq, cleared⟩
  refine ⟨cleared, ?_⟩
  simp only [RefMap.Allows, RefMap.guardedResult, Op.refused, Bool.false_eq_true, if_false,
    RefMap.result, ← flag_eq, outcome]

/-- The shared section of `get`. -/
theorem looked (refines : Refines clock store map) (key : Bytes) {value : Option Bytes}
    (seen : (map.see key clock).map Prod.fst = value) :
    Refines clock store.addGet (map.guardedNext ⟨.get key, clock, clock⟩) ∧
      map.Allows ⟨.get key, clock, clock⟩ (.value value) := by
  refine ⟨refines.of_find_eq rfl, ?_⟩
  simp only [RefMap.Allows, RefMap.guardedResult, Op.refused, Bool.false_eq_true, if_false,
    RefMap.result, seen]

end Refines

namespace Move

variable {store after : KvStore} {clock : ℤ} {pc next : Pc} {use : LockUse}
  {effect : Option (TimedOp × Result)} {map : RefMap}

/-- Every move refines the reference, which moves at the effect only. -/
theorem refines (move : Move store clock pc after next use effect) (timely : pc.Timely)
    (refines : Refines clock store map) :
    Refines clock after (map.advance effect) ∧
      ∀ call result, effect = some (call, result) → map.Allows call result := by
  cases move with
  | setLock | setLog | setExTime | setExLock | setExLog | delLock | delLog | expireLock
  | expireTime | expireLog | expireSchedule | persistLock | persistLog | unlock =>
      exact ⟨refines.of_find_eq rfl, by simp⟩
  | setExSchedule key expireAtMs =>
      refine ⟨refines.of_find_eq ?_, by simp⟩
      by_cases positive : 0 < expireAtMs
      · simp [positive]
      · simp [positive]
  | setStore key value => exact Refines.effect ⟨refines.put key { value } (Or.inl rfl), rfl⟩
  | setExRefuse key value ttlS refused =>
      have refusal : (Op.setEx key value ttlS).refused = true := by simp [Op.refused, refused]
      exact Refines.effect (refines.refuse refusal clock clock)
  | setExStore key value ttlS now =>
      rcases timely with ⟨accepted, positive, bounded⟩
      have acceptance : (Op.setEx key value ttlS).refused = false := by
        simp [Op.refused, accepted]
      apply Refines.effect
      constructor
      · simp only [RefMap.guardedNext, acceptance, Bool.false_eq_true, if_false,
          deadlineAt_eq positive bounded]
        have written := refines.put key { value, expireAtMs := exactDeadline now ttlS }
          (Or.inr positive)
        simpa [Entry.toSlot, not_lt.mpr positive.le, RefMap.next] using written
      · simp [RefMap.Allows, RefMap.guardedResult, acceptance, RefMap.result]
  | delErase key => exact Refines.effect ⟨refines.erase key, refines.allows_del key⟩
  | expireRefuse key ttlS refused =>
      have refusal : (Op.expire key ttlS).refused = true := by simp [Op.refused, refused]
      exact Refines.effect (refines.refuse refusal clock clock)
  | expireFail key ttlS now failed =>
      rcases timely with ⟨accepted, positive, bounded⟩
      exact Refines.effect (refines.expire key accepted positive bounded failed)
  | expireAssign key ttlS now succeeded =>
      rcases timely with ⟨accepted, positive, bounded⟩
      exact Refines.effect (refines.expire key accepted positive bounded succeeded)
  | persistFail key failed => exact Refines.effect (refines.persisted key failed)
  | persistClear key value succeeded => exact Refines.effect (refines.persisted key succeeded)
  | getMissing key missing =>
      have seen := refines.getShared key
      simp only [missing] at seen
      exact Refines.effect (refines.looked key seen)
  | getHit key value hit =>
      have seen := refines.getShared key
      simp only [hit] at seen
      exact Refines.effect (refines.looked key seen)
  | getStale key stale =>
      have seen := refines.getShared key
      simp only [stale] at seen
      exact Refines.effect (refines.looked key seen)
  | getReap key => exact ⟨refines.reap key, by simp⟩
  | ttl key =>
      apply Refines.effect
      refine ⟨refines, ?_⟩
      simp [RefMap.Allows, RefMap.guardedResult, Op.refused, RefMap.result, refines.ttl key]
  | onTtlExpired key => exact Refines.effect ⟨refines.reap key, rfl⟩

end Move

/-! ## Runs -/

/-- The events of a call match the program counter of the thread that runs it. -/
structure Tracks (id : ℕ) (clock : ℤ) (pc : Pc) (own : List Event) : Prop where
  before : ∀ op reading, pc.running = some (op, reading) →
    ∃ time, own = [.call id (op, time)] ∧ time ≤ reading.getD clock ∧ reading.getD clock ≤ clock
  afterwards : ∀ result, pc.outcome = some result → ∃ input point,
    own = [.call id input, .commit id point result] ∧ Explains input point ∧ point.later ≤ clock

namespace Tracks

variable {id : ℕ} {clock : ℤ} {pc : Pc} {own : List Event}

theorem idle (id : ℕ) (clock : ℤ) (own : List Event) : Tracks id clock .idle own where
  before := by
    intro op reading running
    cases running
  afterwards := by
    intro result outcome
    cases outcome

theorem called (id : ℕ) (clock : ℤ) (op : Op) :
    Tracks id clock (.called op) [.call id (op, clock)] where
  before := by
    rintro _ _ ⟨⟩
    exact ⟨clock, rfl, le_refl clock, le_refl clock⟩
  afterwards := by
    intro result outcome
    cases outcome

theorem later {later : ℤ} (le : clock ≤ later) (tracks : Tracks id clock pc own) :
    Tracks id later pc own where
  before := by
    intro op reading running
    rcases tracks.before op reading running with ⟨time, own_eq, read, current⟩
    refine ⟨time, own_eq, ?_, ?_⟩
    · cases reading with
      | none => exact read.trans le
      | some now => exact read
    · cases reading with
      | none => exact le_refl later
      | some now => exact current.trans le
  afterwards := by
    intro result outcome
    rcases tracks.afterwards result outcome with ⟨input, point, own_eq, explains, current⟩
    exact ⟨input, point, own_eq, explains, current.trans le⟩

/-- The stage of the call, before and after its thread moves. -/
theorem move {store after : KvStore} {next : Pc} {use : LockUse}
    {effect : Option (TimedOp × Result)} (tracks : Tracks id clock pc own)
    (move : Move store clock pc after next use effect) :
    Tracks id clock next
        (own ++ (effect.map fun point => .commit id point.1 point.2).toList) ∧
      Stage Explains Delivers id
        (own ++ (effect.map fun point => .commit id point.1 point.2).toList) := by
  rcases move.phases with ⟨rfl, op, reading, reached, running, goesOn, unfinished, progress⟩ |
    ⟨op, reading, result, running, rfl, outcome, finished⟩ |
    ⟨rfl, result, outcome, goesOn, finished⟩
  · rcases tracks.before op reading running with ⟨time, rfl, read, current⟩
    refine ⟨⟨?_, ?_⟩, .called (op, time)⟩
    · intro found readingFound runningFound
      rw [goesOn] at runningFound
      cases runningFound
      rcases progress with rfl | ⟨rfl, rfl⟩
      · exact ⟨time, rfl, read, current⟩
      · exact ⟨time, rfl, read, le_refl clock⟩
    · intro result outcome
      rw [unfinished] at outcome
      cases outcome
  · rcases tracks.before op reading running with ⟨time, rfl, read, current⟩
    refine ⟨⟨?_, ?_⟩, ?_⟩
    · intro found readingFound runningFound
      rw [finished] at runningFound
      cases runningFound
    · intro found outcomeFound
      rw [outcome] at outcomeFound
      cases outcomeFound
      exact ⟨_, _, rfl, ⟨rfl, read, current⟩, le_refl clock⟩
    · exact .committed result ⟨rfl, read, current⟩
  · rcases tracks.afterwards result outcome with ⟨input, point, rfl, explains, current⟩
    refine ⟨⟨?_, ?_⟩, .committed result explains⟩
    · intro found readingFound runningFound
      rw [finished] at runningFound
      cases runningFound
    · intro found outcomeFound
      rw [goesOn] at outcomeFound
      cases outcomeFound
      exact ⟨input, point, rfl, explains, current⟩

end Tracks

/-- The effects of a run, without the numbers of the calls. -/
def points (events : List Event) : List (TimedOp × Result) :=
  (effects events).map Prod.snd

/-- What holds along every run: the store refines the serial execution of the effects,
and every thread has got as far as the events of its call say. -/
structure LinearInvariant {Tid : Type} (events : List Event) (system : System Tid) : Prop where
  refines : Refines system.clock system.store (RefMap.empty.run ((points events).map Prod.fst))
  legal : LegalOrder (points events)
  bounded : ∀ point ∈ points events, point.1.later ≤ system.clock
  timely : ∀ tid, (system.threads tid).Timely
  fresh : ∀ id, system.nextId ≤ id → eventsOf id events = []
  issued : ∀ tid, system.threads tid ≠ .idle → system.current tid < system.nextId
  distinct : ∀ tid other, system.threads tid ≠ .idle → system.threads other ≠ .idle →
    system.current tid = system.current other → tid = other
  tracks : ∀ tid, Tracks (system.current tid) system.clock (system.threads tid)
    (eventsOf (system.current tid) events)
  disciplined : Disciplined Explains Delivers events

namespace LinearInvariant

variable {Tid : Type} {events : List Event} {system after : System Tid}

theorem initial {nShards : ℕ} (powerOfTwo : nShards.isPowerOfTwo) (aof : Option AofWriter)
    (enableTtl : Bool) (clock : ℕ) :
    LinearInvariant [] (System.initial powerOfTwo aof enableTtl clock : System Tid) where
  refines := Refines.empty powerOfTwo aof enableTtl clock
  legal := ⟨trivial, List.Pairwise.nil⟩
  bounded := by
    intro point mem
    cases mem
  timely := fun _ => trivial
  fresh := fun _ _ => rfl
  issued := by
    intro tid busy
    exact absurd rfl busy
  distinct := by
    intro tid other busy
    exact absurd rfl busy
  tracks := fun tid => Tracks.idle _ _ _
  disciplined := fun id => .fresh

theorem tick (invariant : LinearInvariant events system) (elapsed : ℕ) :
    LinearInvariant events { system with clock := system.clock + elapsed } := by
  have le : (system.clock : ℤ) ≤ ((system.clock + elapsed : ℕ) : ℤ) := by simp
  exact
    { invariant with
      refines := invariant.refines.later le
      bounded := fun point mem => (invariant.bounded point mem).trans le
      tracks := fun tid => (invariant.tracks tid).later le }

/-- New events of one thread do not concern the calls of the others. -/
theorem tracks_of_ne (invariant : LinearInvariant events system) {tid other : Tid}
    (different : other ≠ tid) (busy : system.threads tid ≠ .idle) {added : List Event}
    (own : ∀ event ∈ added, event.id = system.current tid) :
    Tracks (system.current other) system.clock (system.threads other)
      (eventsOf (system.current other) (events ++ added)) := by
  by_cases idle : system.threads other = .idle
  · simp only [idle]
    exact Tracks.idle _ _ _
  · rw [eventsOf_append_of_ne]
    · exact invariant.tracks other
    · intro event mem equal
      apply different
      apply invariant.distinct other tid idle busy
      exact equal.symm.trans (own event mem)

/-- The bookkeeping that a step of a busy thread leaves as it is. -/
theorem fresh_append (invariant : LinearInvariant events system) {tid : Tid}
    (busy : system.threads tid ≠ .idle) {added : List Event}
    (own : ∀ event ∈ added, event.id = system.current tid) (id : ℕ) (le : system.nextId ≤ id) :
    eventsOf id (events ++ added) = [] := by
  rw [eventsOf_append_of_ne]
  · exact invariant.fresh id le
  · intro event mem equal
    have issued := invariant.issued tid busy
    rw [← own event mem, equal] at issued
    omega

variable [DecidableEq Tid]

theorem busy_of_update {threads : Tid → Pc} {tid other : Tid} {pc : Pc}
    (busy : threads tid ≠ .idle) (otherBusy : Function.update threads tid pc other ≠ .idle) :
    threads other ≠ .idle := by
  rcases eq_or_ne other tid with rfl | different
  · exact busy
  · rwa [Function.update_of_ne different] at otherBusy

theorem distinct_update (invariant : LinearInvariant events system) {tid : Tid}
    (busy : system.threads tid ≠ .idle) {pc : Pc} (left right : Tid)
    (leftBusy : Function.update system.threads tid pc left ≠ .idle)
    (rightBusy : Function.update system.threads tid pc right ≠ .idle)
    (equal : system.current left = system.current right) : left = right :=
  invariant.distinct left right (busy_of_update busy leftBusy) (busy_of_update busy rightBusy) equal

theorem tracks_update (invariant : LinearInvariant events system) {tid : Tid}
    (busy : system.threads tid ≠ .idle) {added : List Event}
    (own : ∀ event ∈ added, event.id = system.current tid) {pc : Pc}
    (tracks : Tracks (system.current tid) system.clock pc
      (eventsOf (system.current tid) events ++ added)) (other : Tid) :
    Tracks (system.current other) system.clock (Function.update system.threads tid pc other)
      (eventsOf (system.current other) (events ++ added)) := by
  by_cases same : other = tid
  · subst other
    simp only [Function.update_self, eventsOf_append_of_eq own]
    exact tracks
  · simp only [Function.update_of_ne same]
    exact invariant.tracks_of_ne same busy own

/-- A new call gets a number that no call has. -/
theorem issued_call (invariant : LinearInvariant events system) (tid : Tid) {pc : Pc} (other : Tid)
    (busy : Function.update system.threads tid pc other ≠ .idle) :
    Function.update system.current tid system.nextId other < system.nextId + 1 := by
  by_cases same : other = tid
  · subst other
    simp only [Function.update_self]
    omega
  · simp only [Function.update_of_ne same] at busy ⊢
    exact Nat.lt_succ_of_lt (invariant.issued other busy)

theorem distinct_call (invariant : LinearInvariant events system) (tid : Tid) {pc : Pc}
    (left right : Tid) (leftBusy : Function.update system.threads tid pc left ≠ .idle)
    (rightBusy : Function.update system.threads tid pc right ≠ .idle)
    (equal : Function.update system.current tid system.nextId left =
      Function.update system.current tid system.nextId right) : left = right := by
  by_cases leftSame : left = tid
  · by_cases rightSame : right = tid
    · exact leftSame.trans rightSame.symm
    · simp only [leftSame, Function.update_self, Function.update_of_ne rightSame]
        at rightBusy equal
      have issued := invariant.issued right rightBusy
      omega
  · by_cases rightSame : right = tid
    · simp only [rightSame, Function.update_self, Function.update_of_ne leftSame]
        at leftBusy equal
      have issued := invariant.issued left leftBusy
      omega
    · simp only [Function.update_of_ne leftSame, Function.update_of_ne rightSame]
        at leftBusy rightBusy equal
      exact invariant.distinct left right leftBusy rightBusy equal

theorem call (invariant : LinearInvariant events system) (tid : Tid) (op : Op) :
    LinearInvariant (events ++ [.call system.nextId (op, (system.clock : ℤ))])
      { system with
        threads := Function.update system.threads tid (.called op)
        nextId := system.nextId + 1
        current := Function.update system.current tid system.nextId } := by
  have silent : points (events ++ [.call system.nextId (op, (system.clock : ℤ))]) =
      points events := by
    simp [points, effects]
  have unused := invariant.fresh system.nextId (le_refl _)
  have own : ∀ event ∈ [(.call system.nextId (op, (system.clock : ℤ)) : Event)],
      event.id = system.nextId := by
    intro event mem
    simp only [List.mem_singleton] at mem
    simp only [mem, Event.id]
  have others : ∀ id, id ≠ system.nextId →
      eventsOf id (events ++ [.call system.nextId (op, (system.clock : ℤ))]) =
        eventsOf id events := by
    intro id different
    apply eventsOf_append_of_ne
    intro event mem equal
    exact different (equal.symm.trans (own event mem))
  refine ⟨?_, ?_, ?_, ?_, ?_, ?_, ?_, ?_, ?_⟩
  · simp only [silent]
    exact invariant.refines
  · simp only [silent]
    exact invariant.legal
  · simp only [silent]
    exact invariant.bounded
  · exact Pc.forall_update invariant.timely tid trivial
  · intro id le
    simp only at le
    rw [others id (by omega)]
    exact invariant.fresh id (by omega)
  · exact invariant.issued_call tid
  · exact invariant.distinct_call tid
  · intro other
    by_cases same : other = tid
    · subst other
      simp only [Function.update_self, eventsOf_append_of_eq own, unused, List.nil_append]
      exact Tracks.called _ _ _
    · simp only [Function.update_of_ne same]
      by_cases busy : system.threads other = .idle
      · simp only [busy]
        exact Tracks.idle _ _ _
      · rw [others _ (invariant.issued other busy).ne]
        exact invariant.tracks other
  · apply invariant.disciplined.append own
    simp only [unused, List.nil_append]
    exact .called (op, (system.clock : ℤ))

/-- The effect that a move contributes. -/
theorem points_effect (events : List Event) (id : ℕ) (effect : Option (TimedOp × Result)) :
    points (events ++ (effect.map fun point => .commit id point.1 point.2).toList) =
      points events ++ effect.toList := by
  cases effect with
  | none => simp [points, effects]
  | some point => simp [points, effects]

theorem run_effect (map : RefMap) (order : List (TimedOp × Result))
    (effect : Option (TimedOp × Result)) :
    map.run ((order ++ effect.toList).map Prod.fst) =
      (map.run (order.map Prod.fst)).advance effect := by
  cases effect with
  | none => simp [RefMap.advance]
  | some point => exact RefMap.run_append_singleton map order point

theorem legal_effect {order : List (TimedOp × Result)} {effect : Option (TimedOp × Result)}
    {clock : ℤ} (legal : LegalOrder order) (bounded : ∀ point ∈ order, point.1.later ≤ clock)
    (current : ∀ point, effect = some point → point.1.later = clock)
    (allowed : ∀ call result, effect = some (call, result) →
      (RefMap.empty.run (order.map Prod.fst)).Allows call result) :
    LegalOrder (order ++ effect.toList) := by
  cases effect with
  | none =>
      simp only [Option.toList_none, List.append_nil]
      exact legal
  | some point =>
      refine ⟨RefMap.legal_append_singleton.mpr ⟨legal.1, allowed point.1 point.2 rfl⟩, ?_⟩
      apply List.pairwise_append.mpr
      refine ⟨legal.2, List.pairwise_singleton _ _, ?_⟩
      intro earlier mem last lastMem
      simp only [Option.toList_some, List.mem_singleton] at lastMem
      subst last
      rw [current point rfl]
      exact bounded earlier mem

theorem advance (invariant : LinearInvariant events system) (tid : Tid) {store : KvStore} {pc : Pc}
    {use : LockUse} {effect : Option (TimedOp × Result)}
    (move : Move system.store system.clock (system.threads tid) store pc use effect) :
    LinearInvariant
      (events ++ (effect.map fun point => .commit (system.current tid) point.1 point.2).toList)
      { system with
        store := store
        mutex := use.after tid system.mutex
        threads := Function.update system.threads tid pc } := by
  have busy : system.threads tid ≠ .idle := by
    intro idle
    rw [idle] at move
    cases move
  have own : ∀ event ∈ (effect.map fun point =>
      (.commit (system.current tid) point.1 point.2 : Event)).toList,
      event.id = system.current tid := by
    intro event mem
    cases effect with
    | none => cases mem
    | some point =>
        simp only [Option.map_some, Option.toList_some, List.mem_singleton] at mem
        simp only [mem, Event.id]
  rcases move.refines (invariant.timely tid) invariant.refines with ⟨refines, allowed⟩
  rcases (invariant.tracks tid).move move with ⟨tracks, stage⟩
  refine ⟨?_, ?_, ?_, ?_, ?_, ?_, ?_, ?_, ?_⟩
  · simp only [points_effect, run_effect]
    exact refines
  · simp only [points_effect]
    exact legal_effect invariant.legal invariant.bounded (fun _ => move.later_eq) allowed
  · simp only [points_effect]
    intro found mem
    rcases List.mem_append.mp mem with old | new
    · exact invariant.bounded found old
    · exact (move.later_eq (Option.mem_toList.mp new)).le
  · exact Pc.forall_update invariant.timely tid (move.timely (by simp) (invariant.timely tid))
  · exact invariant.fresh_append busy own
  · intro other otherBusy
    exact invariant.issued other (busy_of_update busy otherBusy)
  · exact invariant.distinct_update busy
  · exact invariant.tracks_update busy own tracks
  · exact invariant.disciplined.append own stage

theorem ret (invariant : LinearInvariant events system) (tid : Tid) {result : Result}
    (returning : system.threads tid = .returning result) :
    LinearInvariant (events ++ [.ret (system.current tid) (result, (system.clock : ℤ))])
      { system with threads := Function.update system.threads tid .idle } := by
  have busy : system.threads tid ≠ .idle := by simp [returning]
  have silent : points (events ++ [.ret (system.current tid) (result, (system.clock : ℤ))]) =
      points events := by
    simp [points, effects]
  have own : ∀ event ∈ [(.ret (system.current tid) (result, (system.clock : ℤ)) : Event)],
      event.id = system.current tid := by
    intro event mem
    simp only [List.mem_singleton] at mem
    simp only [mem, Event.id]
  refine ⟨?_, ?_, ?_, ?_, ?_, ?_, ?_, ?_, ?_⟩
  · simp only [silent]
    exact invariant.refines
  · simp only [silent]
    exact invariant.legal
  · simp only [silent]
    exact invariant.bounded
  · exact Pc.forall_update invariant.timely tid trivial
  · exact invariant.fresh_append busy own
  · intro other otherBusy
    exact invariant.issued other (busy_of_update busy otherBusy)
  · exact invariant.distinct_update busy
  · exact invariant.tracks_update busy own (Tracks.idle _ _ _)
  · have tracks := invariant.tracks tid
    rw [returning] at tracks
    rcases tracks.afterwards result rfl with ⟨input, point, own_eq, explains, le⟩
    apply invariant.disciplined.append own
    rw [own_eq]
    exact .returned explains ⟨rfl, le⟩

theorem run {start : System Tid} (invariant : LinearInvariant [] start)
    (run : Run start events after) : LinearInvariant events after := by
  induction run with
  | nil => exact invariant
  | snoc _ step inductionHypothesis =>
      cases step with
      | tick elapsed =>
          simp only [List.append_nil]
          exact inductionHypothesis.tick elapsed
      | call tid op served idle => exact inductionHypothesis.call tid op
      | advance tid move available => exact inductionHypothesis.advance tid move
      | ret tid result returning => exact inductionHypothesis.ret tid returning

end LinearInvariant

/-- The store is linearizable: whatever the interleaving, the calls that returned,
with those that have already taken effect, have a serial order that respects real
time and in which the reference map gives the same results. -/
theorem linearizable {Tid : Type} [DecidableEq Tid] {nShards : ℕ}
    (powerOfTwo : nShards.isPowerOfTwo) (aof : Option AofWriter) (enableTtl : Bool) (clock : ℕ)
    {events : List Event} {system : System Tid}
    (run : Run (System.initial powerOfTwo aof enableTtl clock) events system) :
    ∃ order, Linearizes Explains Delivers LegalOrder (history events) order := by
  have invariant := (LinearInvariant.initial powerOfTwo aof enableTtl clock).run run
  exact ⟨effects events, linearizes_effects invariant.disciplined invariant.legal⟩

/-- A thread reads a key while another is setting it, and does not find it. -/
theorem linearizable_set :
    ∃ (events : List Event) (system : System Bool),
      Run (System.initial KvStore.defaultShards none true 5) events system ∧
        history events = [.call 0 (.set (ascii "k") (ascii "v"), 5), .call 1 (.get (ascii "k"), 5),
          .ret 1 (.value none, 5), .ret 0 (.flag true, 5)] ∧
        ∃ order, Linearizes Explains Delivers LegalOrder (history events) order := by
  have start := @Run.nil Bool _ (System.initial KvStore.defaultShards none true 5)
  have called := start.snoc (Step.call true (.set (ascii "k") (ascii "v")) trivial rfl)
  have locked := called.snoc
    (Step.advance true (Move.setLock (ascii "k") (ascii "v")) fun _ => rfl)
  have asked := locked.snoc (Step.call false (.get (ascii "k")) trivial rfl)
  have logged := asked.snoc
    (Step.advance true (Move.setLog (ascii "k") (ascii "v")) (by simp))
  have missed := logged.snoc (Step.advance false (Move.getMissing (ascii "k") rfl) (by simp))
  have stored := missed.snoc
    (Step.advance true (Move.setStore (ascii "k") (ascii "v")) (by simp))
  have answered := stored.snoc (Step.ret false (.value none) rfl)
  have unlocked := answered.snoc (Step.advance true (Move.unlock (.flag true)) (by simp))
  have returned := unlocked.snoc (Step.ret true (.flag true) rfl)
  exact ⟨_, _, returned, rfl, linearizable KvStore.defaultShards none true 5 returned⟩

end RedisCpp.Store
