import RedisCpp.Commands.Progress
import RedisCpp.Service.Machine
import RedisCpp.Store.Restarts
import RedisCpp.Store.Serialization

/-!
# Loss of power at any moment

The calls of all threads take effect one after the other on the store they share, and a store that
executes them by itself has the same log, up to the record of the owner of the mutex.  So what is
known of the restarts of a single thread holds of the whole server: whenever power is lost, the log
that is left gives the memory of a moment of its history.  What is left is a number of whole records;
the restart makes nothing of a last one that is cut in two.
-/

namespace RedisCpp.Store

/-! ## Threads -/

namespace Pc

/-- The clock reading of a thread is not in the future. -/
def Read (clock : ℤ) (pc : Pc) : Prop :=
  ∀ op reading, pc.running = some (op, some reading) → reading ≤ clock

/-- The call that a thread has logged and is yet to apply, applied at once. -/
def logged (clock : ℤ) : Pc → Option TimedOp
  | .setLogged key value => some ⟨.set key value, clock, clock⟩
  | .setExLogged key value ttlS now => some ⟨.setEx key value ttlS, now, clock⟩
  | .delLogged key => some ⟨.del key, clock, clock⟩
  | _ => none

variable {clock : ℤ} {pc : Pc}

theorem Read.later {later : ℤ} (read : pc.Read clock) (le : clock ≤ later) : pc.Read later :=
  fun op reading running => (read op reading running).trans le

theorem read_of_not_running (outside : ∀ op reading, pc.running ≠ some (op, some reading)) :
    pc.Read clock :=
  fun op reading running => absurd running (outside op reading)

theorem logged_eq_none (made : ∀ record, pc.pending ≠ .unapplied record) :
    pc.logged clock = none := by
  cases pc with
  | setLogged | setExLogged | delLogged => exact absurd rfl (made _)
  | idle | called | setLocked | setExTimed | setExLocked | setExStored | delLocked | expireLocked
  | expireTimed | expireAssigned | expireLogged | persistLocked | persistCleared | getStale
  | unlocking | returning => rfl

/-- A record that is logged and not applied is that of the call. -/
theorem exists_logged {record : Record} (pending : pc.pending = .unapplied record)
    (timely : pc.Timely) :
    ∃ call, pc.logged clock = some call ∧
      ∀ serial : KvStore, (∃ writer, serial.aof = some writer) →
        Wrote serial record (serial.exec call).2 := by
  cases pc with
  | setLogged key value =>
      cases pending
      refine ⟨_, rfl, ?_⟩
      rintro serial ⟨writer, attached⟩
      exact KvStore.wrote_set attached key value clock clock
  | setExLogged key value ttlS now =>
      cases pending
      refine ⟨_, rfl, ?_⟩
      rintro serial ⟨writer, attached⟩
      exact KvStore.wrote_setEx attached key value timely.1 clock
  | delLogged key =>
      cases pending
      refine ⟨_, rfl, ?_⟩
      rintro serial ⟨writer, attached⟩
      exact KvStore.wrote_del attached key clock clock
  | idle | called | setLocked | setExTimed | setExLocked | setExStored | delLocked | expireLocked
  | expireTimed | expireAssigned | expireLogged | persistLocked | persistCleared | getStale
  | unlocking | returning => cases pending

end Pc

/-- A call that is stamped by the clock up to `clock`, whose deadline fits if it is accepted. -/
structure Stamped (clock : ℤ) (call : TimedOp) : Prop where
  ordered : call.now ≤ call.later
  current : call.later = clock
  deadline : call.op.refused = false → call.DeadlineFits

theorem Pc.stamped_logged {clock : ℤ} {pc : Pc} (timely : pc.Timely) (read : pc.Read clock)
    {call : TimedOp} (logged : pc.logged clock = some call) : Stamped clock call := by
  cases pc with
  | setLogged | delLogged =>
      cases logged
      exact ⟨le_refl clock, rfl, fun _ => trivial⟩
  | setExLogged key value ttlS now =>
      cases logged
      exact ⟨read _ now rfl, rfl, fun _ => timely.2⟩
  | idle | called | setLocked | setExTimed | setExLocked | setExStored | delLocked | expireLocked
  | expireTimed | expireAssigned | expireLogged | persistLocked | persistCleared | getStale
  | unlocking | returning => cases logged

namespace Move

variable {store after : KvStore} {clock : ℤ} {pc next : Pc} {use : LockUse}
  {effect : Option (TimedOp × Result)}

theorem read (move : Move store clock pc after next use effect) (read : pc.Read clock) :
    next.Read clock := by
  intro op reading running
  rcases move.phases with ⟨-, found, before, reached, own, goesOn, -, progress⟩ |
    ⟨-, -, -, -, -, -, finished⟩ | ⟨-, -, -, -, finished⟩
  · rw [goesOn] at running
    cases running
    rcases progress with rfl | ⟨-, reached_eq⟩
    · exact read op reading own
    · cases reached_eq
      exact le_refl clock
  · rw [finished] at running
    cases running
  · rw [finished] at running
    cases running

theorem stamped (move : Move store clock pc after next use effect) (timely : pc.Timely)
    (read : pc.Read clock) {point : TimedOp × Result} (point_eq : effect = some point) :
    Stamped clock point.1 := by
  refine ⟨?_, move.later_eq point_eq, ?_⟩
  · rcases move.phases with ⟨none, -⟩ | ⟨op, reading, result, running, shown, -⟩ | ⟨none, -⟩
    · rw [none] at point_eq
      cases point_eq
    · rw [shown] at point_eq
      cases point_eq
      cases reading with
      | none => exact le_refl clock
      | some reading => exact read op reading running
    · rw [none] at point_eq
      cases point_eq
  · subst point_eq
    intro accepted
    cases move with
    | setExStore => exact timely.2
    | expireFail => exact timely.2
    | expireAssign => exact timely.2
    | setExRefuse key value ttlS refused => simp [Op.refused, refused] at accepted
    | expireRefuse key ttlS refused => simp [Op.refused, refused] at accepted
    | setStore | delErase | persistFail | persistClear | getMissing | getHit | getStale | ttl
    | onTtlExpired => trivial

end Move

/-! ## The owner of the mutex -/

namespace System

variable {Tid : Type} {system : System Tid} {tid : Tid} {store : KvStore} {pc : Pc} {use : LockUse}
  {effect : Option (TimedOp × Result)}

theorem forall_holder {property : Pc → Prop} (all : ∀ tid, property (system.threads tid))
    (idle : property .idle) : property system.holder := by
  cases held : system.mutex with
  | none =>
      simp only [holder, held]
      exact idle
  | some owner =>
      simp only [holder, held]
      exact all owner

theorem holder_eq (exclusive : system.Exclusive) (holds : (system.threads tid).holds = true) :
    system.holder = system.threads tid := by
  simp only [holder, (exclusive tid).mp holds]

variable [DecidableEq Tid]

theorem pending_proceed_of_holds (exclusive : system.Exclusive)
    (move : Move system.store system.clock (system.threads tid) store pc use effect)
    (holds : (system.threads tid).holds = true) :
    (system.proceed tid store pc use).holder.pending = pc.pending := by
  rcases move.holds_eq with ⟨-, acquire, release⟩
  cases use with
  | acquire =>
      rw [(acquire rfl).1] at holds
      cases holds
  | keep =>
      simp only [holder, proceed, LockUse.after, (exclusive tid).mp holds, Function.update_self]
  | release => exact (Pc.pending_of_not_holds (release rfl).2).symm

theorem pending_proceed_of_not_holds (exclusive : system.Exclusive)
    (move : Move system.store system.clock (system.threads tid) store pc use effect)
    (available : use = .acquire → system.mutex = none)
    (free : (system.threads tid).holds = false) :
    (system.proceed tid store pc use).holder.pending = system.holder.pending := by
  rcases move.holds_eq with ⟨-, -, release⟩
  cases use with
  | release =>
      rw [(release rfl).1] at free
      cases free
  | keep =>
      have same := LogInvariant.holder_update exclusive free pc store
      exact congrArg Pc.pending same
  | acquire =>
      have idle : system.holder.pending = .nothing := by
        simp only [holder, available rfl]
        rfl
      have begun : (system.proceed tid store pc .acquire).holder = pc := by
        simp only [holder, proceed, LockUse.after, Function.update_self]
      rw [idle, begun, (move.drops_of_not_holds free).2.2]

end System

/-! ## The history -/

theorem KvStore.run_append_effect (store : KvStore) (calls : List TimedOp)
    (effect : Option (TimedOp × Result)) :
    store.run (calls ++ (effect.map Prod.fst).toList) = (store.run calls).follow effect := by
  cases effect with
  | none => simp [follow]
  | some point => simp [run, follow]

theorem KvStore.live_map_call (store : KvStore) (calls : List TimedOp) :
    store.live (calls.map .call) = store.run calls := by
  simp only [live, run, List.foldl_map]
  rfl

theorem orderly_append_singleton {start : ℤ} {incidents : List Incident} {incident : Incident}
    (orderly : Orderly start incidents) (began : start ≤ incident.later)
    (bounded : ∀ made ∈ incidents, made.later ≤ incident.later)
    (ordered : incident.now ≤ incident.later) : Orderly start (incidents ++ [incident]) := by
  induction incidents generalizing start with
  | nil => exact ⟨began, ordered, trivial⟩
  | cons first rest inductionHypothesis =>
      rcases orderly with ⟨before, own, behind⟩
      exact ⟨before, own, inductionHypothesis behind (bounded first List.mem_cons_self)
        fun made mem => bounded made (List.mem_cons_of_mem _ mem)⟩

/-- Calls that take effect one after the other, up to `clock`. -/
structure History (start clock : ℤ) (calls : List TimedOp) : Prop where
  began : start ≤ clock
  orderly : Orderly start (calls.map .call)
  bounded : ∀ call ∈ calls, call.later ≤ clock
  deadlines : ∀ call ∈ calls, call.op.refused = false → call.DeadlineFits

namespace History

variable {start clock : ℤ} {calls : List TimedOp} {call : TimedOp}

theorem nil (began : start ≤ clock) : History start clock [] :=
  ⟨began, trivial, by simp, by simp⟩

theorem later {later : ℤ} (history : History start clock calls) (le : clock ≤ later) :
    History start later calls where
  began := history.began.trans le
  orderly := history.orderly
  bounded := fun call mem => (history.bounded call mem).trans le
  deadlines := history.deadlines

theorem snoc (history : History start clock calls) (stamped : Stamped clock call) :
    History start clock (calls ++ [call]) where
  began := history.began
  orderly := by
    rw [List.map_append]
    apply orderly_append_singleton history.orderly
    · exact history.began.trans (le_of_eq stamped.current.symm)
    · intro made mem
      rcases List.mem_map.mp mem with ⟨earlier, among, rfl⟩
      exact (history.bounded earlier among).trans (le_of_eq stamped.current.symm)
    · exact stamped.ordered
  bounded := by
    intro found mem
    rcases List.mem_append.mp mem with earlier | newest
    · exact history.bounded found earlier
    · rw [List.mem_singleton.mp newest, stamped.current]
  deadlines := by
    intro found mem
    rcases List.mem_append.mp mem with earlier | newest
    · exact history.deadlines found earlier
    · rw [List.mem_singleton.mp newest]
      exact stamped.deadline

theorem append {added : Option TimedOp} (history : History start clock calls)
    (stamped : ∀ call, added = some call → Stamped clock call) :
    History start clock (calls ++ added.toList) := by
  cases added with
  | none =>
      rw [Option.toList_none, List.append_nil]
      exact history
  | some call => exact history.snoc (stamped call rfl)

/-- A history ends in a restart. -/
theorem orderly_restart (history : History start clock calls) {now : ℤ} (le : clock ≤ now)
    (kept : ℕ) : Orderly start (calls.map .call ++ [.restart kept now]) := by
  apply orderly_append_singleton history.orderly
  · exact history.began.trans le
  · intro made mem
    rcases List.mem_map.mp mem with ⟨call, among, rfl⟩
    exact (history.bounded call among).trans le
  · exact le_refl now

theorem admissible_restart (history : History start clock calls) {now : ℤ} {kept : ℕ}
    (strings : ∀ call ∈ calls, call.op.StringsFit) (call : TimedOp)
    (mem : .call call ∈ calls.map Incident.call ++ [.restart kept now]) : call.Admissible := by
  have among : call ∈ calls := by simpa using mem
  exact ⟨strings call among, history.deadlines call among⟩

end History

/-- The threads and the store that executes by itself what has taken effect. -/
structure Followed {Tid : Type} (start : ℤ) (fresh : KvStore) (calls : List TimedOp)
    (system : System Tid) : Prop where
  exclusive : system.Exclusive
  timely : ∀ tid, (system.threads tid).Timely
  read : ∀ tid, (system.threads tid).Read system.clock
  history : History start system.clock calls
  shadows : Shadows system.clock system.store system.holder.pending (fresh.run calls)

namespace Followed

variable {Tid : Type} {start : ℤ} {fresh : KvStore} {calls : List TimedOp} {system : System Tid}

theorem initial {nShards : ℕ} (powerOfTwo : nShards.isPowerOfTwo) (enableTtl : Bool)
    (clock : ℕ) :
    Followed clock (.empty powerOfTwo (some {}) enableTtl) []
      (.initial powerOfTwo (some {}) enableTtl clock : System Tid) where
  exclusive := by
    intro tid
    simp [System.initial, Pc.holds]
  timely := fun _ => trivial
  read := by
    intro tid op reading running
    cases running
  history := .nil (le_refl _)
  shadows := .empty powerOfTwo enableTtl clock

theorem tick (followed : Followed start fresh calls system) (elapsed : ℕ) :
    Followed start fresh calls { system with clock := system.clock + elapsed } := by
  have le : (system.clock : ℤ) ≤ ((system.clock + elapsed : ℕ) : ℤ) := by simp
  exact
    { followed with
      read := fun tid => (followed.read tid).later le
      history := followed.history.later le
      shadows := followed.shadows.later le }

theorem timely_holder (followed : Followed start fresh calls system) : system.holder.Timely :=
  System.forall_holder followed.timely trivial

theorem read_holder (followed : Followed start fresh calls system) :
    system.holder.Read system.clock :=
  System.forall_holder followed.read (Pc.read_of_not_running (by simp [Pc.running]))

/-- The history up to a loss of power: a call that is logged counts, even if it is not applied. -/
theorem history_logged (followed : Followed start fresh calls system) :
    History start system.clock (calls ++ (system.holder.logged system.clock).toList) :=
  followed.history.append fun _ logged =>
    Pc.stamped_logged followed.timely_holder followed.read_holder logged

/-- The log is the beginning of that of the history with the call that is logged and not applied. -/
theorem records_prefix (followed : Followed start fresh calls system) :
    system.store.records <+:
      (fresh.run (calls ++ (system.holder.logged system.clock).toList)).records := by
  rcases followed.shadows with ⟨-, shadowed, -, apart⟩
  cases pending : system.holder.pending with
  | nothing =>
      rw [pending] at apart
      rw [Pc.logged_eq_none (by simp [pending]), Option.toList_none, List.append_nil, apart]
  | unlogged record =>
      rw [pending] at apart
      rw [Pc.logged_eq_none (by simp [pending]), Option.toList_none, List.append_nil, apart]
      exact List.prefix_append _ _
  | unapplied record =>
      rw [pending] at apart
      rcases Pc.exists_logged pending followed.timely_holder with ⟨call, logged, wrote⟩
      rw [logged, Option.toList_some, KvStore.run, List.foldl_append]
      have records := (wrote _ shadowed).records
      rw [← apart] at records
      exact ⟨[], (List.append_nil _).trans records.symm⟩

variable [DecidableEq Tid] {tid : Tid}

/-- A section of a thread. -/
theorem proceed (followed : Followed start fresh calls system) {store : KvStore} {pc : Pc}
    {use : LockUse} {effect : Option (TimedOp × Result)}
    (move : Move system.store system.clock (system.threads tid) store pc use effect)
    (available : use = .acquire → system.mutex = none) :
    Followed start fresh (calls ++ (effect.map Prod.fst).toList)
      (system.proceed tid store pc use) := by
  have timely := followed.timely tid
  have read := followed.read tid
  refine ⟨followed.exclusive.proceed move available,
    Pc.forall_update followed.timely tid (move.timely (by simp) timely),
    Pc.forall_update followed.read tid (move.read read), ?_, ?_⟩
  · apply followed.history.append
    intro call made
    rcases Option.map_eq_some_iff.mp made with ⟨point, point_eq, rfl⟩
    exact move.stamped timely read point_eq
  · rw [KvStore.run_append_effect]
    cases holds : (system.threads tid).holds with
    | true =>
        have shadows := followed.shadows
        rw [System.holder_eq followed.exclusive holds] at shadows
        rw [System.pending_proceed_of_holds followed.exclusive move holds]
        exact move.shadows timely holds shadows
    | false =>
        rw [System.pending_proceed_of_not_holds followed.exclusive move available holds]
        rcases move.quiet_of_not_holds holds followed.shadows.shadowed with ⟨shared, alone⟩
        exact followed.shadows.quiet shared alone

/-- A thread calls or returns. -/
theorem place (followed : Followed start fresh calls system) {after : System Tid} {pc : Pc}
    (store : after.store = system.store) (clock : after.clock = system.clock)
    (mutex : after.mutex = system.mutex)
    (threads : after.threads = Function.update system.threads tid pc)
    (outside : (system.threads tid).holds = false) (free : pc.holds = false)
    (timely : pc.Timely) (unread : ∀ op reading, pc.running ≠ some (op, some reading)) :
    Followed start fresh calls after := by
  have same : after.holder = system.holder := by
    have kept := System.LogInvariant.holder_update followed.exclusive outside pc system.store
    simp only [System.holder] at kept ⊢
    rw [mutex, threads]
    exact kept
  refine ⟨?_, ?_, ?_, ?_, ?_⟩
  · intro other
    rw [mutex, threads]
    exact System.LogInvariant.exclusive_update followed.exclusive (free.trans outside.symm) other
  · rw [threads]
    exact Pc.forall_update followed.timely tid timely
  · rw [threads, clock]
    exact Pc.forall_update followed.read tid (Pc.read_of_not_running unread)
  · rw [clock]
    exact followed.history
  · rw [clock, store, same]
    exact followed.shadows

end Followed

end RedisCpp.Store

namespace RedisCpp.Commands

open Store

/-- The call of the store of which a command has a part. -/
def Part.call : Part → Option TimedOp
  | .op call _ => some call
  | .shard _ _ _ _ => none

/-- The call that takes effect in a step of a client. -/
def Observation.call (observation : Observation) : Option TimedOp :=
  observation.toPart.bind Part.call

theorem filterMap_call_toList (part : Option Part) :
    part.toList.filterMap Part.call = (part.bind Part.call).toList := by
  cases part with
  | none => rfl
  | some part =>
      cases part with
      | op call result => rfl
      | shard index now clock count => rfl

section Steps

variable {Tid : Type} [DecidableEq Tid] {start : ℤ} {fresh : KvStore} {calls : List TimedOp}
  {sessions after : Sessions Tid} {label : Option (Tid × Observation)}

theorem followed_step (followed : Followed start fresh calls sessions.system)
    (step : SessionStep sessions label after) :
    Followed start fresh (calls ++ (label.bind fun observed => observed.2.call).toList)
      after.system := by
  cases step with
  | tick elapsed =>
      rw [Option.bind_none, Option.toList_none, List.append_nil]
      exact followed.tick elapsed
  | @advance tid _ _ _ effect move available =>
      have shown : ((effect.map fun point => (tid, Observation.part (.op point.1 point.2))).bind
          fun observed => observed.2.call) = effect.map Prod.fst := by
        cases effect with
        | none => rfl
        | some point => rfl
      rw [shown]
      exact followed.proceed move available
  | call tid op served ready idle =>
      simp only [Option.bind_some, Observation.call, Observation.toPart, Option.bind_none,
        Option.toList_none, List.append_nil]
      refine followed.place rfl rfl rfl rfl ?_ rfl trivial (by simp [Pc.running])
      rw [idle]
      rfl
  | delCall tid deleting idle =>
      simp only [Option.bind_none, Option.toList_none, List.append_nil]
      refine followed.place rfl rfl rfl rfl ?_ rfl trivial (by simp [Pc.running])
      rw [idle]
      rfl
  | ret tid called returning =>
      simp only [Option.bind_some, Observation.call, Observation.toPart, Option.bind_none,
        Option.toList_none, List.append_nil]
      refine followed.place rfl rfl rfl rfl ?_ rfl trivial (by simp [Pc.running])
      rw [returning]
      rfl
  | delReturn tid erasing returning =>
      simp only [Option.bind_none, Option.toList_none, List.append_nil]
      refine followed.place rfl rfl rfl rfl ?_ rfl trivial (by simp [Pc.running])
      rw [returning]
      rfl
  | delStart | delAnswer | sizeStart | sizeShard | sizeAnswer =>
      simp only [Option.bind_some, Observation.call, Observation.toPart, Part.call,
        Option.bind_none, Option.toList_none, List.append_nil]
      exact followed

end Steps

end RedisCpp.Commands

namespace RedisCpp.Service

open Store Commands
open Net (ReactorConfig)

/-- The calls of the store in the order in which they took effect. -/
def callsIn (happenings : List Happening) : List TimedOp :=
  (partsIn happenings).filterMap Part.call

section Runs

variable {Tid : Type} [DecidableEq Tid] {config : ReactorConfig} {machine : Machine Tid}
  {happenings : List Happening} {nShards : ℕ} {powerOfTwo : nShards.isPowerOfTwo}
  {enableTtl : Bool} {clock : ℕ}

theorem callsIn_append (front back : List Happening) :
    callsIn (front ++ back) = callsIn front ++ callsIn back := by
  rw [callsIn, partsIn_append, List.filterMap_append]
  rfl

theorem followed_run
    (run : Run config (.initial powerOfTwo (some {}) enableTtl clock) happenings machine) :
    Followed clock (.empty powerOfTwo (some {}) enableTtl) (callsIn happenings)
      machine.sessions.system := by
  induction run with
  | nil => exact Followed.initial powerOfTwo enableTtl clock
  | snoc _ step inductionHypothesis =>
      rw [callsIn_append]
      rcases step.sessions with ⟨label, moved, shown⟩ | ⟨silent, same⟩
      · have calls := followed_step inductionHypothesis moved
        rwa [callsIn, callsIn, shown, filterMap_call_toList, Option.bind_assoc]
      · rw [same, callsIn, callsIn, silent, List.filterMap_nil, List.append_nil]
        exact inductionHypothesis

/-- Power may be lost at any moment, whatever the reactor, the workers and the TTL thread are doing,
and the file may have lost the last records of the log.  The calls of the store took effect one after the
other; a call that is logged and not yet applied is the last of them.  The restart gives the live
part of what these calls make when they are executed one by one up to some moment, the one at which
the log was what is left of it.  If no thread had the mutex and the whole log is left, it gives the
live part of the memory.  The calls must spare the restart, and their strings exist in memory. -/
theorem crash_goes_back
    (run : Run config (.initial powerOfTwo (some {}) enableTtl clock) happenings machine)
    {calls : List TimedOp}
    (calls_eq : callsIn happenings ++ (machine.sessions.system.holder.logged
      machine.sessions.system.clock).toList = calls)
    (strings : ∀ call ∈ calls, call.op.StringsFit) {kept : ℕ} {now : ℤ}
    (le : machine.sessions.system.clock ≤ now)
    (spared : Spared (.empty powerOfTwo (some {}) enableTtl)
      (calls.map .call ++ [.restart kept now])) :
    let fresh : KvStore := .empty powerOfTwo (some {}) enableTtl
    let store := machine.sessions.system.store
    (∃ made, made <+: calls ∧ (fresh.run made).records = store.records.take kept ∧
      Exact now (.ofLog now (store.records.take kept)) (fresh.run made)) ∧
    (machine.sessions.system.mutex = none → store.records.length ≤ kept →
      Exact now (.ofLog now (store.records.take kept)) store) := by
  intro fresh store
  have followed := followed_run run
  have history := followed.history_logged
  have initial := followed.records_prefix
  rw [calls_eq] at history initial
  have orderly := history.orderly_restart le kept
  have admissible : ∀ call, .call call ∈ calls.map Incident.call ++ [.restart kept now] →
      call.Admissible := history.admissible_restart strings
  -- every moment of the history is recovered exactly
  have exactly : ∀ made, made <+: calls →
      Exact now (.ofLog now (fresh.run made).records) (fresh.run made) := by
    rintro made ⟨rest, rfl⟩
    rw [List.map_append, List.append_assoc] at orderly admissible spared
    exact exact_of_spared powerOfTwo enableTtl orderly admissible spared rfl
      (List.mem_append_right _ (List.mem_singleton_self _)) (KvStore.live_map_call fresh made)
  constructor
  · rcases exists_stage powerOfTwo enableTtl orderly admissible spared rfl
      (min kept store.records.length) with ⟨incidents, earlier, same⟩
    rcases List.prefix_map_iff.mp earlier with ⟨made, before, rfl⟩
    rw [KvStore.live_map_call, KvStore.live_map_call, ← List.take_take,
      ← List.prefix_iff_eq_take.mp initial] at same
    refine ⟨made, before, same, ?_⟩
    rw [← same]
    exact exactly made before
  · intro free whole
    have idle : machine.sessions.system.holder = .idle := by
      simp only [System.holder, free]
    rw [idle] at calls_eq
    have calls_eq : callsIn happenings = calls := by
      simpa [Pc.logged] using calls_eq
    rcases followed.shadows with ⟨-, -, alike, apart⟩
    rw [idle, calls_eq] at apart
    rw [calls_eq] at alike
    have agree : (fresh.run calls).records = store.records := apart
    intro key
    rw [List.take_of_length_le whole, ← agree, exactly calls List.prefix_rfl key]
    exact ((alike.later Entry.antitone_live le) key).symm

end Runs

/-- Power is lost between the record of a `SET` and its effect. -/
theorem crash_goes_back_set :
    ∃ (happenings : List Happening) (machine : Machine Unit),
      Run {} (.initial KvStore.defaultShards (some {}) true 5) happenings machine ∧
        machine.sessions.system.store.find (ascii "k") = none ∧
        let fresh : KvStore := .empty KvStore.defaultShards (some {}) true
        ∃ made, made <+: [⟨.set (ascii "k") (ascii "v"), 5, 5⟩] ∧
          (fresh.run made).records = [.set (ascii "k") (ascii "v")] ∧
          Exact 9 (.ofLog 9 [.set (ascii "k") (ascii "v")]) (fresh.run made) := by
  have accepted := (@Run.nil Unit _ {} (.initial KvStore.defaultShards (some {}) true 5)).snoc
    (.serve (.other (.accept 7 0 rfl rfl) (.handleAccept 0)) rfl)
  have received := accepted.snoc
    (.serve (.read 7 [.read (ascii "set k v\r\n") 0] rfl rfl rfl) rfl)
  have taken := received.snoc (.serve (.other (.take () rfl rfl)
    (.of_conns (by simp [Net.Unqueued]) rfl rfl)) rfl)
  have started := taken.snoc (.start () rfl rfl (.call (some ()) _ trivial rfl rfl))
  have locked := started.snoc (.inside
    (.advance (some ()) (.setLock (ascii "k") (ascii "v")) fun _ => rfl) (by rintro _ ⟨⟩))
  have logged := locked.snoc (.inside
    (.advance (some ()) (.setLog (ascii "k") (ascii "v")) (by rintro ⟨⟩)) (by rintro _ ⟨⟩))
  have strings : ∀ call ∈ [(⟨.set (ascii "k") (ascii "v"), 5, 5⟩ : TimedOp)],
      call.op.StringsFit := by decide
  exact ⟨_, _, logged, rfl,
    (@crash_goes_back _ _ _ _ _ _ _ _ _ logged _ rfl strings 1 9 (by decide)
      ⟨fun _ _ _ => ⟨id, id⟩, trivial, trivial⟩).1⟩

end RedisCpp.Service
