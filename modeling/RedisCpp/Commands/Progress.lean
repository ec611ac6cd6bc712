import RedisCpp.Commands.MultiKey
import RedisCpp.Store.LogAgreement
import Mathlib.Logic.Relation

/-!
# Every call of the store can return

A thread that is inside an operation can go on unless it waits for the mutex, and the owner of the
mutex can always go on until it gives it back.  So from every state each client can come to the
answer of its command, by its own sections and those of the owner of the mutex, and without any time
passing.

The signed sum of a deadline is the one thing that can stop a thread: if it overflows, the language
promises nothing.
-/

namespace RedisCpp.Store

/-- The deadline that a call stores is defined, if the call is accepted. -/
def Op.Defined (clock : ℤ) : Op → Prop
  | .setEx _ _ ttlS | .expire _ ttlS => 0 < ttlS → DeadlineDefined clock ttlS
  | _ => True

namespace Pc

/-- The deadline that a thread has yet to compute is defined. -/
def Defined (clock : ℤ) : Pc → Prop
  | .called op => op.Defined clock
  | .expireLocked _ ttlS => DeadlineDefined clock ttlS
  | _ => True

/-- How many sections a thread has before it at most. -/
def left : Pc → ℕ
  | .idle | .returning _ => 0
  | .unlocking _ | .getStale _ => 1
  | .setLogged _ _ | .setExStored _ _ | .delLogged _ | .expireLogged _ _ | .persistCleared _ _ => 2
  | .setLocked _ _ | .setExLogged _ _ _ _ | .delLocked _ | .expireAssigned _ _
  | .persistLocked _ => 3
  | .setExLocked _ _ _ _ | .expireTimed _ _ _ => 4
  | .setExTimed _ _ _ _ | .expireLocked _ _ => 5
  | .called _ => 6

variable {store : KvStore} {clock : ℤ} {pc : Pc}

/-- A thread that is inside an operation has a next section. -/
theorem exists_section (store : KvStore) (busy : pc ≠ .idle)
    (unanswered : ∀ result, pc ≠ .returning result) (served : ∀ op, pc = .called op → op.Served)
    (defined : pc.Defined clock) :
    ∃ after next use effect, Move store clock pc after next use effect := by
  cases pc with
  | idle => exact absurd rfl busy
  | returning result => exact absurd rfl (unanswered result)
  | called op =>
      cases op with
      | set key value => exact ⟨_, _, _, _, .setLock key value⟩
      | setEx key value ttlS =>
          rcases le_or_gt ttlS 0 with refused | accepted
          · exact ⟨_, _, _, _, .setExRefuse key value ttlS refused⟩
          · exact ⟨_, _, _, _, .setExTime key value ttlS accepted (defined accepted)⟩
      | get key =>
          cases found : store.getShared key clock with
          | missing => exact ⟨_, _, _, _, .getMissing key found⟩
          | hit value => exact ⟨_, _, _, _, .getHit key value found⟩
          | stale => exact ⟨_, _, _, _, .getStale key found⟩
      | del key => exact ⟨_, _, _, _, .delLock key⟩
      | expire key ttlS =>
          rcases le_or_gt ttlS 0 with refused | accepted
          · exact ⟨_, _, _, _, .expireRefuse key ttlS refused⟩
          · exact ⟨_, _, _, _, .expireLock key ttlS accepted⟩
      | persist key => exact ⟨_, _, _, _, .persistLock key⟩
      | ttl key => exact ⟨_, _, _, _, .ttl key⟩
      | onTtlExpired key => exact ⟨_, _, _, _, .onTtlExpired key⟩
      | setAbsolute | expireAt | count => exact (served _ rfl).elim
  | setLocked key value => exact ⟨_, _, _, _, .setLog key value⟩
  | setLogged key value => exact ⟨_, _, _, _, .setStore key value⟩
  | setExTimed key value ttlS now => exact ⟨_, _, _, _, .setExLock key value ttlS now⟩
  | setExLocked key value ttlS now => exact ⟨_, _, _, _, .setExLog key value ttlS now⟩
  | setExLogged key value ttlS now => exact ⟨_, _, _, _, .setExStore key value ttlS now⟩
  | setExStored key expireAtMs => exact ⟨_, _, _, _, .setExSchedule key expireAtMs⟩
  | delLocked key => exact ⟨_, _, _, _, .delLog key⟩
  | delLogged key => exact ⟨_, _, _, _, .delErase key⟩
  | expireLocked key ttlS => exact ⟨_, _, _, _, .expireTime key ttlS defined⟩
  | expireTimed key ttlS now =>
      cases success : (store.assignDeadline key (KvStore.deadlineAt now ttlS) clock).1 with
      | false => exact ⟨_, _, _, _, .expireFail key ttlS now success⟩
      | true => exact ⟨_, _, _, _, .expireAssign key ttlS now success⟩
  | expireAssigned key expireAtMs => exact ⟨_, _, _, _, .expireLog key expireAtMs⟩
  | expireLogged key expireAtMs => exact ⟨_, _, _, _, .expireSchedule key expireAtMs⟩
  | persistLocked key =>
      cases cleared : (store.clearDeadline key clock).1 with
      | none => exact ⟨_, _, _, _, .persistFail key cleared⟩
      | some value => exact ⟨_, _, _, _, .persistClear key value cleared⟩
  | persistCleared key value => exact ⟨_, _, _, _, .persistLog key value⟩
  | getStale key => exact ⟨_, _, _, _, .getReap key⟩
  | unlocking result => exact ⟨_, _, _, _, .unlock result⟩

end Pc

namespace Move

variable {store after : KvStore} {clock : ℤ} {pc next : Pc} {use : LockUse}
  {effect : Option (TimedOp × Result)}

/-- A deadline that is defined stays so as long as no time passes. -/
theorem defined (move : Move store clock pc after next use effect) (defined : pc.Defined clock) :
    next.Defined clock := by
  cases move with
  | expireLock key ttlS accepted => exact defined accepted
  | setLock | setLog | setStore | setExRefuse | setExTime | setExLock | setExLog | setExStore
  | setExSchedule | delLock | delLog | delErase | expireRefuse | expireTime | expireFail
  | expireAssign | expireLog | expireSchedule | persistLock | persistFail | persistClear
  | persistLog | getMissing | getHit | getStale | getReap | ttl | onTtlExpired | unlock =>
      trivial

theorem left_lt (move : Move store clock pc after next use effect) : next.left < pc.left := by
  cases move <;> simp [Pc.left]

/-- A section leads neither out of an operation nor to the beginning of one. -/
theorem inside (move : Move store clock pc after next use effect) :
    pc ≠ .idle ∧ next ≠ .idle ∧ ∀ op, next ≠ .called op := by
  cases move <;> simp

end Move

namespace System

variable {Tid : Type} [DecidableEq Tid] {system : System Tid} {store : KvStore} {pc : Pc}
  {use : LockUse} {effect : Option (TimedOp × Result)}

/-- A thread is inside a section of the mutex if and only if it owns it. -/
def Exclusive (system : System Tid) : Prop :=
  ∀ tid, (system.threads tid).holds = true ↔ system.mutex = some tid

theorem Exclusive.proceed (exclusive : system.Exclusive) {tid : Tid}
    (move : Move system.store system.clock (system.threads tid) store pc use effect)
    (available : use = .acquire → system.mutex = none) :
    (system.proceed tid store pc use).Exclusive := by
  intro other
  rcases move.holds_eq with ⟨keep, acquire, release⟩
  cases use with
  | keep => exact LogInvariant.exclusive_update exclusive (keep rfl) other
  | acquire =>
      have free := available rfl
      rcases eq_or_ne other tid with rfl | different
      · simp [System.proceed, LockUse.after, (acquire rfl).2]
      · have outside := (exclusive other).not.mpr (by rw [free]; simp)
        simp [System.proceed, LockUse.after, different, different.symm, outside]
  | release =>
      have owner := (exclusive tid).mp (release rfl).1
      rcases eq_or_ne other tid with rfl | different
      · simp [System.proceed, LockUse.after, (release rfl).2]
      · have outside := (exclusive other).not.mpr (by rw [owner]; simp [different.symm])
        simp [System.proceed, LockUse.after, different, outside]

end System

end RedisCpp.Store

namespace RedisCpp.Commands

open Store

/-! ## Clients and their threads -/

/-- The places of a thread in the call of the store that deletes a key. -/
inductive Erasing (key : Bytes) : Pc → Prop where
  | called : Erasing key (.called (.del key))
  | locked : Erasing key (.delLocked key)
  | logged : Erasing key (.delLogged key)
  | unlocking (success : Bool) : Erasing key (.unlocking (.flag success))
  | returning (success : Bool) : Erasing key (.returning (.flag success))

/-- A thread is inside a call of an operation; what it has yet to do is as asked for. -/
structure Calls (op : Op) (pc : Pc) : Prop where
  served : op.Served
  busy : pc ≠ .idle
  called : ∀ other, pc = .called other → other = op
  accepted : ∀ key ttlS, pc = .expireLocked key ttlS → op = .expire key ttlS ∧ 0 < ttlS

/-- A client and its thread fit together. -/
def Client.Fits (nShards : ℕ) (pc : Pc) : Client → Prop
  | .ready | .deleting _ _ _ => pc = .idle
  | .single op => Calls op pc
  | .erasing _ _ key _ => Erasing key pc
  | .counting _ _ index => pc = .idle ∧ index ≤ nShards

theorem Erasing.advance {store after : KvStore} {clock : ℤ} {pc next : Pc} {use : LockUse}
    {effect : Option (TimedOp × Result)} {key : Bytes} (erasing : Erasing key pc)
    (move : Move store clock pc after next use effect) : Erasing key next := by
  cases erasing with
  | called =>
      cases move with
      | delLock => exact .locked
  | locked =>
      cases move with
      | delLog => exact .logged
  | logged =>
      cases move with
      | delErase => exact .unlocking _
  | unlocking success =>
      cases move with
      | unlock => exact .returning success
  | returning success => cases move

theorem Erasing.defined {key : Bytes} {pc : Pc} {clock : ℤ} (erasing : Erasing key pc) :
    pc.Defined clock := by
  cases erasing with
  | called | locked | logged | unlocking | returning => trivial

theorem Calls.advance {store after : KvStore} {clock : ℤ} {pc next : Pc} {use : LockUse}
    {effect : Option (TimedOp × Result)} {op : Op} (calls : Calls op pc)
    (move : Move store clock pc after next use effect) : Calls op next := by
  rcases move.inside with ⟨-, inside, begun⟩
  refine ⟨calls.served, inside, fun other called => absurd called (begun other), ?_⟩
  rintro key ttlS rfl
  cases move with
  | expireLock _ _ accepted => exact ⟨(calls.called _ rfl).symm, accepted⟩

theorem Calls.defined {op : Op} {pc : Pc} {clock : ℤ} (calls : Calls op pc)
    (defined : op.Defined clock) : pc.Defined clock := by
  cases pc with
  | called other =>
      rw [calls.called other rfl]
      exact defined
  | expireLocked key ttlS =>
      rcases calls.accepted key ttlS rfl with ⟨rfl, accepted⟩
      exact defined accepted
  | idle | setLocked | setLogged | setExTimed | setExLocked | setExLogged | setExStored | delLocked
  | delLogged | expireTimed | expireAssigned | expireLogged | persistLocked | persistCleared
  | getStale | unlocking | returning => trivial

theorem Client.Fits.advance {store after : KvStore} {clock : ℤ} {pc next : Pc} {use : LockUse}
    {effect : Option (TimedOp × Result)} {client : Client}
    (fits : client.Fits store.nShards pc) (move : Move store clock pc after next use effect) :
    client.Fits after.nShards next := by
  have busy := move.inside.1
  cases client with
  | ready | deleting => exact absurd fits busy
  | counting => exact absurd fits.1 busy
  | single op => exact Calls.advance fits move
  | erasing keys deleted key left => exact Erasing.advance fits move

section Sessions

variable {Tid : Type} [DecidableEq Tid] {sessions after : Sessions Tid}
  {label : Option (Tid × Observation)} {tid : Tid}

/-- What holds along every run: the mutex has one owner, and clients and threads fit. -/
structure Sessions.Steady (sessions : Sessions Tid) : Prop where
  exclusive : sessions.system.Exclusive
  fits : ∀ tid, (sessions.clients tid).Fits sessions.system.store.nShards
    (sessions.system.threads tid)

namespace Sessions.Steady

omit [DecidableEq Tid] in
theorem initial {nShards : ℕ} (powerOfTwo : nShards.isPowerOfTwo) (aof : Option AofWriter)
    (enableTtl : Bool) (clock : ℕ) :
    (Sessions.initial powerOfTwo aof enableTtl clock : Sessions Tid).Steady :=
  ⟨fun tid => by simp [Sessions.initial, System.initial, Pc.holds], fun _ => rfl⟩

/-- A client goes to another place of its command, outside the sections. -/
theorem place (steady : sessions.Steady) {system : System Tid} {client : Client} {pc : Pc}
    (store : system.store = sessions.system.store) (mutex : system.mutex = sessions.system.mutex)
    (threads : system.threads = Function.update sessions.system.threads tid pc)
    (holds : pc.holds = (sessions.system.threads tid).holds)
    (fits : client.Fits sessions.system.store.nShards pc) :
    (sessions.setClient tid system client).Steady := by
  constructor
  · intro other
    simp only [Sessions.setClient, threads, mutex]
    exact System.LogInvariant.exclusive_update steady.exclusive holds other
  · intro other
    simp only [Sessions.setClient, threads, store]
    rcases eq_or_ne other tid with rfl | different
    · simp only [Function.update_self]
      exact fits
    · simp only [Function.update_of_ne different]
      exact steady.fits other

theorem step (steady : sessions.Steady) (step : SessionStep sessions label after) :
    after.Steady := by
  cases step with
  | tick => exact ⟨steady.exclusive, steady.fits⟩
  | @advance tid store pc use effect move available =>
      refine ⟨steady.exclusive.proceed move available, ?_⟩
      intro other
      rcases eq_or_ne other tid with rfl | different
      · simp only [System.proceed, Function.update_self]
        exact (steady.fits other).advance move
      · simp only [System.proceed, Function.update_of_ne different, move.nShards_eq]
        exact steady.fits other
  | call tid op served ready idle =>
      refine steady.place (by rfl) (by rfl) (by rfl) ?_ ?_
      · rw [idle]
        rfl
      · exact ⟨served, by simp, by simp, by simp⟩
  | ret tid called returning =>
      refine steady.place (by rfl) (by rfl) (by rfl) ?_ ?_
      · rw [returning]
        rfl
      · rfl
  | delStart tid keys ready =>
      have fits := steady.fits tid
      rw [ready] at fits
      exact steady.place rfl rfl (Function.update_eq_self tid _).symm rfl fits
  | delCall tid deleting idle =>
      refine steady.place (by rfl) (by rfl) (by rfl) ?_ ?_
      · rw [idle]
        rfl
      · exact .called
  | delReturn tid erasing returning =>
      refine steady.place (by rfl) (by rfl) (by rfl) ?_ ?_
      · rw [returning]
        rfl
      · rfl
  | delAnswer tid deleting =>
      have fits := steady.fits tid
      rw [deleting] at fits
      exact steady.place rfl rfl (Function.update_eq_self tid _).symm rfl fits
  | sizeStart tid ready =>
      have fits := steady.fits tid
      rw [ready] at fits
      exact steady.place rfl rfl (Function.update_eq_self tid _).symm rfl ⟨fits, Nat.zero_le _⟩
  | sizeShard tid index counting =>
      have fits := steady.fits tid
      rw [counting] at fits
      exact steady.place rfl rfl (Function.update_eq_self tid _).symm rfl ⟨fits.1, index.isLt⟩
  | sizeAnswer tid counting =>
      have fits := steady.fits tid
      rw [counting] at fits
      exact steady.place rfl rfl (Function.update_eq_self tid _).symm rfl fits.1

end Sessions.Steady

/-! ## Going on -/

/-- A state in which nothing that the language leaves undefined is about to be computed. -/
structure Sessions.Able (sessions : Sessions Tid) : Prop where
  steady : sessions.Steady
  defined : ∀ tid, (sessions.system.threads tid).Defined sessions.system.clock

/-- A step inside the commands at which no time passes. -/
def Sessions.Inside (sessions after : Sessions Tid) : Prop :=
  ∃ label, SessionStep sessions label after ∧
    (∀ observed, label = some observed → ∃ part, observed.2 = .part part) ∧
    after.system.clock = sessions.system.clock

/-- Any number of such steps. -/
abbrev Sessions.Works : Sessions Tid → Sessions Tid → Prop :=
  Relation.ReflTransGen Sessions.Inside

namespace Sessions

theorem Able.inside (able : sessions.Able) (inside : sessions.Inside after) : after.Able := by
  rcases inside with ⟨label, step, part, clock⟩
  refine ⟨able.steady.step step, ?_⟩
  rw [clock]
  have defined := able.defined
  cases step with
  | tick => exact defined
  | advance tid move => exact Pc.forall_update defined tid (move.defined (defined tid))
  | call | ret | delStart | delAnswer | sizeStart | sizeAnswer =>
      rcases part _ rfl with ⟨part, shows⟩
      cases shows
  | delCall tid => exact Pc.forall_update defined tid trivial
  | delReturn tid => exact Pc.forall_update defined tid trivial
  | sizeShard => exact defined

theorem Able.works (able : sessions.Able) (works : sessions.Works after) : after.Able := by
  induction works with
  | refl => exact able
  | tail _ inside inductionHypothesis => exact inductionHypothesis.inside inside

end Sessions

theorem Client.Fits.served {client : Client} {nShards : ℕ} {op : Op}
    (fits : client.Fits nShards (.called op)) : op.Served := by
  cases client with
  | ready | deleting => cases fits
  | counting => cases fits.1
  | single own =>
      have same := fits.called op rfl
      subst same
      exact Calls.served fits
  | erasing =>
      cases fits with
      | called => trivial

/-- A thread that does not wait for the mutex comes to the end of its operation. -/
theorem finishes (able : sessions.Able) (busy : sessions.system.threads tid ≠ .idle)
    (available : (sessions.system.threads tid).holds = true ∨ sessions.system.mutex = none) :
    ∃ after result, sessions.Works after ∧ after.clients = sessions.clients ∧
      after.system.mutex = none ∧ after.system.threads tid = .returning result ∧
      ∀ other, other ≠ tid → after.system.threads other = sessions.system.threads other := by
  induction left_eq : (sessions.system.threads tid).left using Nat.strong_induction_on
    generalizing sessions with
  | _ left inductionHypothesis =>
      by_cases answered : ∃ result, sessions.system.threads tid = .returning result
      · rcases answered with ⟨result, returning⟩
        refine ⟨sessions, result, .refl, rfl, ?_, returning, fun _ _ => rfl⟩
        rw [returning] at available
        exact available.resolve_left (by simp [Pc.holds])
      · have served : ∀ op, sessions.system.threads tid = .called op → op.Served := by
          intro op called
          have fits := able.steady.fits tid
          rw [called] at fits
          exact fits.served
        rcases Pc.exists_section sessions.system.store busy
          (fun result returning => answered ⟨result, returning⟩) served (able.defined tid) with
          ⟨store, pc, use, effect, move⟩
        rcases move.holds_eq with ⟨keep, acquire, release⟩
        have free : use = .acquire → sessions.system.mutex = none := fun acquires =>
          available.resolve_left (by simp [(acquire acquires).1])
        have part : ∀ observed, (effect.map fun point =>
            (tid, Observation.part (.op point.1 point.2))) = some observed →
            ∃ part, observed.2 = .part part := by
          intro observed shown
          rcases Option.map_eq_some_iff.mp shown with ⟨point, -, rfl⟩
          exact ⟨_, rfl⟩
        have inside : sessions.Inside
            { sessions with system := sessions.system.proceed tid store pc use } :=
          ⟨_, .advance tid move free, part, rfl⟩
        have goesOn : pc.holds = true ∨ use.after tid sessions.system.mutex = none := by
          cases use with
          | keep =>
              rw [keep rfl]
              exact available
          | acquire => exact Or.inl (acquire rfl).2
          | release => exact Or.inr rfl
        have fewer : pc.left < left := left_eq ▸ move.left_lt
        have here : (sessions.system.proceed tid store pc use).threads tid = pc :=
          sessions.system.threads_proceed tid
        rcases inductionHypothesis pc.left fewer (able.inside inside)
          (by rw [here]; exact move.inside.2.1) (by rw [here]; exact goesOn) (by rw [here]) with
          ⟨after, result, works, clients, mutex, returning, others⟩
        refine ⟨after, result, .head inside works, clients, mutex, returning, ?_⟩
        intro other different
        rw [others other different]
        exact Function.update_of_ne different _ _

/-- The owner of the mutex gives it back. -/
theorem frees (able : sessions.Able) :
    ∃ after, sessions.Works after ∧ after.clients = sessions.clients ∧
      after.system.mutex = none ∧ ∀ tid, (sessions.system.threads tid).holds = false →
        after.system.threads tid = sessions.system.threads tid := by
  cases mutex : sessions.system.mutex with
  | none => exact ⟨sessions, .refl, rfl, mutex, fun _ _ => rfl⟩
  | some owner =>
      have holds := (able.steady.exclusive owner).mpr mutex
      have busy : sessions.system.threads owner ≠ .idle := by
        intro idle
        rw [idle] at holds
        cases holds
      rcases finishes able busy (Or.inl holds) with ⟨after, _, works, clients, free, -, others⟩
      refine ⟨after, works, clients, free, ?_⟩
      intro tid outside
      apply others
      rintro rfl
      rw [holds] at outside
      cases outside

/-- Every thread comes to the end of its operation. -/
theorem returns (able : sessions.Able) (busy : sessions.system.threads tid ≠ .idle) :
    ∃ after result, sessions.Works after ∧ after.clients = sessions.clients ∧
      after.system.threads tid = .returning result := by
  cases holds : (sessions.system.threads tid).holds with
  | true =>
      rcases finishes able busy (Or.inl holds) with ⟨after, result, works, clients, -, returning, -⟩
      exact ⟨after, result, works, clients, returning⟩
  | false =>
      rcases frees able with ⟨middle, freed, unchanged, free, others⟩
      have same := others tid holds
      rcases finishes (able.works freed) (by rw [same]; exact busy) (Or.inr free) with
        ⟨after, result, works, clients, -, returning, -⟩
      exact ⟨after, result, freed.trans works, clients.trans unchanged, returning⟩

/-! ## Answers -/

/-- The command of a client. -/
def Client.action : Client → Option Action
  | .ready => none
  | .single op => some (.single op)
  | .deleting keys _ _ | .erasing keys _ _ _ => some (.del keys)
  | .counting _ _ _ => some .dbSize

/-- A client can be told the answer of its command. -/
def Answers (sessions : Sessions Tid) (tid : Tid) (action : Action) : Prop :=
  ∃ after answer final, sessions.Works after ∧
    SessionStep after (some (tid, .answered action answer)) final

theorem Answers.head {action : Action} {middle : Sessions Tid} (works : sessions.Works middle)
    (answers : Answers middle tid action) : Answers sessions tid action := by
  rcases answers with ⟨after, answer, final, continued, step⟩
  exact ⟨after, answer, final, works.trans continued, step⟩

/-- What a client asks for when it has not asked before is shown. -/
theorem action_of_step (step : SessionStep sessions label after) {action : Action}
    (own : (after.clients tid).action = some action) :
    (sessions.clients tid).action = some action ∨ label = some (tid, .started action) := by
  have placed : ∀ (other : Tid) (client : Client),
      (Function.update sessions.clients other client tid).action = some action →
      (tid = other ∧ client.action = some action) ∨
        (sessions.clients tid).action = some action := by
    intro other client updated
    rcases eq_or_ne tid other with rfl | different
    · rw [Function.update_self] at updated
      exact Or.inl ⟨rfl, updated⟩
    · rw [Function.update_of_ne different] at updated
      exact Or.inr updated
  cases step with
  | tick | advance => exact Or.inl own
  | call | delStart | sizeStart =>
      rcases placed _ _ own with ⟨rfl, asked⟩ | before
      · cases asked
        exact Or.inr rfl
      · exact Or.inl before
  | ret | delAnswer | sizeAnswer =>
      rcases placed _ _ own with ⟨-, asked⟩ | before
      · cases asked
      · exact Or.inl before
  | delCall _ here | delReturn _ here | sizeShard _ _ here =>
      rcases placed _ _ own with ⟨rfl, asked⟩ | before
      · left
        rw [here]
        exact asked
      · exact Or.inl before

end Sessions

end RedisCpp.Commands
