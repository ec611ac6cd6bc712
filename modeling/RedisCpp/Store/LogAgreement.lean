import RedisCpp.Store.Concurrent
import RedisCpp.Store.LogSemantics

/-!
# Memory and log under interleaving

While a thread holds the mutation mutex, memory and log may be apart by one record:
`set` and `del` log before they write, `expire` and `persist` write before they log.
Lazy expiry and the TTL thread work without the mutex at any time, but they only
drop expired entries.  Both facts are read off the program counter (`Pc.pending`),
and the agreement up to the pending record is an invariant of every step.
-/

namespace RedisCpp.Store

/-- The record by which log and memory are apart. -/
inductive Pending where
  | nothing
  | unapplied (record : Record)
  | unlogged (record : Record)

namespace Pc

/-- The thread holds `mutation_mutex_`. -/
def holds : Pc → Bool
  | .setLocked _ _ | .setLogged _ _ | .setExLocked _ _ _ _ | .setExLogged _ _ _ _
  | .setExStored _ _ | .delLocked _ | .delLogged _ | .expireLocked _ _ | .expireTimed _ _ _
  | .expireAssigned _ _ | .expireLogged _ _ | .persistLocked _ | .persistCleared _ _
  | .unlocking _ => true
  | .idle | .called _ | .setExTimed _ _ _ _ | .getStale _ | .returning _ => false

/-- What a thread at this point has logged but not applied, or applied but not logged. -/
def pending : Pc → Pending
  | .setLogged key value => .unapplied (.set key value)
  | .setExLogged key value ttlS now => .unapplied (.setEx key value (KvStore.deadlineAt now ttlS))
  | .delLogged key => .unapplied (.del key)
  | .expireAssigned key expireAtMs => .unlogged (.expire key expireAtMs)
  | .persistCleared key value => .unlogged (.set key value)
  | _ => .nothing

theorem pending_of_not_holds {pc : Pc} (free : pc.holds = false) : pc.pending = .nothing := by
  cases pc with
  | idle | called | setExTimed | getStale | returning => rfl
  | setLocked | setLogged | setExLocked | setExLogged | setExStored | delLocked | delLogged
  | expireLocked | expireTimed | expireAssigned | expireLogged | persistLocked | persistCleared
  | unlocking => cases free

end Pc

/-- The record determines the entry whatever was there before. -/
def Record.Overwrites : Record → Prop
  | .expire _ _ => False
  | _ => True

theorem Record.Overwrites.applySlot_eq {record : Record} (overwrites : record.Overwrites)
    (slot other : Option Entry) : record.applySlot slot = record.applySlot other := by
  cases record with
  | set key value => rfl
  | setEx key value expireAtMs => rfl
  | del key => rfl
  | expire key expireAtMs => exact overwrites.elim

/-- Memory and log agree once the pending record is made good. -/
def Agrees (clock : ℤ) (contents : Contents) (records : List Record) : Pending → Prop
  | .nothing => ExpiringMap.Purged Entry.live clock contents (applyLog records)
  | .unapplied record => record.Overwrites ∧
      ExpiringMap.Purged Entry.live clock (record.apply contents) (applyLog records)
  | .unlogged record =>
      ExpiringMap.Purged Entry.live clock contents (record.apply (applyLog records))

namespace Agrees

variable {clock : ℤ} {contents after : Contents} {records : List Record} {pending : Pending}

theorem later {later : ℤ} (le : clock ≤ later) (agrees : Agrees clock contents records pending) :
    Agrees later contents records pending := by
  cases pending with
  | nothing => exact ExpiringMap.Purged.later Entry.antitone_live le agrees
  | unapplied record =>
      exact ⟨agrees.1, ExpiringMap.Purged.later Entry.antitone_live le agrees.2⟩
  | unlogged record => exact ExpiringMap.Purged.later Entry.antitone_live le agrees

/-- Dropping an expired entry commutes with a record that overwrites. -/
theorem drops_apply {record : Record} (overwrites : record.Overwrites)
    (drops : Drops clock contents after) :
    Drops clock (record.apply contents) (record.apply after) := by
  rcases drops with rfl | ⟨key, entry, present, dead, rfl⟩
  · exact Drops.refl clock _
  · have slot_eq : record.applySlot (Function.update contents key none record.key) =
        record.applySlot (contents record.key) := overwrites.applySlot_eq _ _
    simp only [Record.apply, slot_eq]
    by_cases same : key = record.key
    · left
      subst key
      simp
    · right
      refine ⟨key, entry, ?_, dead, ?_⟩
      · simp only [Function.update_of_ne same, present]
      · exact Function.update_comm same _ _ _

theorem drop (agrees : Agrees clock contents records pending)
    (drops : Drops clock contents after) : Agrees clock after records pending := by
  cases pending with
  | nothing => exact drops.purged agrees
  | unapplied record => exact ⟨agrees.1, (drops_apply agrees.1 drops).purged agrees.2⟩
  | unlogged record => exact drops.purged agrees

/-- Logging first. -/
theorem log (agrees : Agrees clock contents records .nothing) {record : Record}
    (overwrites : record.Overwrites) :
    Agrees clock contents (records ++ [record]) (.unapplied record) := by
  refine ⟨overwrites, ?_⟩
  simp only [applyLog_append_singleton]
  apply purged_apply agrees
  intro key expireAtMs equal
  subst record
  exact overwrites.elim

/-- Writing a present key first. -/
theorem write (agrees : Agrees clock contents records .nothing) {record : Record}
    (present : ∀ key expireAtMs, record = .expire key expireAtMs → (contents key).isSome) :
    Agrees clock (record.apply contents) records (.unlogged record) :=
  purged_apply agrees present

end Agrees

/-! ## Moves -/

namespace Move

variable {store after : KvStore} {clock : ℤ} {pc next : Pc} {use : LockUse}
  {effect : Option (TimedOp × Result)}

/-- Only a thread that holds the mutex releases it, and only one that does not
takes it. -/
theorem holds_eq (move : Move store clock pc after next use effect) :
    (use = .keep → next.holds = pc.holds) ∧ (use = .acquire → pc.holds = false ∧
      next.holds = true) ∧ (use = .release → pc.holds = true ∧ next.holds = false) := by
  cases move <;> simp [Pc.holds]

/-- A thread without the mutex writes no record and drops at most an expired entry. -/
theorem drops_of_not_holds (move : Move store clock pc after next use effect)
    (free : pc.holds = false) :
    after.aof = store.aof ∧ Drops clock store.find after.find ∧ next.pending = .nothing := by
  cases move with
  | getReap key => exact ⟨store.aof_reap key clock, store.drops_reap key clock, rfl⟩
  | onTtlExpired key => exact ⟨store.aof_reap key clock, store.drops_reap key clock, rfl⟩
  | setLock | setExRefuse | setExTime | setExLock | delLock | expireRefuse | expireLock
  | persistLock | getMissing | getHit | getStale | ttl =>
      exact ⟨rfl, Drops.refl clock _, rfl⟩
  | setLog | setStore | setExLog | setExStore | setExSchedule | delLog | delErase | expireTime
  | expireFail | expireAssign | expireLog | expireSchedule | persistFail | persistClear
  | persistLog | unlock => cases free

/-- A move that leaves the log alone. -/
theorem keeps_records {writer : AofWriter} {pending : Pending} (aof_eq : after.aof = store.aof)
    (attached : store.aof = some writer)
    (agrees : Agrees clock after.find store.records pending) :
    (∃ writer, after.aof = some writer) ∧ Agrees clock after.find after.records pending := by
  refine ⟨⟨writer, aof_eq.trans attached⟩, ?_⟩
  simp only [KvStore.records, aof_eq]
  exact agrees

/-- A move that writes a record. -/
theorem logs_record {writer : AofWriter} {record : Record} {pending : Pending}
    (attached : store.aof = some writer)
    (agrees : Agrees clock store.find (store.records ++ [record]) pending) :
    (∃ writer, (store.log record).aof = some writer) ∧
      Agrees clock (store.log record).find (store.log record).records pending := by
  refine ⟨⟨_, KvStore.aof_log_of_attached attached _⟩, ?_⟩
  rw [KvStore.records_log attached, KvStore.find_log]
  exact agrees

/-- Every move keeps log and memory together, up to the record pending for it. -/
theorem agrees (move : Move store clock pc after next use effect) {writer : AofWriter}
    (attached : store.aof = some writer)
    (agrees : Agrees clock store.find store.records pc.pending) :
    (∃ writer, after.aof = some writer) ∧ Agrees clock after.find after.records next.pending := by
  have appended : ∀ record, Agrees clock store.find store.records (.unlogged record) →
      Agrees clock store.find (store.records ++ [record]) .nothing := by
    intro record unlogged
    rw [Agrees, applyLog_append_singleton]
    exact unlogged
  cases move with
  | setLock | setExRefuse | setExTime | setExLock | delLock | expireRefuse | expireLock
  | persistLock | getMissing | getHit | getStale | ttl | expireTime | expireSchedule | unlock =>
      exact ⟨⟨writer, attached⟩, agrees⟩
  | setLog key value => exact @logs_record store.addSet _ _ _ _ attached (agrees.log trivial)
  | setExLog key value ttlS now =>
      exact @logs_record store.addSet _ _ _ _ attached (agrees.log trivial)
  | delLog key => exact @logs_record store.addDel _ _ _ _ attached (agrees.log trivial)
  | expireLog key expireAtMs => exact logs_record attached (appended _ agrees)
  | persistLog key value => exact logs_record attached (appended _ agrees)
  | setStore key value =>
      refine ⟨⟨writer, attached⟩, ?_⟩
      simp only [KvStore.find_put_eq_update]
      exact agrees.2
  | setExStore key value ttlS now =>
      refine ⟨⟨writer, attached⟩, ?_⟩
      simp only [KvStore.find_put_eq_update]
      exact agrees.2
  | delErase key =>
      refine ⟨⟨writer, attached⟩, ?_⟩
      simp only [KvStore.find_erase_eq_update]
      exact agrees.2
  | setExSchedule key expireAtMs =>
      by_cases positive : 0 < expireAtMs
      · simp only [positive, if_true]
        exact ⟨⟨writer, attached⟩, agrees⟩
      · simp only [positive, if_false]
        exact ⟨⟨writer, attached⟩, agrees⟩
  | expireFail key ttlS now failed =>
      exact keeps_records (store.aof_assignDeadline key _ clock) attached
        (agrees.drop (store.drops_assignDeadline failed))
  | expireAssign key ttlS now succeeded =>
      rcases store.find_assignDeadline succeeded with ⟨applied, entry, present, -⟩
      apply keeps_records (store.aof_assignDeadline key _ clock) attached
      simp only [applied]
      apply agrees.write
      intro other expireAtMs equal
      cases equal
      simp [present]
  | persistFail key failed =>
      exact keeps_records (store.aof_clearDeadline key clock) attached
        (agrees.drop (store.drops_clearDeadline failed))
  | persistClear key value cleared =>
      apply keeps_records (store.aof_clearDeadline key clock) attached
      simp only [store.find_clearDeadline cleared]
      apply agrees.write
      intro other expireAtMs equal
      cases equal
  | getReap key =>
      exact keeps_records (store.aof_reap key clock) attached
        (agrees.drop (store.drops_reap key clock))
  | onTtlExpired key =>
      exact keeps_records (store.aof_reap key clock) attached
        (agrees.drop (store.drops_reap key clock))

/-- A live entry disappears only in the section of a `del` of its key. -/
theorem eq_delLogged_of_removed (move : Move store clock pc after next use effect) {key : Bytes}
    {entry : Entry} (present : store.find key = some entry) (alive : entry.live clock = true)
    (removed : after.find key = none) : pc = .delLogged key := by
  have kept : ∀ {contents : Contents}, Drops clock store.find contents → contents key ≠ none := by
    intro contents drops absent
    simp [drops.find_eq present alive] at absent
  have written : ∀ {record : Record}, (∀ removed, record ≠ .del removed) →
      record.apply store.find key ≠ none := by
    intro record keeps absent
    have missing := eq_none_of_apply keeps absent
    rw [present] at missing
    cases missing
  cases move with
  | setLock | setExRefuse | setExTime | setExLock | delLock | expireRefuse | expireLock
  | persistLock | getMissing | getHit | getStale | ttl | expireTime | expireSchedule | unlock
  | setLog | setExLog | delLog | expireLog | persistLog =>
      exact absurd removed (kept (Drops.refl clock _))
  | setStore other value =>
      rw [KvStore.find_put_eq_update] at removed
      exact absurd removed (@written (.set other value) (by simp))
  | setExStore other value ttlS now =>
      rw [KvStore.find_put_eq_update] at removed
      exact absurd removed (@written (.setEx other value (KvStore.deadlineAt now ttlS)) (by simp))
  | setExSchedule other expireAtMs =>
      by_cases positive : 0 < expireAtMs
      · simp [positive, present] at removed
      · simp [positive, present] at removed
  | delErase other =>
      simp only [KvStore.find_erase, present] at removed
      split at removed
      · rename_i same
        simp only [same]
      · cases removed
  | expireFail other ttlS now failed =>
      exact absurd removed (kept (store.drops_assignDeadline failed))
  | expireAssign other ttlS now succeeded =>
      rw [(store.find_assignDeadline succeeded).1] at removed
      exact absurd removed (written (by simp))
  | persistFail other failed => exact absurd removed (kept (store.drops_clearDeadline failed))
  | persistClear other value cleared =>
      rw [store.find_clearDeadline cleared] at removed
      exact absurd removed (written (by simp))
  | getReap other => exact absurd removed (kept (store.drops_reap other clock))
  | onTtlExpired other => exact absurd removed (kept (store.drops_reap other clock))

end Move

/-! ## Runs -/

namespace System

variable {Tid : Type}

/-- The program counter of the thread that holds the mutex. -/
def holder (system : System Tid) : Pc :=
  match system.mutex with
  | none => .idle
  | some tid => system.threads tid

/-- The invariant of the machine with a log attached. -/
structure LogInvariant (system : System Tid) : Prop where
  exclusive : ∀ tid, (system.threads tid).holds = true ↔ system.mutex = some tid
  attached : ∃ writer, system.store.aof = some writer
  agrees : Agrees system.clock system.store.find system.store.records system.holder.pending

namespace LogInvariant

theorem initial {nShards : ℕ} (powerOfTwo : nShards.isPowerOfTwo) (enableTtl : Bool)
    (clock : ℕ) :
    (System.initial powerOfTwo (some {}) enableTtl clock : System Tid).LogInvariant where
  exclusive := by
    intro tid
    simp [System.initial, Pc.holds]
  attached := ⟨{}, rfl⟩
  agrees := by
    intro key
    left
    exact KvStore.find_empty powerOfTwo _ enableTtl key

variable [DecidableEq Tid] {system after : System Tid}

/-- A thread that does not hold the mutex changes its program counter. -/
theorem holder_update (exclusive : ∀ tid, (system.threads tid).holds = true ↔
    system.mutex = some tid) {tid : Tid} (free : (system.threads tid).holds = false) (pc : Pc)
    (store : KvStore) :
    ({ system with store := store, threads := Function.update system.threads tid pc } :
      System Tid).holder = system.holder := by
  cases held : system.mutex with
  | none => simp only [holder, held]
  | some owner =>
      have different : owner ≠ tid := by
        intro equal
        subst owner
        simp [(exclusive tid).mpr held] at free
      simp only [holder, held, Function.update_of_ne different]

/-- A change of program counters that keeps who holds the mutex. -/
theorem exclusive_update (exclusive : ∀ tid, (system.threads tid).holds = true ↔
    system.mutex = some tid) {tid : Tid} {pc : Pc}
    (same : pc.holds = (system.threads tid).holds) (other : Tid) :
    (Function.update system.threads tid pc other).holds = true ↔ system.mutex = some other := by
  by_cases equal : other = tid
  · subst other
    simp only [Function.update_self, same, exclusive]
  · simp only [Function.update_of_ne equal, exclusive]

/-- The thread that holds the mutex moves. -/
theorem advance_of_holds (invariant : system.LogInvariant) {tid : Tid} {store : KvStore} {pc : Pc}
    {use : LockUse} {effect : Option (TimedOp × Result)}
    (move : Move system.store system.clock (system.threads tid) store pc use effect)
    (holds : (system.threads tid).holds = true) :
    ({ system with
        store := store
        mutex := use.after tid system.mutex
        threads := Function.update system.threads tid pc } : System Tid).LogInvariant := by
  rcases invariant with ⟨exclusive, ⟨writer, attached⟩, agrees⟩
  rcases move.holds_eq with ⟨keep, acquire, release⟩
  have held : system.mutex = some tid := (exclusive tid).mp holds
  have holder_eq : system.holder = system.threads tid := by simp only [holder, held]
  simp only [holder_eq] at agrees
  rcases move.agrees attached agrees with ⟨attachedAfter, agreesAfter⟩
  cases use with
  | acquire => simp [(acquire rfl).1] at holds
  | keep =>
      refine ⟨exclusive_update exclusive (keep rfl), attachedAfter, ?_⟩
      simpa only [holder, LockUse.after, held, Function.update_self] using agreesAfter
  | release =>
      have free := (release rfl).2
      refine ⟨?_, attachedAfter, ?_⟩
      · intro other
        by_cases equal : other = tid
        · subst other
          simp [LockUse.after, free]
        · have idle : ¬(system.threads other).holds = true := by
            intro otherHolds
            have otherHeld := (exclusive other).mp otherHolds
            simp only [held, Option.some.injEq] at otherHeld
            exact equal otherHeld.symm
          simpa [LockUse.after, Function.update_of_ne equal] using idle
      · simp only [Pc.pending_of_not_holds free] at agreesAfter
        exact agreesAfter

/-- A thread that does not hold the mutex moves. -/
theorem advance_of_not_holds (invariant : system.LogInvariant) {tid : Tid} {store : KvStore}
    {pc : Pc} {use : LockUse} {effect : Option (TimedOp × Result)}
    (move : Move system.store system.clock (system.threads tid) store pc use effect)
    (available : use = .acquire → system.mutex = none)
    (free : (system.threads tid).holds = false) :
    ({ system with
        store := store
        mutex := use.after tid system.mutex
        threads := Function.update system.threads tid pc } : System Tid).LogInvariant := by
  rcases invariant with ⟨exclusive, ⟨writer, attached⟩, agrees⟩
  rcases move.holds_eq with ⟨keep, acquire, release⟩
  rcases move.drops_of_not_holds free with ⟨aof_eq, drops, pending_eq⟩
  rcases Move.keeps_records aof_eq attached (agrees.drop drops) with ⟨attachedAfter, agreesAfter⟩
  cases use with
  | release => simp [(release rfl).1] at free
  | keep =>
      refine ⟨exclusive_update exclusive (keep rfl), attachedAfter, ?_⟩
      have holder_eq := holder_update exclusive free pc store
      simp only [LockUse.after]
      simp only [holder_eq]
      exact agreesAfter
  | acquire =>
      have unheld := available rfl
      refine ⟨?_, attachedAfter, ?_⟩
      · intro other
        by_cases equal : other = tid
        · subst other
          simp [LockUse.after, (acquire rfl).2]
        · have idle : ¬(system.threads other).holds = true := by
            simp [exclusive other, unheld]
          simpa [LockUse.after, Function.update_of_ne equal, Ne.symm equal] using idle
      · simp only [holder, unheld] at agreesAfter
        simp only [holder, LockUse.after, Function.update_self, pending_eq]
        exact agreesAfter

theorem step {added : List Event} (invariant : system.LogInvariant)
    (step : Step system added after) : after.LogInvariant := by
  have exclusive := invariant.exclusive
  have agrees := invariant.agrees
  cases step with
  | tick elapsed =>
      refine ⟨exclusive, invariant.attached, ?_⟩
      exact agrees.later (by simp)
  | call tid op served idle =>
      have free : (system.threads tid).holds = false := by simp [idle, Pc.holds]
      refine ⟨exclusive_update exclusive (by simp [idle, Pc.holds]), invariant.attached, ?_⟩
      have holder_eq := holder_update exclusive free (.called op) system.store
      simp only [holder] at holder_eq agrees ⊢
      simp only [holder_eq]
      exact agrees
  | ret tid result returning =>
      have free : (system.threads tid).holds = false := by simp [returning, Pc.holds]
      refine ⟨exclusive_update exclusive (by simp [returning, Pc.holds]), invariant.attached, ?_⟩
      have holder_eq := holder_update exclusive free .idle system.store
      simp only [holder] at holder_eq agrees ⊢
      simp only [holder_eq]
      exact agrees
  | advance tid move available =>
      by_cases holds : (system.threads tid).holds = true
      · exact invariant.advance_of_holds move holds
      · exact invariant.advance_of_not_holds move available (by simpa using holds)

theorem run {start : System Tid} {events : List Event} (invariant : start.LogInvariant)
    (run : Run start events after) : after.LogInvariant := by
  induction run with
  | nil => exact invariant
  | snoc _ step inductionHypothesis => exact inductionHypothesis.step step

end LogInvariant

end System

/-- In every reachable state in which the mutex is free, memory and log agree, up to
entries the memory has dropped after their deadline; and whatever the state, the only
step that removes a live entry is the section of a `del` of its key. -/
theorem memory_agrees_with_log {Tid : Type} [DecidableEq Tid] {nShards : ℕ}
    (powerOfTwo : nShards.isPowerOfTwo) (enableTtl : Bool) (clock : ℕ) {events : List Event}
    {system : System Tid}
    (run : Run (System.initial powerOfTwo (some {}) enableTtl clock) events system) :
    (system.mutex = none → ∀ key,
      system.store.find key = applyLog system.store.records key ∨
        system.store.find key = none ∧ ∃ entry,
          applyLog system.store.records key = some entry ∧ 0 ≤ entry.expireAtMs ∧
            entry.expireAtMs ≤ system.clock) ∧
      ∀ added after, Step system added after → ∀ key entry,
        system.store.find key = some entry → entry.live system.clock = true →
        after.store.find key = none → ∃ tid, system.threads tid = .delLogged key ∧
          after.threads tid = .unlocking (.flag true) := by
  have invariant := (System.LogInvariant.initial powerOfTwo enableTtl clock).run run
  constructor
  · intro free key
    have agrees := invariant.agrees
    simp only [System.holder, free] at agrees
    rcases agrees key with same | ⟨absent, entry, denoted, dead⟩
    · exact Or.inl same
    · refine Or.inr ⟨absent, entry, denoted, ?_⟩
      simp only [Entry.live, Bool.or_eq_false_iff, decide_eq_false_iff_not, not_lt] at dead
      exact dead
  · intro added after step key entry present alive removed
    cases step with
    | tick elapsed => simp [present] at removed
    | call tid op served idle => simp [present] at removed
    | ret tid result returning => simp [present] at removed
    | advance tid move available =>
        have pc_eq := move.eq_delLogged_of_removed present alive removed
        refine ⟨tid, pc_eq, ?_⟩
        rw [pc_eq] at move
        cases move
        simp [present]

/-- One thread deletes the key that another is setting. -/
theorem memory_agrees_with_log_set :
    ∃ (events : List Event) (system : System Bool),
      Run (System.initial KvStore.defaultShards (some {}) true 5) events system ∧
        system.store.records = [.set (ascii "k") (ascii "v"), .del (ascii "k")] ∧
        (system.store.find (ascii "k") = applyLog system.store.records (ascii "k") ∨
          system.store.find (ascii "k") = none ∧ ∃ entry,
            applyLog system.store.records (ascii "k") = some entry ∧ 0 ≤ entry.expireAtMs ∧
              entry.expireAtMs ≤ system.clock) := by
  have start := @Run.nil Bool _ (System.initial KvStore.defaultShards (some {}) true 5)
  have called := start.snoc (Step.call true (.set (ascii "k") (ascii "v")) trivial rfl)
  have locked := called.snoc
    (Step.advance true (Move.setLock (ascii "k") (ascii "v")) fun _ => rfl)
  have logged := locked.snoc
    (Step.advance true (Move.setLog (ascii "k") (ascii "v")) (by simp))
  have waiting := logged.snoc (Step.call false (.del (ascii "k")) trivial rfl)
  have stored := waiting.snoc
    (Step.advance true (Move.setStore (ascii "k") (ascii "v")) (by simp))
  have unlocked := stored.snoc (Step.advance true (Move.unlock (.flag true)) (by simp))
  have taken := unlocked.snoc (Step.advance false (Move.delLock (ascii "k")) fun _ => rfl)
  have returned := taken.snoc (Step.ret true (.flag true) rfl)
  have recorded := returned.snoc (Step.advance false (Move.delLog (ascii "k")) (by simp))
  have erased := recorded.snoc (Step.advance false (Move.delErase (ascii "k")) (by simp))
  have released := erased.snoc (Step.advance false (Move.unlock _) (by simp))
  refine ⟨_, _, released, rfl, ?_⟩
  exact (memory_agrees_with_log KvStore.defaultShards true 5 released).1 rfl (ascii "k")

end RedisCpp.Store
