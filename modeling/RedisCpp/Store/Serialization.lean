import RedisCpp.Store.Linearizable
import RedisCpp.Store.LogAgreement

/-!
# The log of many threads is the log of one

The effects of the threads, one after the other, are a history of calls, and a store that executes
them by itself is the shadow of the one that the threads share.  Its contents look the same, and its
log is the same up to the record that the owner of the mutex has written and not applied, or applied
and not written.  Expired entries may be dropped from either of the two at other moments than from
the other.
-/

namespace RedisCpp.Store

open ExpiringMap (Alike)

/-! ## One record -/

/-- One record is written and the contents change by it. -/
structure Wrote (store : KvStore) (record : Record) (after : KvStore) : Prop where
  attached : ∃ writer, after.aof = some writer
  records : after.records = store.records ++ [record]
  find : after.find = record.apply store.find

/-- Nothing is written, and at most an expired entry is dropped. -/
structure Quiet (clock : ℤ) (store after : KvStore) : Prop where
  aof : after.aof = store.aof
  drops : Drops clock store.find after.find

theorem alike_of_drops {clock : ℤ} {before after : Contents} (drops : Drops clock before after) :
    Alike Entry.live clock after before :=
  (drops.purged (.refl Entry.live clock before)).visible_eq

/-- A record does the same to contents that look alike. -/
theorem alike_apply {clock : ℤ} {contents other : Contents} {record : Record}
    (alike : Alike Entry.live clock contents other)
    (present : ∀ key expireAtMs, record = .expire key expireAtMs →
      ∃ entry, contents key = some entry ∧ entry.live clock = true) :
    Alike Entry.live clock (record.apply contents) (record.apply other) := by
  apply alike.update
  cases record with
  | set | setEx | del => rfl
  | expire key expireAtMs =>
      rcases present key expireAtMs rfl with ⟨entry, held, alive⟩
      have same : other key = contents key := by rw [held, alike.eq_some held alive]
      simp only [Record.key, Record.applySlot, same]

namespace KvStore

variable {store : KvStore} {writer : AofWriter} {clock : ℤ}

theorem wrote_of_effect {after : KvStore} {record : Record} (attached : store.aof = some writer)
    (logged : after.aof = some (writer.writeResp record))
    (applied : after.find = record.apply store.find) : Wrote store record after := by
  refine ⟨⟨_, logged⟩, ?_, applied⟩
  rw [records_of_aof logged, records_of_aof attached]
  rfl

theorem wrote_set (attached : store.aof = some writer) (key value : Bytes) (now later : ℤ) :
    Wrote store (.set key value) (store.exec ⟨.set key value, now, later⟩).2 := by
  apply wrote_of_effect attached
  · simp [exec, set, attached]
  · simp [exec, set, Record.apply, Record.applySlot, Record.key]

theorem wrote_setEx (attached : store.aof = some writer) (key value : Bytes) {ttlS now : ℤ}
    (accepted : 0 < ttlS) (later : ℤ) :
    Wrote store (.setEx key value (deadlineAt now ttlS))
      (store.exec ⟨.setEx key value ttlS, now, later⟩).2 := by
  have effect := setAbsolute_effect attached key value (deadlineAt now ttlS)
  apply wrote_of_effect attached
  · simpa [exec, setEx, not_le.mpr accepted] using effect.1
  · simpa [exec, setEx, not_le.mpr accepted] using effect.2

theorem wrote_del (attached : store.aof = some writer) (key : Bytes) (now later : ℤ) :
    Wrote store (.del key) (store.exec ⟨.del key, now, later⟩).2 := by
  apply wrote_of_effect attached
  · simp [exec, del, attached]
  · simp [exec, del, Record.apply, Record.applySlot, Record.key, find_erase_eq_update]

/-- `expire` finds the key or not, whatever expired entries there are. -/
theorem assignDeadline_fst (store : KvStore) (key : Bytes) (expireAtMs clock : ℤ) :
    (store.assignDeadline key expireAtMs clock).1 =
      (ExpiringMap.visible Entry.live clock (store.find key)).isSome := by
  rw [assignDeadline]
  cases present : store.find key with
  | none => rfl
  | some entry =>
      cases alive : entry.live clock with
      | true => simp [ExpiringMap.visible, Option.filter, alive]
      | false => simp [ExpiringMap.visible, Option.filter, alive]

/-- `persist` finds a deadline or not, whatever expired entries there are. -/
theorem clearDeadline_fst (store : KvStore) (key : Bytes) (clock : ℤ) :
    (store.clearDeadline key clock).1 =
      ((ExpiringMap.visible Entry.live clock (store.find key)).filter
        fun entry => entry.expireAtMs ≠ -1).map Entry.value := by
  rw [clearDeadline]
  cases present : store.find key with
  | none => rfl
  | some entry =>
      by_cases persistent : entry.expireAtMs = -1
      · cases alive : entry.live clock with
        | true => simp [ExpiringMap.visible, Option.filter, alive, persistent]
        | false => simp [ExpiringMap.visible, Option.filter, alive, persistent]
      · cases alive : entry.live clock with
        | true => simp [ExpiringMap.visible, Option.filter, alive, persistent]
        | false => simp [ExpiringMap.visible, Option.filter, alive, persistent]

theorem wrote_expire (attached : store.aof = some writer) {key : Bytes} {ttlS now later : ℤ}
    (accepted : 0 < ttlS)
    (succeeded : (store.assignDeadline key (deadlineAt now ttlS) later).1 = true) :
    Wrote store (.expire key (deadlineAt now ttlS))
      (store.exec ⟨.expire key ttlS, now, later⟩).2 := by
  have kept := store.aof_assignDeadline key (deadlineAt now ttlS) later
  have applied := (store.find_assignDeadline succeeded).1
  rcases section_eq : store.assignDeadline key (deadlineAt now ttlS) later with ⟨success, after⟩
  simp only [section_eq] at succeeded kept applied
  subst success
  apply wrote_of_effect attached
  · simp [exec, expire, expireAt, not_le.mpr accepted, section_eq, kept, attached]
  · simpa [exec, expire, expireAt, not_le.mpr accepted, section_eq] using applied

theorem quiet_expire {key : Bytes} {ttlS now later : ℤ} (accepted : 0 < ttlS)
    (failed : (store.assignDeadline key (deadlineAt now ttlS) later).1 = false) :
    Quiet later store (store.exec ⟨.expire key ttlS, now, later⟩).2 := by
  have kept := store.aof_assignDeadline key (deadlineAt now ttlS) later
  have drops := store.drops_assignDeadline failed
  rcases section_eq : store.assignDeadline key (deadlineAt now ttlS) later with ⟨success, after⟩
  simp only [section_eq] at failed kept drops
  subst success
  constructor
  · simpa [exec, expire, expireAt, not_le.mpr accepted, section_eq] using kept
  · simpa [exec, expire, expireAt, not_le.mpr accepted, section_eq] using drops

theorem wrote_persist (attached : store.aof = some writer) {key value : Bytes} {now later : ℤ}
    (cleared : (store.clearDeadline key now).1 = some value) :
    Wrote store (.set key value) (store.exec ⟨.persist key, now, later⟩).2 := by
  have kept := store.aof_clearDeadline key now
  have applied := store.find_clearDeadline cleared
  rcases section_eq : store.clearDeadline key now with ⟨found, after⟩
  simp only [section_eq] at cleared kept applied
  subst found
  apply wrote_of_effect attached
  · simp [exec, persist, section_eq, kept, attached]
  · simpa [exec, persist, section_eq] using applied

theorem quiet_persist {key : Bytes} {now later : ℤ}
    (failed : (store.clearDeadline key now).1 = none) :
    Quiet now store (store.exec ⟨.persist key, now, later⟩).2 := by
  have kept := store.aof_clearDeadline key now
  have drops := store.drops_clearDeadline failed
  rcases section_eq : store.clearDeadline key now with ⟨found, after⟩
  simp only [section_eq] at failed kept drops
  subst found
  constructor
  · simpa [exec, persist, section_eq] using kept
  · simpa [exec, persist, section_eq] using drops

end KvStore

/-! ## The shadow -/

/-- How far two logs are apart. -/
def Apart (records serial : List Record) : Pending → Prop
  | .nothing => serial = records
  | .unapplied record => records = serial ++ [record]
  | .unlogged record => serial = records ++ [record]

/-- A store that executes by itself what takes effect on the shared one. -/
structure Shadows (clock : ℤ) (store : KvStore) (pending : Pending) (serial : KvStore) : Prop where
  attached : ∃ writer, store.aof = some writer
  shadowed : ∃ writer, serial.aof = some writer
  alike : Alike Entry.live clock store.find serial.find
  apart : Apart store.records serial.records pending

/-- The store after an effect. -/
def KvStore.follow (store : KvStore) : Option (TimedOp × Result) → KvStore
  | none => store
  | some point => (store.exec point.1).2

namespace Quiet

variable {clock : ℤ} {store after : KvStore}

theorem refl (clock : ℤ) (store : KvStore) : Quiet clock store store :=
  ⟨rfl, .refl clock _⟩

theorem of_find (aof : after.aof = store.aof) (find : after.find = store.find) :
    Quiet clock store after :=
  ⟨aof, Or.inl find⟩

theorem records (quiet : Quiet clock store after) : after.records = store.records := by
  simp only [KvStore.records, quiet.aof]

/-- What no call of an operation writes. -/
theorem exec {call : TimedOp} (ordered : call.now ≤ call.later)
    (attached : ∃ writer, store.aof = some writer)
    (writes : ∀ record, ¬Writes store call.now call.later call.op record) :
    Quiet call.later store (store.exec call).2 := by
  rcases attached with ⟨writer, attached⟩
  rcases KvStore.exec_effect attached ordered with ⟨kept, drops⟩ | ⟨record, wrote, -⟩
  · exact ⟨kept.trans attached.symm, drops⟩
  · exact absurd wrote (writes record)

end Quiet

namespace Shadows

variable {clock : ℤ} {store after serial serialAfter : KvStore} {pending : Pending}
  {record : Record}

theorem empty {nShards : ℕ} (powerOfTwo : nShards.isPowerOfTwo) (enableTtl : Bool) (clock : ℤ) :
    Shadows clock (.empty powerOfTwo (some {}) enableTtl) .nothing
      (.empty powerOfTwo (some {}) enableTtl) :=
  ⟨⟨_, rfl⟩, ⟨_, rfl⟩, fun _ => rfl, rfl⟩

theorem later (shadows : Shadows clock store pending serial) {later : ℤ} (le : clock ≤ later) :
    Shadows later store pending serial :=
  ⟨shadows.attached, shadows.shadowed, shadows.alike.later Entry.antitone_live le, shadows.apart⟩

/-- Nothing is written on either side. -/
theorem quiet (shadows : Shadows clock store pending serial) (shared : Quiet clock store after)
    (alone : Quiet clock serial serialAfter) : Shadows clock after pending serialAfter := by
  refine ⟨?_, ?_, ?_, ?_⟩
  · rw [shared.aof]
    exact shadows.attached
  · rw [alone.aof]
    exact shadows.shadowed
  · exact (alike_of_drops shared.drops).trans
      (shadows.alike.trans (alike_of_drops alone.drops).symm)
  · rw [shared.records, alone.records]
    exact shadows.apart

/-- A record is logged before it is applied. -/
theorem log (shadows : Shadows clock store .nothing serial) (record : Record) :
    Shadows clock (store.log record) (.unapplied record) serial := by
  rcases shadows.attached with ⟨writer, attached⟩
  refine ⟨⟨_, KvStore.aof_log_of_attached attached record⟩, shadows.shadowed, ?_, ?_⟩
  · rw [KvStore.find_log]
    exact shadows.alike
  · have same : serial.records = store.records := shadows.apart
    rw [KvStore.records_log attached, Apart, same]

/-- A record that is applied is logged. -/
theorem logged (shadows : Shadows clock store (.unlogged record) serial) :
    Shadows clock (store.log record) .nothing serial := by
  rcases shadows.attached with ⟨writer, attached⟩
  refine ⟨⟨_, KvStore.aof_log_of_attached attached record⟩, shadows.shadowed, ?_, ?_⟩
  · rw [KvStore.find_log]
    exact shadows.alike
  · rw [KvStore.records_log attached]
    exact shadows.apart

/-- A record that is logged is applied. -/
theorem applied (shadows : Shadows clock store (.unapplied record) serial)
    (overwrites : record.Overwrites) (aof : after.aof = store.aof)
    (find : after.find = record.apply store.find) (wrote : Wrote serial record serialAfter) :
    Shadows clock after .nothing serialAfter := by
  have records : after.records = store.records := by
    simp only [KvStore.records, aof]
  refine ⟨?_, wrote.attached, ?_, ?_⟩
  · rw [aof]
    exact shadows.attached
  · rw [find, wrote.find]
    apply alike_apply shadows.alike
    rintro key expireAtMs rfl
    exact overwrites.elim
  · rw [records, wrote.records]
    exact Eq.symm shadows.apart

/-- A record is applied before it is logged. -/
theorem apply (shadows : Shadows clock store .nothing serial)
    (present : ∀ key expireAtMs, record = .expire key expireAtMs →
      ∃ entry, store.find key = some entry ∧ entry.live clock = true)
    (aof : after.aof = store.aof) (find : after.find = record.apply store.find)
    (wrote : Wrote serial record serialAfter) :
    Shadows clock after (.unlogged record) serialAfter := by
  have records : after.records = store.records := by
    simp only [KvStore.records, aof]
  have same : serial.records = store.records := shadows.apart
  refine ⟨?_, wrote.attached, ?_, ?_⟩
  · rw [aof]
    exact shadows.attached
  · rw [find, wrote.find]
    exact alike_apply shadows.alike present
  · rw [records, wrote.records, same]
    rfl

end Shadows

/-! ## Moves -/

namespace Move

variable {store after serial : KvStore} {clock : ℤ} {pc next : Pc} {use : LockUse}
  {effect : Option (TimedOp × Result)}

/-- A thread without the mutex writes nothing, and what takes effect writes nothing. -/
theorem quiet_of_not_holds (move : Move store clock pc after next use effect)
    (free : pc.holds = false) (shadowed : ∃ writer, serial.aof = some writer) :
    Quiet clock store after ∧ Quiet clock serial (serial.follow effect) := by
  rcases move.drops_of_not_holds free with ⟨aof, drops, -⟩
  refine ⟨⟨aof, drops⟩, ?_⟩
  cases move with
  | setLock | setExTime | setExLock | delLock | expireLock | persistLock | getReap =>
      exact .refl clock serial
  | setExRefuse key value ttlS refused =>
      apply @Quiet.exec serial ⟨.setEx key value ttlS, clock, clock⟩ (le_refl clock) shadowed
      rintro record ⟨⟩
      omega
  | expireRefuse key ttlS refused =>
      apply @Quiet.exec serial ⟨.expire key ttlS, clock, clock⟩ (le_refl clock) shadowed
      rintro record ⟨⟩
      omega
  | getMissing key | getHit key | getStale key =>
      apply @Quiet.exec serial ⟨.get key, clock, clock⟩ (le_refl clock) shadowed
      rintro record ⟨⟩
  | ttl key =>
      apply @Quiet.exec serial ⟨.ttl key, clock, clock⟩ (le_refl clock) shadowed
      rintro record ⟨⟩
  | onTtlExpired key =>
      apply @Quiet.exec serial ⟨.onTtlExpired key, clock, clock⟩ (le_refl clock) shadowed
      rintro record ⟨⟩
  | setLog | setStore | setExLog | setExStore | setExSchedule | delLog | delErase | expireTime
  | expireFail | expireAssign | expireLog | expireSchedule | persistFail | persistClear
  | persistLog | unlock => cases free

/-- Every move of a thread is followed by the shadow, which moves at the effect only. -/
theorem shadows (move : Move store clock pc after next use effect) (timely : pc.Timely)
    (holds : pc.holds = true) (shadows : Shadows clock store pc.pending serial) :
    Shadows clock after next.pending (serial.follow effect) := by
  rcases shadows.shadowed with ⟨writer, shadowed⟩
  cases move with
  | setLog key value =>
      have counted : Shadows clock store.addSet .nothing serial :=
        shadows.quiet (.of_find rfl rfl) (.refl clock serial)
      exact counted.log _
  | setExLog key value ttlS now =>
      have counted : Shadows clock store.addSet .nothing serial :=
        shadows.quiet (.of_find rfl rfl) (.refl clock serial)
      exact counted.log _
  | delLog key =>
      have counted : Shadows clock store.addDel .nothing serial :=
        shadows.quiet (.of_find rfl rfl) (.refl clock serial)
      exact counted.log _
  | setStore key value =>
      exact shadows.applied trivial rfl (store.find_put_eq_update _ _)
        (KvStore.wrote_set shadowed key value clock clock)
  | setExStore key value ttlS now =>
      exact shadows.applied trivial rfl (store.find_put_eq_update _ _)
        (KvStore.wrote_setEx shadowed key value timely.1 clock)
  | delErase key =>
      exact shadows.applied trivial rfl (store.find_erase_eq_update _)
        (KvStore.wrote_del shadowed key clock clock)
  | setExSchedule key expireAtMs =>
      apply shadows.quiet _ (.refl _ _)
      by_cases positive : 0 < expireAtMs
      · rw [if_pos positive]
        exact .of_find rfl rfl
      · rw [if_neg positive]
        exact .refl clock store
  | expireTime | unlock => exact shadows
  | expireSchedule => exact shadows.quiet (.of_find rfl rfl) (.refl _ _)
  | expireFail key ttlS now failed =>
      apply shadows.quiet ⟨store.aof_assignDeadline key _ clock, store.drops_assignDeadline failed⟩
      apply KvStore.quiet_expire timely.1
      rw [KvStore.assignDeadline_fst, ← shadows.alike key, ← KvStore.assignDeadline_fst store key
        (KvStore.deadlineAt now ttlS)]
      exact failed
  | expireAssign key ttlS now succeeded =>
      rcases store.find_assignDeadline succeeded with ⟨applied, entry, present, alive⟩
      apply shadows.apply _ (store.aof_assignDeadline key _ clock) applied
      · apply KvStore.wrote_expire shadowed timely.1
        rw [KvStore.assignDeadline_fst, ← shadows.alike key, ← KvStore.assignDeadline_fst store key
          (KvStore.deadlineAt now ttlS)]
        exact succeeded
      · rintro found deadline ⟨⟩
        exact ⟨entry, present, alive⟩
  | expireLog | persistLog => exact shadows.logged
  | persistFail key failed =>
      apply shadows.quiet ⟨store.aof_clearDeadline key clock, store.drops_clearDeadline failed⟩
      apply KvStore.quiet_persist
      rw [KvStore.clearDeadline_fst, ← shadows.alike key, ← KvStore.clearDeadline_fst]
      exact failed
  | persistClear key value cleared =>
      apply shadows.apply _ (store.aof_clearDeadline key clock) (store.find_clearDeadline cleared)
      · apply KvStore.wrote_persist shadowed
        rw [KvStore.clearDeadline_fst, ← shadows.alike key, ← KvStore.clearDeadline_fst]
        exact cleared
      · rintro found deadline ⟨⟩
  | setLock | setExRefuse | setExTime | setExLock | delLock | expireRefuse | expireLock
  | persistLock | getMissing | getHit | getStale | getReap | ttl | onTtlExpired => cases holds

end Move

end RedisCpp.Store
