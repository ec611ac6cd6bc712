import RedisCpp.Store.AofCodec
import RedisCpp.Store.LogSemantics
import RedisCpp.Store.Reference

/-!
# Crash recovery

On start-up `main` replays the log into an empty store with four callbacks.  The
callbacks compare each logged deadline with the clock of the restart: a passed
`SET … PXAT` is skipped, a passed `PEXPIREAT` deletes the key.

The log denotes the memory (`Journaled`), so recovery is compared with the plain
meaning of the log.  The comparison fails in two ways, both visible in the state
before the offending call.  A call *buries* a key when it overwrites a value that
would have outlived the restart by one that does not: the skipped record leaves the
old value in place.  A call *revives* a key when it moves a deadline from before the
restart to after it: the earlier record has already deleted the key.  Without the
first nothing is resurrected, without the second nothing is lost.
-/

namespace RedisCpp.Store

/-- The callbacks of `main`, when the clock reads `now` throughout the replay. -/
def replayCallback (now : ℤ) (store : KvStore) : Record → KvStore
  | .set key value => (store.set key value).2
  | .setEx key value expireAtMs =>
      if expireAtMs ≤ now then store else (store.setAbsolute key value expireAtMs).2
  | .del key => (store.del key).2
  | .expire key expireAtMs =>
      if expireAtMs ≤ now then (store.del key).2 else (store.expireAt key expireAtMs now).2

/-- The store that `main` builds from a log file. -/
def recover (now : ℤ) (file : Bytes) : KvStore :=
  (replay file).calls.foldl (replayCallback now)
    (KvStore.empty KvStore.defaultShards none true)

/-! ## The callbacks on contents -/

/-- What the callback of a record does to the entry of its key. -/
def Record.recoverSlot (now : ℤ) (slot : Option Entry) : Record → Option Entry
  | .set _ value => some { value }
  | .setEx _ value expireAtMs => if expireAtMs ≤ now then slot else some { value, expireAtMs }
  | .del _ => none
  | .expire _ expireAtMs =>
      if expireAtMs ≤ now then none
      else (ExpiringMap.visible Entry.live now slot).map fun entry => { entry with expireAtMs }

/-- What the callback of a record does to the contents. -/
def Record.recover (now : ℤ) (contents : Contents) (record : Record) : Contents :=
  Function.update contents record.key (record.recoverSlot now (contents record.key))

/-- The contents recovered from the records of a log. -/
def recoverLog (now : ℤ) (records : List Record) : Contents :=
  records.foldl (Record.recover now) fun _ => none

@[simp]
theorem recoverLog_append_singleton (now : ℤ) (records : List Record) (record : Record) :
    recoverLog now (records ++ [record]) = record.recover now (recoverLog now records) := by
  simp [recoverLog]

theorem KvStore.find_expireAt (store : KvStore) (key : Bytes) (expireAtMs now : ℤ) :
    (store.expireAt key expireAtMs now).2.find =
      (store.assignDeadline key expireAtMs now).2.find := by
  rw [KvStore.expireAt]
  rcases store.assignDeadline key expireAtMs now with ⟨success, after⟩
  cases success with
  | false => rfl
  | true => rfl

theorem find_replayCallback (now : ℤ) (store : KvStore) (record : Record) :
    (replayCallback now store record).find = record.recover now store.find := by
  cases record with
  | set key value => simp [replayCallback, Record.recover, Record.recoverSlot, Record.key,
      KvStore.set]
  | setEx key value expireAtMs =>
      by_cases passed : expireAtMs ≤ now
      · simp [replayCallback, Record.recover, Record.recoverSlot, Record.key, passed]
      · simp [replayCallback, Record.recover, Record.recoverSlot, Record.key, passed,
          KvStore.setAbsolute]
  | del key => exact store.find_del key
  | expire key expireAtMs =>
      by_cases passed : expireAtMs ≤ now
      · simp [replayCallback, Record.recover, Record.recoverSlot, Record.key, passed,
          KvStore.find_del]
      · simp only [replayCallback, Record.recover, Record.recoverSlot, Record.key, passed,
          if_false, KvStore.find_expireAt, KvStore.assignDeadline]
        cases present : store.find key with
        | none =>
            simp only [ExpiringMap.visible, Option.filter_none, Option.map_none]
            rw [← present, Function.update_eq_self]
        | some entry =>
            by_cases alive : entry.live now = true
            · simp [alive, ExpiringMap.visible, Option.filter, KvStore.find_put_eq_update]
            · simp [alive, ExpiringMap.visible, Option.filter, KvStore.find_erase_eq_update]

theorem find_foldl_replayCallback (now : ℤ) (store : KvStore) (records : List Record) :
    (records.foldl (replayCallback now) store).find =
      records.foldl (Record.recover now) store.find := by
  induction records generalizing store with
  | nil => rfl
  | cons record records inductionHypothesis =>
      rw [List.foldl_cons, List.foldl_cons, inductionHypothesis, find_replayCallback]

/-- The codec delivers every record to its callback. -/
theorem find_recover {records : List Record} (fits : ∀ record ∈ records, record.Fits) (now : ℤ) :
    (recover now (fileBytes records)).find = recoverLog now records := by
  have empty_eq : (KvStore.empty KvStore.defaultShards none true).find = fun _ => none := by
    funext key
    simp
  rw [recover, replay_fileBytes fits, find_foldl_replayCallback, empty_eq, recoverLog]

/-! ## Recovered contents against the meaning of the log -/

/-- Nothing is resurrected. -/
def RecoversSoundly (now : ℤ) (records : List Record) : Prop :=
  ∀ key entry, recoverLog now records key = some entry →
    ExpiringMap.visible Entry.live now (applyLog records key) = some entry

/-- Nothing is lost. -/
def RecoversCompletely (now : ℤ) (records : List Record) : Prop :=
  ∀ key entry, ExpiringMap.visible Entry.live now (applyLog records key) = some entry →
    recoverLog now records key = some entry

theorem visible_eq_some {now : ℤ} {slot : Option Entry} {entry : Entry} :
    ExpiringMap.visible Entry.live now slot = some entry ↔
      slot = some entry ∧ entry.live now = true := by
  simp [ExpiringMap.visible, Option.filter_eq_some_iff]

theorem dead_of_passed {value : Bytes} {expireAtMs now : ℤ} (positive : 0 < expireAtMs)
    (passed : expireAtMs ≤ now) : ({ value, expireAtMs } : Entry).live now = false := by
  simp only [Entry.live, Bool.or_eq_false_iff, decide_eq_false_iff_not]
  omega

theorem live_of_future {value : Bytes} {expireAtMs now : ℤ} (future : now < expireAtMs) :
    ({ value, expireAtMs } : Entry).live now = true := by
  simp [Entry.live, future]

theorem recoversSoundly_nil (now : ℤ) : RecoversSoundly now [] := by
  intro key entry recovered
  simp [recoverLog] at recovered

theorem recoversCompletely_nil (now : ℤ) : RecoversCompletely now [] := by
  intro key entry seen
  simp [applyLog, ExpiringMap.visible] at seen

/-- A record keeps recovery sound unless it is a passed `SET … PXAT` over a key
that outlives the restart. -/
theorem RecoversSoundly.append {now : ℤ} {records : List Record}
    (sound : RecoversSoundly now records) {record : Record}
    (harmless : ∀ key value expireAtMs, record = .setEx key value expireAtMs → expireAtMs ≤ now →
      ExpiringMap.visible Entry.live now (applyLog records key) = none) :
    RecoversSoundly now (records ++ [record]) := by
  have slot_sound : ∀ entry,
      record.recoverSlot now (recoverLog now records record.key) = some entry →
      ExpiringMap.visible Entry.live now (record.applySlot (applyLog records record.key)) =
        some entry := by
    intro entry recovered
    cases record with
    | set key value =>
        cases recovered
        simp [ExpiringMap.visible, Record.applySlot, Option.filter, Entry.live]
    | setEx key value expireAtMs =>
        by_cases passed : expireAtMs ≤ now
        · simp only [Record.recoverSlot, passed, if_true] at recovered
          have outlived := sound key entry recovered
          rw [harmless key value expireAtMs rfl passed] at outlived
          exact absurd outlived (by simp)
        · simp only [Record.recoverSlot, passed, if_false] at recovered
          cases recovered
          exact visible_eq_some.mpr ⟨rfl, live_of_future (not_le.mp passed)⟩
    | del key => cases recovered
    | expire key expireAtMs =>
        by_cases passed : expireAtMs ≤ now
        · simp [Record.recoverSlot, passed] at recovered
        · simp only [Record.recoverSlot, passed, if_false, Record.key, Option.map_eq_some_iff,
            visible_eq_some] at recovered
          rcases recovered with ⟨previous, ⟨held, -⟩, rfl⟩
          have original := (visible_eq_some.mp (sound key previous held)).1
          refine visible_eq_some.mpr ⟨?_, live_of_future (not_le.mp passed)⟩
          simp [Record.applySlot, Record.key, original]
  intro key entry recovered
  rw [recoverLog_append_singleton, Record.recover] at recovered
  rw [applyLog_append_singleton, Record.apply]
  by_cases same : key = record.key
  · subst key
    rw [Function.update_self] at recovered ⊢
    exact slot_sound entry recovered
  · rw [Function.update_of_ne same] at recovered ⊢
    exact sound key entry recovered

/-- A record keeps recovery complete unless it is a `PEXPIREAT` that moves a
deadline from before the restart to after it. -/
theorem RecoversCompletely.append {now : ℤ} {records : List Record}
    (complete : RecoversCompletely now records) {record : Record} (fits : record.Fits)
    (harmless : ∀ key expireAtMs entry, record = .expire key expireAtMs → now < expireAtMs →
      applyLog records key = some entry → entry.live now = true) :
    RecoversCompletely now (records ++ [record]) := by
  have slot_complete : ∀ entry,
      ExpiringMap.visible Entry.live now (record.applySlot (applyLog records record.key)) =
        some entry →
      record.recoverSlot now (recoverLog now records record.key) = some entry := by
    intro entry seen
    rcases visible_eq_some.mp seen with ⟨applied, alive⟩
    cases record with
    | set key value => exact applied
    | setEx key value expireAtMs =>
        cases applied
        by_cases passed : expireAtMs ≤ now
        · rw [dead_of_passed fits.2.2.1 passed] at alive
          exact absurd alive (by simp)
        · simp [Record.recoverSlot, passed]
    | del key => cases applied
    | expire key expireAtMs =>
        simp only [Record.applySlot, Record.key, Option.map_eq_some_iff] at applied
        rcases applied with ⟨previous, held, rfl⟩
        by_cases passed : expireAtMs ≤ now
        · rw [dead_of_passed fits.2.1 passed] at alive
          exact absurd alive (by simp)
        · have outlives := harmless key expireAtMs previous rfl (not_le.mp passed) held
          have recovered := complete key previous (visible_eq_some.mpr ⟨held, outlives⟩)
          simp [Record.recoverSlot, Record.key, passed, recovered, ExpiringMap.visible,
            Option.filter, outlives]
  intro key entry seen
  rw [applyLog_append_singleton, Record.apply] at seen
  rw [recoverLog_append_singleton, Record.recover]
  by_cases same : key = record.key
  · subst key
    rw [Function.update_self] at seen ⊢
    exact slot_complete entry seen
  · rw [Function.update_of_ne same] at seen ⊢
    exact complete key entry seen

/-! ## Runs with a log attached -/

/-- The strings of a call exist in memory. -/
def Op.StringsFit : Op → Prop
  | .set key value | .setEx key value _ | .setAbsolute key value _ =>
      key.length ≤ maxStringSize ∧ value.length ≤ maxStringSize
  | .get key | .del key | .expire key _ | .expireAt key _ | .persist key | .ttl key
  | .onTtlExpired key => key.length ≤ maxStringSize
  | .count => True

/-- A call whose strings exist and whose deadline, if it is accepted, fits. -/
structure TimedOp.Admissible (call : TimedOp) : Prop where
  strings : call.op.StringsFit
  deadline : call.op.refused = false → call.DeadlineFits

instance (op : Op) : Decidable op.StringsFit :=
  match op with
  | .set key value | .setEx key value _ | .setAbsolute key value _ =>
      inferInstanceAs (Decidable (key.length ≤ maxStringSize ∧ value.length ≤ maxStringSize))
  | .get key | .del key | .expire key _ | .expireAt key _ | .persist key | .ttl key
  | .onTtlExpired key => inferInstanceAs (Decidable (key.length ≤ maxStringSize))
  | .count => isTrue trivial

instance (call : TimedOp) : Decidable call.Admissible :=
  decidable_of_iff (call.op.StringsFit ∧ (call.op.refused = false → call.DeadlineFits))
    ⟨fun both => ⟨both.1, both.2⟩, fun both => ⟨both.strings, both.deadline⟩⟩

/-- The log denotes the memory, up to expired entries the memory has dropped, and
every record can be read back. -/
structure Journaled (now : ℤ) (store : KvStore) : Prop where
  attached : ∃ writer, store.aof = some writer
  recordsFit : ∀ record ∈ store.records, record.Fits
  valuesFit : ∀ key entry, store.find key = some entry → entry.value.length ≤ maxStringSize
  agrees : ExpiringMap.Purged Entry.live now store.find (applyLog store.records)

namespace Writes

variable {store : KvStore} {call : TimedOp} {record : Record}

/-- The record of an accepted call can be read back. -/
theorem fits (writes : Writes store call.now call.later call.op record)
    (admissible : call.Admissible)
    (valuesFit : ∀ key entry, store.find key = some entry → entry.value.length ≤ maxStringSize) :
    record.Fits := by
  rcases call with ⟨op, now, later⟩
  rcases admissible with ⟨strings, deadline⟩
  cases writes with
  | set => exact strings
  | setEx accepted =>
      rcases deadline (by simp [Op.refused, accepted]) with ⟨positive, bounded⟩
      rw [deadlineAt_eq positive bounded]
      exact ⟨strings.1, strings.2, positive, bounded⟩
  | setAbsolute =>
      rcases deadline rfl with ⟨positive, bounded⟩
      exact ⟨strings.1, strings.2, positive, bounded⟩
  | del => exact strings
  | expire accepted present alive =>
      rcases deadline (by simp [Op.refused, accepted]) with ⟨positive, bounded⟩
      rw [deadlineAt_eq positive bounded]
      exact ⟨strings, positive, bounded⟩
  | expireAt present alive =>
      rcases deadline rfl with ⟨positive, bounded⟩
      exact ⟨strings, positive, bounded⟩
  | persist present alive => exact ⟨strings, valuesFit _ _ present⟩

/-- An expiry is logged only for a key that the memory holds. -/
theorem present (writes : Writes store call.now call.later call.op record) :
    ∀ key expireAtMs, record = .expire key expireAtMs → (store.find key).isSome := by
  intro key expireAtMs equal
  rcases call with ⟨op, now, later⟩
  cases writes with
  | expire accepted held alive =>
      cases equal
      simp [held]
  | expireAt held alive =>
      cases equal
      simp [held]
  | set => cases equal
  | setEx accepted => cases equal
  | setAbsolute => cases equal
  | del => cases equal
  | persist held alive => cases equal

end Writes

namespace Journaled

variable {now start : ℤ} {store : KvStore} {call : TimedOp}

theorem empty {nShards : ℕ} (powerOfTwo : nShards.isPowerOfTwo) (enableTtl : Bool) (now : ℤ) :
    Journaled now (KvStore.empty powerOfTwo (some {}) enableTtl) where
  attached := ⟨{}, rfl⟩
  recordsFit := by
    intro record mem
    simp [KvStore.records, KvStore.empty] at mem
  valuesFit := by
    intro key entry present
    simp at present
  agrees := by
    have records_eq : (KvStore.empty powerOfTwo (some {}) enableTtl).records = [] := rfl
    intro key
    simp [records_eq, applyLog]

/-- What a call does to the log: nothing, or it appends the record that it writes. -/
theorem exec_records (journaled : Journaled start store) (ordered : call.now ≤ call.later) :
    ((store.exec call).2.records = store.records ∧
        Drops call.later store.find (store.exec call).2.find) ∨
      ∃ record, Writes store call.now call.later call.op record ∧
        (store.exec call).2.records = store.records ++ [record] ∧
        (store.exec call).2.find = record.apply store.find := by
  rcases journaled.attached with ⟨writer, attached⟩
  rcases KvStore.exec_effect attached ordered with ⟨kept, drops⟩ | ⟨record, writes, logged, applied⟩
  · left
    rw [KvStore.records_of_aof kept, KvStore.records_of_aof attached]
    exact ⟨rfl, drops⟩
  · right
    refine ⟨record, writes, ?_, applied⟩
    rw [KvStore.records_of_aof logged, KvStore.records_of_aof attached]
    rfl

/-- A call that ends later than the one before it, even if it has begun earlier. -/
theorem exec_of_later (journaled : Journaled start store) (before : start ≤ call.later)
    (ordered : call.now ≤ call.later) (admissible : call.Admissible) :
    Journaled call.later (store.exec call).2 := by
  have current := journaled.agrees.later Entry.antitone_live before
  have attached' : ∃ writer, (store.exec call).2.aof = some writer := by
    rcases journaled.attached with ⟨writer, attached⟩
    rcases KvStore.exec_effect attached ordered with ⟨kept, -⟩ | ⟨record, -, logged, -⟩
    · exact ⟨_, kept⟩
    · exact ⟨_, logged⟩
  rcases journaled.exec_records ordered with
    ⟨records_eq, drops⟩ | ⟨record, writes, records_eq, find_eq⟩
  · refine ⟨attached', ?_, ?_, ?_⟩
    · rw [records_eq]
      exact journaled.recordsFit
    · intro key entry present
      rcases drops with same | ⟨dropped, -, -, -, same⟩
      · rw [same] at present
        exact journaled.valuesFit key entry present
      · rw [same, Function.update_apply] at present
        split at present
        · cases present
        · exact journaled.valuesFit key entry present
    · rw [records_eq]
      exact drops.purged current
  · have fits := writes.fits admissible journaled.valuesFit
    refine ⟨attached', ?_, ?_, ?_⟩
    · rw [records_eq]
      intro other mem
      rcases List.mem_append.mp mem with old | new
      · exact journaled.recordsFit other old
      · rw [List.mem_singleton.mp new]
        exact fits
    · intro key entry present
      rw [find_eq, Record.apply, Function.update_apply] at present
      split at present
      · cases record with
        | set other value =>
            cases present
            exact fits.2
        | setEx other value expireAtMs =>
            cases present
            exact fits.2.1
        | del other => cases present
        | expire other expireAtMs =>
            rcases Option.map_eq_some_iff.mp present with ⟨previous, held, rfl⟩
            exact journaled.valuesFit _ previous held
      · exact journaled.valuesFit key entry present
    · rw [records_eq, applyLog_append_singleton, find_eq]
      exact purged_apply current writes.present

theorem exec (journaled : Journaled start store) (before : start ≤ call.now)
    (ordered : call.now ≤ call.later) (admissible : call.Admissible) :
    Journaled call.later (store.exec call).2 :=
  journaled.exec_of_later (before.trans ordered) ordered admissible

theorem run (journaled : Journaled start store) {calls : List TimedOp}
    (chronological : Chronological start calls) (admissible : ∀ call ∈ calls, call.Admissible) :
    Journaled (lastReading start calls) (store.run calls) := by
  induction calls generalizing start store with
  | nil => exact journaled
  | cons call calls inductionHypothesis =>
      rcases chronological with ⟨before, ordered, rest⟩
      have step := journaled.exec before ordered (admissible call (by simp))
      exact inductionHypothesis step rest fun other mem => admissible other (by simp [mem])

end Journaled

/-! ## The calls that spoil a recovery -/

/-- The call overwrites a key that would still be live at `restart` by a value whose
own deadline has passed by then. -/
def TimedOp.Buries (restart : ℤ) (store : KvStore) (call : TimedOp) : Prop :=
  match call.op with
  | .setEx key _ ttlS => 0 < ttlS ∧ exactDeadline call.now ttlS ≤ restart ∧
      ∃ entry, store.find key = some entry ∧ entry.live restart = true
  | .setAbsolute key _ expireAtMs => expireAtMs ≤ restart ∧
      ∃ entry, store.find key = some entry ∧ entry.live restart = true
  | _ => False

/-- The call moves the deadline of a live key from before `restart` to after it. -/
def TimedOp.Revives (restart : ℤ) (store : KvStore) (call : TimedOp) : Prop :=
  match call.op with
  | .expire key ttlS => 0 < ttlS ∧ restart < exactDeadline call.now ttlS ∧
      ∃ entry, store.find key = some entry ∧ entry.live call.later = true ∧
        entry.live restart = false
  | .expireAt key expireAtMs => restart < expireAtMs ∧
      ∃ entry, store.find key = some entry ∧ entry.live call.now = true ∧
        entry.live restart = false
  | _ => False

namespace Journaled

variable {start restart : ℤ} {store : KvStore} {call : TimedOp}

theorem visible_eq (journaled : Journaled start store) (le : start ≤ restart) (key : Bytes) :
    ExpiringMap.visible Entry.live restart (applyLog store.records key) =
      ExpiringMap.visible Entry.live restart (store.find key) :=
  ((journaled.agrees.later Entry.antitone_live le).visible_eq key).symm

/-- A passed `SET … PXAT` over a key that outlives the restart comes from a call
that buries the key. -/
theorem buries_of_writes (journaled : Journaled start store) (le : start ≤ restart)
    (admissible : call.Admissible) {key value : Bytes} {expireAtMs : ℤ}
    (writes : Writes store call.now call.later call.op (.setEx key value expireAtMs))
    (passed : expireAtMs ≤ restart)
    (outlives : ExpiringMap.visible Entry.live restart (applyLog store.records key) ≠ none) :
    call.Buries restart store := by
  rw [journaled.visible_eq le] at outlives
  rcases Option.ne_none_iff_exists'.mp outlives with ⟨entry, seen⟩
  rcases visible_eq_some.mp seen with ⟨present, alive⟩
  rcases call with ⟨op, now, later⟩
  cases writes with
  | setEx accepted =>
      rcases admissible.deadline (by simp [Op.refused, accepted]) with ⟨positive, bounded⟩
      rw [deadlineAt_eq positive bounded] at passed
      exact ⟨accepted, passed, entry, present, alive⟩
  | setAbsolute => exact ⟨passed, entry, present, alive⟩

/-- A `PEXPIREAT` that moves a deadline over the restart comes from a call that
revives the key. -/
theorem revives_of_writes (journaled : Journaled start store)
    (admissible : call.Admissible) {key : Bytes} {expireAtMs : ℤ} {entry : Entry}
    (writes : Writes store call.now call.later call.op (.expire key expireAtMs))
    (future : restart < expireAtMs) (denoted : applyLog store.records key = some entry)
    (dead : entry.live restart = false) : call.Revives restart store := by
  rcases call with ⟨op, now, later⟩
  cases writes with
  | expire accepted present alive =>
      rcases admissible.deadline (by simp [Op.refused, accepted]) with ⟨positive, bounded⟩
      rw [deadlineAt_eq positive bounded] at future
      rw [journaled.agrees.reference_eq present] at denoted
      cases denoted
      exact ⟨accepted, future, _, present, alive, dead⟩
  | expireAt present alive =>
      rw [journaled.agrees.reference_eq present] at denoted
      cases denoted
      exact ⟨future, _, present, alive, dead⟩

theorem soundly_exec (journaled : Journaled start store) (le : start ≤ restart)
    (ordered : call.now ≤ call.later) (admissible : call.Admissible)
    (harmless : ¬call.Buries restart store) (sound : RecoversSoundly restart store.records) :
    RecoversSoundly restart (store.exec call).2.records := by
  rcases journaled.exec_records ordered with ⟨records_eq, -⟩ | ⟨record, writes, records_eq, -⟩
  · rw [records_eq]
    exact sound
  · rw [records_eq]
    apply sound.append
    rintro key value expireAtMs rfl passed
    by_contra outlives
    exact harmless (journaled.buries_of_writes le admissible writes passed outlives)

theorem completely_exec (journaled : Journaled start store)
    (ordered : call.now ≤ call.later) (admissible : call.Admissible)
    (harmless : ¬call.Revives restart store)
    (complete : RecoversCompletely restart store.records) :
    RecoversCompletely restart (store.exec call).2.records := by
  rcases journaled.exec_records ordered with ⟨records_eq, -⟩ | ⟨record, writes, records_eq, -⟩
  · rw [records_eq]
    exact complete
  · rw [records_eq]
    apply complete.append (writes.fits admissible journaled.valuesFit)
    rintro key expireAtMs entry rfl future denoted
    by_contra dead
    exact harmless (journaled.revives_of_writes admissible writes future denoted
      (by simpa using dead))

/-- Burying a key that recovery would have kept resurrects its old value. -/
theorem not_soundly_of_passed (journaled : Journaled start store) (le : start ≤ restart)
    {key value : Bytes} {expireAtMs : ℤ} {entry : Entry} (present : store.find key = some entry)
    (alive : entry.live restart = true) (positive : 0 < expireAtMs)
    (passed : expireAtMs ≤ restart) (complete : RecoversCompletely restart store.records) :
    ¬RecoversSoundly restart (store.records ++ [.setEx key value expireAtMs]) := by
  intro sound
  have seen : ExpiringMap.visible Entry.live restart (applyLog store.records key) =
      some entry := by
    rw [journaled.visible_eq le]
    exact visible_eq_some.mpr ⟨present, alive⟩
  have recovered : recoverLog restart (store.records ++ [.setEx key value expireAtMs]) key =
      some entry := by
    simp [Record.recover, Record.recoverSlot, Record.key, passed, complete key entry seen]
  rcases visible_eq_some.mp (sound key entry recovered) with ⟨denoted, -⟩
  simp only [applyLog_append_singleton, Record.apply, Record.applySlot, Record.key,
    Function.update_self, Option.some.injEq] at denoted
  rw [← denoted, dead_of_passed positive passed] at alive
  exact Bool.noConfusion alive

/-- Reviving a key that recovery has deleted loses it. -/
theorem not_completely_of_future (journaled : Journaled start store) {key : Bytes}
    {expireAtMs : ℤ} {entry : Entry} (present : store.find key = some entry)
    (dead : entry.live restart = false) (future : restart < expireAtMs)
    (sound : RecoversSoundly restart store.records) :
    ¬RecoversCompletely restart (store.records ++ [.expire key expireAtMs]) := by
  intro complete
  have denoted := journaled.agrees.reference_eq present
  have lost : recoverLog restart store.records key = none := by
    cases recovered : recoverLog restart store.records key with
    | none => rfl
    | some found =>
        rcases visible_eq_some.mp (sound key found recovered) with ⟨same, alive⟩
        rw [denoted] at same
        cases same
        rw [dead] at alive
        exact Bool.noConfusion alive
  have kept := complete key { entry with expireAtMs } (visible_eq_some.mpr
    ⟨by simp [Record.apply, Record.applySlot, Record.key, denoted], live_of_future future⟩)
  simp [Record.recover, Record.recoverSlot, Record.key, lost, ExpiringMap.visible] at kept

theorem not_buries_of_soundly (journaled : Journaled start store) (le : start ≤ restart)
    (admissible : call.Admissible) (complete : RecoversCompletely restart store.records)
    (sound : RecoversSoundly restart (store.exec call).2.records) :
    ¬call.Buries restart store := by
  intro buries
  rcases journaled.attached with ⟨writer, attached⟩
  have written : ∀ key value expireAtMs,
      (store.setAbsolute key value expireAtMs).2.records =
        store.records ++ [.setEx key value expireAtMs] := by
    intro key value expireAtMs
    rw [KvStore.records_of_aof (KvStore.setAbsolute_effect attached key value expireAtMs).1,
      KvStore.records_of_aof attached]
    rfl
  rcases call with ⟨op, now, later⟩
  cases op with
  | setEx key value ttlS =>
      rcases buries with ⟨accepted, passed, entry, present, alive⟩
      rcases admissible.deadline (by simp [Op.refused, accepted]) with ⟨positive, bounded⟩
      simp only [KvStore.exec, KvStore.setEx, not_le.mpr accepted, if_false, Prod.map_snd, id_eq,
        written, deadlineAt_eq positive bounded] at sound
      exact journaled.not_soundly_of_passed le present alive positive passed complete sound
  | setAbsolute key value expireAtMs =>
      rcases buries with ⟨passed, entry, present, alive⟩
      rcases admissible.deadline rfl with ⟨positive, -⟩
      simp only [KvStore.exec, Prod.map_snd, id_eq, written] at sound
      exact journaled.not_soundly_of_passed le present alive positive passed complete sound
  | set | get | del | expire | expireAt | persist | ttl | count | onTtlExpired => exact buries

theorem not_revives_of_completely (journaled : Journaled start store)
    (admissible : call.Admissible) (sound : RecoversSoundly restart store.records)
    (complete : RecoversCompletely restart (store.exec call).2.records) :
    ¬call.Revives restart store := by
  intro revives
  rcases journaled.attached with ⟨writer, attached⟩
  have written : ∀ key expireAtMs reading entry, store.find key = some entry →
      entry.live reading = true → (store.expireAt key expireAtMs reading).2.records =
        store.records ++ [.expire key expireAtMs] := by
    intro key expireAtMs reading entry present alive
    rcases KvStore.expireAt_effect attached key expireAtMs reading with
      ⟨-, -, missing⟩ | ⟨logged, -⟩
    · rw [missing entry present] at alive
      exact Bool.noConfusion alive
    · rw [KvStore.records_of_aof logged, KvStore.records_of_aof attached]
      rfl
  rcases call with ⟨op, now, later⟩
  cases op with
  | expire key ttlS =>
      rcases revives with ⟨accepted, future, entry, present, alive, dead⟩
      rcases admissible.deadline (by simp [Op.refused, accepted]) with ⟨positive, bounded⟩
      simp only [KvStore.exec, KvStore.expire, not_le.mpr accepted, if_false, Prod.map_snd, id_eq,
        written key _ later entry present alive, deadlineAt_eq positive bounded] at complete
      exact journaled.not_completely_of_future present dead future sound complete
  | expireAt key expireAtMs =>
      rcases revives with ⟨future, entry, present, alive, dead⟩
      simp only [KvStore.exec, Prod.map_snd, id_eq,
        written key expireAtMs now entry present alive] at complete
      exact journaled.not_completely_of_future present dead future sound complete
  | set | setEx | setAbsolute | get | del | persist | ttl | count | onTtlExpired => exact revives

section Runs

variable {Holds Kept : List Record → Prop} {Harmless Spared : KvStore → TimedOp → Prop}
  (keeps : ∀ {start : ℤ} {store : KvStore} {call : TimedOp}, Journaled start store →
    start ≤ restart → call.now ≤ call.later → call.Admissible → Harmless store call →
    Holds store.records → Holds (store.exec call).2.records)

include keeps

/-- What every harmless call keeps, a run of harmless calls keeps. -/
theorem keeps_run (journaled : Journaled start store) {calls : List TimedOp}
    (chronological : Chronological start calls) (admissible : ∀ call ∈ calls, call.Admissible)
    (le : lastReading start calls ≤ restart) (harmless : Throughout Harmless store calls)
    (holds : Holds store.records) : Holds (store.run calls).records := by
  induction calls generalizing start store with
  | nil => exact holds
  | cons call calls inductionHypothesis =>
      have start_le := (le_lastReading chronological).trans le
      rcases chronological with ⟨before, ordered, rest⟩
      have admissibleCall := admissible call (by simp)
      exact inductionHypothesis (journaled.exec before ordered admissibleCall) rest
        (fun other mem => admissible other (by simp [mem])) le harmless.2
        (keeps journaled start_le ordered admissibleCall harmless.1 holds)

/-- If a call that is not spared shows in the log behind it, and no stage of a run of harmless
calls shows one, all calls of the run are spared. -/
theorem spared_run
    (shows : ∀ {start : ℤ} {store : KvStore} {call : TimedOp}, Journaled start store →
      start ≤ restart → call.Admissible → Holds store.records →
      Kept (store.exec call).2.records → Spared store call)
    (journaled : Journaled start store) {calls : List TimedOp}
    (chronological : Chronological start calls) (admissible : ∀ call ∈ calls, call.Admissible)
    (le : lastReading start calls ≤ restart) (harmless : Throughout Harmless store calls)
    (holds : Holds store.records)
    (kept : ∀ made, made <+: calls → Kept (store.run made).records) :
    Throughout Spared store calls := by
  induction calls generalizing start store with
  | nil => trivial
  | cons call calls inductionHypothesis =>
      have start_le := (le_lastReading chronological).trans le
      rcases chronological with ⟨before, ordered, rest⟩
      have admissibleCall := admissible call (by simp)
      constructor
      · exact shows journaled start_le admissibleCall holds (kept [call] (by simp))
      · exact inductionHypothesis (journaled.exec before ordered admissibleCall) rest
          (fun other mem => admissible other (by simp [mem])) le harmless.2
          (keeps journaled start_le ordered admissibleCall harmless.1 holds)
          fun made initial => kept (call :: made) (List.cons_prefix_cons.mpr ⟨rfl, initial⟩)

end Runs

end Journaled

/-! ## Recovery of whole runs -/

/-- Every key that is live in the store recovered at `restart` is live in the
original with the same value and deadline. -/
def NothingResurrected (restart : ℤ) (original : KvStore) : Prop :=
  ∀ key entry, (recover restart (fileBytes original.records)).find key = some entry →
    entry.live restart = true → original.find key = some entry

/-- Every key that is live in the original at `restart` is live in the recovered
store with the same value and deadline. -/
def NothingLost (restart : ℤ) (original : KvStore) : Prop :=
  ∀ key entry, original.find key = some entry → entry.live restart = true →
    (recover restart (fileBytes original.records)).find key = some entry

theorem live_of_recoverLog {now : ℤ} {records : List Record} {key : Bytes} {entry : Entry}
    (recovered : recoverLog now records key = some entry) : entry.live now = true := by
  induction records using List.reverseRecOn generalizing key entry with
  | nil => simp [recoverLog] at recovered
  | append_singleton records record inductionHypothesis =>
      rw [recoverLog_append_singleton, Record.recover, Function.update_apply] at recovered
      split at recovered
      · cases record with
        | set other value =>
            cases recovered
            rfl
        | setEx other value expireAtMs =>
            simp only [Record.recoverSlot] at recovered
            split at recovered
            · exact inductionHypothesis recovered
            · rename_i future
              cases recovered
              exact live_of_future (not_le.mp future)
        | del other => cases recovered
        | expire other expireAtMs =>
            simp only [Record.recoverSlot] at recovered
            split at recovered
            · cases recovered
            · rename_i future
              rcases Option.map_eq_some_iff.mp recovered with ⟨previous, -, rfl⟩
              exact live_of_future (not_le.mp future)
      · exact inductionHypothesis recovered

namespace Journaled

variable {start restart : ℤ} {store : KvStore}

theorem nothingResurrected_iff (journaled : Journaled start store) (le : start ≤ restart) :
    NothingResurrected restart store ↔ RecoversSoundly restart store.records := by
  rw [NothingResurrected, find_recover journaled.recordsFit]
  constructor
  · intro kept key entry recovered
    have alive := live_of_recoverLog recovered
    rw [journaled.visible_eq le]
    exact visible_eq_some.mpr ⟨kept key entry recovered alive, alive⟩
  · intro sound key entry recovered alive
    have seen := sound key entry recovered
    rw [journaled.visible_eq le] at seen
    exact (visible_eq_some.mp seen).1

theorem nothingLost_iff (journaled : Journaled start store) (le : start ≤ restart) :
    NothingLost restart store ↔ RecoversCompletely restart store.records := by
  rw [NothingLost, find_recover journaled.recordsFit]
  constructor
  · intro kept key entry seen
    rw [journaled.visible_eq le] at seen
    rcases visible_eq_some.mp seen with ⟨present, alive⟩
    exact kept key entry present alive
  · intro complete key entry present alive
    apply complete key entry
    rw [journaled.visible_eq le]
    exact visible_eq_some.mpr ⟨present, alive⟩

end Journaled

section Recovery

variable {nShards : ℕ} (powerOfTwo : nShards.isPowerOfTwo) (enableTtl : Bool)
  {start restart : ℤ} {calls : List TimedOp}

/-- The initial parts of a run are recovered as well. -/
theorem journaled_of_initial (chronological : Chronological start calls)
    (admissible : ∀ call ∈ calls, call.Admissible) {made : List TimedOp}
    (initial : made <+: calls) :
    Journaled (lastReading start made)
        ((KvStore.empty powerOfTwo (some {}) enableTtl).run made) ∧
      lastReading start made ≤ lastReading start calls := by
  rcases initial with ⟨rest, rfl⟩
  rcases chronological_append.mp chronological with ⟨earlier, remaining⟩
  refine ⟨(Journaled.empty powerOfTwo enableTtl start).run earlier
    fun call mem => admissible call (by simp [mem]), ?_⟩
  have last_eq : lastReading start (made ++ rest) = lastReading (lastReading start made) rest := by
    simp [lastReading]
  rw [last_eq]
  exact le_lastReading remaining

/-- Recovery resurrects nothing in a run that never buries a key.  If the run revives
no key either, it is exactly the absence of burials that makes every stage of the run
recover without resurrection. -/
theorem nothingResurrected_run (chronological : Chronological start calls)
    (admissible : ∀ call ∈ calls, call.Admissible) (le : lastReading start calls ≤ restart) :
    let fresh := KvStore.empty powerOfTwo (some {}) enableTtl
    (Throughout (fun current call => ¬call.Buries restart current) fresh calls →
        NothingResurrected restart (fresh.run calls)) ∧
      (Throughout (fun current call => ¬call.Revives restart current) fresh calls →
        (∀ made, made <+: calls → NothingResurrected restart (fresh.run made)) →
        Throughout (fun current call => ¬call.Buries restart current) fresh calls) := by
  intro fresh
  have journaled : Journaled start fresh := Journaled.empty powerOfTwo enableTtl start
  constructor
  · intro harmless
    rw [(journaled.run chronological admissible).nothingResurrected_iff le]
    exact Journaled.keeps_run Journaled.soundly_exec journaled chronological admissible le harmless
      (recoversSoundly_nil restart)
  · intro noRevival kept
    apply Journaled.spared_run (fun journaled _ => journaled.completely_exec)
      Journaled.not_buries_of_soundly journaled chronological admissible le noRevival
      (recoversCompletely_nil restart)
    intro made initial
    rcases journaled_of_initial powerOfTwo enableTtl chronological admissible initial with
      ⟨stage, stage_le⟩
    exact (stage.nothingResurrected_iff (stage_le.trans le)).mp (kept made initial)

theorem nothingResurrected_run_overwrite :
    NothingResurrected 6000 ((KvStore.empty KvStore.defaultShards (some {}) true).run
      [⟨.set (ascii "k") (ascii "old"), 5, 5⟩, ⟨.setEx (ascii "k") (ascii "new") 10, 5, 5⟩]) := by
  refine (@nothingResurrected_run _ KvStore.defaultShards true 5 6000 _ ?_ ?_ ?_).1 ?_
  · decide
  · decide
  · decide
  · simp [Throughout, TimedOp.Buries, exactDeadline]

/-- A skipped `SET … PXAT` brings the overwritten value back. -/
theorem not_nothingResurrected :
    ¬∀ {nShards : ℕ} (powerOfTwo : nShards.isPowerOfTwo) (enableTtl : Bool) (start restart : ℤ)
      (calls : List TimedOp), Chronological start calls → (∀ call ∈ calls, call.Admissible) →
      lastReading start calls ≤ restart →
      NothingResurrected restart ((KvStore.empty powerOfTwo (some {}) enableTtl).run calls) := by
  intro resurrects
  have kept := resurrects KvStore.defaultShards true 0 2000
    [⟨.set (ascii "k") (ascii "old"), 0, 0⟩, ⟨.setEx (ascii "k") (ascii "new") 1, 0, 0⟩]
    (by decide) (by decide) (by decide)
    (ascii "k") { value := ascii "old" } (by decide +kernel) (by decide)
  exact absurd kept (by decide +kernel)

/-- Recovery loses nothing in a run that never revives a key.  If the run buries no
key either, it is exactly the absence of revivals that makes every stage of the run
recover without loss. -/
theorem nothingLost_run (chronological : Chronological start calls)
    (admissible : ∀ call ∈ calls, call.Admissible) (le : lastReading start calls ≤ restart) :
    let fresh := KvStore.empty powerOfTwo (some {}) enableTtl
    (Throughout (fun current call => ¬call.Revives restart current) fresh calls →
        NothingLost restart (fresh.run calls)) ∧
      (Throughout (fun current call => ¬call.Buries restart current) fresh calls →
        (∀ made, made <+: calls → NothingLost restart (fresh.run made)) →
        Throughout (fun current call => ¬call.Revives restart current) fresh calls) := by
  intro fresh
  have journaled : Journaled start fresh := Journaled.empty powerOfTwo enableTtl start
  constructor
  · intro harmless
    rw [(journaled.run chronological admissible).nothingLost_iff le]
    exact Journaled.keeps_run (fun journaled _ => journaled.completely_exec) journaled chronological
      admissible le harmless (recoversCompletely_nil restart)
  · intro noBurial kept
    apply Journaled.spared_run Journaled.soundly_exec
      (fun journaled _ => journaled.not_revives_of_completely) journaled chronological admissible
      le noBurial (recoversSoundly_nil restart)
    intro made initial
    rcases journaled_of_initial powerOfTwo enableTtl chronological admissible initial with
      ⟨stage, stage_le⟩
    exact (stage.nothingLost_iff (stage_le.trans le)).mp (kept made initial)

theorem nothingLost_run_shortened :
    NothingLost 6000 ((KvStore.empty KvStore.defaultShards (some {}) true).run
      [⟨.set (ascii "k") (ascii "v"), 5, 5⟩, ⟨.expire (ascii "k") 10, 5, 5⟩]) := by
  refine (@nothingLost_run _ KvStore.defaultShards true 5 6000 _ ?_ ?_ ?_).1 ?_
  · decide
  · decide
  · decide
  · simp [Throughout, TimedOp.Revives, exactDeadline, KvStore.exec, KvStore.set, Entry.live]

/-- A passed `PEXPIREAT` deletes a key whose deadline was moved on afterwards. -/
theorem not_nothingLost :
    ¬∀ {nShards : ℕ} (powerOfTwo : nShards.isPowerOfTwo) (enableTtl : Bool) (start restart : ℤ)
      (calls : List TimedOp), Chronological start calls → (∀ call ∈ calls, call.Admissible) →
      lastReading start calls ≤ restart →
      NothingLost restart ((KvStore.empty powerOfTwo (some {}) enableTtl).run calls) := by
  intro keeps
  have lost := keeps KvStore.defaultShards true 0 2000
    [⟨.set (ascii "k") (ascii "v"), 0, 0⟩, ⟨.expire (ascii "k") 1, 0, 0⟩,
      ⟨.expire (ascii "k") 100, 500, 500⟩]
    (by decide) (by decide) (by decide)
    (ascii "k") { value := ascii "v", expireAtMs := 100500 } (by decide +kernel) (by decide)
  exact absurd lost (by decide +kernel)

end Recovery

end RedisCpp.Store
