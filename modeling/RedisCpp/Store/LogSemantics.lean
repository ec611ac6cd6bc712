import RedisCpp.Store.KvStore
import RedisCpp.Lib.ExpiringMap

/-!
# Plain meaning of the log

A log record read literally is a change of a map: `SET` stores a value without a
deadline, `SET … PXAT` one with a deadline, `DEL` removes, and `PEXPIREAT` moves
the deadline of a key that is present.  `applyLog` is the map a whole log denotes.

A lock-protected section changes the memory in one of two ways.  Either it does to
the memory what a record does to the map, or it drops an expired entry, which is
never logged.  The lemmas of this module say so for each section and for each
operation; the agreement of memory and log follows from nothing else.
-/

namespace RedisCpp.Store

/-- The contents of a store: what `find` returns for each key. -/
abbrev Contents := Bytes → Option Entry

/-- The plain meaning of a record for the entry of its key. -/
def Record.applySlot (slot : Option Entry) : Record → Option Entry
  | .set _ value => some { value }
  | .setEx _ value expireAtMs => some { value, expireAtMs }
  | .del _ => none
  | .expire _ expireAtMs => slot.map fun entry => { entry with expireAtMs }

/-- The plain meaning of one record. -/
def Record.apply (contents : Contents) (record : Record) : Contents :=
  Function.update contents record.key (record.applySlot (contents record.key))

/-- The contents that a log denotes. -/
def applyLog (records : List Record) : Contents :=
  records.foldl Record.apply fun _ => none

@[simp]
theorem applyLog_append_singleton (records : List Record) (record : Record) :
    applyLog (records ++ [record]) = record.apply (applyLog records) := by
  simp [applyLog]

theorem Entry.antitone_live : ExpiringMap.Antitone Entry.live :=
  fun _ _ _ le alive => Entry.live_of_le le alive

/-- A record applied to both sides keeps the agreement, provided that an expiry is
given to a key that the memory holds. -/
theorem purged_apply {now : ℤ} {memory reference : Contents}
    (purged : ExpiringMap.Purged Entry.live now memory reference) {record : Record}
    (present : ∀ key expireAtMs, record = .expire key expireAtMs → (memory key).isSome) :
    ExpiringMap.Purged Entry.live now (record.apply memory) (record.apply reference) := by
  have slot_eq : record.applySlot (memory record.key) =
      record.applySlot (reference record.key) := by
    cases record with
    | set key value => rfl
    | setEx key value expireAtMs => rfl
    | del key => rfl
    | expire key expireAtMs =>
        rcases Option.isSome_iff_exists.mp (present key expireAtMs rfl) with ⟨entry, held⟩
        simp only [Record.key, held, purged.reference_eq held]
  rw [Record.apply, Record.apply, slot_eq]
  exact purged.update record.key _

/-- Only `DEL` empties a slot. -/
theorem eq_none_of_apply {contents : Contents} {record : Record} {key : Bytes}
    (keeps : ∀ removed, record ≠ .del removed) (absent : record.apply contents key = none) :
    contents key = none := by
  rw [Record.apply, Function.update_apply] at absent
  split at absent
  · rename_i same
    cases record with
    | set | setEx => cases absent
    | del removed => exact absurd rfl (keeps removed)
    | expire other expireAtMs =>
        rw [same]
        exact Option.map_eq_none_iff.mp absent
  · exact absent

/-- At most one entry is dropped, and only if it has expired. -/
def Drops (now : ℤ) (before after : Contents) : Prop :=
  after = before ∨ ∃ key entry, before key = some entry ∧ entry.live now = false ∧
    after = Function.update before key none

namespace Drops

variable {now : ℤ} {before after reference : Contents}

theorem refl (now : ℤ) (contents : Contents) : Drops now contents contents :=
  Or.inl rfl

theorem later {later : ℤ} (le : now ≤ later) (drops : Drops now before after) :
    Drops later before after := by
  rcases drops with same | ⟨key, entry, present, dead, dropped⟩
  · exact Or.inl same
  · refine Or.inr ⟨key, entry, present, ?_, dropped⟩
    by_contra alive
    rw [Entry.live_of_le le (by simpa using alive)] at dead
    exact Bool.noConfusion dead

theorem purged (drops : Drops now before after)
    (agree : ExpiringMap.Purged Entry.live now before reference) :
    ExpiringMap.Purged Entry.live now after reference := by
  rcases drops with rfl | ⟨key, entry, present, dead, rfl⟩
  · exact agree
  · exact agree.purge present dead

/-- A live entry is never dropped. -/
theorem find_eq (drops : Drops now before after) {key : Bytes} {entry : Entry}
    (present : before key = some entry) (alive : entry.live now = true) :
    after key = some entry := by
  rcases drops with rfl | ⟨dropped, found, held, dead, rfl⟩
  · exact present
  · by_cases same : key = dropped
    · subst dropped
      rw [present] at held
      cases held
      rw [alive] at dead
      exact Bool.noConfusion dead
    · rw [Function.update_of_ne same, present]

/-- What is left was there before. -/
theorem before_eq (drops : Drops now before after) {key : Bytes} {entry : Entry}
    (left : after key = some entry) : before key = some entry := by
  rcases drops with rfl | ⟨dropped, found, -, -, rfl⟩
  · exact left
  · by_cases same : key = dropped
    · rw [same, Function.update_self] at left
      cases left
    · rwa [Function.update_of_ne same] at left

end Drops

/-! ## What the sections do to the contents -/

namespace KvStore

variable (store : KvStore)

theorem find_put_eq_update (key : Bytes) (entry : Entry) :
    (store.put key entry).find = Function.update store.find key (some entry) := by
  funext other
  by_cases same : other = key
  · simp [same]
  · simp [same]

theorem find_erase_eq_update (key : Bytes) :
    (store.erase key).find = Function.update store.find key none := by
  funext other
  by_cases same : other = key
  · simp [same]
  · simp [same]

@[simp]
theorem find_setInternal (key value : Bytes) (expireAtMs : ℤ) :
    (store.setInternal key value expireAtMs).find =
      Function.update store.find key (some { value, expireAtMs }) := by
  rw [setInternal]
  split
  · rw [find_schedule, find_put_eq_update]
  · rw [find_put_eq_update]

theorem find_set (key value : Bytes) :
    (store.set key value).2.find = Function.update store.find key (some { value }) := by
  simp [set]

theorem find_del (key : Bytes) : (store.del key).2.find = Function.update store.find key none := by
  simp [del, find_erase_eq_update]

@[simp]
theorem aof_setInternal (key value : Bytes) (expireAtMs : ℤ) :
    (store.setInternal key value expireAtMs).aof = store.aof := by
  rw [setInternal]
  split
  · rfl
  · rfl

theorem drops_reap (key : Bytes) (now : ℤ) : Drops now store.find (store.reap key now).find := by
  rw [reap]
  cases present : store.find key with
  | none => exact Drops.refl now _
  | some entry =>
      by_cases alive : entry.live now = true
      · simpa [alive] using Drops.refl now store.find
      · simp only [Bool.not_eq_true] at alive
        refine Or.inr ⟨key, entry, present, alive, ?_⟩
        simp [alive, find_erase_eq_update]

@[simp]
theorem aof_reap (key : Bytes) (now : ℤ) : (store.reap key now).aof = store.aof := by
  rw [reap]
  split
  · rfl
  · split
    · rfl
    · rfl

@[simp]
theorem ttlHeap_reap (key : Bytes) (now : ℤ) :
    (store.reap key now).ttlHeap = store.ttlHeap := by
  rw [reap]
  split
  · rfl
  · split
    · rfl
    · rfl

/-- `expire` and `expire_at` either fail, dropping at most an expired entry, or do
what their record says to a live entry. -/
theorem assignDeadline_cases (key : Bytes) (expireAtMs now : ℤ) :
    ((store.assignDeadline key expireAtMs now).1 = false ∧
        Drops now store.find (store.assignDeadline key expireAtMs now).2.find ∧
        ∀ entry, store.find key = some entry → entry.live now = false) ∨
      (store.assignDeadline key expireAtMs now).1 = true ∧
        (store.assignDeadline key expireAtMs now).2.find =
          Record.apply store.find (.expire key expireAtMs) ∧
        ∃ entry, store.find key = some entry ∧ entry.live now = true := by
  rw [assignDeadline]
  cases present : store.find key with
  | none =>
      refine Or.inl ⟨rfl, Drops.refl now _, ?_⟩
      simp
  | some entry =>
      by_cases alive : entry.live now = true
      · refine Or.inr ⟨by simp [alive], ?_, entry, rfl, alive⟩
        simp [alive, Record.apply, Record.applySlot, Record.key, present, find_put_eq_update]
      · simp only [Bool.not_eq_true] at alive
        refine Or.inl ⟨by simp [alive], Or.inr ⟨key, entry, present, alive, ?_⟩, ?_⟩
        · simp [alive, find_erase_eq_update]
        · intro found equal
          cases equal
          exact alive

theorem drops_assignDeadline {key : Bytes} {expireAtMs now : ℤ}
    (failed : (store.assignDeadline key expireAtMs now).1 = false) :
    Drops now store.find (store.assignDeadline key expireAtMs now).2.find := by
  rcases store.assignDeadline_cases key expireAtMs now with ⟨-, drops, -⟩ | ⟨succeeded, -⟩
  · exact drops
  · rw [failed] at succeeded
    cases succeeded

theorem find_assignDeadline {key : Bytes} {expireAtMs now : ℤ}
    (succeeded : (store.assignDeadline key expireAtMs now).1 = true) :
    (store.assignDeadline key expireAtMs now).2.find =
        Record.apply store.find (.expire key expireAtMs) ∧
      ∃ entry, store.find key = some entry ∧ entry.live now = true := by
  rcases store.assignDeadline_cases key expireAtMs now with ⟨failed, -⟩ | ⟨-, applied⟩
  · rw [failed] at succeeded
    cases succeeded
  · exact applied

@[simp]
theorem aof_assignDeadline (key : Bytes) (expireAtMs now : ℤ) :
    (store.assignDeadline key expireAtMs now).2.aof = store.aof := by
  rw [assignDeadline]
  split
  · rfl
  · split
    · rfl
    · rfl

@[simp]
theorem ttlHeap_assignDeadline (key : Bytes) (expireAtMs now : ℤ) :
    (store.assignDeadline key expireAtMs now).2.ttlHeap = store.ttlHeap := by
  rw [assignDeadline]
  split
  · rfl
  · split
    · rfl
    · rfl

/-- `persist` either fails, dropping at most an expired entry, or stores the value
again without a deadline. -/
theorem clearDeadline_cases (key : Bytes) (now : ℤ) :
    ((store.clearDeadline key now).1 = none ∧
        Drops now store.find (store.clearDeadline key now).2.find) ∨
      ∃ entry, store.find key = some entry ∧ entry.live now = true ∧
        (store.clearDeadline key now).1 = some entry.value ∧
        (store.clearDeadline key now).2.find = Record.apply store.find (.set key entry.value) := by
  rw [clearDeadline]
  cases present : store.find key with
  | none => exact Or.inl ⟨rfl, Drops.refl now _⟩
  | some entry =>
      by_cases persistent : entry.expireAtMs = -1
      · exact Or.inl ⟨by simp [persistent], by simpa [persistent] using Drops.refl now store.find⟩
      · by_cases alive : entry.live now = true
        · refine Or.inr ⟨entry, rfl, alive, by simp [persistent, alive], ?_⟩
          simp [persistent, alive, Record.apply, Record.applySlot, Record.key, find_put_eq_update]
        · simp only [Bool.not_eq_true] at alive
          refine Or.inl ⟨by simp [persistent, alive], Or.inr ⟨key, entry, present, alive, ?_⟩⟩
          simp [persistent, alive, find_erase_eq_update]

theorem drops_clearDeadline {key : Bytes} {now : ℤ}
    (failed : (store.clearDeadline key now).1 = none) :
    Drops now store.find (store.clearDeadline key now).2.find := by
  rcases store.clearDeadline_cases key now with ⟨-, drops⟩ | ⟨entry, -, -, cleared, -⟩
  · exact drops
  · rw [failed] at cleared
    cases cleared

theorem find_clearDeadline {key value : Bytes} {now : ℤ}
    (cleared : (store.clearDeadline key now).1 = some value) :
    (store.clearDeadline key now).2.find = Record.apply store.find (.set key value) := by
  rcases store.clearDeadline_cases key now with ⟨failed, -⟩ | ⟨entry, -, -, value_eq, applied⟩
  · rw [failed] at cleared
    cases cleared
  · rw [cleared] at value_eq
    cases value_eq
    exact applied

@[simp]
theorem aof_clearDeadline (key : Bytes) (now : ℤ) :
    (store.clearDeadline key now).2.aof = store.aof := by
  rw [clearDeadline]
  split
  · rfl
  · split
    · rfl
    · split
      · rfl
      · rfl

@[simp]
theorem ttlHeap_clearDeadline (key : Bytes) (now : ℤ) :
    (store.clearDeadline key now).2.ttlHeap = store.ttlHeap := by
  rw [clearDeadline]
  split
  · rfl
  · split
    · rfl
    · split
      · rfl
      · rfl

end KvStore

/-! ## What the operations do to contents and log -/

/-- The record that a call writes, with the state in which it writes it. -/
inductive Writes (store : KvStore) (now later : ℤ) : Op → Record → Prop where
  | set {key value : Bytes} : Writes store now later (.set key value) (.set key value)
  | setEx {key value : Bytes} {ttlS : ℤ} (accepted : 0 < ttlS) :
      Writes store now later (.setEx key value ttlS)
        (.setEx key value (KvStore.deadlineAt now ttlS))
  | setAbsolute {key value : Bytes} {expireAtMs : ℤ} :
      Writes store now later (.setAbsolute key value expireAtMs) (.setEx key value expireAtMs)
  | del {key : Bytes} : Writes store now later (.del key) (.del key)
  | expire {key : Bytes} {ttlS : ℤ} {entry : Entry} (accepted : 0 < ttlS)
      (present : store.find key = some entry) (alive : entry.live later = true) :
      Writes store now later (.expire key ttlS) (.expire key (KvStore.deadlineAt now ttlS))
  | expireAt {key : Bytes} {expireAtMs : ℤ} {entry : Entry}
      (present : store.find key = some entry) (alive : entry.live now = true) :
      Writes store now later (.expireAt key expireAtMs) (.expire key expireAtMs)
  | persist {key : Bytes} {entry : Entry} (present : store.find key = some entry)
      (alive : entry.live now = true) :
      Writes store now later (.persist key) (.set key entry.value)

namespace KvStore

variable {store : KvStore} {writer : AofWriter}

theorem records_of_aof (attached : store.aof = some writer) : store.records = writer.records := by
  rw [records, attached]

theorem aof_log_of_attached (attached : store.aof = some writer) (record : Record) :
    (store.log record).aof = some (writer.writeResp record) := by
  simp [attached]

theorem records_log (attached : store.aof = some writer) (record : Record) :
    (store.log record).records = store.records ++ [record] := by
  simp [records, log, attached, AofWriter.writeResp]

theorem setAbsolute_effect (attached : store.aof = some writer) (key value : Bytes)
    (expireAtMs : ℤ) :
    (store.setAbsolute key value expireAtMs).2.aof =
        some (writer.writeResp (.setEx key value expireAtMs)) ∧
      (store.setAbsolute key value expireAtMs).2.find =
        Record.apply store.find (.setEx key value expireAtMs) := by
  simp [setAbsolute, attached, Record.apply, Record.applySlot, Record.key]

theorem expireAt_effect (attached : store.aof = some writer) (key : Bytes)
    (expireAtMs now : ℤ) :
    ((store.expireAt key expireAtMs now).2.aof = some writer ∧
        Drops now store.find (store.expireAt key expireAtMs now).2.find ∧
        ∀ entry, store.find key = some entry → entry.live now = false) ∨
      (store.expireAt key expireAtMs now).2.aof =
          some (writer.writeResp (.expire key expireAtMs)) ∧
        (store.expireAt key expireAtMs now).2.find =
          Record.apply store.find (.expire key expireAtMs) ∧
        ∃ entry, store.find key = some entry ∧ entry.live now = true := by
  have kept := store.aof_assignDeadline key expireAtMs now
  rcases store.assignDeadline_cases key expireAtMs now with
    ⟨failed, drops, missing⟩ | ⟨succeeded, applied, found⟩
  · rcases section_eq : store.assignDeadline key expireAtMs now with ⟨success, after⟩
    simp only [section_eq] at failed drops kept
    subst success
    left
    simp only [expireAt, section_eq]
    exact ⟨by rw [kept, attached], drops, missing⟩
  · rcases section_eq : store.assignDeadline key expireAtMs now with ⟨success, after⟩
    simp only [section_eq] at succeeded applied kept
    subst success
    right
    simp only [expireAt, section_eq]
    exact ⟨by simp [kept, attached], applied, found⟩

theorem persist_effect (attached : store.aof = some writer) (key : Bytes) (now : ℤ) :
    ((store.persist key now).2.aof = some writer ∧
        Drops now store.find (store.persist key now).2.find) ∨
      ∃ entry, store.find key = some entry ∧ entry.live now = true ∧
        (store.persist key now).2.aof = some (writer.writeResp (.set key entry.value)) ∧
        (store.persist key now).2.find = Record.apply store.find (.set key entry.value) := by
  have kept := store.aof_clearDeadline key now
  rcases section_eq : store.clearDeadline key now with ⟨logged, after⟩
  rcases store.clearDeadline_cases key now with
    ⟨failed, drops⟩ | ⟨entry, present, alive, succeeded, applied⟩
  · simp only [section_eq] at failed drops kept
    subst logged
    left
    simp only [persist, section_eq]
    exact ⟨by rw [kept, attached], drops⟩
  · simp only [section_eq] at succeeded applied kept
    subst logged
    refine Or.inr ⟨entry, present, alive, ?_, ?_⟩
    · simp [persist, section_eq, kept, attached]
    · simpa [persist, section_eq] using applied

/-- One call: either one record is written and the contents change by it, or no
record is written and at most an expired entry is dropped. -/
theorem exec_effect (attached : store.aof = some writer) {call : TimedOp}
    (ordered : call.now ≤ call.later) :
    ((store.exec call).2.aof = some writer ∧
        Drops call.later store.find (store.exec call).2.find) ∨
      ∃ record, Writes store call.now call.later call.op record ∧
        (store.exec call).2.aof = some (writer.writeResp record) ∧
        (store.exec call).2.find = record.apply store.find := by
  rcases call with ⟨op, now, later⟩
  simp only at ordered
  cases op with
  | set key value =>
      refine Or.inr ⟨.set key value, .set, ?_, ?_⟩
      · simp [exec, set, attached]
      · simp [exec, set, Record.apply, Record.applySlot, Record.key]
  | setEx key value ttlS =>
      by_cases refused : ttlS ≤ 0
      · simp only [exec, setEx, refused, if_true]
        exact Or.inl ⟨attached, Drops.refl later _⟩
      · simp only [exec, setEx, refused, if_false]
        exact Or.inr ⟨_, .setEx (by omega), setAbsolute_effect attached key value _⟩
  | setAbsolute key value expireAtMs =>
      exact Or.inr ⟨_, .setAbsolute, setAbsolute_effect attached key value expireAtMs⟩
  | get key =>
      left
      simp only [exec, get]
      cases store.addGet.getShared key now with
      | missing => exact ⟨attached, Drops.refl later _⟩
      | hit value => exact ⟨attached, Drops.refl later _⟩
      | stale =>
          refine ⟨?_, store.addGet.drops_reap key later⟩
          rw [Prod.map_snd, id_eq, aof_reap]
          exact attached
  | del key =>
      refine Or.inr ⟨.del key, .del, ?_, ?_⟩
      · simp [exec, del, attached]
      · simp [exec, del, Record.apply, Record.applySlot, Record.key, find_erase_eq_update]
  | expire key ttlS =>
      by_cases refused : ttlS ≤ 0
      · simp only [exec, expire, refused, if_true]
        exact Or.inl ⟨attached, Drops.refl later _⟩
      · simp only [exec, expire, refused, if_false]
        rcases expireAt_effect attached key (deadlineAt now ttlS) later with
          ⟨kept, drops, -⟩ | ⟨logged, applied, entry, present, alive⟩
        · exact Or.inl ⟨kept, drops⟩
        · exact Or.inr ⟨_, .expire (by omega) present alive, logged, applied⟩
  | expireAt key expireAtMs =>
      rcases expireAt_effect attached key expireAtMs now with
        ⟨kept, drops, -⟩ | ⟨logged, applied, entry, present, alive⟩
      · exact Or.inl ⟨kept, drops.later ordered⟩
      · exact Or.inr ⟨_, .expireAt present alive, logged, applied⟩
  | persist key =>
      rcases persist_effect attached key now with
        ⟨kept, drops⟩ | ⟨entry, present, alive, logged, applied⟩
      · exact Or.inl ⟨kept, drops.later ordered⟩
      · exact Or.inr ⟨_, .persist present alive, logged, applied⟩
  | ttl key => exact Or.inl ⟨attached, Drops.refl later _⟩
  | count => exact Or.inl ⟨attached, Drops.refl later _⟩
  | onTtlExpired key =>
      refine Or.inl ⟨?_, (store.drops_reap key now).later ordered⟩
      simp [exec, onTtlExpired, attached]

end KvStore

end RedisCpp.Store
