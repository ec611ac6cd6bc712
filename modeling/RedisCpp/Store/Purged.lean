import RedisCpp.Store.LogSemantics
import RedisCpp.Store.Reference

/-!
# Stores that differ by expired entries

A store may be another one with some of the entries removed that have expired.  Every
operation but `del` returns the same on both, and they differ by expired entries only
afterwards: whatever an operation decides, it decides by the deadline.
-/

namespace RedisCpp.Store

/-- The first store is the second one with some of the expired entries removed. -/
structure PurgedOf (reduced full : KvStore) (now : ℤ) : Prop where
  slots : ExpiringMap.Purged Entry.live now reduced.find full.find

namespace PurgedOf

open KvStore

variable {reduced full after other : KvStore} {now : ℤ} {key : Bytes}

theorem refl (store : KvStore) (now : ℤ) : PurgedOf store store now :=
  ⟨ExpiringMap.Purged.refl Entry.live now store.find⟩

theorem later (purged : PurgedOf reduced full now) {later : ℤ} (le : now ≤ later) :
    PurgedOf reduced full later :=
  ⟨purged.slots.later Entry.antitone_live le⟩

theorem of_find_eq (purged : PurgedOf reduced full now) (afterFind : after.find = reduced.find)
    (otherFind : other.find = full.find) : PurgedOf after other now := by
  constructor
  rw [afterFind, otherFind]
  exact purged.slots

/-- Both stores write the same. -/
theorem write (purged : PurgedOf reduced full now) {slot : Option Entry}
    (afterFind : after.find = Function.update reduced.find key slot)
    (otherFind : other.find = Function.update full.find key slot) : PurgedOf after other now := by
  constructor
  rw [afterFind, otherFind]
  exact purged.slots.update key slot

/-- The full store drops what the reduced one has dropped before. -/
theorem erase_full (purged : PurgedOf reduced full now) (absent : reduced.find key = none) :
    PurgedOf reduced (full.erase key) now := by
  constructor
  rw [find_erase_eq_update]
  exact purged.slots.catchUp absent

/-- The reduced store drops an expired entry. -/
theorem reap_reduced (purged : PurgedOf reduced full now) (key : Bytes) :
    PurgedOf (reduced.reap key now) full now :=
  ⟨(drops_reap reduced key now).purged purged.slots⟩

/-! ## Sections -/

theorem put (purged : PurgedOf reduced full now) (key : Bytes) (entry : Entry) :
    PurgedOf (reduced.put key entry) (full.put key entry) now :=
  purged.write (find_put_eq_update reduced key entry) (find_put_eq_update full key entry)

theorem erase (purged : PurgedOf reduced full now) (key : Bytes) :
    PurgedOf (reduced.erase key) (full.erase key) now :=
  purged.write (find_erase_eq_update reduced key) (find_erase_eq_update full key)

theorem reap (purged : PurgedOf reduced full now) (key : Bytes) :
    PurgedOf (reduced.reap key now) (full.reap key now) now := by
  rcases purged.slots key with equal | ⟨absent, entry, present, dead⟩
  · cases found : full.find key with
    | none => simpa [KvStore.reap, equal, found] using purged
    | some entry =>
        by_cases alive : entry.live now = true
        · simpa [KvStore.reap, equal, found, alive] using purged
        · simp only [KvStore.reap, equal, found, Entry.expired_eq_not_live, alive, Bool.not_false,
            if_true]
          exact (purged.erase key).of_find_eq rfl rfl
  · simp only [KvStore.reap, absent, present, Entry.expired_eq_not_live, dead, Bool.not_false,
      if_true]
    exact (purged.erase_full absent).of_find_eq rfl rfl

/-- What the shared section of `get` answers, and that there is nothing to remove if the
reduced store has nothing. -/
theorem getShared (purged : PurgedOf reduced full now) (key : Bytes) :
    reduced.getShared key now = full.getShared key now ∨
      reduced.getShared key now = .missing ∧ full.getShared key now = .stale ∧
        reduced.find key = none := by
  rcases purged.slots key with equal | ⟨absent, entry, present, dead⟩
  · left
    simp only [KvStore.getShared, equal]
  · right
    simp [KvStore.getShared, absent, present, dead]

theorem assignDeadline (purged : PurgedOf reduced full now) (key : Bytes) (expireAtMs : ℤ) :
    (reduced.assignDeadline key expireAtMs now).1 = (full.assignDeadline key expireAtMs now).1 ∧
      PurgedOf (reduced.assignDeadline key expireAtMs now).2
        (full.assignDeadline key expireAtMs now).2 now := by
  rcases purged.slots key with equal | ⟨absent, entry, present, dead⟩
  · cases found : full.find key with
    | none => simpa [KvStore.assignDeadline, equal, found] using purged
    | some entry =>
        by_cases alive : entry.live now = true
        · simpa [KvStore.assignDeadline, equal, found, alive] using purged.put key _
        · simpa [KvStore.assignDeadline, equal, found, alive] using purged.erase key
  · simpa [KvStore.assignDeadline, absent, present, dead] using purged.erase_full absent

theorem clearDeadline (purged : PurgedOf reduced full now) (key : Bytes) :
    (reduced.clearDeadline key now).1 = (full.clearDeadline key now).1 ∧
      PurgedOf (reduced.clearDeadline key now).2 (full.clearDeadline key now).2 now := by
  rcases purged.slots key with equal | ⟨absent, entry, present, dead⟩
  · cases found : full.find key with
    | none => simpa [KvStore.clearDeadline, equal, found] using purged
    | some entry =>
        by_cases persistent : entry.expireAtMs = -1
        · simpa [KvStore.clearDeadline, equal, found, persistent] using purged
        · by_cases alive : entry.live now = true
          · simpa [KvStore.clearDeadline, equal, found, persistent, alive] using purged.put key _
          · simpa [KvStore.clearDeadline, equal, found, persistent, alive] using purged.erase key
  · have limited : entry.expireAtMs ≠ -1 := by
      intro persistent
      simp [Entry.live, persistent] at dead
    simpa [KvStore.clearDeadline, absent, present, limited, dead] using purged.erase_full absent

theorem ttl (purged : PurgedOf reduced full now) (key : Bytes) :
    reduced.ttl key now = full.ttl key now := by
  rcases purged.slots key with equal | ⟨absent, entry, present, dead⟩
  · simp only [KvStore.ttl, equal]
  · simp only [Entry.live, Bool.or_eq_false_iff, decide_eq_false_iff_not] at dead
    have passed : entry.expireAtMs - now ≤ 0 := by omega
    simp [KvStore.ttl, absent, present, dead.1, passed]

theorem count (purged : PurgedOf reduced full now) : reduced.count now = full.count now := by
  rw [count_eq_ncard, count_eq_ncard]
  congr 1
  ext key
  simp only [Set.mem_ofPred_eq]
  rcases purged.slots key with equal | ⟨absent, entry, present, dead⟩
  · rw [equal]
  · simp [absent, present, dead]

/-! ## Operations -/

theorem setInternal (purged : PurgedOf reduced full now) (key value : Bytes) (expireAtMs : ℤ) :
    PurgedOf (reduced.setInternal key value expireAtMs) (full.setInternal key value expireAtMs)
      now :=
  purged.write (find_setInternal reduced key value expireAtMs)
    (find_setInternal full key value expireAtMs)

theorem logged (purged : PurgedOf reduced full now) (record : Record) :
    PurgedOf (reduced.addSet.log record) (full.addSet.log record) now :=
  purged.of_find_eq rfl rfl

theorem set (purged : PurgedOf reduced full now) (key value : Bytes) :
    PurgedOf (reduced.set key value).2 (full.set key value).2 now := by
  simp only [KvStore.set]
  exact (purged.logged (.set key value)).setInternal key value (-1)

theorem setEx (purged : PurgedOf reduced full now) (key value : Bytes) (ttlS : ℤ) :
    (reduced.setEx key value ttlS now).1 = (full.setEx key value ttlS now).1 ∧
      PurgedOf (reduced.setEx key value ttlS now).2 (full.setEx key value ttlS now).2 now := by
  simp only [KvStore.setEx]
  split
  · exact ⟨rfl, purged⟩
  · exact ⟨rfl, (purged.logged (.setEx key value (deadlineAt now ttlS))).setInternal key value _⟩

theorem get (purged : PurgedOf reduced full now) (key : Bytes) {later : ℤ} (le : now ≤ later) :
    (reduced.get key now later).1 = (full.get key now later).1 ∧
      PurgedOf (reduced.get key now later).2 (full.get key now later).2 later := by
  have counted : PurgedOf reduced.addGet full.addGet now := purged.of_find_eq rfl rfl
  have after := counted.later le
  simp only [KvStore.get]
  rcases counted.getShared key with same | ⟨missing, stale, absent⟩
  · rw [same]
    cases full.addGet.getShared key now with
    | missing => exact ⟨rfl, after⟩
    | hit value => exact ⟨rfl, after⟩
    | stale => exact ⟨rfl, after.reap key⟩
  · rw [missing, stale]
    have kept : reduced.addGet.reap key later = reduced.addGet := by
      simp only [KvStore.reap, absent]
    refine ⟨rfl, ?_⟩
    have both := after.reap key
    rwa [kept] at both

theorem expire (purged : PurgedOf reduced full now) (key : Bytes) (ttlS : ℤ) {later : ℤ}
    (le : now ≤ later) :
    (reduced.expire key ttlS now later).1 = (full.expire key ttlS now later).1 ∧
      PurgedOf (reduced.expire key ttlS now later).2 (full.expire key ttlS now later).2 later := by
  have after := purged.later le
  simp only [KvStore.expire]
  split
  · exact ⟨rfl, after⟩
  · rcases after.assignDeadline key (deadlineAt now ttlS) with ⟨flag, kept⟩
    simp only [KvStore.expireAt]
    rcases reducedEq : reduced.assignDeadline key (deadlineAt now ttlS) later with ⟨left, store⟩
    rcases fullEq : full.assignDeadline key (deadlineAt now ttlS) later with ⟨right, other⟩
    rw [reducedEq, fullEq] at flag kept
    simp only at flag
    subst flag
    cases left with
    | false => exact ⟨rfl, kept⟩
    | true => exact ⟨rfl, kept.of_find_eq rfl rfl⟩

theorem persist (purged : PurgedOf reduced full now) (key : Bytes) :
    (reduced.persist key now).1 = (full.persist key now).1 ∧
      PurgedOf (reduced.persist key now).2 (full.persist key now).2 now := by
  rcases purged.clearDeadline key with ⟨logged, kept⟩
  simp only [KvStore.persist]
  rcases reducedEq : reduced.clearDeadline key now with ⟨left, store⟩
  rcases fullEq : full.clearDeadline key now with ⟨right, other⟩
  rw [reducedEq, fullEq] at logged kept
  simp only at logged
  subst logged
  cases left with
  | none => exact ⟨rfl, kept⟩
  | some value => exact ⟨rfl, kept.of_find_eq rfl rfl⟩

end PurgedOf

end RedisCpp.Store
