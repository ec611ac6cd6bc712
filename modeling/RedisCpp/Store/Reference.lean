import RedisCpp.Store.KvStore
import RedisCpp.Lib.ExpiringMap
import Mathlib.Data.Set.Card

/-!
# The reference map

What the store is for: one map from keys to a value and an optional deadline, in
which an entry is visible exactly while it has no deadline or the deadline lies in
the future.  The reference never removes an entry because of its deadline and
knows nothing of shards, logs or background expiry.

The store refines it.  Physically the store may still hold an expired entry or
have removed it already, so the simulation relation is `ExpiringMap.Purged`; each
lock-protected section keeps the relation, which is all that both the sequential
and the concurrent results need.
-/

namespace RedisCpp.Store

/-- A value with its optional deadline. -/
abbrev Slot := Bytes × Option ℤ

/-- A slot is live while it has no deadline or the deadline lies in the future. -/
def Slot.live (slot : Slot) (now : ℤ) : Bool :=
  match slot.2 with
  | none => true
  | some deadline => now < deadline

theorem Slot.antitone_live : ExpiringMap.Antitone Slot.live := by
  rintro ⟨value, deadline⟩ earlier later le alive
  cases deadline with
  | none => rfl
  | some deadline =>
      simp only [Slot.live, decide_eq_true_eq] at alive ⊢
      omega

/-- The slot that an entry stands for. -/
def Entry.toSlot (entry : Entry) : Slot :=
  (entry.value, if entry.expireAtMs < 0 then none else some entry.expireAtMs)

@[simp]
theorem Entry.live_toSlot (entry : Entry) (now : ℤ) :
    Slot.live entry.toSlot now = entry.live now := by
  by_cases negative : entry.expireAtMs < 0
  · simp [Slot.live, Entry.toSlot, Entry.live, negative]
  · simp [Slot.live, Entry.toSlot, Entry.live, negative]

/-- The reference map. -/
abbrev RefMap := Bytes → Option Slot

/-- The deadline of a call that names a relative expiry, as an exact number. -/
def exactDeadline (now ttlS : ℤ) : ℤ :=
  now + 1000 * ttlS

namespace RefMap

/-- The visible slot of a key. -/
def see (map : RefMap) (key : Bytes) (now : ℤ) : Option Slot :=
  ExpiringMap.visible Slot.live now (map key)

/-- Give the key a deadline, if it is visible. -/
def assign (map : RefMap) (key : Bytes) (deadline now : ℤ) : RefMap :=
  match map.see key now with
  | none => map
  | some slot => Function.update map key (some (slot.1, some deadline))

/-- Remove the deadline of the key, if it is visible and has one. -/
def clear (map : RefMap) (key : Bytes) (now : ℤ) : RefMap :=
  match map.see key now with
  | some (value, some _) => Function.update map key (some (value, none))
  | _ => map

/-- Remaining whole seconds, `-1` without a deadline, `-2` for no visible key. -/
def secondsLeft (map : RefMap) (key : Bytes) (now : ℤ) : ℤ :=
  match map.see key now with
  | none => -2
  | some (_, none) => -1
  | some (_, some deadline) => (deadline - now) / 1000

/-- The result of a call on the reference map. -/
noncomputable def result (map : RefMap) (call : TimedOp) : Result :=
  match call.op with
  | .set _ _ | .setEx _ _ _ | .setAbsolute _ _ _ => .flag true
  | .get key => .value ((map.see key call.now).map Prod.fst)
  | .del key => .flag (map.see key call.now).isSome
  | .expire key _ => .flag (map.see key call.later).isSome
  | .expireAt key _ => .flag (map.see key call.now).isSome
  | .persist key => .flag ((map.see key call.now).bind Prod.snd).isSome
  | .ttl key => .seconds (map.secondsLeft key call.now)
  | .count => .size {key | (map.see key call.now).isSome}.ncard
  | .onTtlExpired _ => .void

/-- The reference map after a call. -/
def next (map : RefMap) (call : TimedOp) : RefMap :=
  match call.op with
  | .set key value => Function.update map key (some (value, none))
  | .setEx key value ttlS =>
      Function.update map key (some (value, some (exactDeadline call.now ttlS)))
  | .setAbsolute key value expireAtMs =>
      Function.update map key (some (value, some expireAtMs))
  | .del key => Function.update map key none
  | .expire key ttlS => map.assign key (exactDeadline call.now ttlS) call.later
  | .expireAt key expireAtMs => map.assign key expireAtMs call.now
  | .persist key => map.clear key call.now
  | .get _ | .ttl _ | .count | .onTtlExpired _ => map

end RefMap

/-- A relative expiry that is not positive; such calls are refused. -/
def Op.refused : Op → Bool
  | .setEx _ _ ttlS | .expire _ ttlS => ttlS ≤ 0
  | _ => false

namespace RefMap

/-- The reference with refused calls: they answer `false` and change nothing. -/
noncomputable def guardedResult (map : RefMap) (call : TimedOp) : Result :=
  if call.op.refused then .flag false else map.result call

def guardedNext (map : RefMap) (call : TimedOp) : RefMap :=
  if call.op.refused then map else map.next call

/-- The reference map after a sequence of calls. -/
def run (map : RefMap) (calls : List TimedOp) : RefMap :=
  calls.foldl guardedNext map

/-- The empty reference map. -/
def empty : RefMap := fun _ => none

end RefMap

/-- The deadline that a call would store is positive and fits `int64_t`. -/
def TimedOp.DeadlineFits (call : TimedOp) : Prop :=
  match call.op with
  | .setEx _ _ ttlS | .expire _ ttlS =>
      0 < exactDeadline call.now ttlS ∧ exactDeadline call.now ttlS ≤ int64Max
  | .setAbsolute _ _ expireAtMs | .expireAt _ expireAtMs =>
      0 < expireAtMs ∧ expireAtMs ≤ int64Max
  | _ => True

instance (call : TimedOp) : Decidable call.DeadlineFits :=
  match call with
  | ⟨.setEx _ _ ttlS, now, _⟩ | ⟨.expire _ ttlS, now, _⟩ =>
      inferInstanceAs (Decidable (0 < exactDeadline now ttlS ∧ exactDeadline now ttlS ≤ int64Max))
  | ⟨.setAbsolute _ _ expireAtMs, _, _⟩ | ⟨.expireAt _ expireAtMs, _, _⟩ =>
      inferInstanceAs (Decidable (0 < expireAtMs ∧ expireAtMs ≤ int64Max))
  | ⟨.set _ _, _, _⟩ | ⟨.get _, _, _⟩ | ⟨.del _, _, _⟩ | ⟨.persist _, _, _⟩ | ⟨.ttl _, _, _⟩
  | ⟨.count, _, _⟩ | ⟨.onTtlExpired _, _, _⟩ => isTrue trivial

theorem deadlineAt_eq_of_inInt64 {now ttlS : ℤ} (fits : InInt64 (exactDeadline now ttlS)) :
    KvStore.deadlineAt now ttlS = exactDeadline now ttlS := by
  have reduce : KvStore.deadlineAt now ttlS = wrap64 (exactDeadline now ttlS) := by
    simp only [KvStore.deadlineAt, wrap64, Int.add_bmod_bmod, exactDeadline, Int.mul_comm]
  rw [reduce, wrap64_of_inInt64 fits]

theorem deadlineAt_eq {now ttlS : ℤ} (positive : 0 < exactDeadline now ttlS)
    (fits : exactDeadline now ttlS ≤ int64Max) :
    KvStore.deadlineAt now ttlS = exactDeadline now ttlS := by
  apply deadlineAt_eq_of_inInt64
  refine ⟨?_, fits⟩
  simp only [int64Min]
  omega

/-! ## The simulation relation -/

/-- The slots the store physically holds. -/
def KvStore.slots (store : KvStore) : RefMap :=
  fun key => (store.find key).map Entry.toSlot

/-- The store holds the reference map, up to expired entries it has removed, and
every stored deadline is `-1` or positive. -/
structure Refines (now : ℤ) (store : KvStore) (map : RefMap) : Prop where
  wellTimed : ∀ key entry, store.find key = some entry →
    entry.expireAtMs = -1 ∨ 0 < entry.expireAtMs
  purged : ExpiringMap.Purged Slot.live now store.slots map

namespace Refines

variable {now : ℤ} {store : KvStore} {map : RefMap}

theorem of_find_eq (refines : Refines now store map) {other : KvStore}
    (same : other.find = store.find) : Refines now other map where
  wellTimed := by
    rw [same]
    exact refines.wellTimed
  purged := by
    have slots_eq : other.slots = store.slots := by
      funext key
      simp [KvStore.slots, same]
    rw [slots_eq]
    exact refines.purged

theorem later {later : ℤ} (le : now ≤ later) (refines : Refines now store map) :
    Refines later store map where
  wellTimed := refines.wellTimed
  purged := refines.purged.later Slot.antitone_live le

theorem put (refines : Refines now store map) (key : Bytes) (entry : Entry)
    (timed : entry.expireAtMs = -1 ∨ 0 < entry.expireAtMs) :
    Refines now (store.put key entry) (Function.update map key (some entry.toSlot)) where
  wellTimed := by
    intro other found present
    rw [KvStore.find_put] at present
    split at present
    · cases present
      exact timed
    · exact refines.wellTimed other found present
  purged := by
    have slots_eq : (store.put key entry).slots =
        Function.update store.slots key (some entry.toSlot) := by
      funext other
      by_cases same : other = key
      · simp [KvStore.slots, same]
      · simp [KvStore.slots, same]
    rw [slots_eq]
    exact refines.purged.update key _

theorem slots_erase (store : KvStore) (key : Bytes) :
    (store.erase key).slots = Function.update store.slots key none := by
  funext other
  by_cases same : other = key
  · simp [KvStore.slots, same]
  · simp [KvStore.slots, same]

theorem wellTimed_erase (refines : Refines now store map) (key : Bytes) :
    ∀ other entry, (store.erase key).find other = some entry →
      entry.expireAtMs = -1 ∨ 0 < entry.expireAtMs := by
  intro other entry present
  rw [KvStore.find_erase] at present
  split at present
  · cases present
  · exact refines.wellTimed other entry present

theorem erase (refines : Refines now store map) (key : Bytes) :
    Refines now (store.erase key) (Function.update map key none) where
  wellTimed := refines.wellTimed_erase key
  purged := by
    rw [slots_erase]
    exact refines.purged.update key none

theorem erase_expired (refines : Refines now store map) {key : Bytes} {entry : Entry}
    (present : store.find key = some entry) (dead : entry.live now = false) :
    Refines now (store.erase key) map where
  wellTimed := refines.wellTimed_erase key
  purged := by
    rw [slots_erase]
    have held : store.slots key = some entry.toSlot := by simp [KvStore.slots, present]
    exact refines.purged.purge held (by simpa using dead)

theorem see_eq (refines : Refines now store map) (key : Bytes) :
    map.see key now = ExpiringMap.visible Slot.live now (store.slots key) :=
  (refines.purged.visible_eq key).symm

theorem see_of_none (refines : Refines now store map) {key : Bytes}
    (absent : store.find key = none) : map.see key now = none := by
  simp [refines.see_eq, ExpiringMap.visible, KvStore.slots, absent]

theorem see_of_expired (refines : Refines now store map) {key : Bytes} {entry : Entry}
    (present : store.find key = some entry) (dead : entry.live now = false) :
    map.see key now = none := by
  simp [refines.see_eq, ExpiringMap.visible, KvStore.slots, present, Option.filter, dead]

theorem see_of_live (refines : Refines now store map) {key : Bytes} {entry : Entry}
    (present : store.find key = some entry) (alive : entry.live now = true) :
    map.see key now = some entry.toSlot := by
  simp [refines.see_eq, ExpiringMap.visible, KvStore.slots, present, Option.filter, alive]

/-! ### The sections keep the relation -/

theorem getShared (refines : Refines now store map) (key : Bytes) :
    (map.see key now).map Prod.fst =
      match store.getShared key now with
      | .hit value => some value
      | .missing | .stale => none := by
  rw [KvStore.getShared]
  cases present : store.find key with
  | none => simp [refines.see_of_none present]
  | some entry =>
      by_cases alive : entry.live now = true
      · simp [refines.see_of_live present alive, alive, Entry.toSlot]
      · simp only [Bool.not_eq_true] at alive
        simp [refines.see_of_expired present alive, alive]

theorem reap (refines : Refines now store map) (key : Bytes) :
    Refines now (store.reap key now) map := by
  rw [KvStore.reap]
  cases present : store.find key with
  | none => exact refines
  | some entry =>
      by_cases alive : entry.live now = true
      · simpa [alive] using refines
      · simp only [Bool.not_eq_true] at alive
        simp only [Entry.expired_eq_not_live, alive, Bool.not_false, if_true]
        exact (refines.erase_expired present alive).of_find_eq rfl

theorem assignDeadline (refines : Refines now store map) (key : Bytes) {deadline : ℤ}
    (positive : 0 < deadline) :
    (store.assignDeadline key deadline now).1 = (map.see key now).isSome ∧
      Refines now (store.assignDeadline key deadline now).2 (map.assign key deadline now) := by
  rw [KvStore.assignDeadline, RefMap.assign]
  cases present : store.find key with
  | none =>
      rw [refines.see_of_none present]
      exact ⟨rfl, refines⟩
  | some entry =>
      by_cases alive : entry.live now = true
      · have slot_eq : ({ entry with expireAtMs := deadline } : Entry).toSlot =
            (entry.toSlot.1, some deadline) := by
          simp [Entry.toSlot, show ¬deadline < 0 by omega]
        simp only [refines.see_of_live present alive, Entry.expired_eq_not_live, alive,
          Bool.not_true, Bool.false_eq_true, if_false, Option.isSome_some, true_and]
        rw [← slot_eq]
        exact refines.put key _ (Or.inr positive)
      · simp only [Bool.not_eq_true] at alive
        simp only [refines.see_of_expired present alive, Entry.expired_eq_not_live, alive,
          Bool.not_false, if_true, Option.isSome_none, true_and]
        exact refines.erase_expired present alive

theorem clearDeadline (refines : Refines now store map) (key : Bytes) :
    (store.clearDeadline key now).1.isSome = ((map.see key now).bind Prod.snd).isSome ∧
      Refines now (store.clearDeadline key now).2 (map.clear key now) := by
  rw [KvStore.clearDeadline, RefMap.clear]
  cases present : store.find key with
  | none =>
      rw [refines.see_of_none present]
      exact ⟨rfl, refines⟩
  | some entry =>
      have timed := refines.wellTimed key entry present
      by_cases persistent : entry.expireAtMs = -1
      · have alive : entry.live now = true := by simp [Entry.live, persistent]
        have slot_eq : entry.toSlot = (entry.value, none) := by
          simp [Entry.toSlot, persistent]
        simp only [refines.see_of_live present alive, persistent, if_true, slot_eq]
        exact ⟨rfl, refines⟩
      · have slot_eq : entry.toSlot = (entry.value, some entry.expireAtMs) := by
          simp only [Entry.toSlot, Prod.mk.injEq, true_and]
          rw [if_neg (by omega)]
        by_cases alive : entry.live now = true
        · simp only [refines.see_of_live present alive, persistent, Entry.expired_eq_not_live,
            alive, Bool.not_true, Bool.false_eq_true, if_false, slot_eq]
          refine ⟨rfl, ?_⟩
          exact refines.put key { entry with expireAtMs := -1 } (Or.inl rfl)
        · simp only [Bool.not_eq_true] at alive
          simp only [refines.see_of_expired present alive, persistent,
            Entry.expired_eq_not_live, alive, Bool.not_false, if_true, if_false]
          exact ⟨rfl, refines.erase_expired present alive⟩

theorem ttl (refines : Refines now store map) (key : Bytes) :
    store.ttl key now = map.secondsLeft key now := by
  rw [KvStore.ttl, RefMap.secondsLeft]
  cases present : store.find key with
  | none => rw [refines.see_of_none present]
  | some entry =>
      by_cases persistent : entry.expireAtMs < 0
      · have alive : entry.live now = true := by simp [Entry.live, persistent]
        have slot_eq : entry.toSlot = (entry.value, none) := by
          simp [Entry.toSlot, persistent]
        simp [refines.see_of_live present alive, persistent, slot_eq]
      · have slot_eq : entry.toSlot = (entry.value, some entry.expireAtMs) := by
          simp [Entry.toSlot, persistent]
        by_cases remaining : entry.expireAtMs - now ≤ 0
        · have dead : entry.live now = false := by
            simp only [Entry.live, Bool.or_eq_false_iff, decide_eq_false_iff_not]
            omega
          simp [refines.see_of_expired present dead, persistent, remaining]
        · have alive : entry.live now = true := by
            simp only [Entry.live, Bool.or_eq_true, decide_eq_true_eq]
            omega
          simp only [refines.see_of_live present alive, persistent, remaining, slot_eq, if_false]
          exact Int.tdiv_eq_ediv_of_nonneg (by omega)

end Refines

/-! ### Counting -/

/-- The keys of the live entries of one shard. -/
def liveKeys (shard : Shard) (now : ℤ) : Finset Bytes :=
  ((shard.entries.filter fun entry => entry.2.live now).map Sigma.fst).toFinset

theorem card_liveKeys (shard : Shard) (now : ℤ) :
    (liveKeys shard now).card = KvStore.liveCount shard now := by
  have nodup : ((shard.entries.filter fun entry => entry.2.live now).map Sigma.fst).Nodup :=
    shard.nodupKeys.sublist List.filter_sublist
  rw [liveKeys, List.toFinset_card_of_nodup nodup, List.length_map, KvStore.liveCount,
    List.countP_eq_length_filter]

theorem mem_liveKeys {shard : Shard} {now : ℤ} {key : Bytes} :
    key ∈ liveKeys shard now ↔ ∃ entry, shard.lookup key = some entry ∧ entry.live now = true := by
  simp only [liveKeys, List.mem_toFinset, List.mem_map, List.mem_filter]
  constructor
  · rintro ⟨⟨found, entry⟩, ⟨mem, alive⟩, rfl⟩
    exact ⟨entry, AList.mem_lookup_iff.mpr mem, alive⟩
  · rintro ⟨entry, present, alive⟩
    exact ⟨⟨key, entry⟩, ⟨AList.mem_lookup_iff.mp present, alive⟩, rfl⟩

/-- A live key of a shard belongs to the shard its hash selects. -/
theorem shardIndex_of_mem_liveKeys {store : KvStore} {index : Fin store.nShards} {now : ℤ}
    {key : Bytes} (mem : key ∈ liveKeys (store.shards index) now) :
    shardIndex store.powerOfTwo key = index := by
  rcases mem_liveKeys.mp mem with ⟨entry, present, -⟩
  apply store.placed
  rw [← AList.lookup_isSome, present]
  rfl

/-- No key is counted in two shards, and none is counted outside its own. -/
theorem KvStore.count_eq_ncard (store : KvStore) (now : ℤ) :
    store.count now =
      {key | ∃ entry, store.find key = some entry ∧ entry.live now = true}.ncard := by
  have visible_eq : {key | ∃ entry, store.find key = some entry ∧ entry.live now = true} =
      ((Finset.univ.biUnion fun index => liveKeys (store.shards index) now : Finset Bytes) :
        Set Bytes) := by
    ext key
    simp only [Set.mem_ofPred_eq, Finset.coe_biUnion, Set.mem_iUnion, Finset.mem_coe,
      Finset.mem_univ, exists_prop, true_and]
    constructor
    · intro found
      exact ⟨shardIndex store.powerOfTwo key, mem_liveKeys.mpr found⟩
    · rintro ⟨index, mem⟩
      have index_eq := shardIndex_of_mem_liveKeys mem
      subst index
      exact mem_liveKeys.mp mem
  have disjoint : ∀ left ∈ Finset.univ, ∀ right ∈ Finset.univ, left ≠ right →
      Disjoint (liveKeys (store.shards left) now) (liveKeys (store.shards right) now) := by
    intro left _ right _ different
    rw [Finset.disjoint_left]
    intro key memLeft memRight
    apply different
    rw [← shardIndex_of_mem_liveKeys memLeft, ← shardIndex_of_mem_liveKeys memRight]
  rw [visible_eq, Set.ncard_coe_finset, Finset.card_biUnion disjoint]
  simp only [card_liveKeys, KvStore.count]

namespace Refines

variable {now start : ℤ} {store : KvStore} {map : RefMap}

theorem count (refines : Refines now store map) :
    store.count now = {key | (map.see key now).isSome}.ncard := by
  rw [store.count_eq_ncard]
  congr 1
  ext key
  simp only [Set.mem_ofPred_eq]
  cases present : store.find key with
  | none => simp [refines.see_of_none present]
  | some entry =>
      by_cases alive : entry.live now = true
      · simp [refines.see_of_live present alive, alive]
      · simp only [Bool.not_eq_true] at alive
        simp [refines.see_of_expired present alive, alive]

/-! ## Calls and runs -/

theorem empty {nShards : ℕ} (powerOfTwo : nShards.isPowerOfTwo) (aof : Option AofWriter)
    (enableTtl : Bool) (now : ℤ) :
    Refines now (KvStore.empty powerOfTwo aof enableTtl) RefMap.empty where
  wellTimed := by
    intro key entry present
    simp at present
  purged := by
    intro key
    simp [KvStore.slots, RefMap.empty]

theorem set (refines : Refines now store map) (key value : Bytes) :
    Refines now (store.set key value).2 (Function.update map key (some (value, none))) := by
  apply (refines.put key { value } (Or.inl rfl)).of_find_eq
  funext other
  simp [KvStore.set, KvStore.setInternal]

theorem setAbsolute (refines : Refines now store map) (key value : Bytes) {deadline : ℤ}
    (positive : 0 < deadline) :
    Refines now (store.setAbsolute key value deadline).2
      (Function.update map key (some (value, some deadline))) := by
  have slot_eq : ({ value, expireAtMs := deadline } : Entry).toSlot = (value, some deadline) := by
    simp [Entry.toSlot, show ¬deadline < 0 by omega]
  rw [← slot_eq]
  apply (refines.put key _ (Or.inr positive)).of_find_eq
  funext other
  simp [KvStore.setAbsolute, KvStore.setInternal, positive]

theorem expireAt (refines : Refines now store map) (key : Bytes) {deadline : ℤ}
    (positive : 0 < deadline) :
    (store.expireAt key deadline now).1 = (map.see key now).isSome ∧
      Refines now (store.expireAt key deadline now).2 (map.assign key deadline now) := by
  rcases refines.assignDeadline key positive with ⟨flag_eq, after⟩
  rw [KvStore.expireAt]
  rcases section_eq : store.assignDeadline key deadline now with ⟨success, written⟩
  rw [section_eq] at flag_eq after
  cases success with
  | false => exact ⟨flag_eq, after⟩
  | true => exact ⟨flag_eq, after.of_find_eq rfl⟩

theorem persist (refines : Refines now store map) (key : Bytes) :
    (store.persist key now).1 = ((map.see key now).bind Prod.snd).isSome ∧
      Refines now (store.persist key now).2 (map.clear key now) := by
  rcases refines.clearDeadline key with ⟨flag_eq, after⟩
  rw [KvStore.persist]
  rcases section_eq : store.clearDeadline key now with ⟨logged, written⟩
  rw [section_eq] at flag_eq after
  cases logged with
  | none => exact ⟨flag_eq, after⟩
  | some value => exact ⟨flag_eq, after.of_find_eq rfl⟩

theorem get (refines : Refines now store map) (key : Bytes) {later : ℤ} (le : now ≤ later) :
    (store.get key now later).1 = (map.see key now).map Prod.fst ∧
      Refines later (store.get key now later).2 map := by
  have counted : Refines now store.addGet map := refines.of_find_eq rfl
  rw [KvStore.get, counted.getShared key]
  cases store.addGet.getShared key now with
  | missing => exact ⟨rfl, counted.later le⟩
  | hit value => exact ⟨rfl, counted.later le⟩
  | stale => exact ⟨rfl, (counted.later le).reap key⟩

/-- One call: the relation is kept, and the result is the reference's unless the
call is a `del`, which reports physical presence. -/
theorem exec (refines : Refines start store map) {call : TimedOp} (before : start ≤ call.now)
    (ordered : call.now ≤ call.later) (fits : call.op.refused = false → call.DeadlineFits) :
    Refines call.later (store.exec call).2 (map.guardedNext call) ∧
      ((∀ key, call.op ≠ .del key) → (store.exec call).1 = map.guardedResult call) := by
  have current := refines.later before
  have afterwards := current.later ordered
  rcases call with ⟨op, now, later⟩
  simp only at before ordered current afterwards
  cases op with
  | set key value => exact ⟨afterwards.set key value, fun _ => rfl⟩
  | setEx key value ttlS =>
      by_cases refused : ttlS ≤ 0
      · simp [KvStore.exec, KvStore.setEx, RefMap.guardedNext, RefMap.guardedResult, Op.refused,
          refused, afterwards]
      · rcases fits (by simp [Op.refused, refused]) with ⟨positive, bounded⟩
        simp only [KvStore.exec, KvStore.setEx, RefMap.guardedNext, RefMap.guardedResult,
          Op.refused, refused, decide_false, if_false, Bool.false_eq_true,
          deadlineAt_eq positive bounded]
        exact ⟨afterwards.setAbsolute key value positive, fun _ => rfl⟩
  | setAbsolute key value expireAtMs =>
      rcases fits rfl with ⟨positive, -⟩
      exact ⟨afterwards.setAbsolute key value positive, fun _ => rfl⟩
  | get key =>
      rcases current.get key ordered with ⟨value_eq, after⟩
      exact ⟨after, fun _ => congrArg Result.value value_eq⟩
  | del key =>
      refine ⟨(afterwards.erase key).of_find_eq rfl, fun notDel => absurd rfl (notDel key)⟩
  | expire key ttlS =>
      by_cases refused : ttlS ≤ 0
      · simp [KvStore.exec, KvStore.expire, RefMap.guardedNext, RefMap.guardedResult, Op.refused,
          refused, afterwards]
      · rcases fits (by simp [Op.refused, refused]) with ⟨positive, bounded⟩
        rcases afterwards.expireAt key positive with ⟨flag_eq, after⟩
        simp only [KvStore.exec, KvStore.expire, RefMap.guardedNext, RefMap.guardedResult,
          Op.refused, refused, decide_false, if_false, Bool.false_eq_true,
          deadlineAt_eq positive bounded]
        exact ⟨after, fun _ => congrArg Result.flag flag_eq⟩
  | expireAt key expireAtMs =>
      rcases fits rfl with ⟨positive, -⟩
      rcases current.expireAt key positive with ⟨flag_eq, after⟩
      exact ⟨after.later ordered, fun _ => congrArg Result.flag flag_eq⟩
  | persist key =>
      rcases current.persist key with ⟨flag_eq, after⟩
      exact ⟨after.later ordered, fun _ => congrArg Result.flag flag_eq⟩
  | ttl key => exact ⟨afterwards, fun _ => congrArg Result.seconds (current.ttl key)⟩
  | count => exact ⟨afterwards, fun _ => congrArg Result.size current.count⟩
  | onTtlExpired key => exact ⟨(current.reap key).later ordered, fun _ => rfl⟩

/-- Every run keeps the relation. -/
theorem run (refines : Refines start store map) {calls : List TimedOp}
    (chronological : Chronological start calls)
    (fits : ∀ call ∈ calls, call.op.refused = false → call.DeadlineFits) :
    Refines (lastReading start calls) (store.run calls) (map.run calls) := by
  induction calls generalizing start store map with
  | nil => exact refines
  | cons call calls inductionHypothesis =>
      rcases chronological with ⟨before, ordered, rest⟩
      have step := (refines.exec before ordered (fits call (by simp))).1
      exact inductionHypothesis step rest fun other mem => fits other (by simp [mem])

end Refines

/-! ## Independence of the sharding -/

namespace KvStore

variable {store other : KvStore} (same : store.find = other.find)
include same

theorem find_put_congr (key : Bytes) (entry : Entry) :
    (store.put key entry).find = (other.put key entry).find := by
  funext read
  simp [same]

theorem find_erase_congr (key : Bytes) : (store.erase key).find = (other.erase key).find := by
  funext read
  simp [same]

theorem find_setInternal_congr (key value : Bytes) (expireAtMs : ℤ) :
    (store.setInternal key value expireAtMs).find =
      (other.setInternal key value expireAtMs).find := by
  have put_eq := find_put_congr same key { value, expireAtMs }
  simp only [setInternal]
  split
  · simpa using put_eq
  · exact put_eq

theorem find_reap_congr (key : Bytes) (now : ℤ) :
    (store.reap key now).find = (other.reap key now).find := by
  rw [reap, reap, ← same]
  cases store.find key with
  | none => exact same
  | some entry =>
      by_cases alive : entry.live now = true
      · simpa [alive] using same
      · simpa [alive] using find_erase_congr same key

theorem assignDeadline_congr (key : Bytes) (expireAtMs now : ℤ) :
    (store.assignDeadline key expireAtMs now).1 = (other.assignDeadline key expireAtMs now).1 ∧
      (store.assignDeadline key expireAtMs now).2.find =
        (other.assignDeadline key expireAtMs now).2.find := by
  rw [assignDeadline, assignDeadline, ← same]
  cases store.find key with
  | none => exact ⟨rfl, same⟩
  | some entry =>
      by_cases alive : entry.live now = true
      · simpa [alive] using find_put_congr same key _
      · simpa [alive] using find_erase_congr same key

theorem clearDeadline_congr (key : Bytes) (now : ℤ) :
    (store.clearDeadline key now).1 = (other.clearDeadline key now).1 ∧
      (store.clearDeadline key now).2.find = (other.clearDeadline key now).2.find := by
  rw [clearDeadline, clearDeadline, ← same]
  cases store.find key with
  | none => exact ⟨rfl, same⟩
  | some entry =>
      by_cases persistent : entry.expireAtMs = -1
      · simpa [persistent] using same
      · by_cases alive : entry.live now = true
        · simpa [persistent, alive] using find_put_congr same key _
        · simpa [persistent, alive] using find_erase_congr same key

theorem expireAt_congr (key : Bytes) (expireAtMs now : ℤ) :
    (store.expireAt key expireAtMs now).1 = (other.expireAt key expireAtMs now).1 ∧
      (store.expireAt key expireAtMs now).2.find = (other.expireAt key expireAtMs now).2.find := by
  rcases assignDeadline_congr same key expireAtMs now with ⟨flag_eq, find_eq⟩
  rw [expireAt, expireAt]
  rcases section_eq : store.assignDeadline key expireAtMs now with ⟨success, after⟩
  rcases other_eq : other.assignDeadline key expireAtMs now with ⟨otherSuccess, otherAfter⟩
  rw [section_eq, other_eq] at flag_eq find_eq
  simp only at flag_eq
  subst otherSuccess
  cases success with
  | false => exact ⟨rfl, find_eq⟩
  | true => exact ⟨rfl, by simpa using find_eq⟩

theorem persist_congr (key : Bytes) (now : ℤ) :
    (store.persist key now).1 = (other.persist key now).1 ∧
      (store.persist key now).2.find = (other.persist key now).2.find := by
  rcases clearDeadline_congr same key now with ⟨logged_eq, find_eq⟩
  rw [persist, persist]
  rcases section_eq : store.clearDeadline key now with ⟨logged, after⟩
  rcases other_eq : other.clearDeadline key now with ⟨otherLogged, otherAfter⟩
  rw [section_eq, other_eq] at logged_eq find_eq
  simp only at logged_eq
  subst otherLogged
  cases logged with
  | none => exact ⟨rfl, find_eq⟩
  | some value => exact ⟨rfl, by simpa using find_eq⟩

theorem get_congr (key : Bytes) (now later : ℤ) :
    (store.get key now later).1 = (other.get key now later).1 ∧
      (store.get key now later).2.find = (other.get key now later).2.find := by
  have shared_eq : other.addGet.getShared key now = store.addGet.getShared key now := by
    simp [getShared, same]
  rw [get, get, shared_eq]
  cases store.addGet.getShared key now with
  | missing => exact ⟨rfl, by simpa using same⟩
  | hit value => exact ⟨rfl, by simpa using same⟩
  | stale => exact ⟨rfl, find_reap_congr (by simpa using same) key later⟩

/-- What a call returns and leaves behind depends on the contents only, not on the
shards that hold them. -/
theorem exec_congr (call : TimedOp) :
    (store.exec call).1 = (other.exec call).1 ∧
      (store.exec call).2.find = (other.exec call).2.find := by
  have logged_eq : ∀ record, (store.addSet.log record).find = (other.addSet.log record).find := by
    intro record
    simpa using same
  rcases call with ⟨op, now, later⟩
  cases op with
  | set key value =>
      refine ⟨rfl, ?_⟩
      exact find_setInternal_congr (logged_eq (.set key value)) key value (-1)
  | setEx key value ttlS =>
      by_cases refused : ttlS ≤ 0
      · simpa [exec, setEx, refused] using same
      · simp only [exec, setEx, refused, if_false]
        refine ⟨rfl, ?_⟩
        exact find_setInternal_congr (logged_eq (.setEx key value (deadlineAt now ttlS))) key
          value _
  | setAbsolute key value expireAtMs =>
      refine ⟨rfl, ?_⟩
      exact find_setInternal_congr (logged_eq (.setEx key value expireAtMs)) key value expireAtMs
  | get key =>
      rcases get_congr same key now later with ⟨value_eq, find_eq⟩
      exact ⟨congrArg Result.value value_eq, find_eq⟩
  | del key =>
      refine ⟨?_, find_erase_congr (by simpa using same) key⟩
      simp [exec, del, same]
  | expire key ttlS =>
      by_cases refused : ttlS ≤ 0
      · simpa [exec, expire, refused] using same
      · rcases expireAt_congr same key (deadlineAt now ttlS) later with ⟨flag_eq, find_eq⟩
        simp only [exec, expire, refused, if_false]
        exact ⟨congrArg Result.flag flag_eq, find_eq⟩
  | expireAt key expireAtMs =>
      rcases expireAt_congr same key expireAtMs now with ⟨flag_eq, find_eq⟩
      exact ⟨congrArg Result.flag flag_eq, find_eq⟩
  | persist key =>
      rcases persist_congr same key now with ⟨flag_eq, find_eq⟩
      exact ⟨congrArg Result.flag flag_eq, find_eq⟩
  | ttl key =>
      refine ⟨?_, same⟩
      simp [exec, ttl, same]
  | count =>
      refine ⟨?_, same⟩
      simp [exec, count_eq_ncard, same]
  | onTtlExpired key => exact ⟨rfl, find_reap_congr same key now⟩

theorem find_run_congr (calls : List TimedOp) :
    (store.run calls).find = (other.run calls).find := by
  induction calls generalizing store other with
  | nil => exact same
  | cons call calls inductionHypothesis => exact inductionHypothesis (exec_congr same call).2

end KvStore

/-! ## The store against the reference -/

/-- Every call of every run returns what the reference map returns, a `del`
excepted, and it returns the same whatever the number of shards. -/
theorem exec_run_eq_guardedResult {nShards : ℕ} (powerOfTwo : nShards.isPowerOfTwo)
    (aof : Option AofWriter) (enableTtl : Bool) (start : ℤ) (calls : List TimedOp)
    (call : TimedOp) (chronological : Chronological start (calls ++ [call]))
    (fits : ∀ made ∈ calls ++ [call], made.op.refused = false → made.DeadlineFits) :
    ((∀ key, call.op ≠ .del key) →
      (((KvStore.empty powerOfTwo aof enableTtl).run calls).exec call).1 =
        (RefMap.empty.run calls).guardedResult call) ∧
      ∀ {otherShards : ℕ} (otherPower : otherShards.isPowerOfTwo),
        (((KvStore.empty otherPower aof enableTtl).run calls).exec call).1 =
          (((KvStore.empty powerOfTwo aof enableTtl).run calls).exec call).1 := by
  constructor
  · intro notDel
    rcases chronological_append.mp chronological with ⟨earlier, before, ordered, -⟩
    have refines := (Refines.empty powerOfTwo aof enableTtl start).run earlier
      fun made mem => fits made (by simp [mem])
    exact (refines.exec before ordered (fits call (by simp))).2 notDel
  · intro otherShards otherPower
    have empty_eq : (KvStore.empty otherPower aof enableTtl).find =
        (KvStore.empty powerOfTwo aof enableTtl).find := by
      funext key
      simp
    exact (KvStore.exec_congr (KvStore.find_run_congr empty_eq calls) call).1

theorem exec_run_eq_guardedResult_get :
    (((KvStore.empty KvStore.defaultShards none true).run
        [⟨.setEx (ascii "k") (ascii "v") 1, 5, 5⟩]).exec ⟨.get (ascii "k"), 1004, 1004⟩).1 =
      (RefMap.empty.run [⟨.setEx (ascii "k") (ascii "v") 1, 5, 5⟩]).guardedResult
        ⟨.get (ascii "k"), 1004, 1004⟩ := by
  refine (exec_run_eq_guardedResult KvStore.defaultShards none true 5
    [⟨.setEx (ascii "k") (ascii "v") 1, 5, 5⟩] ⟨.get (ascii "k"), 1004, 1004⟩ ?_ ?_).1 ?_
  · decide
  · decide
  · intro key
    simp

/-- Against a reference without the guard, `expire` with a time to live of zero
fails on a visible key. -/
theorem not_exec_run_eq_result :
    ¬∀ {nShards : ℕ} (powerOfTwo : nShards.isPowerOfTwo) (start : ℤ) (calls : List TimedOp)
      (call : TimedOp), Chronological start (calls ++ [call]) →
      (∀ made ∈ calls ++ [call], made.DeadlineFits) → (∀ key, call.op ≠ .del key) →
      (((KvStore.empty powerOfTwo none true).run calls).exec call).1 =
        (calls.foldl RefMap.next RefMap.empty).result call := by
  intro refined
  have flag_eq := refined KvStore.defaultShards 5 [⟨.set (ascii "k") (ascii "v"), 5, 5⟩]
    ⟨.expire (ascii "k") 0, 5, 5⟩ (by decide) (by decide) (by simp)
  simp [KvStore.exec, KvStore.expire, RefMap.result, RefMap.next, RefMap.see,
    ExpiringMap.visible, Slot.live] at flag_eq

end RedisCpp.Store
