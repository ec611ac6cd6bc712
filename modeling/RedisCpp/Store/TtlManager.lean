import RedisCpp.Lib.Transition
import RedisCpp.Store.Linearizable
import RedisCpp.Store.LogSemantics

/-!
# The TTL manager

A thread of its own sleeps until the earliest deadline in the heap, pops the entries that
are due and calls `on_ttl_expired` for each, with the lock of the heap released during the
call.  Mutators write the map first and push the deadline afterwards; an entry that is set
again, persisted or deleted leaves its old heap entries behind.

Every deadline in the map has a heap entry of its own, unless a mutator is about to push it
or the callback for it is about to run.  So nothing that has expired stays in the store once
the heap has been worked off.
-/

namespace RedisCpp.Store

/-! ## The machine -/

namespace TtlManager

/-- Where the thread of `run` is.  `sleeping` carries the deadline it sleeps for, if the heap
is not empty; `calling` the entry just popped. -/
inductive Place where
  | testing
  | locked
  | sleeping (next : Option ℤ)
  | awake
  | popping (now : ℤ)
  | calling (expireAtMs : ℤ) (key : Bytes)
  | relocking
  | exited
deriving DecidableEq, Repr

/-- The thread holds `mu_`. -/
def Place.holdsMu : Place → Bool
  | .locked | .awake | .popping _ => true
  | _ => false

/-- The store with its threads, and the thread of the TTL manager. -/
structure State (Tid : Type) where
  system : System Tid
  place : Place
  stop : Bool

variable {Tid : Type}

namespace State

/-- A store with the TTL manager enabled, before its first operation. -/
def initial {nShards : ℕ} (powerOfTwo : nShards.isPowerOfTwo) (aof : Option AofWriter)
    (clock : ℕ) : State Tid where
  system := .initial powerOfTwo aof true clock
  place := .testing
  stop := false

def setStore (state : State Tid) (store : KvStore) (place : Place) : State Tid :=
  { state with
    system := { state.system with store := store }
    place := place }

end State

/-- The entry on top of the heap: one of those with the earliest deadline. -/
def Top (heap : List (ℤ × Bytes)) (item : ℤ × Bytes) : Prop :=
  item ∈ heap ∧ ∀ other ∈ heap, item.1 ≤ other.1

/-- One step.  The threads of the store push to the heap only while `mu_` is free.  A thread
that waits may wake at any time. -/
inductive Step [DecidableEq Tid] (state : State Tid) : List Event → State Tid → Prop where
  | mutate {events : List Event} {after : System Tid} (step : Store.Step state.system events after)
      (free : state.place.holdsMu = true → after.store.ttlHeap = state.system.store.ttlHeap) :
      Step state events { state with system := after }
  | halt : Step state [] { state with stop := true }
  | lock (testing : state.place = .testing) (goesOn : state.stop = false) :
      Step state [] { state with place := .locked }
  | exit (testing : state.place = .testing) (stopped : state.stop = true) :
      Step state [] { state with place := .exited }
  | waitEmpty (locked : state.place = .locked) (empty : state.system.store.ttlHeap = some []) :
      Step state [] { state with place := .sleeping none }
  | wakeEmpty (sleeping : state.place = .sleeping none) :
      Step state [] { state with place := .testing }
  | waitNext {heap : List (ℤ × Bytes)} {item : ℤ × Bytes} (locked : state.place = .locked)
      (held : state.system.store.ttlHeap = some heap) (top : Top heap item)
      (later : 0 < item.1 - state.system.clock) :
      Step state [] { state with place := .sleeping (some item.1) }
  | wakeNext {next : ℤ} (sleeping : state.place = .sleeping (some next)) :
      Step state [] { state with place := .awake }
  | due {heap : List (ℤ × Bytes)} {item : ℤ × Bytes} (locked : state.place = .locked)
      (held : state.system.store.ttlHeap = some heap) (top : Top heap item)
      (passed : item.1 - state.system.clock ≤ 0) :
      Step state [] { state with place := .awake }
  | leave (awake : state.place = .awake) (stopped : state.stop = true) :
      Step state [] { state with place := .exited }
  | read (awake : state.place = .awake) (goesOn : state.stop = false) :
      Step state [] { state with place := .popping state.system.clock }
  | pop {now : ℤ} {heap : List (ℤ × Bytes)} {item : ℤ × Bytes}
      (popping : state.place = .popping now)
      (held : state.system.store.ttlHeap = some heap) (top : Top heap item)
      (expired : item.1 ≤ now) :
      Step state []
        (state.setStore { state.system.store with ttlHeap := some (heap.erase item) }
          (.calling item.1 item.2))
  | callback {expireAtMs : ℤ} {key : Bytes} (calling : state.place = .calling expireAtMs key) :
      Step state []
        (state.setStore (state.system.store.onTtlExpired key state.system.clock) .relocking)
  | relock (relocking : state.place = .relocking) :
      Step state [] { state with place := .popping state.system.clock }
  | finish {now : ℤ} {heap : List (ℤ × Bytes)} (popping : state.place = .popping now)
      (held : state.system.store.ttlHeap = some heap) (none : ∀ item ∈ heap, now < item.1) :
      Step state [] { state with place := .testing }

/-- The runs of a store with its TTL manager. -/
abbrev Run [DecidableEq Tid] {nShards : ℕ} (powerOfTwo : nShards.isPowerOfTwo)
    (aof : Option AofWriter) (clock : ℕ) :=
  Transition.Run (@Step Tid _) (.initial powerOfTwo aof clock)

end TtlManager

/-! ## Moves of the mutators -/

/-- The heap entry that a mutator has yet to push. -/
def Pc.owes : Pc → Option (ℤ × Bytes)
  | .setExStored key expireAtMs | .expireAssigned key expireAtMs | .expireLogged key expireAtMs =>
      some (expireAtMs, key)
  | _ => none

namespace KvStore

/-- What a shard holds is found by its key. -/
theorem find_of_lookup (store : KvStore) {index : Fin store.nShards} {key : Bytes} {entry : Entry}
    (held : (store.shards index).lookup key = some entry) : store.find key = some entry := by
  have present : key ∈ store.shards index := by
    rw [← AList.lookup_isSome, held]
    rfl
  rw [find, shardFor, store.placed index key present]
  exact held

end KvStore

namespace Move

variable {store after : KvStore} {clock : ℤ} {pc next : Pc} {use : LockUse}
  {effect : Option (TimedOp × Result)}

/-- Where the deadline of an entry comes from: it was there before, or the mutator that has
written it is about to push it. -/
theorem deadline (move : Move store clock pc after next use effect) {key : Bytes} {entry : Entry}
    (found : after.find key = some entry) (limited : entry.expireAtMs ≠ -1) :
    next.owes = some (entry.expireAtMs, key) ∨
      ∃ old, store.find key = some old ∧ old.expireAtMs = entry.expireAtMs := by
  have of_drops : Drops clock store.find after.find →
      ∃ old, store.find key = some old ∧ old.expireAtMs = entry.expireAtMs :=
    fun drops => ⟨entry, drops.before_eq found, rfl⟩
  cases move with
  | setStore written value =>
      rw [KvStore.find_put] at found
      split at found
      · cases found
        exact absurd rfl limited
      · exact Or.inr ⟨entry, found, rfl⟩
  | setExStore written value ttlS now =>
      rw [KvStore.find_put] at found
      split at found
      · rename_i same
        cases found
        rw [same]
        exact Or.inl rfl
      · exact Or.inr ⟨entry, found, rfl⟩
  | delErase erased =>
      rw [KvStore.find_erase] at found
      split at found
      · cases found
      · exact Or.inr ⟨entry, found, rfl⟩
  | expireAssign assigned ttlS now succeeded =>
      rw [(store.find_assignDeadline succeeded).1, Record.apply] at found
      by_cases same : key = assigned
      · rw [same, Record.key, Function.update_self, Record.applySlot, Option.map_eq_some_iff]
          at found
        rcases found with ⟨old, -, rfl⟩
        rw [same]
        exact Or.inl rfl
      · rw [Record.key, Function.update_of_ne same] at found
        exact Or.inr ⟨entry, found, rfl⟩
  | persistClear cleared value success =>
      rw [store.find_clearDeadline success, Record.apply] at found
      by_cases same : key = cleared
      · rw [same, Record.key, Function.update_self] at found
        cases found
        exact absurd rfl limited
      · rw [Record.key, Function.update_of_ne same] at found
        exact Or.inr ⟨entry, found, rfl⟩
  | expireFail _ _ _ failed => exact Or.inr (of_drops (store.drops_assignDeadline failed))
  | persistFail _ failed => exact Or.inr (of_drops (store.drops_clearDeadline failed))
  | getReap | onTtlExpired => exact Or.inr (of_drops (store.drops_reap _ clock))
  | setExSchedule =>
      refine Or.inr ⟨entry, ?_, rfl⟩
      split at found
      · exact found
      · exact found
  | setLock | setLog | setExRefuse | setExTime | setExLock | setExLog | delLock
  | delLog | expireRefuse | expireLock | expireTime | expireLog | expireSchedule | persistLock
  | persistLog | getMissing | getHit | getStale | ttl | unlock => exact Or.inr ⟨entry, found, rfl⟩

/-- Entries are only added to the heap, and what a mutator owes is pushed in the end. -/
theorem heap (move : Move store clock pc after next use effect) {heap : List (ℤ × Bytes)}
    (enabled : store.ttlHeap = some heap) :
    ∃ later, after.ttlHeap = some later ∧ heap ⊆ later ∧
      ∀ item, pc.owes = some item → 0 < item.1 → next.owes = some item ∨ item ∈ later := by
  cases move with
  | setExSchedule key expireAtMs =>
      by_cases positive : 0 < expireAtMs
      · rw [if_pos positive]
        refine ⟨(expireAtMs, key) :: heap, by simp [KvStore.schedule, enabled],
          List.subset_cons_self _ _, ?_⟩
        intro item owed _
        cases owed
        exact Or.inr List.mem_cons_self
      · rw [if_neg positive]
        refine ⟨heap, enabled, List.Subset.refl _, ?_⟩
        intro item owed later
        cases owed
        exact absurd later positive
  | expireSchedule key expireAtMs =>
      refine ⟨(expireAtMs, key) :: heap, by simp [KvStore.schedule, enabled],
        List.subset_cons_self _ _, ?_⟩
      intro item owed _
      cases owed
      exact Or.inr List.mem_cons_self
  | expireLog key expireAtMs =>
      exact ⟨heap, enabled, List.Subset.refl _, fun _ owed _ => Or.inl owed⟩
  | expireFail | expireAssign =>
      refine ⟨heap, (store.ttlHeap_assignDeadline _ _ _).trans enabled, List.Subset.refl _, ?_⟩
      intro item owed
      cases owed
  | persistFail | persistClear =>
      refine ⟨heap, (store.ttlHeap_clearDeadline _ _).trans enabled, List.Subset.refl _, ?_⟩
      intro item owed
      cases owed
  | getReap | onTtlExpired =>
      refine ⟨heap, (store.ttlHeap_reap _ _).trans enabled, List.Subset.refl _, ?_⟩
      intro item owed
      cases owed
  | setStore | setExStore | delErase | setLock | setLog | setExRefuse | setExTime | setExLock
  | setExLog | delLock | delLog | expireRefuse | expireLock | expireTime | persistLock
  | persistLog | getMissing | getHit | getStale | ttl | unlock =>
      refine ⟨heap, enabled, List.Subset.refl _, ?_⟩
      intro item owed
      cases owed

/-- What a mutator newly owes is a positive deadline. -/
theorem owes_positive (move : Move store clock pc after next use effect) (timely : pc.Timely)
    {item : ℤ × Bytes} (owed : next.owes = some item) : pc.owes = some item ∨ 0 < item.1 := by
  cases move with
  | setExStore | expireAssign =>
      cases owed
      right
      rw [deadlineAt_eq timely.2.1 timely.2.2]
      exact timely.2.1
  | expireLog => exact Or.inl owed
  | _ => cases owed

end Move

/-! ## The invariant -/

namespace TtlManager

variable {Tid : Type}

/-- What announces a deadline: its heap entry, the callback for it, or a mutator. -/
def Covered (state : State Tid) (heap : List (ℤ × Bytes)) (item : ℤ × Bytes) : Prop :=
  item ∈ heap ∨ state.place = .calling item.1 item.2 ∨
    ∃ tid, (state.system.threads tid).owes = some item

/-- What holds along every run of a store with its TTL manager. -/
structure Coverage (state : State Tid) (heap : List (ℤ × Bytes)) : Prop where
  enabled : state.system.store.ttlHeap = some heap
  timely : ∀ tid, (state.system.threads tid).Timely
  owed : ∀ tid item, (state.system.threads tid).owes = some item → 0 < item.1
  wellTimed : ∀ key entry, state.system.store.find key = some entry →
    entry.expireAtMs = -1 ∨ 0 < entry.expireAtMs
  popping : ∀ now, state.place = .popping now → now ≤ state.system.clock
  calling : ∀ expireAtMs key, state.place = .calling expireAtMs key →
    expireAtMs ≤ state.system.clock
  covered : ∀ key entry, state.system.store.find key = some entry → entry.expireAtMs ≠ -1 →
    Covered state heap (entry.expireAtMs, key)

namespace Coverage

variable {state : State Tid} {heap : List (ℤ × Bytes)}

theorem initial {nShards : ℕ} (powerOfTwo : nShards.isPowerOfTwo) (aof : Option AofWriter)
    (clock : ℕ) : Coverage (State.initial powerOfTwo aof clock : State Tid) [] := by
  have absent : ∀ key entry, (KvStore.empty powerOfTwo aof true).find key ≠ some entry := by
    intro key entry
    simp
  refine ⟨rfl, fun _ => trivial, ?_, ?_, ?_, ?_, ?_⟩
  · intro tid item owed
    cases owed
  · intro key entry found
    exact absurd found (absent key entry)
  · intro now popping
    cases popping
  · intro expireAtMs key calling
    cases calling
  · intro key entry found
    exact absurd found (absent key entry)

theorem tick (coverage : Coverage state heap) (elapsed : ℕ) :
    Coverage { state with system :=
      { state.system with clock := state.system.clock + elapsed } } heap := by
  have le : (state.system.clock : ℤ) ≤ ((state.system.clock + elapsed : ℕ) : ℤ) := by simp
  exact
    { coverage with
      popping := fun now popping => (coverage.popping now popping).trans le
      calling := fun expireAtMs key calling => (coverage.calling expireAtMs key calling).trans le }

variable [DecidableEq Tid]

/-- One thread goes on, and may write the store and push to the heap. -/
theorem update (coverage : Coverage state heap) {tid : Tid} {pc : Pc} {after : System Tid}
    {later : List (ℤ × Bytes)} (enabled : after.store.ttlHeap = some later)
    (threads : after.threads = Function.update state.system.threads tid pc)
    (clock : after.clock = state.system.clock) (added : heap ⊆ later) (timely : pc.Timely)
    (positive : ∀ item, pc.owes = some item →
      (state.system.threads tid).owes = some item ∨ 0 < item.1)
    (pushed : ∀ item, (state.system.threads tid).owes = some item → 0 < item.1 →
      pc.owes = some item ∨ item ∈ later)
    (origin : ∀ key entry, after.store.find key = some entry → entry.expireAtMs ≠ -1 →
      pc.owes = some (entry.expireAtMs, key) ∨
        ∃ old, state.system.store.find key = some old ∧ old.expireAtMs = entry.expireAtMs) :
    Coverage { state with system := after } later := by
  have own : ∀ item, pc.owes = some item → 0 < item.1 := by
    intro item owed
    rcases positive item owed with before | later
    · exact coverage.owed tid item before
    · exact later
  have now : after.threads tid = pc := by
    rw [threads, Function.update_self]
  have others : ∀ other, other ≠ tid → after.threads other = state.system.threads other := by
    intro other different
    rw [threads, Function.update_of_ne different]
  refine ⟨enabled, ?_, ?_, ?_, ?_, ?_, ?_⟩
  · rw [threads]
    exact Pc.forall_update coverage.timely tid timely
  · intro other item owed
    rcases eq_or_ne other tid with rfl | different
    · exact own item (now ▸ owed)
    · exact coverage.owed other item (others other different ▸ owed)
  · intro key entry found
    by_cases limited : entry.expireAtMs = -1
    · exact Or.inl limited
    · right
      rcases origin key entry found limited with owed | ⟨old, before, same⟩
      · exact own _ owed
      · rw [← same] at limited ⊢
        exact (coverage.wellTimed key old before).resolve_left limited
  · rw [clock]
    exact coverage.popping
  · rw [clock]
    exact coverage.calling
  · intro key entry found limited
    rcases origin key entry found limited with owed | ⟨old, before, same⟩
    · exact Or.inr (Or.inr ⟨tid, now.symm ▸ owed⟩)
    · rw [← same] at limited ⊢
      rcases coverage.covered key old before limited with queued | calling | ⟨other, owed⟩
      · exact Or.inl (added queued)
      · exact Or.inr (Or.inl calling)
      · rcases eq_or_ne other tid with rfl | different
        · rcases pushed _ owed (coverage.owed other _ owed) with still | queued
          · exact Or.inr (Or.inr ⟨other, now.symm ▸ still⟩)
          · exact Or.inl queued
        · exact Or.inr (Or.inr ⟨other, (others other different).symm ▸ owed⟩)

/-- A step of the threads of the store. -/
theorem mutate (coverage : Coverage state heap) {events : List Event} {after : System Tid}
    (step : Store.Step state.system events after) :
    ∃ later, Coverage { state with system := after } later := by
  cases step with
  | tick elapsed => exact ⟨heap, coverage.tick elapsed⟩
  | call tid op served idle =>
      refine ⟨heap, coverage.update coverage.enabled rfl rfl (List.Subset.refl _) trivial ?_ ?_ ?_⟩
      · intro item owed
        cases owed
      · intro item owed
        rw [idle] at owed
        cases owed
      · intro key entry found _
        exact Or.inr ⟨entry, found, rfl⟩
  | ret tid result returning =>
      refine ⟨heap, coverage.update coverage.enabled rfl rfl (List.Subset.refl _) trivial ?_ ?_ ?_⟩
      · intro item owed
        cases owed
      · intro item owed
        rw [returning] at owed
        cases owed
      · intro key entry found _
        exact Or.inr ⟨entry, found, rfl⟩
  | advance tid move available =>
      rcases move.heap coverage.enabled with ⟨later, enabled, added, pushed⟩
      refine ⟨later, coverage.update enabled rfl rfl added ?_ ?_ pushed ?_⟩
      · exact move.timely (by simp) (coverage.timely tid)
      · intro item owed
        exact move.owes_positive (coverage.timely tid) owed
      · intro key entry found limited
        exact move.deadline found limited

omit [DecidableEq Tid] in
/-- The thread of the manager goes to another place. -/
theorem move (coverage : Coverage state heap) {place : Place}
    (before : ∀ expireAtMs key, state.place ≠ .calling expireAtMs key)
    (bounded : ∀ now, place = .popping now → now ≤ state.system.clock)
    (after : ∀ expireAtMs key, place ≠ .calling expireAtMs key) :
    Coverage { state with place := place } heap := by
  refine ⟨coverage.enabled, coverage.timely, coverage.owed, coverage.wellTimed, bounded, ?_, ?_⟩
  · intro expireAtMs key calling
    exact absurd calling (after expireAtMs key)
  · intro key entry found limited
    rcases coverage.covered key entry found limited with queued | calling | owed
    · exact Or.inl queued
    · exact absurd calling (before _ _)
    · exact Or.inr (Or.inr owed)

omit [DecidableEq Tid] in
/-- The entry that is popped is the one for which the callback is made. -/
theorem pop (coverage : Coverage state heap) {now : ℤ} {item : ℤ × Bytes}
    (popping : state.place = .popping now) (expired : item.1 ≤ now) :
    Coverage (state.setStore { state.system.store with ttlHeap := some (heap.erase item) }
      (.calling item.1 item.2)) (heap.erase item) := by
  refine ⟨rfl, coverage.timely, coverage.owed, coverage.wellTimed, ?_, ?_, ?_⟩
  · intro now popping
    cases popping
  · intro expireAtMs key calling
    cases calling
    exact expired.trans (coverage.popping now popping)
  · intro key entry found limited
    rcases coverage.covered key entry found limited with queued | calling | owed
    · rcases eq_or_ne (entry.expireAtMs, key) item with rfl | different
      · exact Or.inr (Or.inl rfl)
      · exact Or.inl ((List.mem_erase_of_ne different).mpr queued)
    · rw [popping] at calling
      cases calling
    · exact Or.inr (Or.inr owed)

omit [DecidableEq Tid] in
/-- The callback removes the entry for which it is made, since its deadline has passed. -/
theorem callback (coverage : Coverage state heap) {expireAtMs : ℤ} {key : Bytes}
    (calling : state.place = .calling expireAtMs key) :
    Coverage (state.setStore (state.system.store.onTtlExpired key state.system.clock)
      .relocking) heap := by
  have drops := state.system.store.drops_reap key state.system.clock
  refine ⟨?_, coverage.timely, coverage.owed, ?_, ?_, ?_, ?_⟩
  · exact (KvStore.ttlHeap_reap _ _ _).trans coverage.enabled
  · intro other entry found
    exact coverage.wellTimed other entry (drops.before_eq found)
  · intro now popping
    cases popping
  · intro expireAtMs key calling
    cases calling
  · intro other entry found limited
    have before := drops.before_eq found
    rcases coverage.covered other entry before limited with queued | called | owed
    · exact Or.inl queued
    · rw [calling] at called
      cases called
      -- the entry has expired, so that it is no longer there
      have passed := coverage.calling _ _ calling
      have positive := (coverage.wellTimed other entry before).resolve_left limited
      have dead : entry.live state.system.clock = false := by
        simp only [Entry.live, Bool.or_eq_false_iff, decide_eq_false_iff_not]
        omega
      have gone : (state.system.store.reap other state.system.clock).find other = none := by
        simp [KvStore.reap, before, dead]
      have present : (state.system.store.reap other state.system.clock).find other =
        some entry := found
      rw [gone] at present
      cases present
    · exact Or.inr (Or.inr owed)

theorem step {events : List Event} {after : State Tid} (coverage : Coverage state heap)
    (step : Step state events after) : ∃ later, Coverage after later := by
  cases step with
  | mutate step => exact coverage.mutate step
  | halt => exact ⟨heap, { coverage with }⟩
  | lock here | exit here | waitEmpty here | wakeEmpty here | waitNext here | wakeNext here
  | due here | leave here | finish here =>
      exact ⟨heap, coverage.move (by simp [here]) (by simp) (by simp)⟩
  | read here | relock here =>
      refine ⟨heap, coverage.move (by simp [here]) ?_ (by simp)⟩
      intro now popping
      cases popping
      exact le_refl _
  | pop here held top expired =>
      have same := held.symm.trans coverage.enabled
      cases same
      exact ⟨_, coverage.pop here expired⟩
  | callback here => exact ⟨heap, coverage.callback here⟩

theorem run {nShards : ℕ} {powerOfTwo : nShards.isPowerOfTwo} {aof : Option AofWriter}
    {clock : ℕ} {moves : List (Transition.Move (State Tid) (List Event))}
    (run : Run powerOfTwo aof clock moves state) : ∃ heap, Coverage state heap := by
  apply run.invariant
  · exact ⟨[], Coverage.initial powerOfTwo aof clock⟩
  · rintro _ _ _ _ _ ⟨heap, coverage⟩ step
    exact coverage.step step

end Coverage

/-- In every run of a store with its TTL manager, whenever no mutator is between its write and
its push, every deadline in a shard has its heap entry, or a callback for the key has been
popped for a deadline that has passed.  So if no callback is pending and the heap has nothing
up to some time, then no shard holds a deadline up to that time. -/
theorem heap_covers_deadlines {Tid : Type} [DecidableEq Tid] {nShards : ℕ}
    {powerOfTwo : nShards.isPowerOfTwo} {aof : Option AofWriter} {clock : ℕ}
    {moves : List (Transition.Move (State Tid) (List Event))} {state : State Tid}
    (run : Run powerOfTwo aof clock moves state)
    (settled : ∀ tid, (state.system.threads tid).owes = none) :
    ∃ heap, state.system.store.ttlHeap = some heap ∧
      (∀ index key entry, (state.system.store.shards index).lookup key = some entry →
        entry.expireAtMs ≠ -1 → (entry.expireAtMs, key) ∈ heap ∨
          ∃ expireAtMs, state.place = .calling expireAtMs key ∧
            expireAtMs ≤ state.system.clock) ∧
      ((∀ expireAtMs key, state.place ≠ .calling expireAtMs key) →
        ∀ now, (∀ item ∈ heap, now < item.1) →
          ∀ index key entry, (state.system.store.shards index).lookup key = some entry →
            entry.expireAtMs = -1 ∨ now < entry.expireAtMs) := by
  rcases Coverage.run run with ⟨heap, coverage⟩
  have announced : ∀ index key entry, (state.system.store.shards index).lookup key = some entry →
      entry.expireAtMs ≠ -1 → (entry.expireAtMs, key) ∈ heap ∨
        ∃ expireAtMs, state.place = .calling expireAtMs key ∧
          expireAtMs ≤ state.system.clock := by
    intro index key entry held limited
    have found := state.system.store.find_of_lookup held
    rcases coverage.covered key entry found limited with queued | calling | ⟨tid, owed⟩
    · exact Or.inl queued
    · exact Or.inr ⟨entry.expireAtMs, calling, coverage.calling _ _ calling⟩
    · rw [settled tid] at owed
      cases owed
  refine ⟨heap, coverage.enabled, announced, ?_⟩
  intro quiet now worked index key entry held
  by_cases limited : entry.expireAtMs = -1
  · exact Or.inl limited
  · rcases announced index key entry held limited with queued | ⟨expireAtMs, calling, -⟩
    · exact Or.inr (worked _ queued)
    · exact absurd calling (quiet expireAtMs key)

/-- A key that is set for one second while the TTL thread sleeps. -/
theorem heap_covers_deadlines_setEx :
    ∃ (moves : List (Transition.Move (State Unit) (List Event))) (state : State Unit),
      Run KvStore.defaultShards none 5 moves state ∧
        state.system.store.find (ascii "k") = some ⟨ascii "v", 1005⟩ ∧
        ∃ heap, state.system.store.ttlHeap = some heap ∧ (1005, ascii "k") ∈ heap := by
  have start := @Transition.Run.nil _ _ (@Step Unit _) (.initial KvStore.defaultShards none 5)
  have asleep := (start.snoc (.lock rfl rfl)).snoc (.waitEmpty rfl rfl)
  have called := asleep.snoc
    (.mutate (.call () (.setEx (ascii "k") (ascii "v") 1) trivial rfl) (by simp))
  have defined : DeadlineDefined 5 1 := ⟨⟨by decide, by decide⟩, by decide, by decide⟩
  have timed := called.snoc
    (.mutate (.advance () (.setExTime (ascii "k") (ascii "v") 1 (by decide) defined) (by simp))
      fun _ => rfl)
  have locked := timed.snoc
    (.mutate (.advance () (.setExLock (ascii "k") (ascii "v") 1 5) fun _ => rfl) fun _ => rfl)
  have logged := locked.snoc
    (.mutate (.advance () (.setExLog (ascii "k") (ascii "v") 1 5) (by simp)) fun _ => rfl)
  have stored := logged.snoc
    (.mutate (.advance () (.setExStore (ascii "k") (ascii "v") 1 5) (by simp)) fun _ => rfl)
  have scheduled := stored.snoc
    (.mutate (.advance () (.setExSchedule (ascii "k") 1005) (by simp)) nofun)
  rcases heap_covers_deadlines scheduled fun _ => rfl with ⟨heap, enabled, announced, -⟩
  have held := announced (shardIndex KvStore.defaultShards (ascii "k")) (ascii "k")
    ⟨ascii "v", 1005⟩ (by decide +kernel) (by decide)
  refine ⟨_, _, scheduled, by decide +kernel, heap, enabled, ?_⟩
  simpa using held

end TtlManager

end RedisCpp.Store
