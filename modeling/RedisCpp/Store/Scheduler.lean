import RedisCpp.Store.TtlManager

/-!
# The scheduler of the TTL manager

`TtlManager` by itself, with any callback: `schedule` may be called at any time that `mu_` is
free, by any thread and from inside the callback.  The moves of a run record what is
scheduled, what is popped and which callbacks are made.

What has been scheduled is in the heap or has been popped; the callbacks are those of the
popped entries, one each and in the same order; an entry is popped at a reading that has
reached its deadline; and as long as nothing is scheduled, the deadlines of what is popped do
not decrease.  The scheduler inside a store with its mutators is one of these.
-/

namespace RedisCpp.Store

namespace TtlManager

/-- The members of the manager, where its thread is, and the clock. -/
structure Scheduler where
  heap : List (ℤ × Bytes)
  place : Place
  stop : Bool
  clock : ℤ

/-- What a move does that is seen from outside, or to the heap. -/
inductive Activity where
  | schedule (key : Bytes) (expireAtMs : ℤ)
  | pop (expireAtMs : ℤ) (key : Bytes)
  | callback (key : Bytes)
  | quiet
deriving DecidableEq, Repr

namespace Activity

def scheduled : Activity → List (ℤ × Bytes)
  | .schedule key expireAtMs => [(expireAtMs, key)]
  | _ => []

def popped : Activity → List (ℤ × Bytes)
  | .pop expireAtMs key => [(expireAtMs, key)]
  | _ => []

def called : Activity → List Bytes
  | .callback key => [key]
  | _ => []

end Activity

namespace Scheduler

/-- The manager just made, with its thread about to enter `run`. -/
def initial (clock : ℤ) : Scheduler where
  heap := []
  place := .testing
  stop := false
  clock := clock

/-- One step.  The callback begins with `callback` and ends at the latest with `relock`; in
between, as whenever `mu_` is free, there may be calls of `schedule`.  A thread that waits may
wake at any time. -/
inductive Step (state : Scheduler) : Activity → Scheduler → Prop where
  | tick (elapsed : ℕ) : Step state .quiet { state with clock := state.clock + elapsed }
  | schedule (key : Bytes) (expireAtMs : ℤ) (free : state.place.holdsMu = false) :
      Step state (.schedule key expireAtMs) { state with heap := (expireAtMs, key) :: state.heap }
  | halt : Step state .quiet { state with stop := true }
  | lock (testing : state.place = .testing) (goesOn : state.stop = false) :
      Step state .quiet { state with place := .locked }
  | exit (testing : state.place = .testing) (stopped : state.stop = true) :
      Step state .quiet { state with place := .exited }
  | waitEmpty (locked : state.place = .locked) (empty : state.heap = []) :
      Step state .quiet { state with place := .sleeping none }
  | wakeEmpty (sleeping : state.place = .sleeping none) :
      Step state .quiet { state with place := .testing }
  | waitNext {item : ℤ × Bytes} (locked : state.place = .locked) (top : Top state.heap item)
      (later : 0 < item.1 - state.clock) :
      Step state .quiet { state with place := .sleeping (some item.1) }
  | wakeNext {next : ℤ} (sleeping : state.place = .sleeping (some next)) :
      Step state .quiet { state with place := .awake }
  | due {item : ℤ × Bytes} (locked : state.place = .locked) (top : Top state.heap item)
      (passed : item.1 - state.clock ≤ 0) : Step state .quiet { state with place := .awake }
  | leave (awake : state.place = .awake) (stopped : state.stop = true) :
      Step state .quiet { state with place := .exited }
  | read (awake : state.place = .awake) (goesOn : state.stop = false) :
      Step state .quiet { state with place := .popping state.clock }
  | pop {now : ℤ} {item : ℤ × Bytes} (popping : state.place = .popping now)
      (top : Top state.heap item) (expired : item.1 ≤ now) :
      Step state (.pop item.1 item.2)
        { state with heap := state.heap.erase item, place := .calling item.1 item.2 }
  | callback {expireAtMs : ℤ} {key : Bytes} (calling : state.place = .calling expireAtMs key) :
      Step state (.callback key) { state with place := .relocking }
  | relock (relocking : state.place = .relocking) :
      Step state .quiet { state with place := .popping state.clock }
  | finish {now : ℤ} (popping : state.place = .popping now)
      (none : ∀ item ∈ state.heap, now < item.1) :
      Step state .quiet { state with place := .testing }

/-- What a pop takes. -/
theorem Step.of_pop {state after : Scheduler} {expireAtMs : ℤ} {key : Bytes}
    (step : Step state (.pop expireAtMs key) after) :
    Top state.heap (expireAtMs, key) ∧ after.heap = state.heap.erase (expireAtMs, key) ∧
      ∃ now, state.place = .popping now ∧ expireAtMs ≤ now := by
  cases step with
  | pop popping top expired => exact ⟨top, rfl, _, popping, expired⟩

/-- The moves of a run of the scheduler. -/
abbrev Moves := List (Transition.Move Scheduler Activity)

namespace Moves

/-- The pairs scheduled, in the order of the calls. -/
def scheduled (moves : Moves) : List (ℤ × Bytes) := moves.flatMap fun move => move.label.scheduled

/-- The pairs popped. -/
def popped (moves : Moves) : List (ℤ × Bytes) := moves.flatMap fun move => move.label.popped

/-- The keys of the callbacks made. -/
def called (moves : Moves) : List Bytes := moves.flatMap fun move => move.label.called

variable (moves : Moves) (source target : Scheduler) (label : Activity)

@[simp]
theorem scheduled_append : scheduled (moves ++ [⟨source, label, target⟩]) =
    moves.scheduled ++ label.scheduled := by
  simp [scheduled]

@[simp]
theorem popped_append : popped (moves ++ [⟨source, label, target⟩]) =
    moves.popped ++ label.popped := by
  simp [popped]

@[simp]
theorem called_append : called (moves ++ [⟨source, label, target⟩]) =
    moves.called ++ label.called := by
  simp [called]

end Moves

end Scheduler

/-- The callback that is about to be made. -/
def Place.aboutToCall : Place → List Bytes
  | .calling _ key => [key]
  | _ => []

namespace Scheduler

variable {state after : Scheduler} {moves : Moves} {label : Activity} {clock : ℤ}

/-! ## Nothing is lost, nothing is done twice -/

/-- The books of a run. -/
structure Ledger (moves : Moves) (state : Scheduler) : Prop where
  conserved : moves.scheduled.Perm (state.heap ++ moves.popped)
  answered : moves.popped.map Prod.snd = moves.called ++ state.place.aboutToCall
  read : ∀ now, state.place = .popping now → now ≤ state.clock

namespace Ledger

theorem initial (clock : ℤ) : Ledger [] (initial clock) :=
  ⟨List.Perm.refl _, rfl, nofun⟩

/-- The thread goes to another place. -/
theorem move (ledger : Ledger moves state) {place : Place}
    (before : state.place.aboutToCall = []) (after : place.aboutToCall = [])
    (read : ∀ now, place = .popping now → now ≤ state.clock) :
    Ledger (moves ++ [⟨state, .quiet, { state with place := place }⟩])
      { state with place := place } := by
  refine ⟨?_, ?_, read⟩
  · simpa [Activity.scheduled, Activity.popped] using ledger.conserved
  · simpa [Activity.popped, Activity.called, before, after] using ledger.answered

theorem schedule (ledger : Ledger moves state) (key : Bytes) (expireAtMs : ℤ) :
    Ledger (moves ++ [⟨state, .schedule key expireAtMs,
        { state with heap := (expireAtMs, key) :: state.heap }⟩])
      { state with heap := (expireAtMs, key) :: state.heap } := by
  refine ⟨?_, ?_, ledger.read⟩
  · simp only [Moves.scheduled_append, Moves.popped_append, Activity.scheduled, Activity.popped,
      List.append_nil]
    exact (List.perm_append_singleton _ _).trans (ledger.conserved.cons _)
  · simpa [Activity.popped, Activity.called] using ledger.answered

theorem pop (ledger : Ledger moves state) {now : ℤ} {item : ℤ × Bytes}
    (popping : state.place = .popping now) (mem : item ∈ state.heap) :
    Ledger (moves ++ [⟨state, .pop item.1 item.2,
        { state with heap := state.heap.erase item, place := .calling item.1 item.2 }⟩])
      { state with heap := state.heap.erase item, place := .calling item.1 item.2 } := by
  refine ⟨?_, ?_, nofun⟩
  · simp only [Moves.scheduled_append, Moves.popped_append, Activity.scheduled, Activity.popped,
      List.append_nil]
    have taken := (List.perm_cons_erase mem).append_right moves.popped
    have behind := (List.perm_append_singleton item (state.heap.erase item ++ moves.popped)).symm
    rw [List.append_assoc] at behind
    exact (ledger.conserved.trans taken).trans behind
  · have answered := ledger.answered
    rw [popping] at answered
    simp only [Place.aboutToCall, List.append_nil] at answered
    simp [Activity.popped, Activity.called, Place.aboutToCall, answered]

theorem callback (ledger : Ledger moves state) {expireAtMs : ℤ} {key : Bytes}
    (calling : state.place = .calling expireAtMs key) :
    Ledger (moves ++ [⟨state, .callback key, { state with place := .relocking }⟩])
      { state with place := .relocking } := by
  refine ⟨?_, ?_, nofun⟩
  · simpa [Activity.scheduled, Activity.popped] using ledger.conserved
  · have answered := ledger.answered
    rw [calling] at answered
    simpa [Activity.popped, Activity.called, Place.aboutToCall] using answered

theorem step (ledger : Ledger moves state) (step : Step state label after) :
    Ledger (moves ++ [⟨state, label, after⟩]) after := by
  cases step with
  | tick elapsed =>
      refine ⟨?_, ?_, ?_⟩
      · simpa [Activity.scheduled, Activity.popped] using ledger.conserved
      · simpa [Activity.popped, Activity.called] using ledger.answered
      · intro now popping
        have read := ledger.read now popping
        simp only
        omega
  | halt =>
      refine ⟨?_, ?_, ledger.read⟩
      · simpa [Activity.scheduled, Activity.popped] using ledger.conserved
      · simpa [Activity.popped, Activity.called] using ledger.answered
  | schedule key expireAtMs => exact ledger.schedule key expireAtMs
  | pop popping top => exact ledger.pop popping top.1
  | callback calling => exact ledger.callback calling
  | read here | relock here =>
      refine ledger.move (by rw [here]; rfl) rfl ?_
      intro now popping
      cases popping
      exact le_refl _
  | lock here | exit here | waitEmpty here | wakeEmpty here | waitNext here | wakeNext here
  | due here | leave here | finish here => exact ledger.move (by rw [here]; rfl) rfl nofun

theorem run (run : Transition.Run Step (Scheduler.initial clock) moves state) :
    Ledger moves state :=
  run.invariant (initial clock) fun _ _ _ _ _ ledger step => ledger.step step

end Ledger

/-! ## Order -/

/-- A pop with nothing scheduled since leaves only later deadlines in the heap. -/
def Ahead (moves : Moves) (state : Scheduler) : Prop :=
  ∀ before after first expireAtMs key, moves = before ++ first :: after →
    first.label = .pop expireAtMs key → Moves.scheduled after = [] →
    ∀ item ∈ state.heap, expireAtMs ≤ item.1

theorem Ahead.step (ahead : Ahead moves state) (step : Step state label after) :
    Ahead (moves ++ [⟨state, label, after⟩]) after := by
  intro front later first expireAtMs key parts popped silent item mem
  rcases List.eq_nil_or_concat later with rfl | ⟨between, last, rfl⟩
  · -- the pop is the last move, and took the top
    have ends := List.append_inj' parts rfl
    simp only [List.cons.injEq, and_true] at ends
    rcases ends with ⟨-, rfl⟩
    simp only at popped
    rw [popped] at step
    rcases step.of_pop with ⟨top, heap, -⟩
    rw [heap] at mem
    exact top.2 item (List.mem_of_mem_erase mem)
  · rw [List.concat_eq_append, ← List.cons_append, ← List.append_assoc] at parts
    have ends := List.append_inj' parts rfl
    simp only [List.cons.injEq, and_true] at ends
    rcases ends with ⟨front_eq, rfl⟩
    simp only [List.concat_eq_append, Moves.scheduled_append, List.append_eq_nil_iff] at silent
    have earlier := ahead front between first expireAtMs key front_eq popped silent.1
    cases step with
    | schedule key expireAtMs => cases silent.2
    | pop popping top expired => exact earlier item (List.mem_of_mem_erase mem)
    | tick | halt | lock | exit | waitEmpty | wakeEmpty | waitNext | wakeNext | due | leave
    | read | callback | relock | finish => exact earlier item mem

theorem Ahead.run (run : Transition.Run Step (Scheduler.initial clock) moves state) :
    Ahead moves state := by
  apply run.invariant
  · intro before after first expireAtMs key parts
    simp at parts
  · intro moves state label after _ ahead step
    exact ahead.step step

/-- In every run, whenever `schedule` is called and however the clock advances: the pairs
scheduled are those in the heap and those popped; the callbacks are made for the popped pairs,
one each and in their order, the last one perhaps being about to be made; a pair is popped at
a reading of the clock that has reached its deadline; and of two pops with no `schedule` in
between the first has no later deadline. -/
theorem fires_once_in_order (run : Transition.Run Step (Scheduler.initial clock) moves state) :
    (Multiset.ofList moves.scheduled = Multiset.ofList state.heap + Multiset.ofList moves.popped) ∧
      moves.popped.map Prod.snd = moves.called ++ state.place.aboutToCall ∧
      (∀ move ∈ moves, ∀ expireAtMs key, move.label = .pop expireAtMs key →
        ∃ now, move.source.place = .popping now ∧ expireAtMs ≤ now ∧ now ≤ move.source.clock) ∧
      ∀ before first between second later earlierMs earlierKey laterMs laterKey,
        moves = before ++ first :: between ++ second :: later →
        first.label = .pop earlierMs earlierKey → second.label = .pop laterMs laterKey →
        Moves.scheduled between = [] → earlierMs ≤ laterMs := by
  have ledger := Ledger.run run
  refine ⟨?_, ledger.answered, ?_, ?_⟩
  · rw [Multiset.coe_add]
    exact Multiset.coe_eq_coe.mpr ledger.conserved
  · intro move mem expireAtMs key popped
    rcases List.append_of_mem mem with ⟨before, later, parts⟩
    rcases run.split parts with ⟨reached, step⟩
    rw [popped] at step
    rcases step.of_pop with ⟨-, -, now, popping, expired⟩
    exact ⟨now, popping, expired, (Ledger.run reached).read now popping⟩
  · intro before first between second later earlierMs earlierKey laterMs laterKey parts
      firstPop secondPop silent
    rcases run.split parts with ⟨reached, step⟩
    have ahead := Ahead.run reached before between first earlierMs earlierKey rfl firstPop silent
    rw [secondPop] at step
    exact ahead _ step.of_pop.1.1

/-- Two keys, of which the one scheduled later is due earlier; the callback of the first one
to fire schedules it again. -/
theorem fires_once_in_order_two_keys :
    ∃ (moves : Moves) (state : Scheduler),
      Transition.Run Step (Scheduler.initial 0) moves state ∧
        moves.called = [ascii "early"] ∧ moves.popped = [(100, ascii "early")] ∧
        Multiset.ofList moves.scheduled =
          Multiset.ofList state.heap + Multiset.ofList moves.popped := by
  have top : Top [(100, ascii "early"), (300, ascii "late")] (100, ascii "early") :=
    ⟨by decide, by decide⟩
  have start := @Transition.Run.nil _ _ Step (Scheduler.initial 0)
  have filled := (start.snoc (.schedule (ascii "late") 300 rfl)).snoc
    (.schedule (ascii "early") 100 rfl)
  have asleep := (filled.snoc (.lock rfl rfl)).snoc (.waitNext rfl top (by decide))
  have awake := ((asleep.snoc (.tick 200)).snoc (.wakeNext rfl)).snoc (.read rfl rfl)
  have popped := awake.snoc (.pop rfl top (by decide))
  have called := (popped.snoc (.callback rfl)).snoc (.schedule (ascii "early") 500 rfl)
  exact ⟨_, _, called, rfl, rfl, (fires_once_in_order called).1⟩

end Scheduler

end TtlManager

/-! ## Inside a store -/

/-- A thread of the store calls `schedule` at most once in a move. -/
theorem Move.ttlHeap_eq {store after : KvStore} {clock : ℤ} {pc next : Pc} {use : LockUse}
    {effect : Option (TimedOp × Result)} (move : Move store clock pc after next use effect) :
    after.ttlHeap = store.ttlHeap ∨
      ∃ key expireAtMs, after.ttlHeap = (store.schedule key expireAtMs).ttlHeap := by
  cases move with
  | setExSchedule key expireAtMs =>
      split
      · exact Or.inr ⟨key, expireAtMs, rfl⟩
      · exact Or.inl rfl
  | expireSchedule key expireAtMs => exact Or.inr ⟨key, expireAtMs, rfl⟩
  | expireFail | expireAssign => exact Or.inl (store.ttlHeap_assignDeadline _ _ _)
  | persistFail | persistClear => exact Or.inl (store.ttlHeap_clearDeadline _ _)
  | getReap | onTtlExpired => exact Or.inl (store.ttlHeap_reap _ _)
  | _ => exact Or.inl rfl

namespace TtlManager

/-- The scheduler of a store. -/
def State.scheduler {Tid : Type} (state : State Tid) : Scheduler where
  heap := state.system.store.ttlHeap.getD []
  place := state.place
  stop := state.stop
  clock := state.system.clock

theorem State.scheduler_heap {Tid : Type} {state : State Tid} {heap : List (ℤ × Bytes)}
    (held : state.system.store.ttlHeap = some heap) : state.scheduler.heap = heap := by
  rw [State.scheduler, held, Option.getD_some]

/-- What the threads of the store do is a call of `schedule`, time that passes, or nothing that
concerns the scheduler. -/
theorem Step.scheduler_mutate {Tid : Type} [DecidableEq Tid] {state : State Tid}
    {after : System Tid} {events : List Event} {heap : List (ℤ × Bytes)}
    (enabled : state.system.store.ttlHeap = some heap)
    (step : Store.Step state.system events after)
    (free : state.place.holdsMu = true → after.store.ttlHeap = state.system.store.ttlHeap) :
    ({ state with system := after } : State Tid).scheduler = state.scheduler ∨
      ∃ label, Scheduler.Step state.scheduler label
        ({ state with system := after } : State Tid).scheduler := by
  cases step with
  | tick elapsed =>
      right
      refine ⟨.quiet, ?_⟩
      have ticked := @Scheduler.Step.tick state.scheduler elapsed
      simpa [State.scheduler] using ticked
  | call | ret => exact Or.inl rfl
  | @advance tid store pc use effect move available =>
      rcases move.ttlHeap_eq with same | ⟨key, expireAtMs, pushed⟩
      · left
        simp only [State.scheduler, same]
      · right
        have unlocked : state.place.holdsMu = false := by
          by_contra held
          have unchanged := free (Bool.eq_true_of_not_eq_false held)
          simp [pushed, KvStore.schedule, enabled] at unchanged
        refine ⟨.schedule key expireAtMs, ?_⟩
        have scheduled := @Scheduler.Step.schedule state.scheduler key expireAtMs unlocked
        simpa [State.scheduler, pushed, KvStore.schedule, enabled] using scheduled

/-- A step of a store with its TTL manager is one of the scheduler, or does not concern it. -/
theorem Step.scheduler {Tid : Type} [DecidableEq Tid] {state after : State Tid}
    {events : List Event} {heap : List (ℤ × Bytes)}
    (enabled : state.system.store.ttlHeap = some heap) (step : Step state events after) :
    after.scheduler = state.scheduler ∨
      ∃ label, Scheduler.Step state.scheduler label after.scheduler := by
  cases step with
  | mutate step free => exact scheduler_mutate enabled step free
  | halt => exact Or.inr ⟨_, .halt⟩
  | lock testing goesOn => exact Or.inr ⟨_, .lock testing goesOn⟩
  | exit testing stopped => exact Or.inr ⟨_, .exit testing stopped⟩
  | waitEmpty locked empty => exact Or.inr ⟨_, .waitEmpty locked (State.scheduler_heap empty)⟩
  | wakeEmpty sleeping => exact Or.inr ⟨_, .wakeEmpty sleeping⟩
  | waitNext locked held top later =>
      rw [← State.scheduler_heap held] at top
      exact Or.inr ⟨_, .waitNext locked top later⟩
  | wakeNext sleeping => exact Or.inr ⟨_, .wakeNext sleeping⟩
  | due locked held top passed =>
      rw [← State.scheduler_heap held] at top
      exact Or.inr ⟨_, .due locked top passed⟩
  | leave awake stopped => exact Or.inr ⟨_, .leave awake stopped⟩
  | read awake goesOn => exact Or.inr ⟨_, .read awake goesOn⟩
  | pop popping held top expired =>
      rw [← State.scheduler_heap held] at top ⊢
      exact Or.inr ⟨_, .pop popping top expired⟩
  | @callback expireAtMs key calling =>
      right
      refine ⟨.callback key, ?_⟩
      have called := @Scheduler.Step.callback state.scheduler expireAtMs key calling
      simpa [State.scheduler, State.setStore, KvStore.onTtlExpired] using called
  | relock relocking => exact Or.inr ⟨_, .relock relocking⟩
  | finish popping held none =>
      rw [← State.scheduler_heap held] at none
      exact Or.inr ⟨_, .finish popping none⟩

/-- The scheduler of a store runs as one by itself. -/
theorem scheduler_run {Tid : Type} [DecidableEq Tid] {nShards : ℕ}
    {powerOfTwo : nShards.isPowerOfTwo} {aof : Option AofWriter} {clock : ℕ}
    {moves : List (Transition.Move (State Tid) (List Event))} {state : State Tid}
    (run : Run powerOfTwo aof clock moves state) :
    ∃ own, Transition.Run Scheduler.Step (Scheduler.initial clock) own state.scheduler := by
  induction run with
  | nil => exact ⟨[], .nil⟩
  | snoc run step inductionHypothesis =>
      rcases inductionHypothesis with ⟨own, before⟩
      rcases Coverage.run run with ⟨heap, coverage⟩
      rcases step.scheduler coverage.enabled with same | ⟨label, step⟩
      · rw [same]
        exact ⟨own, before⟩
      · exact ⟨_, before.snoc step⟩

end TtlManager

end RedisCpp.Store
