import RedisCpp.Lib.TimedWait
import RedisCpp.Store.Scheduler

/-!
# The sleep of the TTL thread

`TtlManager::run` sleeps on a condition variable, `schedule` notifies it after its push, and the
destructor sets `stop_` without `mu_` and notifies afterwards.  The thread reads the clock, computes
how long it has to sleep, and only then fixes the time at which it wakes; what passes in between is
its lag.

While the thread is blocked and nobody is about to notify it, it sleeps no longer than up to the
earliest deadline and the lag.  A notification of the destructor may come between the test of
`stop_` and the block, and is lost then: the thread may sleep once more, up to its deadline, before
it ends.
-/

namespace RedisCpp.Store.TtlManager

variable {Tid : Type}

/-- The destructor: not called, between `stop_` and `notify_all`, in `join`, returned. -/
inductive Destructor where
  | alive
  | flagged
  | joining
  | finished
deriving DecidableEq, Repr

/-- The store with its TTL manager, and the condition variable.  `duration` is set between the
computation of the time to sleep and the start of the wait.  `announcing` counts the calls of
`schedule` between their push and their notification.  `readAt` is when the clock has been read for
the last sleep, and `lag` what has passed until the wait started. -/
structure Alarm (Tid : Type) where
  state : State Tid
  wait : TimedWait ℤ
  duration : Option ℤ
  announcing : ℕ
  destructor : Destructor
  readAt : ℤ
  lag : ℤ

/-- The heap has what the thread waits for: anything, or something that is due before. -/
def Place.Awaits (place : Place) (heap : List (ℤ × Bytes)) : Prop :=
  match place with
  | .sleeping none => heap ≠ []
  | .sleeping (some next) => heap = [] ∨ ∃ item ∈ heap, item.1 < next
  | _ => False

/-- How long `run` sleeps, in milliseconds. -/
def sleepFor (clock : ℤ) : Option ℤ → ℤ
  | none => 100
  | some next => next - clock

namespace Alarm

def initial {nShards : ℕ} (powerOfTwo : nShards.isPowerOfTwo) (aof : Option AofWriter)
    (clock : ℕ) : Alarm Tid where
  state := .initial powerOfTwo aof clock
  wait := .outside
  duration := none
  announcing := 0
  destructor := .alive
  readAt := clock
  lag := 0

variable (alarm : Alarm Tid)

def heap : List (ℤ × Bytes) :=
  alarm.state.system.store.ttlHeap.getD []

def now : ℤ :=
  alarm.state.system.clock

/-- The thread holds `mu_`. -/
def holdsMu : Bool :=
  alarm.state.place.holdsMu || alarm.wait.holdsMutex || alarm.duration.isSome

/-- What the thread tests. -/
def Tested : Prop :=
  alarm.state.stop = true ∨ alarm.state.place.Awaits alarm.heap

/-- The thread is not in a wait. -/
def Awake : Prop :=
  alarm.wait = .outside ∧ alarm.duration = none

variable {alarm}

/-- A step of the thread of the manager. -/
inductive ThreadStep [DecidableEq Tid] (alarm : Alarm Tid) : List Event → Alarm Tid → Prop where
  | own {events : List Event} {after : State Tid} (step : TtlManager.Step alarm.state events after)
      (awake : alarm.Awake) (moved : after.place ≠ alarm.state.place)
      (stays : ∀ next, after.place ≠ .sleeping next) :
      ThreadStep alarm events { alarm with state := after }
  | enter {after : State Tid} {next : Option ℤ} (step : TtlManager.Step alarm.state [] after)
      (awake : alarm.Awake) (moved : after.place ≠ alarm.state.place)
      (asleep : after.place = .sleeping next) :
      ThreadStep alarm []
        { alarm with
          state := after
          duration := some (sleepFor alarm.now next)
          readAt := alarm.now }
  | arm {duration : ℤ} (decided : alarm.duration = some duration) :
      ThreadStep alarm []
        { alarm with
          wait := .testing (alarm.now + duration) false
          duration := none
          lag := alarm.now - alarm.readAt }
  | inside {wait : TimedWait ℤ} (step : TimedWait.Step alarm.now alarm.Tested alarm.wait wait) :
      ThreadStep alarm [] { alarm with wait := wait }
  | leave {after : State Tid} (returned : alarm.wait.Returns alarm.Tested)
      (step : TtlManager.Step alarm.state [] after) (moved : after.place ≠ alarm.state.place) :
      ThreadStep alarm [] { alarm with state := after, wait := .outside }

/-- One step. -/
inductive Step [DecidableEq Tid] (alarm : Alarm Tid) : List Event → Alarm Tid → Prop where
  -- the threads of the store
  | mutate {events : List Event} {after : System Tid}
      (step : Store.Step alarm.state.system events after)
      (free : alarm.holdsMu = true → after.store.ttlHeap = alarm.state.system.store.ttlHeap) :
      Step alarm events
        { alarm with
          state := { alarm.state with system := after }
          announcing :=
            if after.store.ttlHeap = alarm.state.system.store.ttlHeap then alarm.announcing
            else alarm.announcing + 1 }
  | notify {left : ℕ} (pushed : alarm.announcing = left + 1) :
      Step alarm [] { alarm with announcing := left, wait := alarm.wait.notified }
  -- the destructor
  | flag (alive : alarm.destructor = .alive) :
      Step alarm []
        { alarm with state := { alarm.state with stop := true }, destructor := .flagged }
  | notifyAll (flagged : alarm.destructor = .flagged) :
      Step alarm [] { alarm with destructor := .joining, wait := alarm.wait.notified }
  | join (joining : alarm.destructor = .joining) (exited : alarm.state.place = .exited) :
      Step alarm [] { alarm with destructor := .finished }
  -- the thread of the manager
  | thread {events : List Event} {after : Alarm Tid} (step : ThreadStep alarm events after) :
      Step alarm events after

/-- The runs of a store with its TTL manager and the condition variable. -/
abbrev Run [DecidableEq Tid] {nShards : ℕ} (powerOfTwo : nShards.isPowerOfTwo)
    (aof : Option AofWriter) (clock : ℕ) :=
  Transition.Run (@Step Tid _) (.initial powerOfTwo aof clock)

/-! ## The invariant -/

/-- What holds along every run.  The thread waits for the deadline that it has read, and the lag. -/
structure Sound (alarm : Alarm Tid) : Prop where
  places : alarm.Awake ↔ ∀ next, alarm.state.place ≠ .sleeping next
  single : alarm.wait = .outside ∨ alarm.duration = none
  guarded : TimedWait.Guarded (alarm.state.place.Awaits alarm.heap) alarm.announcing alarm.wait
  decided : ∀ duration next, alarm.duration = some duration →
    alarm.state.place = .sleeping (some next) → duration = next - alarm.readAt
  late : ∀ deadline next, alarm.wait.until? = some deadline →
    alarm.state.place = .sleeping (some next) → deadline = next + alarm.lag
  readAt : alarm.readAt ≤ alarm.now
  lag : 0 ≤ alarm.lag

/-- Unless somebody is about to notify it, a thread that is blocked waits no longer than up to the
deadlines in the heap, and the lag. -/
theorem Sound.not_late (sound : Sound alarm) {deadline : ℤ}
    (blocked : alarm.wait = .blocked deadline) (announced : alarm.announcing = 0)
    {item : ℤ × Bytes} (mem : item ∈ alarm.heap) : deadline ≤ item.1 + alarm.lag := by
  have refuted : ¬alarm.state.place.Awaits alarm.heap := by
    intro awaits
    have pending := sound.guarded.blocked deadline blocked awaits
    rw [announced] at pending
    exact absurd pending (Nat.lt_irrefl 0)
  have asleep : ¬∀ next, alarm.state.place ≠ .sleeping next := by
    intro places
    have outside := (sound.places.mpr places).1
    rw [blocked] at outside
    cases outside
  simp only [ne_eq, not_forall, not_not] at asleep
  rcases asleep with ⟨next, sleeping⟩
  rw [sleeping] at refuted
  cases next with
  | none =>
      simp only [Place.Awaits, ne_eq, not_not] at refuted
      rw [refuted] at mem
      cases mem
  | some next =>
      have late := sound.late deadline next (by rw [blocked]; rfl) sleeping
      simp only [Place.Awaits, not_or, not_exists, not_and, not_lt] at refuted
      have earliest := refuted.2 item mem
      omega

section Steps

variable [DecidableEq Tid] {after : Alarm Tid} {events : List Event}

/-- Only the threads of the store let time pass. -/
theorem clock_of_moved {state next : State Tid} (step : TtlManager.Step state events next)
    (moved : next.place ≠ state.place) : next.system.clock = state.system.clock := by
  cases step with
  | mutate | halt => exact absurd rfl moved
  | lock | exit | waitEmpty | wakeEmpty | waitNext | wakeNext | due | leave | read | pop | callback
  | relock | finish => rfl

/-- A thread that sleeps comes to another place by waking. -/
theorem place_of_woken {state next : State Tid} {sleeps : Option ℤ}
    (step : TtlManager.Step state events next) (moved : next.place ≠ state.place)
    (sleeping : state.place = .sleeping sleeps) :
    next = { state with place := if sleeps.isSome then .awake else .testing } := by
  cases step with
  | mutate | halt => exact absurd rfl moved
  | wakeEmpty here | wakeNext here =>
      rw [here] at sleeping
      cases sleeping
      rfl
  | lock here | exit here | waitEmpty here | waitNext here | due here | leave here | read here
  | pop here | callback here | relock here | finish here => cases here.symm.trans sleeping

theorem clock_le {system next : System Tid} (step : Store.Step system events next) :
    system.clock ≤ next.clock := by
  cases step with
  | tick elapsed => exact Nat.le_add_right _ _
  | call | ret | advance => exact Nat.le_refl _

omit [DecidableEq Tid] in
theorem Sound.of_awake (awake : alarm.Awake) (places : ∀ next, alarm.state.place ≠ .sleeping next)
    (readAt : alarm.readAt ≤ alarm.now) (lag : 0 ≤ alarm.lag) : Sound alarm := by
  rcases awake with ⟨wait, duration⟩
  refine ⟨iff_of_true ⟨wait, duration⟩ places, Or.inl wait, ?_, ?_, ?_, readAt, lag⟩
  · rw [wait]
    exact .of_not fun _ => ⟨nofun, nofun⟩
  · intro found next decided
    rw [duration] at decided
    cases decided
  · intro deadline next reached
    rw [wait] at reached
    cases reached

omit [DecidableEq Tid] in
theorem Sound.initial {nShards : ℕ} (powerOfTwo : nShards.isPowerOfTwo) (aof : Option AofWriter)
    (clock : ℕ) : Sound (Alarm.initial powerOfTwo aof clock : Alarm Tid) :=
  .of_awake ⟨rfl, rfl⟩ nofun (le_refl _) (le_refl _)

omit [DecidableEq Tid] in
theorem Sound.notified (sound : Sound alarm) (left : ℕ) (destructor : Destructor) :
    Sound { alarm with
      announcing := left, wait := alarm.wait.notified, destructor := destructor } := by
  refine ⟨?_, ?_, sound.guarded.notify left, sound.decided, ?_, sound.readAt, sound.lag⟩
  · simp only [Awake, TimedWait.notified_eq_outside]
    exact sound.places
  · simp only [TimedWait.notified_eq_outside]
    exact sound.single
  · simp only [TimedWait.until?_notified]
    exact sound.late

theorem Sound.mutate (sound : Sound alarm) {system : System Tid}
    (step : Store.Step alarm.state.system events system)
    (free : alarm.holdsMu = true → system.store.ttlHeap = alarm.state.system.store.ttlHeap) :
    Sound { alarm with
      state := { alarm.state with system := system }
      announcing :=
        if system.store.ttlHeap = alarm.state.system.store.ttlHeap then alarm.announcing
        else alarm.announcing + 1 } := by
  have later : alarm.now ≤ ((system.clock : ℕ) : ℤ) := Int.ofNat_le.mpr (clock_le step)
  refine ⟨sound.places, sound.single, ?_, sound.decided, sound.late, sound.readAt.trans later,
    sound.lag⟩
  by_cases same : system.store.ttlHeap = alarm.state.system.store.ttlHeap
  · simp only [same, if_true, heap]
    exact sound.guarded
  · simp only [same, if_false]
    apply sound.guarded.change
    have unlocked : alarm.holdsMu = false := by
      by_contra held
      exact same (free (Bool.eq_true_of_not_eq_false held))
    simp only [holdsMu, Bool.or_eq_false_iff] at unlocked
    exact unlocked.1.2

theorem Sound.thread (sound : Sound alarm) (step : ThreadStep alarm events after) :
    Sound after := by
  cases step with
  | own step awake moved stays =>
      refine .of_awake awake stays ?_ sound.lag
      simp only [now, clock_of_moved step moved]
      exact sound.readAt
  | @enter state next step awake moved asleep =>
      refine ⟨?_, Or.inl awake.1, ?_, ?_, ?_, ?_, sound.lag⟩
      · exact iff_of_false (fun still => nomatch still.2) fun places => places next asleep
      · simp only [awake.1]
        exact .of_not fun _ => ⟨nofun, nofun⟩
      · intro duration found decided sleeping
        cases decided
        cases asleep.symm.trans sleeping
        rfl
      · intro deadline found reached
        simp only [awake.1] at reached
        cases reached
      · simp only [now, clock_of_moved step moved]
        exact le_refl _
  | @arm duration decided =>
      refine ⟨?_, Or.inr rfl, ?_, nofun, ?_, sound.readAt, sub_nonneg.mpr sound.readAt⟩
      · have asleep : ¬alarm.Awake := by
          rintro ⟨-, undecided⟩
          rw [decided] at undecided
          cases undecided
        exact iff_of_false (fun still => nomatch still.1) fun places =>
          asleep (sound.places.mpr places)
      · exact .of_not fun _ => ⟨nofun, nofun⟩
      · intro deadline next reached sleeping
        cases reached
        rw [sound.decided duration next decided sleeping]
        show alarm.now + (next - alarm.readAt) = next + (alarm.now - alarm.readAt)
        omega
  | inside step =>
      rcases step.inside with ⟨before, still⟩
      refine ⟨?_, Or.inr (sound.single.resolve_left before), sound.guarded.step step Or.inr,
        sound.decided, ?_, sound.readAt, sound.lag⟩
      · have asleep : ¬alarm.Awake := fun awake => before awake.1
        exact iff_of_false (fun awake => still awake.1) fun places =>
          asleep (sound.places.mpr places)
      · rw [step.until?_eq]
        exact sound.late
  | leave returned step moved =>
      rcases returned with ⟨deadline, timedOut, here, -⟩
      have before : alarm.wait ≠ .outside := by
        rw [here]
        nofun
      have asleep : ¬∀ next, alarm.state.place ≠ .sleeping next := fun places =>
        before (sound.places.mpr places).1
      simp only [ne_eq, not_forall, not_not] at asleep
      rcases asleep with ⟨next, sleeping⟩
      have woken := place_of_woken step moved sleeping
      subst woken
      refine .of_awake ⟨rfl, sound.single.resolve_left before⟩ ?_ sound.readAt sound.lag
      intro found
      cases next with
      | none => nofun
      | some next => nofun

theorem Sound.step (sound : Sound alarm) (step : Step alarm events after) : Sound after := by
  cases step with
  | mutate step free => exact sound.mutate step free
  | notify pushed => exact sound.notified _ _
  | flag alive => exact ⟨sound.places, sound.single, sound.guarded, sound.decided, sound.late,
      sound.readAt, sound.lag⟩
  | notifyAll flagged => exact sound.notified _ _
  | join joining exited => exact ⟨sound.places, sound.single, sound.guarded, sound.decided,
      sound.late, sound.readAt, sound.lag⟩
  | thread step => exact sound.thread step

/-- A step is one of the store with its TTL manager, or does not concern it. -/
theorem Step.state_step (step : Step alarm events after) :
    after.state = alarm.state ∨ TtlManager.Step alarm.state events after.state := by
  cases step with
  | mutate step free =>
      right
      apply TtlManager.Step.mutate step
      intro held
      apply free
      rw [holdsMu, held, Bool.true_or, Bool.true_or]
  | flag alive => exact Or.inr .halt
  | thread step =>
      cases step with
      | own step | enter step | leave _ step => exact Or.inr step
      | arm | inside => exact Or.inl rfl
  | notify | notifyAll | join => exact Or.inl rfl

end Steps

section Runs

variable [DecidableEq Tid] {nShards : ℕ} {powerOfTwo : nShards.isPowerOfTwo}
  {aof : Option AofWriter} {clock : ℕ} {moves : List (Transition.Move (Alarm Tid) (List Event))}

/-- A run is one of the store with its TTL manager. -/
theorem state_run (run : Run powerOfTwo aof clock moves alarm) :
    ∃ steps, TtlManager.Run powerOfTwo aof clock steps alarm.state := by
  induction run with
  | nil => exact ⟨[], .nil⟩
  | snoc _ step inductionHypothesis =>
      rcases inductionHypothesis with ⟨steps, before⟩
      rcases step.state_step with same | moved
      · exact ⟨steps, same ▸ before⟩
      · exact ⟨_, before.snoc moved⟩

theorem sound_run (run : Run powerOfTwo aof clock moves alarm) : Sound alarm := by
  apply run.invariant
  · exact .initial powerOfTwo aof clock
  · intro _ _ _ _ _ sound step
    exact sound.step step

/-- The entry that a shard holds for a deadline, when nobody is about to push one and no callback
is pending. -/
theorem mem_heap (run : Run powerOfTwo aof clock moves alarm)
    (settled : ∀ tid, (alarm.state.system.threads tid).owes = none)
    (quiet : ∀ expireAtMs key, alarm.state.place ≠ .calling expireAtMs key)
    {index : Fin alarm.state.system.store.nShards} {key : Bytes} {entry : Entry}
    (held : (alarm.state.system.store.shards index).lookup key = some entry)
    (limited : entry.expireAtMs ≠ -1) : (entry.expireAtMs, key) ∈ alarm.heap := by
  rcases state_run run with ⟨steps, before⟩
  rcases Coverage.run before with ⟨heap, coverage⟩
  have found := alarm.state.system.store.find_of_lookup held
  rcases coverage.covered key entry found limited with queued | calling | ⟨tid, owed⟩
  · rw [Alarm.heap, coverage.enabled]
    exact queued
  · exact absurd calling (quiet _ _)
  · rw [settled tid] at owed
    cases owed

/-- A key is set for one second, and the thread is about to block up to its deadline. -/
theorem run_setEx :
    ∃ (moves : List (Transition.Move (Alarm Unit) (List Event))) (alarm : Alarm Unit),
      Run KvStore.defaultShards none 5 moves alarm ∧ alarm.wait = .blocking 1005 ∧
        alarm.duration = none ∧ alarm.announcing = 0 ∧ alarm.destructor = .alive ∧
        alarm.state.stop = false ∧ (∀ tid, (alarm.state.system.threads tid).owes = none) ∧
        alarm.now = 5 ∧ alarm.state.system.store.find (ascii "k") = some ⟨ascii "v", 1005⟩ := by
  have start := @Transition.Run.nil _ _ (@Step Unit _) (.initial KvStore.defaultShards none 5)
  have called := start.snoc
    (.mutate (.call () (.setEx (ascii "k") (ascii "v") 1) trivial rfl) fun _ => rfl)
  have defined : DeadlineDefined 5 1 := ⟨⟨by decide, by decide⟩, by decide, by decide⟩
  have timed := called.snoc
    (.mutate (.advance () (.setExTime (ascii "k") (ascii "v") 1 (by decide) defined) (by simp))
      fun _ => rfl)
  have locked := timed.snoc
    (.mutate (.advance () (.setExLock (ascii "k") (ascii "v") 1 5) fun _ => rfl) fun _ => rfl)
  have logged := locked.snoc
    (.mutate (.advance () (.setExLog (ascii "k") (ascii "v") 1 5) (by simp)) fun _ => rfl)
  have stored := logged.snoc
    (.mutate (.advance () (.setExStore (ascii "k") (ascii "v") 1 5) (by simp)) fun _ => rfl)
  have scheduled := stored.snoc
    (.mutate (.advance () (.setExSchedule (ascii "k") 1005) (by simp)) nofun)
  have notified := scheduled.snoc (.notify (by rfl))
  have tested := notified.snoc (.thread (.own (.lock rfl rfl) ⟨rfl, rfl⟩ nofun nofun))
  have top : Top [((1005 : ℤ), ascii "k")] (1005, ascii "k") :=
    ⟨List.mem_singleton_self _, by simp⟩
  have entered := tested.snoc
    (.thread (.enter (.waitNext rfl (by rfl) top (by decide)) ⟨rfl, rfl⟩ nofun rfl))
  have armed := entered.snoc (.thread (.arm rfl))
  have refuted :
      ¬((false = true) ∨ (Place.sleeping (some 1005)).Awaits [((1005 : ℤ), ascii "k")]) := by
    simp [Place.Awaits]
  have blocking := armed.snoc (.thread (.inside (.refute refuted)))
  refine ⟨_, _, blocking, by rfl, rfl, rfl, rfl, rfl, fun _ => rfl, rfl, by decide +kernel⟩

/-- The TTL thread does not oversleep.  While it is blocked, no caller of `schedule` is about to
notify it and no mutator is between its write and its push, it wakes at the latest when the earliest
deadline in the store has been reached, but for the time that it took to fall asleep. -/
theorem never_oversleeps {Tid : Type} [DecidableEq Tid] {nShards : ℕ}
    {powerOfTwo : nShards.isPowerOfTwo} {aof : Option AofWriter} {clock : ℕ}
    {moves : List (Transition.Move (Alarm Tid) (List Event))} {alarm : Alarm Tid} {deadline : ℤ}
    (run : Run powerOfTwo aof clock moves alarm) (blocked : alarm.wait = .blocked deadline)
    (announced : alarm.announcing = 0)
    (settled : ∀ tid, (alarm.state.system.threads tid).owes = none) :
    0 ≤ alarm.lag ∧
      ∀ index key entry, (alarm.state.system.store.shards index).lookup key = some entry →
        entry.expireAtMs ≠ -1 → deadline ≤ entry.expireAtMs + alarm.lag := by
  have sound := sound_run run
  refine ⟨sound.lag, ?_⟩
  intro index key entry held limited
  have quiet : ∀ expireAtMs key, alarm.state.place ≠ .calling expireAtMs key := by
    intro expireAtMs key calling
    have awake := sound.places.mpr (by rw [calling]; nofun)
    have outside := awake.1
    rw [blocked] at outside
    cases outside
  exact sound.not_late blocked announced (mem_heap run settled quiet held limited)

theorem never_oversleeps_setEx :
    ∃ (moves : List (Transition.Move (Alarm Unit) (List Event))) (alarm : Alarm Unit),
      Run KvStore.defaultShards none 5 moves alarm ∧ alarm.wait = .blocked 1005 ∧
        alarm.state.system.store.find (ascii "k") = some ⟨ascii "v", 1005⟩ ∧
        0 ≤ alarm.lag ∧ 1005 ≤ 1005 + alarm.lag := by
  rcases run_setEx with
    ⟨moves, alarm, run, blocking, -, announced, -, -, settled, -, found⟩
  have blocks : TimedWait.Step alarm.now alarm.Tested alarm.wait (.blocked 1005) := by
    rw [blocking]
    exact .block
  have blocked := run.snoc (.thread (.inside blocks))
  rcases never_oversleeps blocked rfl announced settled with ⟨lag, reached⟩
  exact ⟨_, _, blocked, rfl, found, lag, reached _ _ _ found (by decide)⟩

end Runs

end Alarm

end RedisCpp.Store.TtlManager
