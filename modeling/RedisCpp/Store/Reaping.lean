import RedisCpp.Store.Alarm

/-!
# The TTL thread gets on

Whatever state the store is in, its TTL thread can work off the heap as far as it is due, without a
step of any other thread and at the latest when the wait it is in ends.  Then no shard holds an
entry that has expired.  Once it has been stopped, it blocks at most once more, and can always come
to its end.
-/

namespace RedisCpp.Store.TtlManager

theorem exists_top {heap : List (ℤ × Bytes)} (filled : heap ≠ []) : ∃ item, Top heap item := by
  induction heap with
  | nil => exact absurd rfl filled
  | cons first rest inductionHypothesis =>
      by_cases empty : rest = []
      · subst empty
        exact ⟨first, List.mem_singleton_self _, by simp⟩
      · rcases inductionHypothesis empty with ⟨item, mem, least⟩
        rcases le_total first.1 item.1 with before | after
        · refine ⟨first, List.mem_cons_self, ?_⟩
          intro other found
          rcases List.mem_cons.mp found with rfl | later
          · exact le_refl _
          · exact before.trans (least other later)
        · refine ⟨item, List.mem_cons_of_mem _ mem, ?_⟩
          intro other found
          rcases List.mem_cons.mp found with rfl | later
          · exact after
          · exact least other later

/-- The thread ends only when it has been stopped. -/
theorem stop_of_exited {Tid : Type} [DecidableEq Tid] {nShards : ℕ}
    {powerOfTwo : nShards.isPowerOfTwo} {aof : Option AofWriter} {clock : ℕ}
    {moves : List (Transition.Move (State Tid) (List Event))} {state : State Tid}
    (run : Run powerOfTwo aof clock moves state) (exited : state.place = .exited) :
    state.stop = true := by
  induction run with
  | nil => cases exited
  | snoc _ step inductionHypothesis =>
      cases step with
      | mutate => exact inductionHypothesis exited
      | halt => rfl
      | exit _ halted | leave _ halted => exact halted
      | lock | waitEmpty | wakeEmpty | waitNext | wakeNext | due | read | pop | callback | relock
      | finish => cases exited

namespace Alarm

variable {Tid : Type} [DecidableEq Tid] {alarm after : Alarm Tid} {events : List Event} {bound : ℤ}
  {heap : List (ℤ × Bytes)}

/-! ## Working off the heap -/

/-- The TTL thread makes a step, or time passes. -/
inductive Alone (alarm : Alarm Tid) : List Event → Alarm Tid → Prop where
  | thread {events : List Event} {after : Alarm Tid} (step : ThreadStep alarm events after) :
      Alone alarm events after
  | tick (elapsed : ℕ) :
      Alone alarm []
        { alarm with
          state := { alarm.state with
            system := { alarm.state.system with clock := alarm.state.system.clock + elapsed } } }

theorem Alone.step (alone : Alone alarm events after) : Step alarm events after := by
  cases alone with
  | thread step => exact .thread step
  | tick elapsed =>
      have ticked : Step alarm [] _ := .mutate (.tick elapsed) fun _ => rfl
      simpa using ticked

/-- No other thread moves. -/
theorem Alone.threads (alone : Alone alarm events after) :
    after.state.system.threads = alarm.state.system.threads := by
  cases alone with
  | tick => rfl
  | thread step =>
      cases step with
      | arm | inside => rfl
      | own step _ moved | enter step _ moved | leave _ step moved =>
          cases step with
          | mutate | halt => exact absurd rfl moved
          | lock | exit | waitEmpty | wakeEmpty | waitNext | wakeNext | due | leave | read | pop
          | callback | relock | finish => rfl

section Continuations

variable {later : List (Transition.Move (Alarm Tid) (List Event))} {final : Alarm Tid}

theorem steps_of_alone (alone : Transition.Run Alone alarm later final) :
    Transition.Run Step alarm later final :=
  alone.mono fun _ _ _ => Alone.step

theorem threads_of_alone (alone : Transition.Run Alone alarm later final) :
    final.state.system.threads = alarm.state.system.threads := by
  induction alone with
  | nil => rfl
  | snoc _ step inductionHypothesis => exact step.threads.trans inductionHypothesis

end Continuations

/-- The TTL thread can come to a state with some property, by its own steps and at the latest at
some time. -/
def Reaches (goal : Alarm Tid → Prop) (bound : ℤ) (alarm : Alarm Tid) : Prop :=
  ∃ later final, Transition.Run Alone alarm later final ∧ goal final ∧ final.now ≤ bound

/-- Nothing in the heap is due, and no callback is pending. -/
structure WorkedOff (alarm : Alarm Tid) : Prop where
  heap : ∀ item ∈ alarm.heap, alarm.now < item.1
  quiet : ∀ expireAtMs key, alarm.state.place ≠ .calling expireAtMs key

namespace Reaches

variable {goal : Alarm Tid → Prop}

theorem here (reached : goal alarm) (early : alarm.now ≤ bound) : Reaches goal bound alarm :=
  ⟨[], alarm, .nil, reached, early⟩

theorem alone (reaches : Reaches goal bound after) (alone : Alone alarm events after) :
    Reaches goal bound alarm := by
  rcases reaches with ⟨later, final, run, reached, early⟩
  have first := (@Transition.Run.nil _ _ (@Alone Tid _) alarm).snoc alone
  exact ⟨_, final, first.trans run, reached, early⟩

theorem step (reaches : Reaches goal bound after) (step : ThreadStep alarm events after) :
    Reaches goal bound alarm :=
  reaches.alone (.thread step)

theorem bind {other : Alarm Tid → Prop} (reaches : Reaches goal bound alarm)
    (next : ∀ final, goal final → final.now ≤ bound → Reaches other bound final) :
    Reaches other bound alarm := by
  rcases reaches with ⟨front, middle, first, reached, early⟩
  rcases next middle reached early with ⟨back, final, second, arrived, late⟩
  exact ⟨front ++ back, final, first.trans second, arrived, late⟩

theorem mono {other : Alarm Tid → Prop} (reaches : Reaches goal bound alarm)
    (implies : ∀ final, goal final → other final) : Reaches other bound alarm := by
  rcases reaches with ⟨later, final, run, reached, early⟩
  exact ⟨later, final, run, implies final reached, early⟩

theorem later {more : ℤ} (reaches : Reaches goal bound alarm) (le : bound ≤ more) :
    Reaches goal more alarm := by
  rcases reaches with ⟨later, final, run, reached, early⟩
  exact ⟨later, final, run, reached, early.trans le⟩

end Reaches

/-- The thread is at the head of its loop, and `stop_` and the destructor are as given. -/
structure AtHead (stop : Bool) (destructor : Destructor) (final : Alarm Tid) : Prop where
  awake : final.Awake
  place : final.state.place = .testing
  stop : final.state.stop = stop
  destructor : final.destructor = destructor
  enabled : ∃ heap, final.state.system.store.ttlHeap = some heap

/-- With a fresh reading of the clock, the thread pops all that is due and comes back to the head of
its loop. -/
theorem reaches_popped (awake : alarm.Awake)
    (enabled : alarm.state.system.store.ttlHeap = some heap)
    (popping : alarm.state.place = .popping alarm.now) :
    Reaches (fun final => AtHead alarm.state.stop alarm.destructor final ∧ WorkedOff final)
      alarm.now alarm := by
  induction size_eq : heap.length using Nat.strong_induction_on generalizing alarm heap with
  | _ size inductionHypothesis =>
      have held : alarm.heap = heap := by rw [Alarm.heap, enabled, Option.getD_some]
      by_cases worked : ∀ item ∈ heap, alarm.now < item.1
      · have finished : ThreadStep alarm [] _ :=
          .own (.finish popping enabled worked) awake (by rw [popping]; rintro ⟨⟩) (by rintro _ ⟨⟩)
        refine Reaches.step ?_ finished
        refine .here ⟨⟨awake, rfl, rfl, rfl, heap, enabled⟩, ?_, by rintro _ _ ⟨⟩⟩ (le_refl _)
        intro item mem
        rw [← held] at worked
        exact worked item mem
      · simp only [not_forall, not_lt] at worked
        rcases worked with ⟨due, mem, passed⟩
        rcases exists_top (List.ne_nil_of_mem mem) with ⟨item, top⟩
        have expired : item.1 ≤ alarm.now := (top.2 due mem).trans passed
        have popped : ThreadStep alarm [] _ :=
          .own (.pop popping enabled top expired) awake (by rw [popping]; rintro ⟨⟩)
            (by rintro _ ⟨⟩)
        have fewer : (heap.erase item).length < size := by
          rw [← size_eq, List.length_erase_of_mem top.1]
          exact Nat.sub_lt (List.length_pos_of_mem top.1) Nat.one_pos
        refine Reaches.step ?_ popped
        refine Reaches.step ?_ (.own (.callback rfl) awake (by rintro ⟨⟩) (by rintro _ ⟨⟩))
        refine Reaches.step ?_ (.own (.relock rfl) awake (by rintro ⟨⟩) (by rintro _ ⟨⟩))
        exact inductionHypothesis _ fewer awake (KvStore.ttlHeap_reap _ _ _) rfl rfl

theorem reaches_of_relocking (awake : alarm.Awake)
    (enabled : alarm.state.system.store.ttlHeap = some heap)
    (relocking : alarm.state.place = .relocking) :
    Reaches (fun final => AtHead alarm.state.stop alarm.destructor final ∧ WorkedOff final)
      alarm.now alarm := by
  refine Reaches.step ?_ (.own (.relock relocking) awake (by rw [relocking]; nofun) nofun)
  exact reaches_popped awake enabled rfl

theorem reaches_of_calling (awake : alarm.Awake)
    (enabled : alarm.state.system.store.ttlHeap = some heap) {expireAtMs : ℤ} {key : Bytes}
    (calling : alarm.state.place = .calling expireAtMs key) :
    Reaches (fun final => AtHead alarm.state.stop alarm.destructor final ∧ WorkedOff final)
      alarm.now alarm := by
  refine Reaches.step ?_ (.own (.callback calling) awake (by rw [calling]; nofun) nofun)
  exact reaches_of_relocking awake ((KvStore.ttlHeap_reap _ _ _).trans enabled) rfl

theorem reaches_head_of_calling (awake : alarm.Awake)
    (enabled : alarm.state.system.store.ttlHeap = some heap) {expireAtMs : ℤ} {key : Bytes}
    (calling : alarm.state.place = .calling expireAtMs key) :
    Reaches (AtHead alarm.state.stop alarm.destructor) alarm.now alarm :=
  (reaches_of_calling awake enabled calling).mono fun _ => And.left

/-- With an older reading of the clock, the thread comes back to the head of its loop as well. -/
theorem reaches_of_popping (awake : alarm.Awake)
    (enabled : alarm.state.system.store.ttlHeap = some heap) {now : ℤ}
    (popping : alarm.state.place = .popping now) :
    Reaches (AtHead alarm.state.stop alarm.destructor) alarm.now alarm := by
  by_cases worked : ∀ item ∈ heap, now < item.1
  · have finished : ThreadStep alarm [] _ :=
      .own (.finish popping enabled worked) awake (by rw [popping]; nofun) nofun
    refine Reaches.step ?_ finished
    exact .here ⟨awake, rfl, rfl, rfl, heap, enabled⟩ (le_refl _)
  · simp only [not_forall, not_lt] at worked
    rcases worked with ⟨due, mem, passed⟩
    rcases exists_top (List.ne_nil_of_mem mem) with ⟨item, top⟩
    have expired : item.1 ≤ now := (top.2 due mem).trans passed
    have popped : ThreadStep alarm [] _ :=
      .own (.pop popping enabled top expired) awake (by rw [popping]; nofun) nofun
    refine Reaches.step ?_ popped
    exact reaches_head_of_calling awake rfl rfl

/-! ## Waking -/

/-- The time at which the wait of the thread ends, if nobody wakes it before. -/
def wakesBy (alarm : Alarm Tid) : ℤ :=
  match alarm.duration, alarm.wait.until? with
  | some duration, _ => max alarm.now (alarm.now + duration)
  | none, some deadline => max alarm.now deadline
  | none, none => alarm.now

/-- The thread has left its wait, with `stop_`, the destructor and the heap as given. -/
structure Woken (stop : Bool) (destructor : Destructor) (heap : Option (List (ℤ × Bytes)))
    (final : Alarm Tid) : Prop where
  awake : final.Awake
  place : final.state.place = .testing ∨ final.state.place = .awake
  stop : final.state.stop = stop
  destructor : final.destructor = destructor
  heap : final.state.system.store.ttlHeap = heap

variable {sleeps : Option ℤ} {deadline : ℤ}

theorem reaches_of_returns (sleeping : alarm.state.place = .sleeping sleeps)
    (undecided : alarm.duration = none) (returned : alarm.wait.Returns alarm.Tested) :
    Reaches (Woken alarm.state.stop alarm.destructor alarm.state.system.store.ttlHeap) alarm.now
      alarm := by
  cases sleeps with
  | none =>
      refine Reaches.step ?_ (.leave returned (.wakeEmpty sleeping) (by rw [sleeping]; nofun))
      exact .here ⟨⟨rfl, undecided⟩, Or.inl rfl, rfl, rfl, rfl⟩ (le_refl _)
  | some next =>
      refine Reaches.step ?_ (.leave returned (.wakeNext sleeping) (by rw [sleeping]; nofun))
      exact .here ⟨⟨rfl, undecided⟩, Or.inr rfl, rfl, rfl, rfl⟩ (le_refl _)

/-- Once it has been woken or its time is up, the thread takes `mu_` back and tests again. -/
theorem reaches_of_timedOut (sleeping : alarm.state.place = .sleeping sleeps)
    (undecided : alarm.duration = none) (woken : alarm.wait = .woken deadline true) :
    Reaches (Woken alarm.state.stop alarm.destructor alarm.state.system.store.ttlHeap) alarm.now
      alarm := by
  have reacquired : TimedWait.Step alarm.now alarm.Tested alarm.wait (.testing deadline true) := by
    rw [woken]
    exact .reacquire
  refine Reaches.step ?_ (.inside reacquired)
  exact reaches_of_returns sleeping undecided ⟨deadline, true, rfl, Or.inr rfl⟩

/-- Time passes up to the deadline of the wait. -/
theorem reaches_of_blocked (sleeping : alarm.state.place = .sleeping sleeps)
    (undecided : alarm.duration = none) (blocked : alarm.wait = .blocked deadline) :
    Reaches (Woken alarm.state.stop alarm.destructor alarm.state.system.store.ttlHeap)
      (max alarm.now deadline) alarm := by
  have passed : ((alarm.state.system.clock + (deadline - alarm.now).toNat : ℕ) : ℤ) =
      max alarm.now deadline := by
    rw [Nat.cast_add, Int.toNat_eq_max]
    show alarm.now + max (deadline - alarm.now) 0 = max alarm.now deadline
    omega
  have expired : TimedWait.Step
      ((alarm.state.system.clock + (deadline - alarm.now).toNat : ℕ) : ℤ) alarm.Tested alarm.wait
      (.woken deadline true) := by
    rw [blocked, passed]
    exact .expire (le_max_right _ _)
  refine Reaches.alone ?_ (.tick (deadline - alarm.now).toNat)
  refine Reaches.step ?_ (.inside expired)
  refine Reaches.later ?_ passed.le
  exact reaches_of_timedOut sleeping undecided rfl

theorem reaches_of_blocking (sleeping : alarm.state.place = .sleeping sleeps)
    (undecided : alarm.duration = none) (blocking : alarm.wait = .blocking deadline) :
    Reaches (Woken alarm.state.stop alarm.destructor alarm.state.system.store.ttlHeap)
      (max alarm.now deadline) alarm := by
  have blocked : TimedWait.Step alarm.now alarm.Tested alarm.wait (.blocked deadline) := by
    rw [blocking]
    exact .block
  refine Reaches.step ?_ (.inside blocked)
  exact reaches_of_blocked sleeping undecided rfl

theorem reaches_of_testing (sleeping : alarm.state.place = .sleeping sleeps)
    (undecided : alarm.duration = none) {timedOut : Bool}
    (testing : alarm.wait = .testing deadline timedOut) :
    Reaches (Woken alarm.state.stop alarm.destructor alarm.state.system.store.ttlHeap)
      (max alarm.now deadline) alarm := by
  by_cases returns : alarm.wait.Returns alarm.Tested
  · exact (reaches_of_returns sleeping undecided returns).later (le_max_left _ _)
  · have refuted : TimedWait.Step alarm.now alarm.Tested alarm.wait (.blocking deadline) := by
      cases timedOut with
      | false =>
          rw [testing]
          exact .refute fun tested => returns ⟨deadline, false, testing, Or.inl tested⟩
      | true => exact absurd ⟨deadline, true, testing, Or.inr rfl⟩ returns
    refine Reaches.step ?_ (.inside refuted)
    exact reaches_of_blocking sleeping undecided rfl

/-- However far the thread has got into its wait, it leaves it at the latest when its time is up. -/
theorem reaches_of_sleeping (sound : Sound alarm)
    (sleeping : alarm.state.place = .sleeping sleeps) :
    Reaches (Woken alarm.state.stop alarm.destructor alarm.state.system.store.ttlHeap)
      alarm.wakesBy alarm := by
  have asleep : ¬alarm.Awake := fun awake => sound.places.mp awake sleeps sleeping
  cases duration_eq : alarm.duration with
  | some duration =>
      have armed : ThreadStep alarm [] _ := .arm duration_eq
      rw [wakesBy, duration_eq]
      refine Reaches.step ?_ armed
      exact reaches_of_testing sleeping rfl rfl
  | none =>
      cases wait_eq : alarm.wait with
      | outside => exact absurd ⟨wait_eq, duration_eq⟩ asleep
      | testing deadline timedOut =>
          rw [wakesBy, duration_eq, wait_eq]
          exact reaches_of_testing sleeping duration_eq wait_eq
      | blocking deadline =>
          rw [wakesBy, duration_eq, wait_eq]
          exact reaches_of_blocking sleeping duration_eq wait_eq
      | blocked deadline =>
          rw [wakesBy, duration_eq, wait_eq]
          exact reaches_of_blocked sleeping duration_eq wait_eq
      | woken deadline timedOut =>
          rw [wakesBy, duration_eq, wait_eq]
          have reacquired : TimedWait.Step alarm.now alarm.Tested alarm.wait
              (.testing deadline timedOut) := by
            rw [wait_eq]
            exact .reacquire
          refine Reaches.step ?_ (.inside reacquired)
          exact reaches_of_testing sleeping duration_eq rfl

/-! ## Reaping -/

omit [DecidableEq Tid] in
theorem workedOff_or_due (quiet : ∀ expireAtMs key, alarm.state.place ≠ .calling expireAtMs key)
    (enabled : alarm.state.system.store.ttlHeap = some heap) :
    WorkedOff alarm ∨ ∃ item, Top heap item ∧ item.1 ≤ alarm.now := by
  have held : alarm.heap = heap := by rw [Alarm.heap, enabled, Option.getD_some]
  by_cases worked : ∀ item ∈ heap, alarm.now < item.1
  · exact Or.inl ⟨by rwa [held], quiet⟩
  · simp only [not_forall, not_lt] at worked
    rcases worked with ⟨due, mem, passed⟩
    rcases exists_top (List.ne_nil_of_mem mem) with ⟨item, top⟩
    exact Or.inr ⟨item, top, (top.2 due mem).trans passed⟩

theorem worksOff_of_awake (awake : alarm.Awake)
    (enabled : alarm.state.system.store.ttlHeap = some heap) (goesOn : alarm.state.stop = false)
    (place : alarm.state.place = .awake) : Reaches WorkedOff alarm.now alarm := by
  refine Reaches.step ?_ (.own (.read place goesOn) awake (by rw [place]; nofun) nofun)
  have popped := @reaches_popped Tid _
    { alarm with state := { alarm.state with place := .popping alarm.now } } heap awake enabled rfl
  exact popped.mono fun _ => And.right

theorem worksOff_of_locked (awake : alarm.Awake)
    (enabled : alarm.state.system.store.ttlHeap = some heap) (goesOn : alarm.state.stop = false)
    (place : alarm.state.place = .locked) : Reaches WorkedOff alarm.now alarm := by
  have quiet : ∀ expireAtMs key, alarm.state.place ≠ .calling expireAtMs key := by
    rw [place]
    nofun
  rcases workedOff_or_due quiet enabled with worked | ⟨item, top, due⟩
  · exact .here worked (le_refl _)
  · have passed : item.1 - alarm.state.system.clock ≤ 0 := sub_nonpos.mpr due
    have found : ThreadStep alarm [] _ :=
      .own (.due place enabled top passed) awake (by rw [place]; nofun) nofun
    refine Reaches.step ?_ found
    exact worksOff_of_awake awake enabled goesOn rfl

theorem worksOff_of_testing (awake : alarm.Awake)
    (enabled : alarm.state.system.store.ttlHeap = some heap) (goesOn : alarm.state.stop = false)
    (place : alarm.state.place = .testing) : Reaches WorkedOff alarm.now alarm := by
  refine Reaches.step ?_ (.own (.lock place goesOn) awake (by rw [place]; nofun) nofun)
  exact worksOff_of_locked awake enabled goesOn rfl

/-- A thread that is in no wait and has not been stopped can work off what is due at once. -/
theorem worksOff_of_outside (awake : alarm.Awake)
    (enabled : alarm.state.system.store.ttlHeap = some heap) (goesOn : alarm.state.stop = false)
    (places : ∀ next, alarm.state.place ≠ .sleeping next) (running : alarm.state.place ≠ .exited) :
    Reaches WorkedOff alarm.now alarm := by
  cases place_eq : alarm.state.place with
  | testing => exact worksOff_of_testing awake enabled goesOn place_eq
  | locked => exact worksOff_of_locked awake enabled goesOn place_eq
  | sleeping next => exact absurd place_eq (places next)
  | awake => exact worksOff_of_awake awake enabled goesOn place_eq
  | popping now =>
      refine (reaches_of_popping awake enabled place_eq).bind ?_
      intro final head early
      rcases head.enabled with ⟨rest, held⟩
      exact (worksOff_of_testing head.awake held (head.stop.trans goesOn) head.place).later early
  | calling expireAtMs key =>
      exact (reaches_of_calling awake enabled place_eq).mono fun _ => And.right
  | relocking => exact (reaches_of_relocking awake enabled place_eq).mono fun _ => And.right
  | exited => exact absurd place_eq running

omit [DecidableEq Tid] in
theorem wakesBy_of_awake (awake : alarm.Awake) : alarm.wakesBy = alarm.now := by
  rw [wakesBy, awake.2, awake.1]
  rfl

/-- From wherever it is, a thread that has not been stopped can work off what is due. -/
theorem worksOff (sound : Sound alarm) (enabled : alarm.state.system.store.ttlHeap = some heap)
    (goesOn : alarm.state.stop = false) (running : alarm.state.place ≠ .exited) :
    Reaches WorkedOff alarm.wakesBy alarm := by
  by_cases places : ∀ next, alarm.state.place ≠ .sleeping next
  · have awake := sound.places.mpr places
    rw [wakesBy_of_awake awake]
    exact worksOff_of_outside awake enabled goesOn places running
  · simp only [ne_eq, not_forall, not_not] at places
    rcases places with ⟨sleeps, sleeping⟩
    refine (reaches_of_sleeping sound sleeping).bind ?_
    intro woken reached early
    have on : woken.state.stop = false := reached.stop.trans goesOn
    have held := reached.heap.trans enabled
    rcases reached.place with testing | awake
    · exact (worksOff_of_testing reached.awake held on testing).later early
    · exact (worksOff_of_awake reached.awake held on awake).later early

/-! ## Stopping -/

/-- How often the thread falls asleep in a run. -/
def timesAsleep (moves : List (Transition.Move (Alarm Tid) (List Event))) : ℕ :=
  (moves.map fun move => TimedWait.falls move.source.wait move.target.wait).sum

omit [DecidableEq Tid] in
@[simp]
theorem timesAsleep_append (moves : List (Transition.Move (Alarm Tid) (List Event)))
    (source target : Alarm Tid) (label : List Event) :
    timesAsleep (moves ++ [⟨source, label, target⟩]) =
      timesAsleep moves + TimedWait.falls source.wait target.wait := by
  simp [timesAsleep]

/-- Only the destructor sets `stop_`, and nothing clears it. -/
theorem Step.stop_kept (step : Step alarm events after) (stopped : alarm.state.stop = true) :
    after.state.stop = true := by
  cases step with
  | flag => rfl
  | mutate | notify | notifyAll | join => exact stopped
  | thread step =>
      cases step with
      | arm | inside => exact stopped
      | own step | enter step | leave _ step =>
          cases step with
          | halt => rfl
          | mutate | lock | exit | waitEmpty | wakeEmpty | waitNext | wakeNext | due | leave
          | read | pop | callback | relock | finish => exact stopped

theorem Step.falls_add_toBlock_le (step : Step alarm events after)
    (stopped : alarm.state.stop = true) :
    TimedWait.falls alarm.wait after.wait + after.wait.toBlock ≤ alarm.wait.toBlock := by
  cases step with
  | mutate | flag | join => simp
  | notify | notifyAll => simp
  | thread step =>
      cases step with
      | own | enter => simp
      | inside step => exact step.falls_add_toBlock_le (Or.inl stopped)
      | arm decided => simp [TimedWait.falls, TimedWait.toBlock]
      | leave => simp [TimedWait.falls, TimedWait.toBlock]

/-- The thread has ended after `stop_`, and the destructor is as given. -/
structure Ended (destructor : Destructor) (final : Alarm Tid) : Prop where
  place : final.state.place = .exited
  stop : final.state.stop = true
  destructor : final.destructor = destructor

/-- A thread that has been stopped falls asleep only if it has tested `stop_` before. -/
theorem timesAsleep_le (stopped : alarm.state.stop = true)
    {later : List (Transition.Move (Alarm Tid) (List Event))} {final : Alarm Tid}
    (continued : Transition.Run Step alarm later final) :
    final.state.stop = true ∧ timesAsleep later + final.wait.toBlock ≤ alarm.wait.toBlock := by
  apply continued.invariant
  · exact ⟨stopped, (Nat.zero_add _).le⟩
  · rintro moves state label after - ⟨halted, before⟩ step
    refine ⟨step.stop_kept halted, ?_⟩
    have kept := step.falls_add_toBlock_le halted
    rw [timesAsleep_append]
    omega

theorem reaches_exited_of_testing (awake : alarm.Awake) (stopped : alarm.state.stop = true)
    (place : alarm.state.place = .testing) :
    Reaches (Ended alarm.destructor) alarm.now alarm := by
  refine Reaches.step ?_ (.own (.exit place stopped) awake (by rw [place]; nofun) nofun)
  exact .here ⟨rfl, stopped, rfl⟩ (le_refl _)

theorem reaches_exited_of_awake (awake : alarm.Awake) (stopped : alarm.state.stop = true)
    (place : alarm.state.place = .awake) :
    Reaches (Ended alarm.destructor) alarm.now alarm := by
  refine Reaches.step ?_ (.own (.leave place stopped) awake (by rw [place]; nofun) nofun)
  exact .here ⟨rfl, stopped, rfl⟩ (le_refl _)

theorem reaches_exited_of_woken {destructor : Destructor} {held : Option (List (ℤ × Bytes))}
    (woken : Woken true destructor held alarm) : Reaches (Ended destructor) alarm.now alarm := by
  rw [← woken.destructor]
  rcases woken.place with testing | awake
  · exact reaches_exited_of_testing woken.awake woken.stop testing
  · exact reaches_exited_of_awake woken.awake woken.stop awake

/-- A wait that has not begun when the thread is stopped returns at once. -/
theorem reaches_exited_of_decided (sleeping : alarm.state.place = .sleeping sleeps)
    (stopped : alarm.state.stop = true) {duration : ℤ} (decided : alarm.duration = some duration) :
    Reaches (Ended alarm.destructor) alarm.now alarm := by
  have armed : ThreadStep alarm [] _ := .arm decided
  refine Reaches.step ?_ armed
  have returned := @reaches_of_returns Tid _
    { alarm with
      wait := .testing (alarm.now + duration) false
      duration := none
      lag := alarm.now - alarm.readAt } sleeps sleeping rfl ⟨_, _, rfl, Or.inl (Or.inl stopped)⟩
  refine returned.bind ?_
  intro final woken early
  rw [stopped] at woken
  exact (reaches_exited_of_woken woken).later early

theorem reaches_exited_of_locked (awake : alarm.Awake)
    (enabled : alarm.state.system.store.ttlHeap = some heap) (stopped : alarm.state.stop = true)
    (place : alarm.state.place = .locked) :
    Reaches (Ended alarm.destructor) alarm.now alarm := by
  by_cases empty : heap = []
  · subst empty
    have entered : ThreadStep alarm [] _ :=
      .enter (.waitEmpty place enabled) awake (by rw [place]; nofun) rfl
    refine Reaches.step ?_ entered
    exact reaches_exited_of_decided rfl stopped rfl
  · rcases exists_top empty with ⟨item, top⟩
    by_cases later : 0 < item.1 - alarm.state.system.clock
    · have entered : ThreadStep alarm [] _ :=
        .enter (.waitNext place enabled top later) awake (by rw [place]; nofun) rfl
      refine Reaches.step ?_ entered
      exact reaches_exited_of_decided rfl stopped rfl
    · have found : ThreadStep alarm [] _ :=
        .own (.due place enabled top (not_lt.mp later)) awake (by rw [place]; nofun) nofun
      refine Reaches.step ?_ found
      exact reaches_exited_of_awake awake stopped rfl

theorem reaches_exited_of_outside (awake : alarm.Awake)
    (enabled : alarm.state.system.store.ttlHeap = some heap) (stopped : alarm.state.stop = true)
    (places : ∀ next, alarm.state.place ≠ .sleeping next) :
    Reaches (Ended alarm.destructor) alarm.now alarm := by
  have of_head : Reaches (AtHead alarm.state.stop alarm.destructor) alarm.now alarm →
      Reaches (Ended alarm.destructor) alarm.now alarm := by
    intro reaches
    refine reaches.bind ?_
    intro final head early
    rw [← head.destructor]
    exact (reaches_exited_of_testing head.awake (head.stop.trans stopped) head.place).later early
  cases place_eq : alarm.state.place with
  | testing => exact reaches_exited_of_testing awake stopped place_eq
  | locked => exact reaches_exited_of_locked awake enabled stopped place_eq
  | sleeping next => exact absurd place_eq (places next)
  | awake => exact reaches_exited_of_awake awake stopped place_eq
  | popping now => exact of_head (reaches_of_popping awake enabled place_eq)
  | calling expireAtMs key => exact of_head (reaches_head_of_calling awake enabled place_eq)
  | relocking =>
      exact of_head ((reaches_of_relocking awake enabled place_eq).mono fun _ => And.left)
  | exited => exact .here ⟨place_eq, stopped, rfl⟩ (le_refl _)

/-- From wherever it is, a thread that has been stopped can come to its end. -/
theorem reaches_exited (sound : Sound alarm)
    (enabled : alarm.state.system.store.ttlHeap = some heap) (stopped : alarm.state.stop = true) :
    Reaches (Ended alarm.destructor) alarm.wakesBy alarm := by
  by_cases places : ∀ next, alarm.state.place ≠ .sleeping next
  · have awake := sound.places.mpr places
    rw [wakesBy_of_awake awake]
    exact reaches_exited_of_outside awake enabled stopped places
  · simp only [ne_eq, not_forall, not_not] at places
    rcases places with ⟨sleeps, sleeping⟩
    refine (reaches_of_sleeping sound sleeping).bind ?_
    intro woken reached early
    rw [stopped] at reached
    exact (reaches_exited_of_woken reached).later early

/-- The destructor joins a thread that has ended. -/
theorem finishes (exited : alarm.state.place = .exited) (called : alarm.destructor ≠ .alive) :
    ∃ later final, Transition.Run Step alarm later final ∧ final.destructor = .finished ∧
      final.now = alarm.now ∧ final.state.system.threads = alarm.state.system.threads := by
  have start := @Transition.Run.nil _ _ (@Step Tid _) alarm
  cases destructor_eq : alarm.destructor with
  | alive => exact absurd destructor_eq called
  | flagged =>
      exact ⟨_, _, (start.snoc (.notifyAll destructor_eq)).snoc (.join rfl exited), rfl, rfl, rfl⟩
  | joining => exact ⟨_, _, start.snoc (.join destructor_eq exited), rfl, rfl, rfl⟩
  | finished => exact ⟨_, _, start, destructor_eq, rfl, rfl⟩

section Runs

variable {nShards : ℕ} {powerOfTwo : nShards.isPowerOfTwo} {aof : Option AofWriter} {clock : ℕ}
  {moves : List (Transition.Move (Alarm Tid) (List Event))}

/-- What has expired is reaped.  As long as the TTL manager has not been stopped, and no mutator is
between its write and its push, its thread by itself can come to a point where no shard holds an
entry that has expired, and needs no longer for that than up to the end of the wait it is in. -/
theorem expired_reaped (run : Run powerOfTwo aof clock moves alarm)
    (goesOn : alarm.state.stop = false)
    (settled : ∀ tid, (alarm.state.system.threads tid).owes = none) :
    ∃ later final, Transition.Run Alone alarm later final ∧ final.now ≤ alarm.wakesBy ∧
      final.state.system.threads = alarm.state.system.threads ∧
      ∀ index key entry, (final.state.system.store.shards index).lookup key = some entry →
        entry.expireAtMs ≠ -1 → final.now < entry.expireAtMs := by
  rcases state_run run with ⟨steps, before⟩
  rcases Coverage.run before with ⟨heap, coverage⟩
  have running : alarm.state.place ≠ .exited := by
    intro exited
    rw [stop_of_exited before exited] at goesOn
    cases goesOn
  rcases worksOff (sound_run run) coverage.enabled goesOn running with
    ⟨later, final, continued, worked, early⟩
  have threads := threads_of_alone continued
  refine ⟨later, final, continued, early, threads, ?_⟩
  intro index key entry held limited
  rw [← threads] at settled
  exact worked.heap _
    (mem_heap (run.trans (steps_of_alone continued)) settled worked.quiet held limited)

/-- The thread is about to block up to a deadline that has passed in the meantime. -/
theorem expired_reaped_setEx :
    ∃ (moves : List (Transition.Move (Alarm Unit) (List Event))) (alarm : Alarm Unit),
      Run KvStore.defaultShards none 5 moves alarm ∧ alarm.now = 2005 ∧
        alarm.state.system.store.find (ascii "k") = some ⟨ascii "v", 1005⟩ ∧
        ∃ later final, Transition.Run Alone alarm later final ∧ final.now ≤ 2005 ∧
          ∀ index key entry, (final.state.system.store.shards index).lookup key = some entry →
            entry.expireAtMs ≠ -1 → final.now < entry.expireAtMs := by
  rcases run_setEx with
    ⟨moves, before, run, blocking, undecided, -, -, goesOn, settled, now, found⟩
  have passed := run.snoc (.mutate (.tick 2000) fun _ => rfl)
  have clock_eq : ((before.state.system.clock + 2000 : ℕ) : ℤ) = 2005 := by
    rw [Nat.cast_add]
    exact congrArg (· + 2000) now
  rcases expired_reaped passed goesOn settled with ⟨later, final, continued, early, -, reaped⟩
  refine ⟨_, _, passed, clock_eq, found, later, final, continued, ?_, reaped⟩
  simp only [wakesBy, undecided, blocking, TimedWait.until?, Alarm.now, clock_eq] at early
  exact early

/-- Only the destructor stops the thread. -/
theorem called_of_stopped (run : Run powerOfTwo aof clock moves alarm)
    (stopped : alarm.state.stop = true) : alarm.destructor ≠ .alive := by
  induction run with
  | nil => cases stopped
  | snoc _ step inductionHypothesis =>
      cases step with
      | flag | notifyAll | join => nofun
      | mutate | notify => exact inductionHypothesis stopped
      | thread step =>
          cases step with
          | arm | inside => exact inductionHypothesis stopped
          | own step awake moved | enter step awake moved | leave _ step moved =>
              cases step with
              | mutate | halt => exact absurd rfl moved
              | lock | exit | waitEmpty | wakeEmpty | waitNext | wakeNext | due | leave | read
              | pop | callback | relock | finish => exact inductionHypothesis stopped

/-- Stopping the TTL manager.  Once `stop_` is set, the thread falls asleep at most once more, and
that only if it had tested `stop_` before.  Then the notification of the destructor may come too
early, and it sleeps up to the end of its wait; the destructor returns at the latest then. -/
theorem stop_sleeps_once (run : Run powerOfTwo aof clock moves alarm)
    (stopped : alarm.state.stop = true) :
    (∀ later final, Transition.Run Step alarm later final →
      timesAsleep later ≤ alarm.wait.toBlock) ∧
    ∃ later final, Transition.Run Step alarm later final ∧ final.destructor = .finished ∧
      final.now ≤ alarm.wakesBy ∧
      final.state.system.threads = alarm.state.system.threads := by
  constructor
  · intro later final continued
    exact (Nat.le_add_right _ _).trans (timesAsleep_le stopped continued).2
  · rcases state_run run with ⟨steps, before⟩
    rcases Coverage.run before with ⟨heap, coverage⟩
    have ended := reaches_exited (sound_run run) coverage.enabled stopped
    rcases ended with ⟨later, final, continued, reached, early⟩
    have called : final.destructor ≠ .alive := by
      rw [reached.destructor]
      exact called_of_stopped run stopped
    rcases finishes reached.place called with ⟨closing, last, closed, joined, now, threads⟩
    refine ⟨later ++ closing, last, (steps_of_alone continued).trans closed, joined, ?_, ?_⟩
    · rw [now]
      exact early
    · rw [threads]
      exact threads_of_alone continued

/-- The destructor notifies the thread before it blocks. -/
theorem stop_sleeps_once_missed :
    ∃ (moves : List (Transition.Move (Alarm Unit) (List Event))) (alarm : Alarm Unit),
      Run KvStore.defaultShards none 5 moves alarm ∧ alarm.destructor = .joining ∧
        (∃ later final, Transition.Run Step alarm later final ∧ timesAsleep later = 1 ∧
          final.now = 5 ∧ final.wait = .blocked 1005) ∧
        (∀ later final, Transition.Run Step alarm later final → timesAsleep later ≤ 1) ∧
        ∃ later final, Transition.Run Step alarm later final ∧ final.destructor = .finished ∧
          final.now ≤ 1005 := by
  rcases run_setEx with
    ⟨moves, before, run, blocking, undecided, -, alive, -, -, now, -⟩
  have joining : ∃ moves alarm, Run KvStore.defaultShards none 5 moves alarm ∧
      alarm.destructor = .joining ∧ alarm.state.stop = true ∧ alarm.now = before.now ∧
      alarm.duration = before.duration ∧ alarm.wait = before.wait.notified :=
    ⟨_, _, (run.snoc (.flag alive)).snoc (.notifyAll rfl), rfl, rfl, rfl, rfl, rfl⟩
  rcases joining with ⟨moves, alarm, run, joining, stopped, same, still, notified⟩
  rw [now] at same
  rw [undecided] at still
  rw [blocking] at notified
  have blocks : TimedWait.Step alarm.now alarm.Tested alarm.wait (.blocked 1005) := by
    rw [notified]
    exact .block
  have asleep := (@Transition.Run.nil _ _ (@Step Unit _) alarm).snoc (.thread (.inside blocks))
  rcases stop_sleeps_once run stopped with ⟨once, later, final, continued, finished, early, -⟩
  refine ⟨moves, alarm, run, joining, ⟨_, _, asleep, ?_, same, rfl⟩, ?_, later, final, continued,
    finished, ?_⟩
  · rw [timesAsleep_append, notified]
    rfl
  · intro later final continued
    have le := once later final continued
    rw [notified] at le
    exact le
  · rw [wakesBy, still, notified, same] at early
    exact early

end Runs

end Alarm

end RedisCpp.Store.TtlManager
