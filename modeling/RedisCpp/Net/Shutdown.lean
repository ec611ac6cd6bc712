import RedisCpp.Net.EventLoop

/-!
# A stop is not lost

`stop` clears `running_` first and writes its byte afterwards.  `run` sets `running_` when it
starts, so that the flag of an earlier `stop` is lost and only its byte is left.  Either of
them is enough: behind the flag the loop waits at most once more, and the byte stays in the pipe
until the loop takes it out in order to leave.
-/

namespace RedisCpp.Net.EventLoop

variable {Tid : Type}

/-- The stop byte has been read, and the loop is on its way out of the batch. -/
def Place.stopping : Place → Bool
  | .reading _ stopLoop => stopLoop
  | .draining _ origin => origin.stops
  | _ => false

/-- The loop does not start another round of its own accord. -/
def Leaving (state : State Tid) : Prop :=
  state.place = .exited ∨ (state.running = false ∧ state.place ≠ .starting) ∨
    state.place.stopping = true

/-- The stop byte is in the pipe, or it has been found. -/
def StopKept (state : State Tid) : Prop :=
  .stop ∈ state.pipe ∨ Leaving state

/-- A `stop` that has cleared the flag. -/
def State.clearRunning (state : State Tid) : State Tid :=
  { state with running := false, stopping := state.stopping + 1 }

/-- A `stop` that has written its byte. -/
def State.writeStop (state : State Tid) : State Tid :=
  { state with pipe := state.pipe ++ [.stop], stopping := state.stopping - 1 }

/-- The number of waits that have returned events. -/
def waits (moves : List (Transition.Move (State Tid) Label)) : ℕ :=
  moves.countP fun move => move.label = .waited

section Steps

variable [DecidableEq Tid] {config : ReactorConfig} {state after : State Tid} {label : Label}

/-- Only the start of the loop sets the flag. -/
theorem Step.stopped (step : Step config state label after) (stopped : state.running = false)
    (started : state.place ≠ .starting) : after.running = false ∧ after.place ≠ .starting := by
  cases step with
  | start here => exact absurd here started
  | enter here running => exact absurd (running.symm.trans stopped) nofun
  | leave | wait | interrupted | waitError | wake | readPipe | readDrained | readError | acceptEnd
  | close | read | write | skip | finish | swapWrites | writesDone | swapCompletes | checkIdle
  | skipIdle => exact ⟨stopped, nofun⟩
  | accept | processWrite | processComplete | take | execute | send | notify | signal | signalFull
  | stopByte | stopGaveUp => exact ⟨stopped, started⟩
  | stopFlag => exact ⟨rfl, started⟩
  | @completesDone origin =>
      refine ⟨?_, ?_⟩
      · show (state.running && !origin.stops) = false
        rw [stopped, Bool.false_and]
      · cases origin with
        | wakeup events stopLoop => cases stopLoop <;> nofun
        | iteration => nofun

theorem Step.leaving (step : Step config state label after) (leaving : Leaving state) :
    Leaving after := by
  rcases leaving with exited | ⟨stopped, started⟩ | stopping
  · left
    cases step with
    | start here | enter here | leave here | wait _ here | interrupted here | waitError here
    | wake here | readPipe here | readDrained here | readError here | accept _ _ here
    | acceptEnd here | close here | read _ here | write _ here | skip here | finish here
    | swapWrites here | processWrite _ here | writesDone here | swapCompletes here
    | processComplete here | completesDone here | checkIdle _ here | skipIdle here =>
        exact absurd (exited.symm.trans here) nofun
    | take | execute | send | notify | signal | signalFull | stopFlag | stopByte | stopGaveUp =>
        exact exited
  · exact Or.inr (Or.inl (step.stopped stopped started))
  · cases step with
    | start here | enter here | leave here | wait _ here | interrupted here | waitError here
    | wake here | accept _ _ here | acceptEnd here | close here | read _ here | write _ here
    | skip here | finish here | checkIdle _ here | skipIdle here =>
        rw [here] at stopping
        cases stopping
    | @readPipe events stopLoop here =>
        rw [here] at stopping
        right; right
        simp only [Place.stopping] at stopping ⊢
        rw [stopping, Bool.true_or]
    | readDrained here | readError here | swapWrites here | writesDone here | swapCompletes here =>
        rw [here] at stopping
        exact Or.inr (Or.inr stopping)
    | processWrite | processComplete | take | execute | send | notify | signal | signalFull
    | stopFlag | stopByte | stopGaveUp => exact Or.inr (Or.inr stopping)
    | @completesDone origin here =>
        rw [here] at stopping
        right; left
        cases origin with
        | wakeup events stopLoop =>
            simp only [Place.stopping, Origin.stops] at stopping
            subst stopping
            exact ⟨by simp [Origin.stops], nofun⟩
        | iteration => cases stopping

/-- Only the reactor takes the byte out of the pipe, and then it leaves. -/
theorem Step.stopKept (step : Step config state label after) (kept : StopKept state) :
    StopKept after := by
  rcases kept with written | leaving
  · cases step with
    | start | enter | leave | wait | interrupted | waitError | wake | readDrained | readError
    | accept | acceptEnd | close | read | write | skip | finish | swapWrites | processWrite
    | writesDone | swapCompletes | processComplete | completesDone | checkIdle | skipIdle | take
    | execute | send | notify | signalFull | stopFlag | stopGaveUp => exact Or.inl written
    | signal | stopByte => exact Or.inl (List.mem_append_left _ written)
    | @readPipe events stopLoop =>
        rw [← List.take_append_drop chunkSize state.pipe, List.mem_append] at written
        rcases written with found | left
        · right; right; right
          simp [Place.stopping, found]
        · exact Or.inl left
  · exact Or.inr (step.leaving leaving)

theorem Step.waited (step : Step config state label after) (waited : label = .waited) :
    state.place = .waiting ∧ after.place ≠ .waiting := by
  subst waited
  cases step with
  | wait events waiting => exact ⟨waiting, nofun⟩

/-- A loop on its way out does not come to another wait. -/
theorem Step.not_waiting (step : Step config state label after) (leaving : Leaving state)
    (elsewhere : state.place ≠ .waiting) : label ≠ .waited ∧ after.place ≠ .waiting := by
  cases step with
  | enter here running =>
      rcases leaving with exited | ⟨stopped, -⟩ | stopping
      · rw [here] at exited
        cases exited
      · rw [running] at stopped
        cases stopped
      · rw [here] at stopping
        cases stopping
  | wait _ here | interrupted here | waitError here => exact absurd here elsewhere
  | start | leave | wake | readPipe | readDrained | readError | acceptEnd | close | read | write
  | skip | finish | swapWrites | writesDone | swapCompletes | checkIdle | skipIdle =>
      exact ⟨nofun, nofun⟩
  | accept | processWrite | processComplete | take | execute | send | notify | signal | signalFull
  | stopFlag | stopByte | stopGaveUp => exact ⟨nofun, elsewhere⟩
  | @completesDone origin =>
      refine ⟨nofun, ?_⟩
      cases origin with
      | wakeup events stopLoop => cases stopLoop <;> nofun
      | iteration => nofun

end Steps

section Runs

variable [DecidableEq Tid] {config : ReactorConfig} {state final : State Tid}
  {later : List (Transition.Move (State Tid) Label)}

theorem stopped_run (run : Transition.Run (Step config) state later final)
    (stopped : state.running = false) (started : state.place ≠ .starting) :
    final.running = false ∧ final.place ≠ .starting := by
  apply run.invariant ⟨stopped, started⟩
  intro _ _ _ _ _ before step
  exact step.stopped before.1 before.2

theorem leaving_run (run : Transition.Run (Step config) state later final)
    (leaving : Leaving state) : Leaving final := by
  apply run.invariant leaving
  intro _ _ _ _ _ before step
  exact step.leaving before

theorem stopKept_run (run : Transition.Run (Step config) state later final)
    (kept : StopKept state) : StopKept final := by
  apply run.invariant kept
  intro _ _ _ _ _ before step
  exact step.stopKept before

omit [DecidableEq Tid] in
theorem waits_snoc (moves : List (Transition.Move (State Tid) Label)) (source target : State Tid)
    (label : Label) :
    waits (moves ++ [⟨source, label, target⟩]) =
      waits moves + if label = .waited then 1 else 0 := by
  simp [waits, List.countP_append, List.countP_cons]

/-- A loop on its way out waits at most once more, and only if it already does. -/
theorem waits_run (run : Transition.Run (Step config) state later final)
    (leaving : Leaving state) :
    waits later + (if final.place = .waiting then 1 else 0) ≤
      if state.place = .waiting then 1 else 0 := by
  induction run with
  | nil => simp [waits]
  | @snoc moves middle after label run step inductionHypothesis =>
      have before := leaving_run run leaving
      rw [waits_snoc]
      by_cases here : middle.place = .waiting
      · have bound := inductionHypothesis
        rw [if_pos here] at bound
        by_cases waited : label = .waited
        · rw [if_pos waited, if_neg (step.waited waited).2]
          exact bound
        · rw [if_neg waited]
          split
          · exact bound
          · omega
      · rcases step.not_waiting before here with ⟨other, elsewhere⟩
        simp only [here, other, elsewhere, if_false, Nat.add_zero] at inductionHypothesis ⊢
        exact inductionHypothesis

end Runs

/-! ## The way out -/

/-- The moves that an event of a batch takes at most, and those of the drain behind it. -/
def Ready.cost : Ready → ℕ
  | .wakeup => 6
  | .listen => 1
  | .conn _ flags => if flags.input then 2 else 1

def costOf (events : List Ready) : ℕ :=
  (events.map Ready.cost).sum

/-- How far a place is from the end of a loop that does not start another round. -/
def Place.distance : Place → ℕ
  | .starting | .exited => 0
  | .top => 1
  | .waiting | .idling => 2
  | .draining drain origin =>
      let behind := match origin with
        | .wakeup events _ => 8 + costOf events
        | .iteration => 3
      match drain with
      | .writes => behind + 3
      | .writing => behind + 2
      | .completes => behind + 1
      | .completing => behind
  | .handling events => 7 + costOf events
  | .reading events _ => 12 + costOf events

section Out

variable [DecidableEq Tid] {config : ReactorConfig} {state : State Tid}

/-- The rest of a batch of writes is gone through. -/
theorem exists_written {origin : Origin} {writes : List PendingWrite}
    (here : state.place = .draining .writing origin)
    (writing : state.server.phase = .writing writes) :
    ∃ later final, Transition.Run (Step config) state later final ∧
      final.place = .draining .completes origin := by
  induction writes generalizing state with
  | nil => exact ⟨_, _, .snoc .nil (.writesDone here writing), rfl⟩
  | cons write writes inductionHypothesis =>
      have phase := (Inherits.processWrite (state.server.setPhase (.writing writes)) write []).phase
      rcases @inductionHypothesis { state with
        server := ((state.server.setPhase (.writing writes)).processWrite write []).1 } here phase
        with ⟨later, final, run, there⟩
      exact ⟨_, final, .trans (.snoc .nil (.processWrite [] here writing)) run, there⟩

/-- The rest of a batch of completions is gone through. -/
theorem exists_completed {origin : Origin} {completes : List ConnId}
    (here : state.place = .draining .completing origin)
    (completing : state.server.phase = .completing completes) :
    ∃ later final, Transition.Run (Step config) state later final ∧ final.place = origin.next := by
  induction completes generalizing state with
  | nil => exact ⟨_, _, .snoc .nil (.completesDone here completing), rfl⟩
  | cons id completes inductionHypothesis =>
      have phase :=
        (Inherits.processComplete (state.server.setPhase (.completing completes)) id).phase
      rcases @inductionHypothesis { state with
        server := (state.server.setPhase (.completing completes)).processComplete id } here phase
        with ⟨later, final, run, there⟩
      exact ⟨_, final, .trans (.snoc .nil (.processComplete here completing)) run, there⟩

omit [DecidableEq Tid] in
theorem exists_failed (server : Server Tid) (config : ReactorConfig) (fd : ℕ) :
    ∃ after observed, server.handleRead config fd [.error] = some (after, observed) := by
  cases held : server.conns fd with
  | none => exact ⟨server, [], by simp only [Server.handleRead, held]⟩
  | some conn =>
      exact ⟨server.handleClose fd, [], by simp only [Server.handleRead, held, Server.readLoop]⟩

theorem agrees_run {moves : List (Transition.Move (State Tid) Label)}
    (run : Run config moves state) : state.place.Agrees state.server.phase := by
  apply run.invariant rfl
  intro _ _ _ _ _ agrees step
  exact (step.server agrees).1

/-- Whatever the workers and the clients do, one handler call brings the loop closer to its end. -/
theorem exists_closer (agrees : state.place.Agrees state.server.phase) (leaving : Leaving state)
    (inside : state.place ≠ .exited) :
    ∃ later final, Transition.Run (Step config) state later final ∧
      final.place.distance < state.place.distance := by
  cases here : state.place with
  | starting =>
      rcases leaving with exited | ⟨-, started⟩ | stopping
      · exact absurd exited inside
      · exact absurd here started
      · rw [here] at stopping
        cases stopping
  | exited => exact absurd here inside
  | top =>
      rcases leaving with exited | ⟨stopped, -⟩ | stopping
      · exact absurd exited inside
      · exact ⟨_, _, .snoc .nil (.leave here stopped), Nat.zero_lt_one⟩
      · rw [here] at stopping
        cases stopping
  | waiting => exact ⟨_, _, .snoc .nil (.interrupted here), Nat.one_lt_two⟩
  | idling => exact ⟨_, _, .snoc .nil (.skipIdle here), Nat.one_lt_two⟩
  | reading events stopLoop =>
      exact ⟨_, _, .snoc .nil (.readError here), by simp only [Place.distance]; omega⟩
  | draining drain origin =>
      rw [here] at agrees
      cases drain with
      | writes =>
          exact ⟨_, _, .snoc .nil (.swapWrites here), by
            simp only [Place.distance, State.setServer]; omega⟩
      | writing =>
          rcases agrees with ⟨writes, writing⟩
          rcases @exists_written _ _ config _ _ _ here writing with ⟨later, final, run, there⟩
          exact ⟨later, final, run, by rw [there]; simp only [Place.distance]; omega⟩
      | completes =>
          exact ⟨_, _, .snoc .nil (.swapCompletes here), by
            simp only [Place.distance, State.setServer]; omega⟩
      | completing =>
          rcases agrees with ⟨completes, completing⟩
          rcases @exists_completed _ _ config _ _ _ here completing with
            ⟨later, final, run, there⟩
          refine ⟨later, final, run, ?_⟩
          rw [there]
          cases origin with
          | iteration => exact Nat.lt_succ_self 2
          | wakeup events stopLoop =>
              cases stopLoop with
              | false => simp only [Place.distance, Origin.next]; omega
              | true => simp only [Place.distance, Origin.next]; omega
  | handling events =>
      cases events with
      | nil => exact ⟨_, _, .snoc .nil (.finish here), by simp [Place.distance, costOf]⟩
      | cons event events =>
          cases event with
          | wakeup =>
              exact ⟨_, _, .snoc .nil (.wake here), by
                simp only [Place.distance, costOf, List.map_cons, List.sum_cons, Ready.cost]
                omega⟩
          | listen =>
              exact ⟨_, _, .snoc .nil (.acceptEnd here), by
                simp only [Place.distance, costOf, List.map_cons, List.sum_cons, Ready.cost]
                omega⟩
          | conn id flags =>
              cases error : flags.error with
              | true =>
                  refine ⟨_, _, .snoc .nil (.close here error), ?_⟩
                  simp only [State.setServer, Place.distance, costOf, List.map_cons, List.sum_cons,
                    Ready.cost]
                  split <;> omega
              | false =>
                  cases input : flags.input with
                  | true =>
                      rcases exists_failed state.server config id.fd with
                        ⟨after, observed, handled⟩
                      refine ⟨_, _, .snoc .nil (.read [.error] here error input handled), ?_⟩
                      simp [State.setServer, Place.distance, costOf, Ready.cost, input]
                  | false =>
                      cases output : flags.output with
                      | true =>
                          refine ⟨_, _, .snoc .nil (.write [] here error input output), ?_⟩
                          simp [State.setServer, Place.distance, costOf, Ready.cost, input]
                      | false =>
                          refine ⟨_, _, .snoc .nil (.skip here error input output), ?_⟩
                          simp [Place.distance, costOf, Ready.cost, input]

/-- On its way out the loop never has to wait for anyone. -/
theorem exists_exited {moves : List (Transition.Move (State Tid) Label)}
    (run : Run config moves state) (leaving : Leaving state) :
    ∃ later final, Transition.Run (Step config) state later final ∧ final.place = .exited := by
  induction far : state.place.distance using Nat.strongRecOn generalizing moves state with
  | _ distance inductionHypothesis =>
      by_cases out : state.place = .exited
      · exact ⟨[], state, .nil, out⟩
      · rcases exists_closer (agrees_run run) leaving out with ⟨front, middle, first, closer⟩
        rw [far] at closer
        rcases inductionHypothesis _ closer (run.trans first) (leaving_run first leaving) rfl with
          ⟨back, final, second, ended⟩
        exact ⟨front ++ back, final, first.trans second, ended⟩

end Out

/-- A stop is not lost.  Behind the flag of a `stop` that is made while the loop runs, the loop
never goes on, and waits at most once more, if it already does.  The byte of a `stop` stays in
the pipe until the loop takes it out in order to leave.  A loop that leaves waits at most once
more and can always come to its end. -/
theorem stop_never_lost {Tid : Type} [DecidableEq Tid] {config : ReactorConfig}
    {moves : List (Transition.Move (State Tid) Label)} {state : State Tid}
    (run : Run config moves state) :
    (state.place ≠ .starting → ∀ later final,
        Transition.Run (Step config) state.clearRunning later final →
          final.running = false ∧ waits later ≤ if state.place = .waiting then 1 else 0) ∧
      (∀ later final, Transition.Run (Step config) state.writeStop later final →
        .stop ∈ final.pipe ∨ Leaving final) ∧
      (Leaving state → (∀ later final, Transition.Run (Step config) state later final →
          Leaving final ∧ waits later ≤ if state.place = .waiting then 1 else 0) ∧
        ∃ later final, Transition.Run (Step config) state later final ∧ final.place = .exited) := by
  refine ⟨?_, ?_, ?_⟩
  · intro started later final continued
    refine ⟨(stopped_run continued rfl started).1, ?_⟩
    have leaving : Leaving state.clearRunning := Or.inr (Or.inl ⟨rfl, started⟩)
    have bound := waits_run continued leaving
    exact (Nat.le_add_right _ _).trans bound
  · intro later final continued
    exact stopKept_run continued (Or.inl (List.mem_append_right _ (List.mem_singleton_self _)))
  · intro leaving
    refine ⟨?_, exists_exited run leaving⟩
    intro later final continued
    exact ⟨leaving_run continued leaving,
      (Nat.le_add_right _ _).trans (waits_run continued leaving)⟩

/-- A stop before the first iteration: its flag is lost, its byte is not. -/
theorem stop_never_lost_early :
    ∃ (moves : List (Transition.Move (State Unit) Label)) (state final : State Unit)
      (later : List (Transition.Move (State Unit) Label)),
      Run {} moves state ∧ Transition.Run (Step {}) state.writeStop later final ∧
        final.running = true ∧ (.stop ∈ final.pipe ∨ Leaving final) := by
  have flagged := (@Transition.Run.nil _ _ (@Step Unit _ {}) .initial).snoc .stopFlag
  have started := (@Transition.Run.nil _ _ (@Step Unit _ {})
    (State.clearRunning .initial).writeStop).snoc (.start rfl)
  exact ⟨_, _, _, _, flagged, started, rfl, (stop_never_lost flagged).2.1 _ _ started⟩

end RedisCpp.Net.EventLoop
