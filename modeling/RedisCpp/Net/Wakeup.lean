import RedisCpp.Net.EventLoop

/-!
# No wakeup is lost

A worker pushes an entry first and writes its byte to the wakeup pipe afterwards; the
reactor empties the pipe first and swaps the queues afterwards.  So an entry that nobody is
about to announce has a byte in the pipe, or the reactor has yet to come to the swap.
-/

namespace RedisCpp.Net.EventLoop

variable {Tid : Type}

/-- The places from which the loop comes to the swap of a queue before it waits or ends. -/
def Place.beforeSwap : Place → Queue → Bool
  | .handling _, _ => true
  | .reading _ _, _ => true
  | .draining .writes _, _ => true
  | .draining .writing _, .completes => true
  | .draining .completes _, .completes => true
  | .draining _ (.wakeup _ _), _ => true
  | _, _ => false

/-- Nothing waits unannounced. -/
def Announced (state : State Tid) (queue : Queue) : Prop :=
  state.Holds queue → state.pipe ≠ [] ∨ (∃ tid, state.signalling tid ≠ none) ∨
    state.place.beforeSwap queue = true

variable [DecidableEq Tid] {config : ReactorConfig} {state after : State Tid} {label : Label}
  {queue : Queue}

theorem beforeSwap_next {origin : Origin}
    (before : (Place.draining .completing origin).beforeSwap queue = true) :
    origin.next.beforeSwap queue = true := by
  cases origin with
  | wakeup events stopLoop =>
      cases stopLoop with
      | false => rfl
      | true => rfl
  | iteration => cases queue <;> cases before

/-- Only the swap itself leads past it. -/
theorem Step.beforeSwap (step : Step config state label after)
    (before : state.place.beforeSwap queue = true) (other : label ≠ .swapped queue) :
    after.place.beforeSwap queue = true := by
  cases step with
  | start here | enter here | leave here | wait _ here | interrupted here | waitError here
  | checkIdle _ here | skipIdle here =>
      rw [here] at before
      cases before
  | wake | readPipe | readDrained | readError | acceptEnd | close | read | write | skip
  | finish => rfl
  | accept | processWrite | processComplete | take | execute | send | notify | signal
  | signalFull | stopFlag | stopByte | stopGaveUp => exact before
  | swapWrites draining =>
      rw [draining] at before
      cases queue with
      | writes => exact absurd rfl other
      | completes => rfl
  | @writesDone origin draining =>
      rw [draining] at before
      cases queue with
      | writes =>
          cases origin with
          | wakeup => rfl
          | iteration => cases before
      | completes => rfl
  | @swapCompletes origin draining =>
      rw [draining] at before
      cases queue with
      | writes =>
          cases origin with
          | wakeup => rfl
          | iteration => cases before
      | completes => exact absurd rfl other
  | completesDone draining =>
      rw [draining] at before
      exact beforeSwap_next before

/-! ## The invariant -/

omit [DecidableEq Tid] in
theorem holds_of_inherits {server : Server Tid}
    (writes : server.pendingWrites = state.server.pendingWrites)
    (completes : server.completedCommands = state.server.completedCommands)
    (inherits : Inherits server after.server) (holds : after.Holds queue) :
    state.Holds queue := by
  cases queue with
  | writes => exact fun empty => holds ((inherits.pendingWrites.trans writes).trans empty)
  | completes =>
      exact fun empty => holds ((inherits.completedCommands.trans completes).trans empty)

/-- A step that adds no entry and touches neither the pipe nor a worker's byte. -/
theorem Announced.of_same (announced : Announced state queue)
    (step : Step config state label after) (other : label ≠ .swapped queue)
    (holds : after.Holds queue → state.Holds queue) (pipe : after.pipe = state.pipe)
    (signalling : after.signalling = state.signalling) : Announced after queue := by
  intro waiting
  rcases announced (holds waiting) with written | pushed | before
  · left
    rwa [pipe]
  · right; left
    rwa [signalling]
  · right; right
    exact step.beforeSwap before other

theorem Step.announced (step : Step config state label after)
    (announced : Announced state queue) : Announced after queue := by
  have moved := step
  cases step with
  | start | enter | leave | wait | interrupted | waitError | wake | readDrained | readError
  | accept | acceptEnd | skip | finish | skipIdle | take | execute | stopFlag | stopGaveUp
  | writesDone | completesDone | checkIdle =>
      apply announced.of_same moved (by simp) _ rfl rfl
      cases queue with
      | writes => exact id
      | completes => exact id
  | close =>
      apply announced.of_same moved (by simp) _ rfl rfl
      exact holds_of_inherits rfl rfl (Inherits.handleClose _ _)
  | read _ _ _ _ handled =>
      apply announced.of_same moved (by simp) _ rfl rfl
      exact holds_of_inherits rfl rfl (Inherits.handleRead handled)
  | write =>
      apply announced.of_same moved (by simp) _ rfl rfl
      exact holds_of_inherits rfl rfl (Inherits.handleWrite _ _ _)
  | @processWrite _ _ _ writes =>
      apply announced.of_same moved (by simp) _ rfl rfl
      exact @holds_of_inherits _ _ _ _ (state.server.setPhase (.writing writes)) rfl rfl
        (Inherits.processWrite _ _ _)
  | @processComplete _ _ completes =>
      apply announced.of_same moved (by simp) _ rfl rfl
      exact @holds_of_inherits _ _ _ _ (state.server.setPhase (.completing completes)) rfl rfl
        (Inherits.processComplete _ _)
  | swapWrites =>
      cases queue with
      | writes => exact fun waiting => absurd rfl waiting
      | completes => exact announced.of_same moved (by simp) id rfl rfl
  | swapCompletes =>
      cases queue with
      | writes => exact announced.of_same moved (by simp) id rfl rfl
      | completes => exact fun waiting => absurd rfl waiting
  | readPipe reading available => exact fun _ => Or.inr (Or.inr rfl)
  | send tid sending =>
      intro _
      right; left
      exact ⟨tid, by simp [State.push]⟩
  | notify tid settled notifying =>
      intro _
      right; left
      exact ⟨tid, by simp [State.push]⟩
  | signal tid signalling =>
      intro _
      left
      simp [State.settle]
  | signalFull tid signalling full => exact fun _ => Or.inl full
  | stopByte stopping =>
      intro _
      left
      simp

/-- From a state, the reactor neither waits nor ends before it has swapped a queue. -/
def SwapsFirst (config : ReactorConfig) (state : State Tid) (queue : Queue) : Prop :=
  ∀ moves later, Transition.Run (Step config) state moves later →
    (∀ move ∈ moves, move.label ≠ .swapped queue) →
      later.place ≠ .waiting ∧ later.place ≠ .exited

theorem swapsFirst_of_beforeSwap (before : state.place.beforeSwap queue = true) :
    SwapsFirst config state queue := by
  intro moves later run unswapped
  have still : later.place.beforeSwap queue = true := by
    induction run with
    | nil => exact before
    | @snoc moves state after label _ step inductionHypothesis =>
        apply step.beforeSwap
        · apply inductionHypothesis
          intro move earlier
          exact unswapped move (List.mem_append_left _ earlier)
        · exact unswapped ⟨state, label, after⟩
            (List.mem_append_right _ (List.mem_singleton_self _))
  constructor
  · intro waiting
    rw [waiting] at still
    cases still
  · intro exited
    rw [exited] at still
    cases still

/-- No wakeup is lost: in every state of every run, if a queue holds entries and no worker is
between its push and its write to the pipe, then the pipe holds a byte, or the reactor swaps
the queue before it waits again. -/
theorem no_lost_wakeup {Tid : Type} [DecidableEq Tid] {config : ReactorConfig}
    {moves : List (Transition.Move (State Tid) Label)} {state : State Tid}
    (run : Run config moves state) (settled : ∀ tid, state.signalling tid = none) {queue : Queue}
    (holds : state.Holds queue) : state.pipe ≠ [] ∨ SwapsFirst config state queue := by
  have announced : Announced state queue := by
    apply run.invariant
    · cases queue with
      | writes => exact fun waiting => absurd rfl waiting
      | completes => exact fun waiting => absurd rfl waiting
    · intro _ _ _ _ _ announced step
      exact step.announced announced
  rcases announced holds with written | ⟨tid, pushed⟩ | before
  · exact Or.inl written
  · exact absurd (settled tid) pushed
  · exact Or.inr (swapsFirst_of_beforeSwap before)

/-- The reply to a `PING` waits and its byte has been read: the reactor is on its way to the
queue. -/
theorem no_lost_wakeup_ping :
    ∃ (moves : List (Transition.Move (State Unit) Label)) (state : State Unit),
      Run {} moves state ∧ state.Holds .writes ∧ state.pipe = [] ∧
        SwapsFirst {} state .writes := by
  rcases replied_run with ⟨moves, server, replied, -, written, -⟩
  have woken := (replied.snoc (.wait [.wakeup] rfl
    ⟨by decide, by decide, by simp, by simp⟩)).snoc (.wake rfl)
  have emptied := woken.snoc (.readPipe rfl (by simp))
  have waiting : server.pendingWrites ≠ [] := by simp [written]
  have found := no_lost_wakeup emptied (fun _ => rfl) (show State.Holds _ .writes from waiting)
  exact ⟨_, _, emptied, waiting, rfl, found.resolve_left (fun pipe => pipe rfl)⟩

end RedisCpp.Net.EventLoop
