import RedisCpp.Net.EventLoop

/-!
# Stale events

An event of a batch may be stale when its turn comes: its connection has been closed by the
drain of a wakeup earlier in the batch, and `handle_accept` may have given its descriptor to
a new connection since.  Entries of the queues carry a generation that is checked, an event
carries none.  So a stale event harms a new connection exactly if its descriptor has been
accepted anew within the batch and its handler ends the connection it meets.
-/

namespace RedisCpp.Net.EventLoop

open Protocol (extractFrames)

variable {Tid : Type}

/-! ## What a handler ends -/

/-- A handler ends the connection that it meets: for an error, or because a read finds the
end of file, an error, too many bytes or a malformed request, or because a write fails. -/
def Call.Ends (config : ReactorConfig) (conn : Connection) : Call → Prop
  | .close => True
  | .read reads =>
      match Server.readLoop config.maxRecvBytes reads conn.recvBuf conn.lastActive with
      | none => True
      | some (buf, _) => (extractFrames buf).failure = some .error
  | .write results => (conn.send.flush results).1 = .failed

/-- A handler touches the connection under one descriptor, and ends it or keeps its
generation. -/
structure Touches (server after : Server Tid) (fd : ℕ) (conn : Connection) (ends : Prop) :
    Prop where
  others : ∀ other, other ≠ fd → after.conns other = server.conns other
  ended : ends → after.conns fd = none
  kept : ¬ends → ∃ later, after.conns fd = some later ∧ later.generation = conn.generation

section Handlers

variable {server after : Server Tid} {fd : ℕ} {conn : Connection} {ends : Prop}

theorem touches_handleClose (held : server.conns fd = some conn) (ending : ends) :
    Touches server (server.handleClose fd) fd conn ends := by
  simp only [Server.handleClose, held]
  refine ⟨?_, ?_, ?_⟩
  · intro other different
    exact Function.update_of_ne different _ _
  · intro _
    exact Function.update_self _ _ _
  · intro goesOn
    exact absurd ending goesOn

theorem touches_setConn {changed : Connection} (kept : changed.generation = conn.generation)
    (conns : after.conns = (server.setConn fd changed).conns) (goesOn : ¬ends) :
    Touches server after fd conn ends := by
  refine ⟨?_, ?_, ?_⟩
  · intro other different
    rw [conns]
    exact Function.update_of_ne different _ _
  · intro ending
    exact absurd ending goesOn
  · intro _
    rw [conns]
    exact ⟨changed, conns_setConn server fd changed, kept⟩

theorem touches_queueCommands {changed : Connection}
    (kept : changed.generation = conn.generation) (cmds : List (List Bytes)) (goesOn : ¬ends) :
    Touches server (server.queueCommands fd changed cmds) fd conn ends := by
  simp only [Server.queueCommands, Server.dispatchNextCommand]
  split
  · split
    · refine touches_setConn ?_ rfl goesOn
      exact kept
    · rw [setConn_setConn]
      refine touches_setConn ?_ rfl goesOn
      exact kept
  · refine touches_setConn ?_ rfl goesOn
    exact kept

theorem touches_handleRead {config : ReactorConfig} {reads : List ReadResult}
    {events : List Event} (held : server.conns fd = some conn)
    (handled : server.handleRead config fd reads = some (after, events)) :
    Touches server after fd conn (Call.Ends config conn (.read reads)) := by
  cases Server.handledRead handled with
  | absent free => simp [held] at free
  | hungUp same ended =>
      cases held.symm.trans same
      apply touches_handleClose held
      simp only [Call.Ends, ended]
  | failed same received error =>
      cases held.symm.trans same
      apply touches_handleClose held
      simp only [Call.Ends, received, error]
  | queued same received clean =>
      cases held.symm.trans same
      apply touches_queueCommands
      · rfl
      · simp [Call.Ends, received, clean]

theorem touches_handleWrite (held : server.conns fd = some conn) (results : List WriteResult) :
    Touches server (server.handleWrite fd results).1 fd conn
      ((conn.send.flush results).1 = .failed) := by
  simp only [Server.handleWrite, held, Server.flushConn]
  split
  · rename_i failed
    have closed := touches_handleClose (conns_setConn server fd
      { conn with send := (conn.send.flush results).2.1 }) failed
    refine ⟨?_, closed.ended, fun goesOn => absurd failed goesOn⟩
    intro other different
    exact (closed.others other different).trans (Function.update_of_ne different _ _)
  · rename_i drained
    refine touches_setConn ?_ rfl ?_
    · rfl
    · simp [drained]
  · rename_i pending
    refine touches_setConn ?_ rfl ?_
    · rfl
    · simp [pending]

end Handlers

/-! ## What an event closes -/

/-- A move closes a connection. -/
def Closes (move : Transition.Move (State Tid) Label) (fd : ℕ) (conn : Connection) : Prop :=
  move.source.server.conns fd = some conn ∧
    ∀ later, move.target.server.conns fd = some later → later.generation ≠ conn.generation

variable [DecidableEq Tid] {config : ReactorConfig} {state after : State Tid} {label : Label}
  {id : ConnId} {call : Call}

/-- The handler of an event touches the connection under the descriptor of the event. -/
theorem Step.touches {conn : Connection} (step : Step config state (.handled id call) after)
    (held : state.server.conns id.fd = some conn) :
    Touches state.server after.server id.fd conn (call.Ends config conn) := by
  cases step with
  | close => exact touches_handleClose held trivial
  | read _ _ _ _ handled => exact touches_handleRead held handled
  | write results => exact touches_handleWrite held results

/-- If the descriptor is not in use, the handlers do nothing. -/
theorem Step.conns_of_closed (step : Step config state (.handled id call) after)
    (closed : state.server.conns id.fd = none) : after.server = state.server := by
  cases step with
  | close => simp [State.setServer, Server.handleClose, closed]
  | read _ _ _ _ handled =>
      simp only [Server.handleRead, closed, Option.some.injEq, Prod.mk.injEq] at handled
      exact handled.1.symm
  | write => simp [State.setServer, Server.handleWrite, closed]

/-- An event closes the connection under its descriptor if its handler ends it, and nothing
else. -/
theorem Step.closes_iff {fd : ℕ} {conn : Connection}
    (step : Step config state (.handled id call) after) :
    Closes ⟨state, .handled id call, after⟩ fd conn ↔
      state.server.conns fd = some conn ∧ fd = id.fd ∧ call.Ends config conn := by
  simp only [Closes, and_congr_right_iff]
  intro held
  rcases eq_or_ne fd id.fd with rfl | different
  · have touched := step.touches held
    constructor
    · intro closes
      refine ⟨rfl, ?_⟩
      by_contra goesOn
      rcases touched.kept goesOn with ⟨later, stored, same⟩
      exact closes later stored same
    · rintro ⟨-, ends⟩ later stored
      rw [touched.ended ends] at stored
      cases stored
  · have unchanged : after.server.conns fd = some conn := by
      cases met : state.server.conns id.fd with
      | none => rw [step.conns_of_closed met, held]
      | some other => rw [(step.touches met).others fd different, held]
    constructor
    · intro closes
      exact absurd rfl (closes conn unchanged)
    · rintro ⟨same, -⟩
      exact absurd same different

/-! ## The events of a batch -/

/-- The connection for which an event has been reported. -/
def Ready.reportedFor : Ready → Option ConnId
  | .conn id _ => some id
  | _ => none

/-- The connections whose events are still to be handled. -/
def Place.pending : Place → List ConnId
  | .handling events | .reading events _ | .draining _ (.wakeup events _) =>
      events.filterMap Ready.reportedFor
  | _ => []

/-- The descriptors accepted since the last wait returned. -/
def acceptedSince (moves : List (Transition.Move (State Tid) Label)) : List ℕ :=
  moves.foldl (fun fds move =>
    match move.label with
    | .waited => []
    | .accepted fd => fd :: fds
    | _ => fds) []

/-- An event finds the connection for which it was reported, unless its descriptor has been
accepted since. -/
def Tracked (moves : List (Transition.Move (State Tid) Label)) (state : State Tid) : Prop :=
  ∀ id ∈ state.place.pending, id.gen ≤ state.server.genCounter ∧
    ∀ conn, state.server.conns id.fd = some conn →
      (conn.generation = id.gen ↔ id.fd ∉ acceptedSince moves)

omit [DecidableEq Tid] in
theorem acceptedSince_snoc (moves : List (Transition.Move (State Tid) Label))
    (move : Transition.Move (State Tid) Label) :
    acceptedSince (moves ++ [move]) =
      match move.label with
      | .waited => []
      | .accepted fd => fd :: acceptedSince moves
      | _ => acceptedSince moves := by
  simp only [acceptedSince, List.foldl_append, List.foldl_cons, List.foldl_nil]

theorem pending_next (origin : Origin) :
    origin.next.pending ⊆ (Place.draining .completing origin).pending := by
  cases origin with
  | wakeup events stopLoop =>
      cases stopLoop with
      | false => exact List.Subset.refl _
      | true => exact List.nil_subset _
  | iteration => exact List.Subset.refl _

theorem filterMap_subset_cons (event : Ready) (events : List Ready) :
    events.filterMap Ready.reportedFor ⊆ (event :: events).filterMap Ready.reportedFor := by
  apply List.filterMap_subset
  exact List.subset_cons_self event events

/-- Events become due only by a wait. -/
theorem Step.pending_subset (step : Step config state label after) (other : label ≠ .waited) :
    after.place.pending ⊆ state.place.pending := by
  cases step with
  | wait => exact absurd rfl other
  | start | enter | leave | interrupted | waitError | finish | checkIdle | skipIdle =>
      exact List.nil_subset _
  | wake here | acceptEnd here | close here | write _ here | skip here =>
      simp only [here, State.setServer, Place.pending]
      exact filterMap_subset_cons _ _
  | readPipe here | readDrained here | readError here | read _ here =>
      simp only [here, State.setServer, Place.pending]
      exact List.Subset.refl _
  | @swapWrites origin here | @writesDone origin here | @swapCompletes origin here =>
      simp only [here, State.setServer]
      cases origin with
      | wakeup => exact List.Subset.refl _
      | iteration => exact List.Subset.refl _
  | completesDone here =>
      rw [here]
      exact pending_next _
  | accept | processWrite | processComplete | take | execute | send | notify | signal
  | signalFull | stopFlag | stopByte | stopGaveUp => exact List.Subset.refl _

/-- No connection is new. -/
structure NoneNew (server after : Server Tid) : Prop where
  genCounter : after.genCounter = server.genCounter
  conns : ∀ fd conn, after.conns fd = some conn →
    ∃ old, server.conns fd = some old ∧ old.generation = conn.generation

omit [DecidableEq Tid] in
theorem noneNew_of_inherits {server before later : Server Tid}
    (genCounter : server.genCounter = before.genCounter) (conns : server.conns = before.conns)
    (inherits : Inherits server later) : NoneNew before later := by
  refine ⟨inherits.genCounter.trans genCounter, ?_⟩
  rw [← conns]
  exact inherits.conns

/-- Connections are new only by `handle_accept`. -/
theorem Step.noneNew (step : Step config state label after)
    (other : ∀ fd, label ≠ .accepted fd) : NoneNew state.server after.server := by
  cases step with
  | accept fd => exact absurd rfl (other fd)
  | close => exact noneNew_of_inherits rfl rfl (Inherits.handleClose _ _)
  | read _ _ _ _ handled => exact noneNew_of_inherits rfl rfl (Inherits.handleRead handled)
  | write => exact noneNew_of_inherits rfl rfl (Inherits.handleWrite _ _ _)
  | checkIdle => exact noneNew_of_inherits rfl rfl (Inherits.checkIdle _ _ _)
  | @processWrite _ _ _ writes =>
      exact @noneNew_of_inherits _ (state.server.setPhase (.writing writes)) _ _ rfl rfl
        (Inherits.processWrite _ _ _)
  | @processComplete _ _ completes =>
      exact @noneNew_of_inherits _ (state.server.setPhase (.completing completes)) _ _ rfl rfl
        (Inherits.processComplete _ _)
  | _ => exact ⟨rfl, fun _ conn held => ⟨conn, held, rfl⟩⟩

/-- Generations are counted. -/
theorem generation_le {moves : List (Transition.Move (State Tid) Label)} {fd : ℕ}
    {conn : Connection} (run : Run config moves state)
    (held : state.server.conns fd = some conn) :
    conn.generation ≤ state.server.genCounter := by
  rcases server_run run with ⟨observed, served⟩
  rcases serves_run served ⟨fd, conn.generation⟩ with ⟨line, -, serves⟩
  by_contra unused
  have absent := (serves.untouched (Nat.lt_of_not_le unused)).2.1
  rw [view_conn_self held] at absent
  cases absent

section Tracked

variable {moves : List (Transition.Move (State Tid) Label)}

theorem Tracked.wait (run : Run config moves state) {events : List Ready}
    (reported : state.Reports events) {move : Transition.Move (State Tid) Label}
    (waited : move.label = .waited) :
    Tracked (moves ++ [move]) { state with place := .handling events } := by
  intro id due
  simp only [Place.pending, List.mem_filterMap] at due
  rcases due with ⟨event, present, own⟩
  cases event with
  | wakeup => cases own
  | listen => cases own
  | conn reportedId flags =>
      cases own
      rcases reported.current id flags present with ⟨conn, held, same⟩
      have bound := generation_le run held
      rw [same] at bound
      refine ⟨bound, ?_⟩
      intro found stored
      rw [held] at stored
      cases stored
      simp [acceptedSince_snoc, waited, same]

omit [DecidableEq Tid] in
/-- A new connection has a generation of its own. -/
theorem Tracked.accept (tracked : Tracked moves state) (fd : ℕ) (now : ℤ)
    {move : Transition.Move (State Tid) Label} (accepted : move.label = .accepted fd) :
    Tracked (moves ++ [move]) { state with server := state.server.handleAccept fd now } := by
  intro id due
  rcases tracked id due with ⟨bound, agrees⟩
  have counted : id.gen < state.server.genCounter + 1 := Nat.lt_succ_of_le bound
  refine ⟨counted.le, ?_⟩
  intro conn held
  rw [acceptedSince_snoc, accepted]
  simp only [Server.handleAccept] at held
  rcases eq_or_ne id.fd fd with same | different
  · rw [same, Function.update_self] at held
    cases held
    simp only [Connection.make, same, List.mem_cons, true_or, not_true_eq_false, iff_false]
    exact counted.ne'
  · rw [Function.update_of_ne different] at held
    simp only [List.mem_cons, different, false_or]
    exact agrees conn held

omit [DecidableEq Tid] in
theorem Tracked.other (tracked : Tracked moves state) (noneNew : NoneNew state.server after.server)
    (due : after.place.pending ⊆ state.place.pending)
    {move : Transition.Move (State Tid) Label}
    (same : acceptedSince (moves ++ [move]) = acceptedSince moves) :
    Tracked (moves ++ [move]) after := by
  intro id still
  rcases tracked id (due still) with ⟨bound, agrees⟩
  refine ⟨noneNew.genCounter ▸ bound, ?_⟩
  intro conn held
  rcases noneNew.conns id.fd conn held with ⟨old, stored, generation⟩
  rw [same, ← generation]
  exact agrees old stored

theorem Step.tracked (step : Step config state label after) (run : Run config moves state)
    (tracked : Tracked moves state) : Tracked (moves ++ [⟨state, label, after⟩]) after := by
  cases label with
  | waited =>
      cases step with
      | wait events waiting reported => exact Tracked.wait run reported rfl
  | accepted fd =>
      cases step with
      | accept _ now => exact tracked.accept fd now rfl
  | handled id call =>
      apply tracked.other (step.noneNew (by simp)) (step.pending_subset (by simp))
      exact acceptedSince_snoc _ _
  | swapped queue =>
      apply tracked.other (step.noneNew (by simp)) (step.pending_subset (by simp))
      exact acceptedSince_snoc _ _
  | other =>
      apply tracked.other (step.noneNew (by simp)) (step.pending_subset (by simp))
      exact acceptedSince_snoc _ _

theorem tracked_run (run : Run config moves state) : Tracked moves state := by
  apply run.invariant
  · intro id due
    cases due
  · intro _ _ _ _ run tracked step
    exact step.tracked run tracked

end Tracked

theorem Step.mem_pending (step : Step config state (.handled id call) after) :
    id ∈ state.place.pending := by
  cases step with
  | close here | read _ here | write _ here =>
      rw [here]
      exact List.mem_cons_self

/-- In every run, the event reported for one connection closes no other one, exactly if it is
not the case that its descriptor has been accepted since the batch was returned and its
handler ends the connection now stored there. -/
theorem stale_event_harmless_iff {Tid : Type} [DecidableEq Tid] {config : ReactorConfig}
    {moves before later : List (Transition.Move (State Tid) Label)} {state : State Tid}
    {move : Transition.Move (State Tid) Label} {id : ConnId} {call : Call}
    (run : Run config moves state) (parts : moves = before ++ move :: later)
    (handles : move.label = .handled id call) :
    (∀ fd conn, Closes move fd conn → (⟨fd, conn.generation⟩ : ConnId) = id) ↔
      ¬(id.fd ∈ acceptedSince before ∧
        ∃ conn, move.source.server.conns id.fd = some conn ∧ call.Ends config conn) := by
  rcases move with ⟨source, label, target⟩
  simp only at handles
  subst handles
  rcases run.split parts with ⟨earlier, step⟩
  have agrees := (tracked_run earlier id step.mem_pending).2
  simp only [step.closes_iff]
  constructor
  · rintro harmless ⟨accepted, conn, held, ends⟩
    have same := harmless id.fd conn ⟨held, rfl, ends⟩
    have generation : conn.generation = id.gen := congrArg ConnId.gen same
    exact (agrees conn held).mp generation accepted
  · rintro fresh fd conn ⟨held, rfl, ends⟩
    have generation : conn.generation = id.gen := by
      rw [agrees conn held]
      intro accepted
      exact fresh ⟨accepted, conn, held, ends⟩
    rw [generation]

/-- An error of a connection whose descriptor has not changed hands closes it. -/
theorem stale_event_harmless_iff_error :
    ∃ (moves : List (Transition.Move (State Unit) Label))
      (move : Transition.Move (State Unit) Label),
      Run {} (moves ++ [move]) move.target ∧ move.label = .handled ⟨7, 1⟩ .close ∧
        ∀ fd conn, Closes move fd conn → (⟨fd, conn.generation⟩ : ConnId) = ⟨7, 1⟩ := by
  rcases replied_run with ⟨moves, server, replied, -, -, -, conn, held, first⟩
  have reported := replied.snoc (.wait [.conn ⟨7, 1⟩ { error := true }] rfl
    ⟨by decide, by decide, by simp, by simp [held, first]⟩)
  have closed := reported.snoc (.close rfl rfl)
  refine ⟨_, _, closed, rfl, ?_⟩
  apply (stale_event_harmless_iff closed rfl rfl).mpr
  simp [acceptedSince_snoc]

/-- Bytes that cannot be written. -/
theorem flush_error (send : SendBuffer) {data : Bytes} (nonempty : data ≠ []) :
    ((send.enqueue data).flush [.error]).1 = .failed := by
  have unsent : (send.enqueue data).offset < (send.enqueue data).buf.length := by
    have bound := send.offset_le
    have positive := List.length_pos_of_ne_nil nonempty
    simp only [SendBuffer.enqueue, List.length_append]
    omega
  simp [SendBuffer.flush, unsent]

omit [DecidableEq Tid] in
theorem processWrite_failed {server : Server Tid} {write : PendingWrite}
    {results : List WriteResult} {conn : Connection} (held : server.conns write.id.fd = some conn)
    (same : conn.generation = write.id.gen)
    (failed : ((conn.send.enqueue write.data).flush results).1 = .failed) :
    (server.processWrite write results).1.conns write.id.fd = none := by
  simp only [Server.processWrite, held, same, ne_eq, not_true_eq_false, if_false,
    Server.flushConn, Connection.sendEnqueue, failed]
  exact (touches_handleClose (conns_setConn server write.id.fd _) trivial).ended trivial

/-- The write of a reply fails, a new client gets the descriptor, and the error reported for
the old client closes the new one. -/
theorem not_stale_event_harmless :
    ¬∀ (moves before later : List (Transition.Move (State Unit) Label)) (state : State Unit)
      (move : Transition.Move (State Unit) Label) (id : ConnId) (call : Call),
      Run {} moves state → moves = before ++ move :: later → move.label = .handled id call →
        ∀ fd conn, Closes move fd conn → (⟨fd, conn.generation⟩ : ConnId) = id := by
  intro harmless
  rcases replied_run with ⟨moves, server, replied, polling, written, completed, conn, held, first⟩
  rcases server with ⟨conns, interest, genCounter, phase, writes, completes, tasks, pool⟩
  simp only at polling written completed held
  subst polling written completed
  have reported := replied.snoc (.wait
    [.wakeup, .listen, .conn ⟨7, 1⟩ { error := true }] rfl
    ⟨by decide, by decide, by simp, by simp [held, first]⟩)
  have emptied := (reported.snoc (.wake rfl)).snoc (.readPipe rfl (by simp))
  have swapped := (emptied.snoc (.readDrained rfl rfl)).snoc (.swapWrites rfl)
  have failed := swapped.snoc (.processWrite [.error] rfl rfl)
  have closed := @processWrite_failed _ (Server.mk conns interest genCounter (.writing []) [] []
    tasks pool) ⟨⟨7, 1⟩, ascii "+PONG\r\n"⟩ [.error] conn held first (flush_error _ (by decide))
  have frame := Inherits.processWrite (Server.mk conns interest genCounter (.writing []) [] []
    tasks pool) ⟨⟨7, 1⟩, ascii "+PONG\r\n"⟩ [.error]
  have wrote := failed.snoc (.writesDone rfl frame.phase)
  have drained := (wrote.snoc (.swapCompletes rfl)).snoc
    (.completesDone rfl (congrArg Phase.completing frame.completedCommands))
  have accepted := (drained.snoc (.accept 7 0 rfl closed)).snoc (.acceptEnd rfl)
  have ended := accepted.snoc (.close rfl rfl)
  have same := harmless _ _ [] _ _ ⟨7, 1⟩ .close ended rfl rfl 7 (.make _ 0) ⟨rfl, by
    intro later stored
    cases stored⟩
  have counted : 1 ≤ genCounter := first ▸ generation_le replied held
  have counter : _ = genCounter := frame.genCounter
  have generation : _ + 1 = 1 := congrArg ConnId.gen same
  rw [Nat.add_eq_right] at generation
  have none := counter.symm.trans generation
  omega

end RedisCpp.Net.EventLoop
