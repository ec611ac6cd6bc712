import RedisCpp.Lib.Transition
import RedisCpp.Net.OrderedService
import RedisCpp.Net.Tails

/-!
# Pipelining under the receive guard

A client may send valid frames without waiting for replies.  The reactor drains the socket
before it takes frames off the receive buffer, and the guard looks at the buffer inside the
drain.  So what counts is not the size of a frame but how much the kernel has ready: the
bytes left of the frame that is not complete yet, and all that one drain brings.

As long as they stay within the guard in every event, no call of `handle_read` closes the
connection and the commands are queued once each, in order.  What else the server does in
between is left open, except that it may not close the connection nor touch its receive
buffer.  The steps of the server are of this kind.
-/

namespace RedisCpp.Net

open Protocol StreamDecoder

variable {Tid : Type}

/-- The descriptor is still that of the connection. -/
def Server.HeldBy (server : Server Tid) (id : ConnId) (conn : Connection) : Prop :=
  server.conns id.fd = some conn ∧ conn.generation = id.gen

/-- The bytes that one call of `handle_read` finds, and the events it causes. -/
structure Delivery where
  bytes : Bytes
  events : List Event

/-- What can happen to a connection while it is open: a call of `handle_read`, or anything
that leaves its receive buffer alone. -/
inductive ConnStep (config : ReactorConfig) (id : ConnId) (server : Server Tid) :
    Option Delivery → Server Tid → Prop where
  | read {conn : Connection} {reads : List ReadResult} {bytes : Bytes} {after : Server Tid}
      {events : List Event} (held : server.HeldBy id conn) (drain : Blocked reads bytes)
      (handled : server.handleRead config id.fd reads = some (after, events)) :
      ConnStep config id server (some ⟨bytes, events⟩) after
  | other {conn later : Connection} {after : Server Tid} (held : server.HeldBy id conn)
      (heldLater : after.HeldBy id later) (untouched : later.recvBuf = conn.recvBuf) :
      ConnStep config id server none after

/-- A move of a connection. -/
abbrev ConnMove (Tid : Type) := Transition.Move (Server Tid) (Option Delivery)

/-- A history of a connection. -/
abbrev ConnRun (config : ReactorConfig) (id : ConnId) (start : Server Tid)
    (moves : List (ConnMove Tid)) (server : Server Tid) : Prop :=
  Transition.Run (ConnStep config id) start moves server

/-- The bytes that the client has delivered. -/
def delivered (moves : List (ConnMove Tid)) : Bytes :=
  moves.flatMap fun move => (move.label.map Delivery.bytes).getD []

/-- The commands that have been queued. -/
def queuedIn (moves : List (ConnMove Tid)) : List (List Bytes) :=
  moves.flatMap fun move => (move.label.map fun delivery => Server.queued delivery.events).getD []

/-- The number of whole frames among the first bytes of a stream. -/
def wholeFrames : List Bytes → ℕ → ℕ
  | [], _ => 0
  | frame :: frames, count =>
      if frame.length ≤ count then wholeFrames frames (count - frame.length) + 1 else 0

/-- The number of bytes that are left without the whole frames. -/
def unfinished : List Bytes → ℕ → ℕ
  | [], count => count
  | frame :: frames, count =>
      if frame.length ≤ count then unfinished frames (count - frame.length) else count

/-- What is left of the incomplete frame and what the event brings stay within the guard. -/
def WithinGuard (config : ReactorConfig) (frames : List Bytes) (before : List (ConnMove Tid))
    (bytes : Bytes) : Prop :=
  unfinished frames (delivered before).length + bytes.length ≤ config.maxRecvBytes

/-! ## Steps of the server -/

namespace Server

/-- What a descriptor holds afterwards it held before, with the same receive buffer. -/
def Untouched (server after : Server Tid) (fd : ℕ) : Prop :=
  ∀ later, after.conns fd = some later →
    ∃ conn, server.conns fd = some conn ∧ later.generation = conn.generation ∧
      later.recvBuf = conn.recvBuf

namespace Untouched

variable {server after : Server Tid} {fd other : ℕ} {conn old : Connection}

theorem of_eq (same : after.conns fd = server.conns fd) : Untouched server after fd := by
  intro later held
  rw [same] at held
  exact ⟨later, held, rfl, rfl⟩

theorem trans {middle : Server Tid} (first : Untouched server middle fd)
    (second : Untouched middle after fd) : Untouched server after fd := by
  intro later held
  rcases second later held with ⟨conn, heldBefore, generation, recvBuf⟩
  rcases first conn heldBefore with ⟨start, heldFirst, firstGeneration, firstRecvBuf⟩
  exact ⟨start, heldFirst, generation.trans firstGeneration, recvBuf.trans firstRecvBuf⟩

theorem setConn (held : server.conns other = some old)
    (generation : conn.generation = old.generation) (recvBuf : conn.recvBuf = old.recvBuf) :
    Untouched server (server.setConn other conn) fd := by
  intro later heldLater
  by_cases same : fd = other
  · subst same
    simp only [conns_setConn, Option.some.injEq] at heldLater
    subst heldLater
    exact ⟨old, held, generation, recvBuf⟩
  · simp only [Server.setConn, Function.update_of_ne same] at heldLater
    exact ⟨later, heldLater, rfl, rfl⟩

theorem handleClose (server : Server Tid) (fd other : ℕ) :
    Untouched server (server.handleClose other) fd := by
  intro later held
  simp only [Server.handleClose] at held
  split at held
  · exact ⟨later, held, rfl, rfl⟩
  · by_cases same : fd = other
    · simp [same] at held
    · simp only [Function.update_of_ne same] at held
      exact ⟨later, held, rfl, rfl⟩

theorem flushConn (held : server.conns other = some old)
    (generation : conn.generation = old.generation) (recvBuf : conn.recvBuf = old.recvBuf)
    (results : List WriteResult) :
    Untouched server (server.flushConn other conn results).2.1 fd :=
  setConn held generation recvBuf

theorem handleWrite (server : Server Tid) (fd other : ℕ) (results : List WriteResult) :
    Untouched server (server.handleWrite other results).1 fd := by
  simp only [Server.handleWrite]
  cases held : server.conns other with
  | none => exact of_eq rfl
  | some conn =>
      have flushed : Untouched server (server.flushConn other conn results).2.1 fd :=
        flushConn held rfl rfl results
      simp only
      split
      · exact flushed.trans (handleClose _ fd other)
      · exact flushed.trans (of_eq rfl)
      · exact flushed

theorem processWrite (server : Server Tid) (fd : ℕ) (write : PendingWrite)
    (results : List WriteResult) : Untouched server (server.processWrite write results).1 fd := by
  simp only [Server.processWrite]
  cases held : server.conns write.id.fd with
  | none => exact of_eq rfl
  | some conn =>
      have flushed : Untouched server
          (server.flushConn write.id.fd (conn.sendEnqueue write.data) results).2.1 fd := by
        apply flushConn held
        · rfl
        · rfl
      simp only
      split
      · exact of_eq rfl
      · split
        · exact flushed.trans (handleClose _ fd _)
        · exact flushed
        · exact flushed.trans (of_eq rfl)

theorem dispatchNextCommand (held : server.conns other = some old)
    (generation : conn.generation = old.generation) (recvBuf : conn.recvBuf = old.recvBuf) :
    Untouched server ((server.setConn other conn).dispatchNextCommand other conn) fd := by
  simp only [Server.dispatchNextCommand]
  split
  · exact setConn held generation recvBuf
  · rw [setConn_setConn]
    exact setConn held generation recvBuf

theorem processComplete (server : Server Tid) (fd : ℕ) (id : ConnId) :
    Untouched server (server.processComplete id) fd := by
  simp only [Server.processComplete]
  cases held : server.conns id.fd with
  | none => exact of_eq rfl
  | some conn =>
      simp only
      split
      · exact of_eq rfl
      · exact dispatchNextCommand held rfl rfl

theorem checkIdle (server : Server Tid) (config : ReactorConfig) (now : ℤ) (fd : ℕ) :
    Untouched server (server.checkIdle config now) fd := by
  intro later held
  simp only [Server.checkIdle] at held
  split at held
  · cases held
  · exact ⟨later, held, rfl, rfl⟩

/-- A call of `handle_read` for another descriptor. -/
theorem handleRead {config : ReactorConfig} {reads : List ReadResult} {events : List Event}
    (different : fd ≠ other)
    (handled : server.handleRead config other reads = some (after, events)) :
    Untouched server after fd := by
  cases handledRead handled with
  | absent free => exact of_eq rfl
  | hungUp held ended => exact handleClose server fd other
  | failed held received error => exact handleClose server fd other
  | queued held received clean =>
      apply of_eq
      simp only [queueCommands, Server.dispatchNextCommand, Server.setConn]
      split
      · split
        · simp only [Function.update_of_ne different]
        · simp only [Function.update_of_ne different]
      · simp only [Function.update_of_ne different]

end Untouched

/-- While a connection is open, each step of the server is a call of `handle_read` for it or
leaves its receive buffer alone. -/
theorem step_cases [DecidableEq Tid] {config : ReactorConfig} {server after : Server Tid}
    {events : List Event} {fd : ℕ} {conn : Connection} (held : server.conns fd = some conn)
    (step : Step config server events after) :
    (∃ reads, server.handleRead config fd reads = some (after, events)) ∨
      Untouched server after fd := by
  cases step with
  | accept other now polling free =>
      right
      have different : fd ≠ other := by
        rintro rfl
        rw [held] at free
        cases free
      exact Untouched.of_eq (Function.update_of_ne different _ _)
  | read other reads polling handled =>
      by_cases same : fd = other
      · subst same
        exact Or.inl ⟨reads, handled⟩
      · exact Or.inr (Untouched.handleRead same handled)
  | write other results polling => exact Or.inr (Untouched.handleWrite server fd other results)
  | close other polling => exact Or.inr (Untouched.handleClose server fd other)
  | idle now polling enabled => exact Or.inr (Untouched.checkIdle server config now fd)
  | @processWrite write writes results writing =>
      right
      have resumed : Untouched server (server.setPhase (.writing writes)) fd := .of_eq rfl
      exact resumed.trans (Untouched.processWrite _ fd write results)
  | @processComplete id completes completing =>
      right
      have resumed : Untouched server (server.setPhase (.completing completes)) fd := .of_eq rfl
      exact resumed.trans (Untouched.processComplete _ fd id)
  | swapWrites | writesDone | swapCompletes | completesDone | take | execute | send | notify =>
      exact Or.inr (.of_eq rfl)

end Server

/-- While a connection stays open, a step of the server is a call of `handle_read` for it or
a move of another kind. -/
theorem connStep_of_step [DecidableEq Tid] {config : ReactorConfig} {server after : Server Tid}
    {events : List Event} {id : ConnId} {conn later : Connection} (held : server.HeldBy id conn)
    (heldLater : after.HeldBy id later) (step : Step config server events after) :
    (∃ reads, server.handleRead config id.fd reads = some (after, events)) ∨
      ConnStep config id server none after := by
  rcases Server.step_cases held.1 step with handled | untouched
  · exact Or.inl handled
  · rcases untouched later heldLater.1 with ⟨found, heldBefore, -, recvBuf⟩
    rw [held.1] at heldBefore
    cases heldBefore
    exact Or.inr (.other held heldLater recvBuf)

/-! ## The stream and the connection -/

section Stream

variable {frames done later : List Bytes} {commands doneCommands laterCommands :
  List (Option (List Bytes))} {part : Bytes}

/-- Behind some frames and the beginning of the next one. -/
theorem split_eq (begun : Begun part later) :
    wholeFrames (done ++ later) (done.flatten ++ part).length = done.length ∧
      unfinished (done ++ later) (done.flatten ++ part).length = part.length := by
  induction done with
  | nil =>
      cases later with
      | nil => exact ⟨rfl, rfl⟩
      | cons frame later =>
          have short : ¬frame.length ≤ part.length := not_le.mpr begun.length_lt
          simp only [List.flatten_nil, List.nil_append, wholeFrames, unfinished, short, if_false,
            List.length_nil, and_self]
  | cons frame done inductionHypothesis =>
      have length_eq : ((frame :: done).flatten ++ part).length =
          frame.length + (done.flatten ++ part).length := by
        rw [List.flatten_cons, List.append_assoc, List.length_append]
      rw [List.cons_append, length_eq, wholeFrames, unfinished, if_pos (Nat.le_add_right _ _),
        if_pos (Nat.le_add_right _ _), Nat.add_sub_cancel_left, inductionHypothesis.1,
        inductionHypothesis.2]
      exact ⟨rfl, rfl⟩

theorem queueable_append (front back : List (Option (List Bytes))) :
    Server.queueable (front ++ back) = Server.queueable front ++ Server.queueable back := by
  simp only [Server.queueable, List.filterMap_append, List.filter_append]

end Stream

section Moves

variable (moves : List (ConnMove Tid)) (source target : Server Tid)

theorem delivered_snoc (label : Option Delivery) :
    delivered (moves ++ [⟨source, label, target⟩]) =
      delivered moves ++ (label.map Delivery.bytes).getD [] := by
  simp only [delivered, List.flatMap_append, List.flatMap_singleton]

theorem queuedIn_snoc (label : Option Delivery) :
    queuedIn (moves ++ [⟨source, label, target⟩]) =
      queuedIn moves ++ (label.map fun delivery => Server.queued delivery.events).getD [] := by
  simp only [queuedIn, List.flatMap_append, List.flatMap_singleton]

/-- Every event of a history stays within the guard. -/
def AllWithin (config : ReactorConfig) (frames : List Bytes) : Prop :=
  ∀ before later source target delivery,
    moves = before ++ ⟨source, some delivery, target⟩ :: later →
      WithinGuard config frames before delivery.bytes

theorem allWithin_snoc {config : ReactorConfig} {frames : List Bytes}
    {label : Option Delivery} :
    AllWithin (moves ++ [⟨source, label, target⟩]) config frames ↔
      AllWithin moves config frames ∧
        ∀ delivery, label = some delivery → WithinGuard config frames moves delivery.bytes := by
  constructor
  · intro within
    constructor
    · rintro before later from' to' delivery rfl
      exact within before (later ++ [⟨source, label, target⟩]) from' to' delivery (by simp)
    · rintro delivery rfl
      exact within moves [] source target delivery rfl
  · rintro ⟨within, last⟩ before later from' to' delivery parts
    rcases List.eq_nil_or_concat later with rfl | ⟨front, final, rfl⟩
    · have ends := List.append_inj' parts rfl
      simp only [List.cons.injEq, Transition.Move.mk.injEq, and_true] at ends
      rcases ends with ⟨rfl, -, labelled, -⟩
      exact last delivery labelled
    · rw [List.concat_eq_append, ← List.cons_append, ← List.append_assoc] at parts
      exact within before front from' to' delivery (List.append_inj' parts rfl).1

end Moves

/-- Where the connection stands in the stream: behind whole frames whose commands have been
queued, with the beginning of the next frame in the receive buffer. -/
structure Standing (config : ReactorConfig) (id : ConnId) (frames : List Bytes)
    (commands : List (Option (List Bytes))) (moves : List (ConnMove Tid)) (server : Server Tid)
    (done later : List Bytes) (doneCommands laterCommands : List (Option (List Bytes)))
    (part : Bytes) : Prop where
  frames_eq : frames = done ++ later
  commands_eq : commands = doneCommands ++ laterCommands
  doneValid : ValidFrames done doneCommands
  laterValid : ValidFrames later laterCommands
  delivered_eq : delivered moves = done.flatten ++ part
  begun : Begun part later
  queued_eq : queuedIn moves = Server.queueable doneCommands
  buffered : ∃ conn, server.HeldBy id conn ∧ conn.recvBuf = part
  bounded : part.length ≤ config.maxRecvBytes

/-- The connection is open and has kept up with the stream. -/
def InStep (config : ReactorConfig) (id : ConnId) (frames : List Bytes)
    (commands : List (Option (List Bytes))) (moves : List (ConnMove Tid)) (server : Server Tid) :
    Prop :=
  ∃ done later doneCommands laterCommands part,
    Standing config id frames commands moves server done later doneCommands laterCommands part

/-! ## One event -/

section Events

variable {config : ReactorConfig} {id : ConnId} {frames : List Bytes}
  {commands : List (Option (List Bytes))} {moves : List (ConnMove Tid)} {server : Server Tid}

theorem heldBy_queueCommands {conn : Connection} (generation : conn.generation = id.gen)
    (cmds : List (List Bytes)) :
    ∃ later, (server.queueCommands id.fd conn cmds).HeldBy id later ∧
      later.recvBuf = conn.recvBuf := by
  simp only [Server.HeldBy, Server.queueCommands, Server.dispatchNextCommand]
  split
  · split
    · exact ⟨_, ⟨conns_setConn _ _ _, generation⟩, rfl⟩
    · exact ⟨_, ⟨conns_setConn _ _ _, generation⟩, rfl⟩
  · exact ⟨_, ⟨conns_setConn _ _ _, generation⟩, rfl⟩

theorem inStep_start {conn : Connection} (valid : ValidFrames frames commands)
    (held : server.HeldBy id conn) (empty : conn.recvBuf = []) :
    InStep config id frames commands [] server :=
  ⟨[], frames, [], commands, [], rfl, rfl, .nil, valid, rfl, begun_nil valid, rfl,
    ⟨conn, held, empty⟩, Nat.zero_le _⟩

namespace Standing

variable {done later : List Bytes} {doneCommands laterCommands : List (Option (List Bytes))}
  {part bytes : Bytes} {reads : List ReadResult}

theorem withinGuard_iff (standing : Standing config id frames commands moves server done later
    doneCommands laterCommands part) :
    WithinGuard config frames moves bytes ↔ (part ++ bytes).length ≤ config.maxRecvBytes := by
  rw [WithinGuard, standing.delivered_eq, standing.frames_eq, (split_eq standing.begun).2,
    List.length_append]

/-- An event within the guard takes the connection on in the stream. -/
theorem read (standing : Standing config id frames commands moves server done later doneCommands
    laterCommands part) (drain : Blocked reads bytes)
    (ahead : delivered moves ++ bytes <+: frames.flatten)
    (within : WithinGuard config frames moves bytes) :
    ∃ after events, server.handleRead config id.fd reads = some (after, events) ∧
      InStep config id frames commands (moves ++ [⟨server, some ⟨bytes, events⟩, after⟩])
        after := by
  rcases ahead with ⟨back, stream⟩
  rcases standing.buffered with ⟨conn, held, rfl⟩
  have fits := standing.withinGuard_iff.mp within
  have rest : later.flatten = (conn.recvBuf ++ bytes) ++ back := by
    rw [standing.delivered_eq, standing.frames_eq, List.flatten_append] at stream
    simpa using stream.symm
  rcases exists_begun standing.laterValid rest with
    ⟨newDone, newLater, newCommands, newLaterCommands, newPart, later_eq, laterCommands_eq,
      newValid, newLaterValid, received, begun⟩
  rcases Server.handleRead_frames held.1 drain fits newValid newLaterValid begun received with
    ⟨touched, handled⟩
  refine ⟨_, _, handled, done ++ newDone, newLater, doneCommands ++ newCommands,
    newLaterCommands, newPart, ?_⟩
  exact
    { frames_eq := by rw [standing.frames_eq, later_eq, List.append_assoc]
      commands_eq := by rw [standing.commands_eq, laterCommands_eq, List.append_assoc]
      doneValid := List.rel_append standing.doneValid newValid
      laterValid := newLaterValid
      delivered_eq := by
        simp only [delivered_snoc, standing.delivered_eq, Option.map_some, Option.getD_some,
          List.append_assoc, received, List.flatten_append]
      begun := begun
      queued_eq := by
        simp only [queuedIn_snoc, standing.queued_eq, Option.map_some, Option.getD_some,
          Server.queued_map, queueable_append]
      buffered := by
        apply heldBy_queueCommands
        exact held.2
      bounded := by
        have length := congrArg List.length received
        simp only [List.length_append] at length fits
        omega }

/-- An event beyond the guard closes the connection. -/
theorem close (standing : Standing config id frames commands moves server done later doneCommands
    laterCommands part) (drain : Blocked reads bytes)
    (beyond : ¬WithinGuard config frames moves bytes) :
    server.handleRead config id.fd reads = some (server.handleClose id.fd, []) := by
  rcases standing.buffered with ⟨conn, held, rfl⟩
  have exceeded : config.maxRecvBytes < (conn.recvBuf ++ bytes).length :=
    Nat.lt_of_not_le fun fits => beyond (standing.withinGuard_iff.mpr fits)
  simp only [Server.handleRead, held.1,
    Server.readLoop_exceeded drain standing.bounded exceeded]

/-- What does not touch the receive buffer leaves the connection where it stands. -/
theorem other (standing : Standing config id frames commands moves server done later doneCommands
    laterCommands part) {conn : Connection} {after : Server Tid} {heldConn : Connection}
    (held : server.HeldBy id heldConn) (heldLater : after.HeldBy id conn)
    (untouched : conn.recvBuf = heldConn.recvBuf) :
    InStep config id frames commands (moves ++ [⟨server, none, after⟩]) after := by
  refine ⟨done, later, doneCommands, laterCommands, part, ?_⟩
  rcases standing.buffered with ⟨found, foundHeld, recvBuf⟩
  rw [Server.HeldBy, held.1] at foundHeld
  have same : heldConn = found := Option.some.inj foundHeld.1
  exact
    { standing with
      delivered_eq := by
        simp only [delivered_snoc, Option.map_none, Option.getD_none, List.append_nil,
          standing.delivered_eq]
      queued_eq := by
        simp only [queuedIn_snoc, Option.map_none, Option.getD_none, List.append_nil,
          standing.queued_eq]
      buffered := ⟨conn, heldLater, by rw [untouched, same, recvBuf]⟩ }

end Standing

/-! ## Histories -/

theorem not_heldBy_handleClose {conn later : Connection} (held : server.HeldBy id conn) :
    ¬(server.handleClose id.fd).HeldBy id later := by
  rintro ⟨found, -⟩
  simp only [Server.handleClose, held.1, Function.update_self] at found
  cases found

variable {start : Server Tid} {conn : Connection}

/-- As long as every event stays within the guard the connection keeps up with the
stream. -/
theorem inStep_run (valid : ValidFrames frames commands) (held : start.HeldBy id conn)
    (empty : conn.recvBuf = []) (run : ConnRun config id start moves server)
    (ahead : delivered moves <+: frames.flatten) (within : AllWithin moves config frames) :
    InStep config id frames commands moves server := by
  induction run with
  | nil => exact inStep_start valid held empty
  | @snoc moves source after label run step inductionHypothesis =>
      rw [delivered_snoc] at ahead
      rcases (allWithin_snoc moves source after).mp within with ⟨withinBefore, withinLast⟩
      rcases inductionHypothesis ((List.prefix_append _ _).trans ahead) withinBefore with
        ⟨done, later, doneCommands, laterCommands, part, standing⟩
      cases step with
      | @read found reads bytes _ events heldNow drain handled =>
          rcases standing.read drain ahead (withinLast _ rfl) with
            ⟨next, nextEvents, nextHandled, inStep⟩
          rw [handled] at nextHandled
          cases nextHandled
          exact inStep
      | other heldNow heldLater untouched => exact standing.other heldNow heldLater untouched

/-- Only events within the guard leave the connection open. -/
theorem allWithin_of_held (valid : ValidFrames frames commands) (held : start.HeldBy id conn)
    (empty : conn.recvBuf = []) (run : ConnRun config id start moves server)
    (ahead : delivered moves <+: frames.flatten)
    (heldLast : ∃ last, server.HeldBy id last) : AllWithin moves config frames := by
  induction run with
  | nil =>
      intro before later source target delivery parts
      simp at parts
  | @snoc moves source after label run step inductionHypothesis =>
      rw [delivered_snoc] at ahead
      have aheadBefore := (List.prefix_append _ _).trans ahead
      apply (allWithin_snoc moves source after).mpr
      cases step with
      | @read found reads bytes _ events heldNow drain handled =>
          have within := inductionHypothesis aheadBefore ⟨found, heldNow⟩
          refine ⟨within, ?_⟩
          rintro delivery labelled
          cases labelled
          by_contra beyond
          rcases inStep_run valid held empty run aheadBefore within with
            ⟨done, later, doneCommands, laterCommands, part, standing⟩
          rw [standing.close drain beyond] at handled
          cases handled
          rcases heldLast with ⟨last, heldLast⟩
          exact not_heldBy_handleClose heldNow heldLast
      | @other found next _ heldNow heldLater untouched =>
          refine ⟨inductionHypothesis aheadBefore ⟨found, heldNow⟩, ?_⟩
          intro delivery labelled
          cases labelled

/-- The commands of the frames that are there as a whole have been queued. -/
theorem InStep.queued_eq (inStep : InStep config id frames commands moves server) :
    queuedIn moves =
      Server.queueable (commands.take (wholeFrames frames (delivered moves).length)) := by
  rcases inStep with ⟨done, later, doneCommands, laterCommands, part, standing⟩
  rw [standing.queued_eq, standing.commands_eq, standing.delivered_eq, standing.frames_eq,
    (split_eq standing.begun).1, standing.doneValid.length_eq, List.take_left]

theorem InStep.queued_all (inStep : InStep config id frames commands moves server)
    (all : delivered moves = frames.flatten) : queuedIn moves = Server.queueable commands := by
  rcases inStep with ⟨done, later, doneCommands, laterCommands, part, standing⟩
  have laterValid := standing.laterValid
  have begun := standing.begun
  have whole := standing.delivered_eq
  rw [all, standing.frames_eq, List.flatten_append, List.append_cancel_left_eq] at whole
  cases laterValid with
  | nil => rw [standing.queued_eq, standing.commands_eq, List.append_nil]
  | cons first _ =>
      have short := begun.length_lt
      have length := congrArg List.length whole
      simp only [List.flatten_cons, List.length_append] at length
      omega

end Events

/-- For every stream of valid frames and every schedule of its delivery: the connection is
open exactly as long as, in every event, what is left of the incomplete frame and what the
event brings stay within the guard.  As long as it is open the commands of the frames
received so far have been queued once each, in order.  The next event returns, and closes
the connection exactly if it goes beyond the guard. -/
theorem pipelining_uncut_iff {config : ReactorConfig} {id : ConnId} {frames : List Bytes}
    {commands : List (Option (List Bytes))} (valid : ValidFrames frames commands)
    {start server : Server Tid} {conn : Connection} (held : start.HeldBy id conn)
    (empty : conn.recvBuf = []) {moves : List (ConnMove Tid)}
    (run : ConnRun config id start moves server) (ahead : delivered moves <+: frames.flatten) :
    ((∃ last, server.HeldBy id last) ↔ AllWithin moves config frames) ∧
      ((∃ last, server.HeldBy id last) →
        queuedIn moves =
            Server.queueable (commands.take (wholeFrames frames (delivered moves).length)) ∧
          (delivered moves = frames.flatten → queuedIn moves = Server.queueable commands)) ∧
      ∀ reads bytes, (∃ last, server.HeldBy id last) → Blocked reads bytes →
        delivered moves ++ bytes <+: frames.flatten →
        ∃ after events, server.handleRead config id.fd reads = some (after, events) ∧
          ((∃ last, after.HeldBy id last) ↔ WithinGuard config frames moves bytes) := by
  have open_iff : (∃ last, server.HeldBy id last) ↔ AllWithin moves config frames := by
    constructor
    · exact allWithin_of_held valid held empty run ahead
    · intro within
      rcases inStep_run valid held empty run ahead within with ⟨_, _, _, _, _, standing⟩
      rcases standing.buffered with ⟨last, heldLast, -⟩
      exact ⟨last, heldLast⟩
  refine ⟨open_iff, ?_, ?_⟩
  · intro heldLast
    have inStep := inStep_run valid held empty run ahead (open_iff.mp heldLast)
    exact ⟨inStep.queued_eq, inStep.queued_all⟩
  · intro reads bytes heldLast drain further
    rcases inStep_run valid held empty run ahead (open_iff.mp heldLast) with
      ⟨_, _, _, _, _, standing⟩
    by_cases within : WithinGuard config frames moves bytes
    · rcases standing.read drain further within with
        ⟨after, events, handled, _, _, _, _, _, standingAfter⟩
      rcases standingAfter.buffered with ⟨last, heldAfter, -⟩
      exact ⟨after, events, handled, fun _ => within, fun _ => ⟨last, heldAfter⟩⟩
    · refine ⟨_, _, standing.close drain within, ?_⟩
      rcases heldLast with ⟨last, heldLast⟩
      constructor
      · rintro ⟨next, heldNext⟩
        exact absurd heldNext (not_heldBy_handleClose heldLast)
      · intro fits
        exact absurd fits within

/-- A command in two pieces. -/
theorem pipelining_uncut_iff_ping :
    ∃ (server : Server Unit) (moves : List (ConnMove Unit)),
      ConnRun {} ⟨7, 1⟩ (Server.initial.handleAccept 7 0) moves server ∧
        delivered moves = ascii "PING\r\n" ∧ AllWithin moves {} [ascii "PING\r\n"] ∧
        queuedIn moves = [[ascii "PING"]] := by
  have held : (Server.initial.handleAccept 7 0 : Server Unit).HeldBy ⟨7, 1⟩ (.make 1 0) :=
    ⟨rfl, rfl⟩
  have front : Blocked [.read (ascii "PIN") 1, .wouldBlock] (ascii "PIN") :=
    .read (by decide) (by decide) .done
  have back : Blocked [.read (ascii "G\r\n") 2, .wouldBlock] (ascii "G\r\n") :=
    .read (by decide) (by decide) .done
  have run : ConnRun {} ⟨7, 1⟩ (Server.initial.handleAccept 7 0 : Server Unit) _ _ :=
    .snoc (.snoc .nil (.read held front rfl)) (.read ⟨rfl, rfl⟩ back rfl)
  have uncut := pipelining_uncut_iff (.cons validFrame_ping .nil) held rfl run (by decide)
  exact ⟨_, _, run, by decide, uncut.1.mp ⟨_, rfl, rfl⟩, (uncut.2.1 ⟨_, rfl, rfl⟩).2 (by decide)⟩

theorem blocked_replicate {data : Bytes} (nonempty : data ≠ []) (size : data.length ≤ 4096)
    (now : ℤ) (count : ℕ) :
    Blocked (List.replicate count (.read data now) ++ [.wouldBlock])
      (List.replicate count data).flatten := by
  induction count with
  | zero => exact .done
  | succ count inductionHypothesis => exact .read nonempty size inductionHypothesis

theorem validFrames_replicate {frame : Bytes} {command : Option (List Bytes)}
    (valid : ValidFrame frame command) (count : ℕ) :
    ValidFrames (List.replicate count frame) (List.replicate count command) := by
  induction count with
  | zero => exact .nil
  | succ count inductionHypothesis => exact .cons valid inductionHypothesis

/-- One read brings 682 commands of six bytes, and seventeen reads are ready at once. -/
theorem exists_burst :
    ∃ frames commands reads, ValidFrames frames commands ∧
      (∀ frame ∈ frames, frame.length ≤ 65536) ∧ Blocked reads frames.flatten ∧
      65536 < frames.flatten.length := by
  have chunk : (List.replicate 682 (ascii "PING\r\n")).flatten.length = 4092 := by
    simp only [List.length_flatten, List.map_replicate, List.sum_replicate_nat]
    rfl
  have nonempty : (List.replicate 682 (ascii "PING\r\n")).flatten ≠ [] := by
    intro empty
    rw [empty] at chunk
    cases chunk
  have drain := blocked_replicate nonempty (by omega) 0 17
  have whole : (List.replicate 17 (List.replicate 682 (ascii "PING\r\n")).flatten).flatten =
      (List.replicate (17 * 682) (ascii "PING\r\n")).flatten := by
    rw [← List.flatten_replicate_replicate, List.flatten_flatten, List.map_replicate]
  rw [whole] at drain
  refine ⟨_, _, _, validFrames_replicate validFrame_ping (17 * 682), ?_, drain, ?_⟩
  · intro frame mem
    rw [List.eq_of_mem_replicate mem]
    decide
  · simp only [List.length_flatten, List.map_replicate, List.sum_replicate_nat]
    decide

/-- Many small commands that the kernel has ready at once are too much for the guard. -/
theorem not_pipelining_uncut :
    ¬∀ (id : ConnId) (frames : List Bytes) (commands : List (Option (List Bytes)))
        (start server : Server Unit) (conn : Connection) (moves : List (ConnMove Unit)),
        ValidFrames frames commands → (∀ frame ∈ frames, frame.length ≤ 65536) →
        start.HeldBy id conn → conn.recvBuf = [] → ConnRun {} id start moves server →
        delivered moves = frames.flatten → ∃ last, server.HeldBy id last := by
  intro uncut
  rcases exists_burst with ⟨frames, commands, reads, valid, small, drain, exceeded⟩
  have held : (Server.initial.handleAccept 7 0 : Server Unit).HeldBy ⟨7, 1⟩ (.make 1 0) :=
    ⟨rfl, rfl⟩
  have looped : Server.readLoop 65536 reads (Connection.make 1 0).recvBuf
      (Connection.make 1 0).lastActive = none :=
    Server.readLoop_exceeded drain (Nat.zero_le _) exceeded
  have handled : (Server.initial.handleAccept 7 0 : Server Unit).handleRead {} 7 reads =
      some ((Server.initial.handleAccept 7 0).handleClose 7, []) := by
    simp only [Server.handleRead, held.1, looped]
  have run : ConnRun {} ⟨7, 1⟩ (Server.initial.handleAccept 7 0 : Server Unit) _ _ :=
    .snoc .nil (.read held drain handled)
  rcases uncut ⟨7, 1⟩ frames commands _ _ _ _ valid small held rfl run
    (delivered_snoc _ _ _ _) with ⟨last, heldLast⟩
  exact not_heldBy_handleClose held heldLast

end RedisCpp.Net
