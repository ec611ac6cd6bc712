import RedisCpp.Net.ServiceView

/-!
# Connections are served in order and in isolation

A step of the server is a few steps of the service of the connection it is about, and
none for all other connections.  So whatever the interleaving, every connection is served
one command at a time, in the order in which its commands were queued.
-/

namespace RedisCpp.Net

open Protocol (extractFrames)
open SerialService (Accounted Line queued started executed replies written)

variable {Tid : Type}

/-! ## Views of a changed server -/

section Reactor

variable {server : Server Tid} {fd : ℕ} {conn old : Connection} {id : ConnId}

theorem view_setConn_self (server : Server Tid) (fd : ℕ) (conn : Connection) :
    (server.setConn fd conn).view ⟨fd, conn.generation⟩ =
      { server.view ⟨fd, conn.generation⟩ with conn := some conn } := by
  simp [Server.view, Server.setConn]

theorem view_conn_self (held : server.conns fd = some conn) :
    (server.view ⟨fd, conn.generation⟩).conn = some conn := by
  simp [Server.view, held]

theorem view_setConn_other (held : server.conns fd = some old)
    (kept : conn.generation = old.generation) (other : (⟨fd, old.generation⟩ : ConnId) ≠ id) :
    (server.setConn fd conn).view id = server.view id := by
  have same : ((server.setConn fd conn).conns id.fd).filter
        (fun conn => conn.generation = id.gen) =
      (server.conns id.fd).filter fun conn => conn.generation = id.gen := by
    by_cases place : id.fd = fd
    · have elsewhere : old.generation ≠ id.gen := by
        rintro gen
        exact other (by rw [← place, gen])
      simp [Server.setConn, place, held, Option.filter, kept, elsewhere]
    · simp [Server.setConn, place]
  simp only [Server.view, same]
  rfl

@[simp]
theorem setConn_setConn (server : Server Tid) (fd : ℕ) (conn later : Connection) :
    (server.setConn fd conn).setConn fd later = server.setConn fd later := by
  simp [Server.setConn]

@[simp]
theorem conns_setConn (server : Server Tid) (fd : ℕ) (conn : Connection) :
    (server.setConn fd conn).conns fd = some conn := by
  simp [Server.setConn]

theorem view_conn_closed
    (closed : ∀ conn, server.conns id.fd = some conn → conn.generation ≠ id.gen) :
    (server.view id).conn = none := by
  cases held : server.conns id.fd with
  | none => simp [Server.view, held]
  | some conn => simp [Server.view, held, closed conn held]

section Entries

variable {write : PendingWrite} {writes : List PendingWrite} {done : ConnId}
  {completes : List ConnId}

theorem view_setPhase_write_other (writing : server.phase = .writing (write :: writes))
    (other : write.id ≠ id) : (server.setPhase (.writing writes)).view id = server.view id := by
  simp [Server.view, Server.setPhase, writing, Phase.writes, Phase.completes, dataOf, other]

theorem view_setPhase_write_self (writing : server.phase = .writing (write :: writes)) :
    (server.setPhase (.writing writes)).view write.id =
      { server.view write.id with data := dataOf write.id (writes ++ server.pendingWrites) } := by
  simp [Server.view, Server.setPhase, writing, Phase.writes, Phase.completes, dataOf]

theorem data_of_writing (writing : server.phase = .writing (write :: writes)) :
    (server.view write.id).data =
      write.data ++ dataOf write.id (writes ++ server.pendingWrites) := by
  simp [Server.view, writing, Phase.writes, dataOf]

theorem view_setPhase_complete_other (completing : server.phase = .completing (done :: completes))
    (other : done ≠ id) : (server.setPhase (.completing completes)).view id = server.view id := by
  simp [Server.view, Server.setPhase, completing, Phase.writes, Phase.completes, other]

theorem view_setPhase_complete_self
    (completing : server.phase = .completing (done :: completes)) :
    (server.setPhase (.completing completes)).view done =
      { server.view done with
        completes :=
          (completes ++ server.completedCommands).filter fun other => other = done } := by
  simp [Server.view, Server.setPhase, completing, Phase.writes, Phase.completes]

theorem completes_of_completing (completing : server.phase = .completing (done :: completes)) :
    (server.view done).completes =
      done :: (completes ++ server.completedCommands).filter fun other => other = done := by
  simp [Server.view, completing, Phase.completes]

/-- The connection that an entry is about is still open, or its view has none. -/
theorem conn_cases (server : Server Tid) (owner : ConnId) :
    (∃ conn, server.conns owner.fd = some conn ∧ conn.generation = owner.gen) ∨
      (∀ conn, server.conns owner.fd = some conn → conn.generation ≠ owner.gen) := by
  by_cases closed : ∀ conn, server.conns owner.fd = some conn → conn.generation ≠ owner.gen
  · exact Or.inr closed
  · simp only [ne_eq, not_forall, not_not] at closed
    rcases closed with ⟨conn, held, same⟩
    exact Or.inl ⟨conn, held, same⟩

theorem processWrite_of_closed {results : List WriteResult}
    (closed : ∀ conn, server.conns write.id.fd = some conn → conn.generation ≠ write.id.gen) :
    server.processWrite write results = (server, []) := by
  simp only [Server.processWrite]
  split
  · rfl
  · rename_i conn held
    rw [if_pos (closed conn held)]

theorem processComplete_of_closed
    (closed : ∀ conn, server.conns done.fd = some conn → conn.generation ≠ done.gen) :
    server.processComplete done = server := by
  simp only [Server.processComplete]
  split
  · rfl
  · rename_i conn held
    rw [if_pos (closed conn held)]

end Entries

/-! ## The reactor -/

variable [DecidableEq Tid]

theorem tracks_epollMod (server : Server Tid) (fd : ℕ) (interest : Interest) :
    Tracks server [] (server.epollMod fd interest) :=
  Tracks.of_view fun _ => rfl

theorem tracks_handleClose (server : Server Tid) (fd : ℕ) :
    Tracks server [] (server.handleClose fd) := by
  intro id
  cases held : server.conns fd with
  | none =>
      apply Follows.of_eq
      simp only [Server.handleClose, held]
  | some conn =>
      by_cases place : id.fd = fd
      · have gone : (server.handleClose fd).view id = { server.view id with conn := none } := by
          simp [Server.view, Server.handleClose, held, place]
        rw [gone]
        exact Follows.dropped id (server.view id)
      · apply Follows.of_eq
        simp [Server.view, Server.handleClose, held, place]

theorem tracks_checkIdle (server : Server Tid) (config : ReactorConfig) (now : ℤ) :
    Tracks server [] (server.checkIdle config now) := by
  intro id
  by_cases timedOut : server.timedOut config now id.fd
  · have gone : (server.checkIdle config now).view id = { server.view id with conn := none } := by
      simp [Server.view, Server.checkIdle, timedOut]
    rw [gone]
    exact Follows.dropped id (server.view id)
  · apply Follows.of_eq
    simp [Server.view, Server.checkIdle, timedOut]

/-- A new connection has a generation that nothing knows yet. -/
theorem tracks_handleAccept (server : Server Tid) (fd : ℕ) (now : ℤ) :
    Tracks server [] (server.handleAccept fd now) := by
  intro id line serves
  have elsewhere : id.fd ≠ fd →
      ((server.handleAccept fd now).view id).conn = (server.view id).conn := by
    intro place
    simp [Server.view, Server.handleAccept, place]
  have here : id.fd = fd → ((server.handleAccept fd now).view id).conn =
      if server.genCounter + 1 = id.gen then some (.make (server.genCounter + 1) now)
      else none := by
    intro place
    simp [Server.view, Server.handleAccept, place, Option.filter, Connection.make]
  refine ⟨line, .nil, serves.tasks, serves.workers, serves.completes, ?_, ?_⟩
  · intro conn stored
    by_cases place : id.fd = fd
    · rw [here place] at stored
      split at stored
      · have unused : (server.view id).unused := by
          simp only [Server.view]
          omega
        rcases serves.untouched unused with ⟨rfl, _, silent⟩
        cases stored
        refine ⟨rfl, ?_, ?_⟩
        · simp [Connection.make, Line.initial]
        · exact silent.symm
      · cases stored
    · rw [elsewhere place] at stored
      exact serves.stored conn stored
  · intro unused
    have later : server.genCounter + 1 < id.gen := unused
    have before : (server.view id).unused := by
      simp only [Server.view]
      omega
    rcases serves.untouched before with ⟨fresh, absent, silent⟩
    refine ⟨fresh, ?_, silent⟩
    by_cases place : id.fd = fd
    · rw [here place, if_neg (by omega)]
    · rw [elsewhere place]
      exact absent

/-- A change of an open connection. -/
theorem tracks_setConn {events : List (SerialService.Event (List Bytes) UInt8)}
    (held : server.conns fd = some old) (kept : conn.generation = old.generation)
    (follows : Follows ⟨fd, old.generation⟩ (server.view ⟨fd, old.generation⟩) events
      { server.view ⟨fd, old.generation⟩ with conn := some conn }) :
    Tracks server (events.map (Prod.mk ⟨fd, old.generation⟩)) (server.setConn fd conn) := by
  apply Tracks.of_owner
  · intro id other
    exact view_setConn_other held kept other
  · rw [← kept] at follows ⊢
    rw [view_setConn_self]
    exact follows

theorem tracks_dispatchNextCommand (held : server.conns fd = some conn)
    (idle : conn.processing = false) : Tracks server [] (server.dispatchNextCommand fd conn) := by
  cases front : conn.commandQueue with
  | nil =>
      apply Tracks.of_view
      intro id
      simp only [Server.dispatchNextCommand, front]
  | cons args rest =>
      have moved : server.dispatchNextCommand fd conn =
          { server.setConn fd { conn with processing := true, commandQueue := rest } with
            tasks := server.tasks ++ [⟨⟨fd, conn.generation⟩, args⟩] } := by
        simp only [Server.dispatchNextCommand, front]
      have others : ∀ id, (⟨fd, conn.generation⟩ : ConnId) ≠ id →
          (server.dispatchNextCommand fd conn).view id = server.view id := by
        intro id other
        have kept : (server.setConn fd
            { conn with processing := true, commandQueue := rest }).view id = server.view id :=
          view_setConn_other held (by rfl) other
        rw [moved, ← kept]
        simp [Server.view, Server.setConn, other]
      have same : (server.dispatchNextCommand fd conn).view ⟨fd, conn.generation⟩ =
          { server.view ⟨fd, conn.generation⟩ with
            conn := some { conn with processing := true, commandQueue := rest }
            tasks := (server.view ⟨fd, conn.generation⟩).tasks ++
              [⟨⟨fd, conn.generation⟩, args⟩] } := by
        rw [moved]
        simp [Server.view, Server.setConn]
      have own : Follows ⟨fd, conn.generation⟩ (server.view ⟨fd, conn.generation⟩) []
          ((server.dispatchNextCommand fd conn).view ⟨fd, conn.generation⟩) := by
        rw [same]
        exact Follows.dispatch (view_conn_self held) idle front
      have tracks := Tracks.of_owner others own
      exact tracks

theorem tracks_queueCommands (held : server.conns fd = some conn) (cmds : List (List Bytes)) :
    Tracks server (cmds.map fun args => (⟨fd, conn.generation⟩, .queued args))
      (server.queueCommands fd conn cmds) := by
  have queued := tracks_setConn held (by rfl) (Follows.enqueue (view_conn_self held) cmds)
  simp only [List.map_map, Function.comp_def] at queued
  simp only [Server.queueCommands]
  split
  · rename_i waiting
    simp only [Bool.and_eq_true, Bool.not_eq_true'] at waiting
    have dispatched := queued.trans
      (tracks_dispatchNextCommand (conns_setConn server fd _) waiting.2)
    simpa using dispatched
  · exact queued

theorem tracks_handleRead {config : ReactorConfig} {reads : List ReadResult}
    {after : Server Tid} {events : List Event}
    (handled : server.handleRead config fd reads = some (after, events)) :
    Tracks server events after := by
  cases Server.handledRead handled with
  | absent free => exact Tracks.of_view fun _ => rfl
  | hungUp held ended => exact tracks_handleClose server fd
  | failed held received error => exact tracks_handleClose server fd
  | @queued conn buf lastActive held received clean =>
      have silent := tracks_setConn held (by rfl) (Follows.silent (view_conn_self held)
        (extractFrames buf).rest lastActive)
      have queued := tracks_queueCommands (conns_setConn server fd
        { conn with recvBuf := (extractFrames buf).rest, lastActive := lastActive })
        (Server.queueable (extractFrames buf).frames)
      have tracks := silent.trans queued
      simpa [Server.queueCommands] using tracks

/-! ### Replies -/

theorem tracks_flushConn (held : server.conns fd = some conn) (results : List WriteResult) :
    Tracks server (server.flushConn fd conn results).2.2
      (server.flushConn fd conn results).2.1 := by
  have flushed := tracks_setConn held (by rfl) (Follows.flush (view_conn_self held) results)
  exact flushed

theorem tracks_handleWrite (server : Server Tid) (fd : ℕ) (results : List WriteResult) :
    Tracks server (server.handleWrite fd results).2 (server.handleWrite fd results).1 := by
  simp only [Server.handleWrite]
  cases held : server.conns fd with
  | none => exact Tracks.of_view fun _ => rfl
  | some conn =>
      have flushed := tracks_flushConn held results
      simp only
      split
      · simpa using flushed.trans (tracks_handleClose _ fd)
      · simpa using flushed.trans (tracks_epollMod _ fd .input)
      · exact flushed

section WriteEntry

variable {write : PendingWrite} {writes : List PendingWrite}

/-- An entry taken off a batch changes the connection that it is about. -/
theorem tracks_entry {owner : ConnId} {phase : Phase}
    (others : ∀ id, owner ≠ id → (server.setPhase phase).view id = server.view id)
    (held : server.conns owner.fd = some conn) (same : conn.generation = owner.gen)
    {changed : Connection} (kept : changed.generation = conn.generation)
    (follows : (server.view owner).conn = some conn → Follows owner (server.view owner) []
      { (server.setPhase phase).view owner with conn := some changed }) :
    Tracks server [] ((server.setPhase phase).setConn owner.fd changed) := by
  have place : (⟨owner.fd, conn.generation⟩ : ConnId) = owner := by
    rw [same]
  have untouched : ∀ id, owner ≠ id →
      ((server.setPhase phase).setConn owner.fd changed).view id = server.view id := by
    intro id other
    rw [← others id other]
    exact view_setConn_other held kept (by rw [place]; exact other)
  have stored : (server.view owner).conn = some conn := by
    have self := view_conn_self held
    rw [place] at self
    exact self
  have own : Follows owner (server.view owner) []
      (((server.setPhase phase).setConn owner.fd changed).view owner) := by
    have self := view_setConn_self (server.setPhase phase) owner.fd changed
    rw [kept, place] at self
    rw [self]
    exact follows stored
  have tracks := Tracks.of_owner untouched own
  exact tracks

theorem tracks_processWrite (writing : server.phase = .writing (write :: writes))
    (results : List WriteResult) :
    Tracks server ((server.setPhase (.writing writes)).processWrite write results).2
      ((server.setPhase (.writing writes)).processWrite write results).1 := by
  have others : ∀ id, write.id ≠ id →
      (server.setPhase (.writing writes)).view id = server.view id :=
    fun _ => view_setPhase_write_other writing
  rcases conn_cases server write.id with ⟨conn, held, same⟩ | closed
  · have enqueued : Tracks server [] ((server.setPhase (.writing writes)).setConn write.id.fd
        (conn.sendEnqueue write.data)) := by
      apply tracks_entry others held same
      · rfl
      · intro stored
        rw [view_setPhase_write_self writing]
        exact Follows.sendEnqueue stored (data_of_writing writing)
    have flushed := enqueued.trans (tracks_flushConn (conns_setConn _ write.id.fd _) results)
    simp only [Server.flushConn, setConn_setConn, List.nil_append] at flushed
    have found : (server.setPhase (.writing writes)).conns write.id.fd = some conn := held
    simp only [Server.processWrite, found, same, ne_eq, not_true_eq_false, if_false]
    split
    · simpa [Server.flushConn] using flushed.trans (tracks_handleClose _ write.id.fd)
    · simpa [Server.flushConn] using flushed
    · simpa [Server.flushConn] using flushed.trans (tracks_epollMod _ write.id.fd .inputOutput)
  · have own : Follows write.id (server.view write.id) []
        ((server.setPhase (.writing writes)).view write.id) := by
      rw [view_setPhase_write_self writing]
      exact Follows.skipWrite (view_conn_closed closed) (data_of_writing writing)
    have tracks := Tracks.of_owner others own
    have skipped : (server.setPhase (.writing writes)).processWrite write results =
        (server.setPhase (.writing writes), []) := processWrite_of_closed closed
    rw [skipped]
    exact tracks

end WriteEntry

/-! ### Completions -/

section CompleteEntry

variable {done : ConnId} {completes : List ConnId}

theorem tracks_processComplete (completing : server.phase = .completing (done :: completes)) :
    Tracks server [] ((server.setPhase (.completing completes)).processComplete done) := by
  have others : ∀ id, done ≠ id →
      (server.setPhase (.completing completes)).view id = server.view id :=
    fun _ => view_setPhase_complete_other completing
  rcases conn_cases server done with ⟨conn, held, same⟩ | closed
  · have completed : Tracks server [] ((server.setPhase (.completing completes)).setConn done.fd
        { conn with processing := false }) := by
      apply tracks_entry others held same
      · rfl
      · intro stored
        rw [view_setPhase_complete_self completing]
        exact Follows.complete stored (completes_of_completing completing)
    have dispatched := completed.trans
      (tracks_dispatchNextCommand (conns_setConn _ done.fd _) rfl)
    have found : (server.setPhase (.completing completes)).conns done.fd = some conn := held
    simp only [Server.processComplete, found, ne_eq, same, not_true_eq_false, if_false]
    simpa only [same, List.append_nil] using dispatched
  · have own : Follows done (server.view done) []
        ((server.setPhase (.completing completes)).view done) := by
      rw [view_setPhase_complete_self completing]
      exact Follows.completeClosed (view_conn_closed closed) (completes_of_completing completing)
    have tracks := Tracks.of_owner others own
    have skipped : (server.setPhase (.completing completes)).processComplete done =
        server.setPhase (.completing completes) := processComplete_of_closed closed
    rw [skipped]
    exact tracks

end CompleteEntry

end Reactor

/-! ## The workers -/

section Workers

variable [DecidableEq Tid] {server : Server Tid} {tid : Tid} {id : ConnId}

theorem view_setWorker (server : Server Tid) (tid : Tid) (worker : Worker) (id : ConnId) :
    (server.setWorker tid worker).view id =
      { server.view id with
        workers := Function.update (server.view id).workers tid (worker.seenBy id) } := by
  have workers : Worker.seenBy id ∘ Function.update server.pool tid worker =
      Function.update (Worker.seenBy id ∘ server.pool) tid (worker.seenBy id) :=
    Function.comp_update _ _ _ _
  simp only [Server.view, Server.setWorker]
  congr 1

/-- A connection does not see what a worker does for another one. -/
theorem view_setWorker_other {worker : Worker}
    (quiet : worker.seenBy id = (server.pool tid).seenBy id) :
    (server.setWorker tid worker).view id = server.view id := by
  rw [view_setWorker, quiet]
  have same : Function.update (server.view id).workers tid ((server.pool tid).seenBy id) =
      (server.view id).workers :=
    Function.update_eq_self tid (server.view id).workers
  rw [same]

theorem seenBy_self {worker : Worker} (own : worker.client = some id) :
    worker.seenBy id = worker :=
  if_pos own

theorem tracks_take {task : Task} {tasks : List Task} (idle : server.pool tid = .idle)
    (front : server.tasks = task :: tasks) :
    Tracks server [(task.id, .started task.args)]
      (({ server with tasks := tasks } : Server Tid).setWorker tid (.executing task)) := by
  have others : ∀ id, task.id ≠ id →
      (({ server with tasks := tasks } : Server Tid).setWorker tid (.executing task)).view id =
        server.view id := by
    intro id other
    rw [view_setWorker_other]
    · simp [Server.view, front, other]
    · simp [idle, Worker.seenBy, Worker.client, other]
  have queued : (server.view task.id).tasks =
      ⟨task.id, task.args⟩ :: tasks.filter fun other => other.id = task.id := by
    simp [Server.view, front]
  have own : Follows task.id (server.view task.id) [.started task.args]
      ((({ server with tasks := tasks } : Server Tid).setWorker tid (.executing task)).view
        task.id) := by
    rw [view_setWorker, seenBy_self rfl]
    exact Follows.take tid queued
  exact Tracks.of_owner others own

theorem tracks_execute {task : Task} (resp : Bytes)
    (executing : server.pool tid = .executing task) :
    Tracks server [(task.id, .executed task.args resp)]
      (server.setWorker tid (.sending task.id resp)) := by
  have others : ∀ id, task.id ≠ id →
      (server.setWorker tid (.sending task.id resp)).view id = server.view id := by
    intro id other
    apply view_setWorker_other
    simp [executing, Worker.seenBy, Worker.client, other]
  have working : (server.view task.id).workers tid = .executing ⟨task.id, task.args⟩ := by
    simp [Server.view, executing, Worker.seenBy, Worker.client]
  have own : Follows task.id (server.view task.id) [.executed task.args resp]
      ((server.setWorker tid (.sending task.id resp)).view task.id) := by
    rw [view_setWorker, seenBy_self rfl]
    exact Follows.execute resp working
  exact Tracks.of_owner others own

theorem tracks_send {owner : ConnId} {resp : Bytes}
    (sending : server.pool tid = .sending owner resp) :
    Tracks server [] (({ server with
      pendingWrites := server.pendingWrites ++ [⟨owner, resp⟩] } : Server Tid).setWorker tid
        (.notifying owner)) := by
  have others : ∀ id, owner ≠ id → (({ server with
      pendingWrites := server.pendingWrites ++ [⟨owner, resp⟩] } : Server Tid).setWorker tid
        (.notifying owner)).view id = server.view id := by
    intro id other
    rw [view_setWorker_other]
    · simp [Server.view, dataOf, other]
    · simp [sending, Worker.seenBy, Worker.client, other]
  have working : (server.view owner).workers tid = .sending owner resp := by
    simp [Server.view, sending, Worker.seenBy, Worker.client]
  have pushed : ({ server with
      pendingWrites := server.pendingWrites ++ [⟨owner, resp⟩] } : Server Tid).view owner =
      { server.view owner with data := (server.view owner).data ++ resp } := by
    simp [Server.view, dataOf]
  have own : Follows owner (server.view owner) [] ((({ server with
      pendingWrites := server.pendingWrites ++ [⟨owner, resp⟩] } : Server Tid).setWorker tid
        (.notifying owner)).view owner) := by
    rw [view_setWorker, seenBy_self rfl, pushed]
    exact Follows.send working
  have tracks := Tracks.of_owner others own
  exact tracks

theorem tracks_notify {owner : ConnId} (notifying : server.pool tid = .notifying owner) :
    Tracks server [] (({ server with
      completedCommands := server.completedCommands ++ [owner] } : Server Tid).setWorker tid
        .idle) := by
  have others : ∀ id, owner ≠ id → (({ server with
      completedCommands := server.completedCommands ++ [owner] } : Server Tid).setWorker tid
        .idle).view id = server.view id := by
    intro id other
    rw [view_setWorker_other]
    · simp [Server.view, other]
    · simp [notifying, Worker.seenBy, Worker.client, other]
  have working : (server.view owner).workers tid = .notifying owner := by
    simp [Server.view, notifying, Worker.seenBy, Worker.client]
  have pushed : ({ server with
      completedCommands := server.completedCommands ++ [owner] } : Server Tid).view owner =
      { server.view owner with completes := (server.view owner).completes ++ [owner] } := by
    simp [Server.view]
  have own : Follows owner (server.view owner) [] ((({ server with
      completedCommands := server.completedCommands ++ [owner] } : Server Tid).setWorker tid
        .idle).view owner) := by
    rw [view_setWorker, pushed]
    exact Follows.notify working
  have tracks := Tracks.of_owner others own
  exact tracks

end Workers

/-! ## Runs -/

section Runs

variable [DecidableEq Tid] {config : ReactorConfig} {server after : Server Tid}
  {events : List Event}

theorem tracks_swapWrites (polling : server.phase = .polling) :
    Tracks server []
      { server.setPhase (.writing server.pendingWrites) with pendingWrites := [] } := by
  apply Tracks.of_view
  intro id
  simp [Server.view, Server.setPhase, polling, Phase.writes, Phase.completes]

theorem tracks_swapCompletes (polling : server.phase = .polling) :
    Tracks server []
      { server.setPhase (.completing server.completedCommands) with completedCommands := [] } := by
  apply Tracks.of_view
  intro id
  simp [Server.view, Server.setPhase, polling, Phase.writes, Phase.completes]

/-- Every step is followed by every connection. -/
theorem tracks_step (step : Step config server events after) : Tracks server events after := by
  cases step with
  | accept fd now polling free => exact tracks_handleAccept server fd now
  | read fd reads polling handled => exact tracks_handleRead handled
  | write fd results polling => exact tracks_handleWrite server fd results
  | close fd polling => exact tracks_handleClose server fd
  | idle now polling enabled => exact tracks_checkIdle server config now
  | swapWrites polling => exact tracks_swapWrites polling
  | processWrite results writing => exact tracks_processWrite writing results
  | writesDone writing =>
      apply Tracks.of_view
      intro id
      simp [Server.view, Server.setPhase, writing, Phase.writes, Phase.completes]
  | swapCompletes polling => exact tracks_swapCompletes polling
  | processComplete completing => exact tracks_processComplete completing
  | completesDone completing =>
      apply Tracks.of_view
      intro id
      simp [Server.view, Server.setPhase, completing, Phase.writes, Phase.completes]
  | take tid idle front => exact tracks_take idle front
  | execute tid resp executing => exact tracks_execute resp executing
  | send tid sending => exact tracks_send sending
  | notify tid notifying => exact tracks_notify notifying

theorem serves_initial (id : ConnId) :
    Serves id ((Server.initial : Server Tid).view id) .initial := by
  refine ⟨rfl, fun tid => rfl, rfl, ?_, ?_⟩
  · intro conn stored
    cases stored
  · intro _
    exact ⟨rfl, rfl, rfl⟩

/-- The server refines the service of each of its connections. -/
theorem serves_run (run : Run config events server) (id : ConnId) :
    ∃ line, SerialService.Run .initial (eventsOf id events) line ∧
      Serves id (server.view id) line := by
  induction run with
  | nil => exact ⟨.initial, .nil, serves_initial id⟩
  | snoc _ step inductionHypothesis =>
      rcases inductionHypothesis with ⟨line, served, serves⟩
      rcases tracks_step step id line serves with ⟨later, moved, agrees⟩
      rw [eventsOf_append]
      exact ⟨later, served.trans moved, agrees⟩

/-- Two workers that work for one connection are the same. -/
theorem Serves.one_worker {id : ConnId} {line : Line Tid (List Bytes) UInt8} {left right : Tid}
    (serves : Serves id (server.view id) line) (leftBusy : (server.pool left).client = some id)
    (rightBusy : (server.pool right).client = some id) : left = right := by
  have works : ∀ tid, (server.pool tid).client = some id →
      workAt id line.stage = some (tid, server.pool tid) := by
    intro tid own
    apply workAt_of_worker (serves.workers tid)
    · exact seenBy_self own
    · intro idle
      rw [idle] at own
      cases own
  have same := (works left leftBusy).symm.trans (works right rightBusy)
  simp only [Option.some.injEq, Prod.mk.injEq] at same
  exact same.1

end Runs

/-- Whatever the interleaving, at most one worker works for a connection.  The commands
begun are an initial part of the commands queued, and all of them but the last are
executed.  The bytes on the socket are an initial part of the replies in that order. -/
theorem served_in_order {Tid : Type} [DecidableEq Tid] {config : ReactorConfig}
    {events : List Event} {server : Server Tid} (run : Run config events server) (id : ConnId) :
    (∀ left right, (server.pool left).client = some id →
        (server.pool right).client = some id → left = right) ∧
      started (eventsOf id events) <+: queued (eventsOf id events) ∧
      (executed (eventsOf id events)).map Prod.fst <+: started (eventsOf id events) ∧
      (started (eventsOf id events)).length ≤ (executed (eventsOf id events)).length + 1 ∧
      written (eventsOf id events) <+: replies (eventsOf id events) := by
  rcases serves_run run id with ⟨line, served, serves⟩
  have accounted := Accounted.run served
  refine ⟨?_, ?_, ?_, ?_, ?_⟩
  · intro left right leftBusy rightBusy
    exact serves.one_worker leftBusy rightBusy
  · exact accounted.started_isPrefix
  · exact accounted.executed_isPrefix
  · exact accounted.length_started_le
  · exact accounted.written_isPrefix

/-- A reply of which the kernel has taken three bytes. -/
theorem served_in_order_ping :
    ∃ (events : List Event) (server : Server Unit), Run {} events server ∧
      written (eventsOf ⟨7, 1⟩ events) = ascii "+PO" ∧
      written (eventsOf ⟨7, 1⟩ events) <+: replies (eventsOf ⟨7, 1⟩ events) := by
  have accepted := (@Run.nil Unit _ {}).snoc (Step.accept 7 0 rfl rfl)
  have received := accepted.snoc (Step.read 7 [.read (ascii "PING\r\n") 0] rfl rfl)
  have taken := received.snoc (Step.take () rfl rfl)
  have executed := taken.snoc (Step.execute () (ascii "+PONG\r\n") rfl)
  have sent := executed.snoc (Step.send () rfl)
  have swapped := sent.snoc (Step.swapWrites rfl)
  have wrote := swapped.snoc (Step.processWrite [.wrote 3] rfl)
  exact ⟨_, _, wrote, rfl, (served_in_order wrote ⟨7, 1⟩).2.2.2.2⟩

end RedisCpp.Net
