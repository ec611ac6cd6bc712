import RedisCpp.Net.OrderedService
import Mathlib.Data.Set.Card

/-!
# No connection is wedged

A connection would hang for ever if it had commands waiting and none in service, if its
flag said otherwise than the pool and the queues, or if bytes were left to be written and
nobody waited for the socket.  None of this happens between two handler calls, whatever the
interleaving.  Which command is in service is read off the service that the connection
refines; the rest is an invariant of the handlers.
-/

namespace RedisCpp.Net

open SerialService (Stage Line)

variable {Tid : Type}

/-! ## The invariant of the handlers -/

/-- Commands wait only while one is in service, and unwritten bytes only while the socket
is watched. -/
structure Kept (conn : Connection) (interest : Option Interest) : Prop where
  busy : conn.commandQueue ≠ [] → conn.processing = true
  armed : conn.send.offset < conn.send.buf.length → interest = some .inputOutput

/-- Every open connection is kept so. -/
def Unwedged (server : Server Tid) : Prop :=
  ∀ fd conn, server.conns fd = some conn → Kept conn (server.interest fd)

namespace SendBuffer

variable {results : List WriteResult} {send : SendBuffer}

theorem flush_drained (drained : (flush results send).1 = .drained) :
    (flush results send).2.1 = empty := by
  induction results generalizing send with
  | nil =>
      by_cases left : send.offset < send.buf.length
      · simp [flush, left] at drained
      · simp [flush, left]
  | cons result results inductionHypothesis =>
      by_cases left : send.offset < send.buf.length
      · cases result with
        | wouldBlock => simp [flush, left] at drained
        | error => simp [flush, left] at drained
        | wrote count =>
            by_cases taken : 0 < count
            · simp only [flush, left, taken, if_true] at drained ⊢
              exact inductionHypothesis drained
            · simp [flush, left, taken] at drained
      · simp [flush, left]

/-- What is still pending was pending before. -/
theorem flush_pending (pending : (flush results send).1 = .pending) :
    send.offset < send.buf.length := by
  by_contra left
  cases results with
  | nil => simp [flush, left] at pending
  | cons result results => simp [flush, left] at pending

end SendBuffer

namespace Unwedged

variable {server : Server Tid} {fd : ℕ} {conn : Connection}

/-- A change of one connection and of the events it is registered for. -/
theorem update (unwedged : Unwedged server) {after : Server Tid}
    (conns : ∀ other, other ≠ fd → after.conns other = server.conns other)
    (interest : ∀ other, other ≠ fd → after.interest other = server.interest other)
    (kept : ∀ conn, after.conns fd = some conn → Kept conn (after.interest fd)) :
    Unwedged after := by
  intro other found opened
  by_cases same : other = fd
  · subst same
    exact kept found opened
  · rw [conns other same] at opened
    rw [interest other same]
    exact unwedged other found opened

theorem setConn (unwedged : Unwedged server) (kept : Kept conn (server.interest fd)) :
    Unwedged (server.setConn fd conn) := by
  apply unwedged.update
  · intro other different
    exact Function.update_of_ne different _ _
  · intro other _
    rfl
  · intro found opened
    simp only [conns_setConn, Option.some.injEq] at opened
    subst opened
    exact kept

theorem handleClose (unwedged : Unwedged server) (fd : ℕ) : Unwedged (server.handleClose fd) := by
  simp only [Server.handleClose]
  split
  · exact unwedged
  · apply unwedged.update
    · intro other different
      exact Function.update_of_ne different _ _
    · intro other different
      exact Function.update_of_ne different _ _
    · intro found opened
      simp at opened

/-- Other fields do not matter. -/
theorem of_eq (unwedged : Unwedged server) {after : Server Tid}
    (conns : after.conns = server.conns) (interest : after.interest = server.interest) :
    Unwedged after := by
  intro other found opened
  rw [conns] at opened
  rw [interest]
  exact unwedged other found opened

theorem handleAccept (unwedged : Unwedged server) (fd : ℕ) (now : ℤ) :
    Unwedged (server.handleAccept fd now) := by
  apply unwedged.update
  · intro other different
    exact Function.update_of_ne different _ _
  · intro other different
    exact Function.update_of_ne different _ _
  · intro found opened
    simp only [Server.handleAccept, Function.update_self, Option.some.injEq] at opened
    subst opened
    exact ⟨fun waiting => absurd rfl waiting, fun left => absurd left (Nat.lt_irrefl 0)⟩

theorem checkIdle (unwedged : Unwedged server) (config : ReactorConfig) (now : ℤ) :
    Unwedged (server.checkIdle config now) := by
  intro other found opened
  simp only [Server.checkIdle] at opened ⊢
  split at opened
  · cases opened
  · rename_i alive
    rw [if_neg alive]
    exact unwedged other found opened

/-- A connection whose bytes are watched gets its next command into service. -/
theorem dispatchNextCommand (unwedged : Unwedged server)
    (armed : conn.send.offset < conn.send.buf.length → server.interest fd = some .inputOutput) :
    Unwedged ((server.setConn fd conn).dispatchNextCommand fd conn) := by
  simp only [Server.dispatchNextCommand]
  split
  · rename_i empty
    exact unwedged.setConn ⟨fun waiting => absurd empty waiting, armed⟩
  · rename_i args rest front
    rw [setConn_setConn]
    have kept : Kept { conn with processing := true, commandQueue := rest }
        (server.interest fd) := ⟨fun _ => rfl, armed⟩
    exact (unwedged.setConn kept).of_eq rfl rfl

theorem queueCommands (unwedged : Unwedged server)
    (armed : conn.send.offset < conn.send.buf.length → server.interest fd = some .inputOutput)
    (cmds : List (List Bytes)) : Unwedged (server.queueCommands fd conn cmds) := by
  simp only [Server.queueCommands]
  split
  · exact unwedged.dispatchNextCommand armed
  · rename_i served
    apply unwedged.setConn
    refine ⟨?_, armed⟩
    intro waiting
    simpa [waiting] using served

theorem handleRead (unwedged : Unwedged server) {config : ReactorConfig} {reads : List ReadResult}
    {after : Server Tid} {events : List Event}
    (handled : server.handleRead config fd reads = some (after, events)) : Unwedged after := by
  cases Server.handledRead handled with
  | absent free => exact unwedged
  | hungUp held ended => exact unwedged.handleClose fd
  | failed held received error => exact unwedged.handleClose fd
  | @queued conn _ _ held received clean =>
      apply unwedged.queueCommands
      exact (unwedged fd conn held).armed

/-! ### Replies -/

theorem setConn_close (unwedged : Unwedged server) (fd : ℕ) (conn : Connection) :
    Unwedged ((server.setConn fd conn).handleClose fd) := by
  have closed : (server.setConn fd conn).handleClose fd =
      { server.setConn fd conn with
        conns := Function.update (server.setConn fd conn).conns fd none
        interest := Function.update (server.setConn fd conn).interest fd none } := by
    simp only [Server.handleClose, conns_setConn]
  rw [closed]
  apply unwedged.update
  · intro other different
    change Function.update (Function.update server.conns fd (some conn)) fd none other = _
    rw [Function.update_of_ne different, Function.update_of_ne different]
  · intro other different
    change Function.update server.interest fd none other = _
    rw [Function.update_of_ne different]
  · intro found opened
    simp at opened

theorem setConn_epollMod (unwedged : Unwedged server) {interest : Interest}
    (kept : Kept conn (some interest)) :
    Unwedged ((server.setConn fd conn).epollMod fd interest) := by
  apply unwedged.update
  · intro other different
    exact Function.update_of_ne different _ _
  · intro other different
    exact Function.update_of_ne different _ _
  · intro found opened
    simp only [Server.epollMod, conns_setConn, Option.some.injEq] at opened
    subst opened
    simp only [Server.epollMod, Function.update_self]
    exact kept

theorem kept_drained {results : List WriteResult} {interest : Option Interest}
    (busy : conn.commandQueue ≠ [] → conn.processing = true)
    (drained : (conn.send.flush results).1 = .drained) :
    Kept { conn with send := (conn.send.flush results).2.1 } interest := by
  refine ⟨busy, ?_⟩
  intro left
  simp only [SendBuffer.flush_drained drained, SendBuffer.empty] at left
  exact absurd left (Nat.lt_irrefl 0)

theorem handleWrite (unwedged : Unwedged server) (fd : ℕ) (results : List WriteResult) :
    Unwedged (server.handleWrite fd results).1 := by
  simp only [Server.handleWrite]
  cases held : server.conns fd with
  | none => exact unwedged
  | some conn =>
      have before := unwedged fd conn held
      simp only [Server.flushConn]
      split
      · exact unwedged.setConn_close fd _
      · rename_i drained
        exact unwedged.setConn_epollMod (kept_drained before.busy drained)
      · rename_i pending
        apply unwedged.setConn
        exact ⟨before.busy, fun _ => before.armed (SendBuffer.flush_pending pending)⟩

theorem processWrite (unwedged : Unwedged server) (write : PendingWrite)
    (results : List WriteResult) : Unwedged (server.processWrite write results).1 := by
  simp only [Server.processWrite]
  cases held : server.conns write.id.fd with
  | none => exact unwedged
  | some conn =>
      have before := unwedged write.id.fd conn held
      simp only [Server.flushConn]
      split
      · exact unwedged
      · split
        · exact unwedged.setConn_close write.id.fd _
        · rename_i drained
          have busy : (conn.sendEnqueue write.data).commandQueue ≠ [] →
              (conn.sendEnqueue write.data).processing = true := before.busy
          exact unwedged.setConn (kept_drained busy drained)
        · exact unwedged.setConn_epollMod ⟨before.busy, fun _ => rfl⟩

theorem processComplete (unwedged : Unwedged server) (id : ConnId) :
    Unwedged (server.processComplete id) := by
  simp only [Server.processComplete]
  cases held : server.conns id.fd with
  | none => exact unwedged
  | some conn =>
      simp only
      split
      · exact unwedged
      · apply unwedged.dispatchNextCommand
        exact (unwedged id.fd conn held).armed

/-! ### Runs -/

variable [DecidableEq Tid] {config : ReactorConfig} {events : List Event}

theorem step {after : Server Tid} (unwedged : Unwedged server)
    (step : Step config server events after) : Unwedged after := by
  cases step with
  | accept fd now polling free => exact unwedged.handleAccept fd now
  | read fd reads polling handled => exact unwedged.handleRead handled
  | write fd results polling => exact unwedged.handleWrite fd results
  | close fd polling => exact unwedged.handleClose fd
  | idle now polling enabled => exact unwedged.checkIdle config now
  | @processWrite write writes results writing =>
      have resumed : Unwedged (server.setPhase (.writing writes)) := unwedged.of_eq rfl rfl
      exact resumed.processWrite write results
  | @processComplete id completes completing =>
      have resumed : Unwedged (server.setPhase (.completing completes)) := unwedged.of_eq rfl rfl
      exact resumed.processComplete id
  | swapWrites | writesDone | swapCompletes | completesDone | take | execute | send | notify =>
      exact unwedged.of_eq rfl rfl

theorem run (run : Run config events server) : Unwedged server := by
  induction run with
  | nil =>
      intro fd conn opened
      cases opened
  | snoc _ step inductionHypothesis => exact inductionHypothesis.step step

end Unwedged

/-! ## The command in service -/

/-- The number of places at which a command of a connection is in service: tasks in the pool
queue, workers, and completions not yet processed. -/
noncomputable def Server.inService (server : Server Tid) (id : ConnId) : ℕ∞ :=
  (server.tasks.countP fun task => task.id = id) +
    {tid | (server.pool tid).client = some id}.encard +
    (server.phase.completes ++ server.completedCommands).count id

section Service

variable [DecidableEq Tid] {server : Server Tid} {id : ConnId}
  {line : Line Tid (List Bytes) UInt8}

/-- The workers of a connection are those that its service names. -/
theorem Serves.workers_eq (serves : Serves id (server.view id) line) :
    {tid | (server.pool tid).client = some id} =
      {tid | workerAt id tid line.stage ≠ .idle} := by
  ext tid
  have agrees : (server.pool tid).seenBy id = workerAt id tid line.stage := serves.workers tid
  rw [Set.mem_ofPred_eq, Set.mem_ofPred_eq, ← agrees, Worker.seenBy]
  by_cases own : (server.pool tid).client = some id
  · rw [if_pos own]
    refine ⟨fun _ idle => ?_, fun _ => own⟩
    rw [idle] at own
    cases own
  · rw [if_neg own]
    simp [own]

theorem Serves.inService_eq (serves : Serves id (server.view id) line) :
    server.inService id = (tasksAt id line.stage).length +
      {tid | workerAt id tid line.stage ≠ .idle}.encard +
      (completesAt id line.stage).length := by
  have tasks : server.tasks.filter (fun task => task.id = id) = tasksAt id line.stage :=
    serves.tasks
  have completes : (server.phase.completes ++ server.completedCommands).filter
      (fun done => done = id) = completesAt id line.stage := serves.completes
  rw [Server.inService, serves.workers_eq, List.countP_eq_length_filter, tasks,
    List.count, List.countP_eq_length_filter]
  congr 3

/-- Exactly one place has the command in service, and none if there is no command. -/
theorem inService_of_stage (stage : Stage Tid (List Bytes) UInt8) :
    ((tasksAt id stage).length + {tid | workerAt id tid stage ≠ .idle}.encard +
      (completesAt id stage).length : ℕ∞) = if stage matches .ready then 0 else 1 := by
  cases stage with
  | ready => simp [tasksAt, workerAt, workAt, completesAt]
  | waiting args => simp [tasksAt, workerAt, workAt, completesAt]
  | executing worker args => simp [tasksAt, workerAt, workAt, completesAt]
  | replying worker reply => simp [tasksAt, workerAt, workAt, completesAt]
  | notifying worker => simp [tasksAt, workerAt, workAt, completesAt]
  | completed => simp [tasksAt, workerAt, workAt, completesAt]

end Service

/-- In every state of every run, an open connection has waiting commands only while one is
in service, its flag says whether one and only one place has a command of it, and its
unwritten bytes are watched. -/
theorem never_wedged {Tid : Type} [DecidableEq Tid] {config : ReactorConfig}
    {events : List Event} {server : Server Tid} (run : Run config events server) {fd : ℕ}
    {conn : Connection} (opened : server.conns fd = some conn) :
    (conn.commandQueue ≠ [] → conn.processing = true) ∧
      (conn.processing = true ↔ server.inService ⟨fd, conn.generation⟩ = 1) ∧
      (conn.processing = false ↔ server.inService ⟨fd, conn.generation⟩ = 0) ∧
      (conn.send.offset < conn.send.buf.length → server.interest fd = some .inputOutput) := by
  have kept := Unwedged.run run fd conn opened
  rcases serves_run run ⟨fd, conn.generation⟩ with ⟨line, -, serves⟩
  have stores := serves.stored conn (view_conn_self opened)
  have places := serves.inService_eq.trans (inService_of_stage line.stage)
  refine ⟨kept.busy, ?_, ?_, kept.armed⟩
  · rw [stores.processing, places]
    cases line.stage with
    | ready => simp
    | _ => simp
  · rw [← Bool.not_eq_true, stores.processing, places]
    cases line.stage with
    | ready => simp
    | _ => simp

/-- A command has been handed out and a second one waits behind it. -/
theorem never_wedged_pipeline :
    ∃ (events : List Event) (server : Server Unit) (conn : Connection), Run {} events server ∧
      server.conns 7 = some conn ∧ conn.commandQueue = [[ascii "PING"]] ∧
      conn.processing = true ∧ server.inService ⟨7, 1⟩ = 1 := by
  have accepted := (@Run.nil Unit _ {}).snoc (Step.accept 7 0 rfl rfl)
  have received := accepted.snoc (Step.read 7 [.read (ascii "PING\r\nPING\r\n") 0] rfl rfl)
  have kept := @never_wedged _ _ _ _ _ received 7 _ rfl
  exact ⟨_, _, _, received, rfl, rfl, rfl, kept.2.1.mp rfl⟩

end RedisCpp.Net
