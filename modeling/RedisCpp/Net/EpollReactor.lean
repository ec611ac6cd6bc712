import RedisCpp.Lib.SerialService
import RedisCpp.Net.Connection
import RedisCpp.Protocol.Framing

/-!
# The reactor and its workers

One thread runs the reactor: it accepts connections, reads commands, writes replies and
closes connections.  The workers of the thread pool take tasks, execute them and hand the
replies and the completions back through two queues with a lock each.

A handler of the reactor touches what it shares with the workers in one locked section at
most, so a handler call is one step here.  The two drains swap a queue and go through the
batch afterwards, one step for each entry, while workers may already fill the queue anew.
The kernel answers every system call as it likes.  The wakeup pipe only decides when a
drain happens; here it may happen whenever the reactor is between two handler calls.
-/

namespace RedisCpp.Net

open Protocol (extractFrames)

/-- The fields of `ReactorConfig` that the handlers read, with their defaults. -/
structure ReactorConfig where
  idleTimeoutS : ℤ := 60
  maxRecvBytes : ℕ := 65536

/-- What `read` answers: the bytes, none of them at the end of file, or an error.  Bytes
come with the time at which the connection is touched. -/
inductive ReadResult where
  | read (data : Bytes) (now : ℤ)
  | wouldBlock
  | interrupted
  | error
deriving DecidableEq, Repr

/-- The events a descriptor is registered for. -/
inductive Interest where
  | input
  | inputOutput
deriving DecidableEq, Repr

structure PendingWrite where
  id : ConnId
  data : Bytes
deriving DecidableEq, Repr

/-- A task of the pool: what the closure of `dispatch_next_command` captures. -/
structure Task where
  id : ConnId
  args : List Bytes
deriving DecidableEq, Repr

/-- A worker: waiting for a task, inside `on_message` before and after the command has
been executed, or about to call `notify_command_complete`. -/
inductive Worker where
  | idle
  | executing (task : Task)
  | sending (id : ConnId) (resp : Bytes)
  | notifying (id : ConnId)
deriving DecidableEq, Repr

/-- Where the reactor thread is: between two handler calls, or inside one of the drains
with the rest of the swapped batch. -/
inductive Phase where
  | polling
  | writing (writes : List PendingWrite)
  | completing (completes : List ConnId)
deriving DecidableEq, Repr

/-- The reactor, the pool and the queues between them. -/
structure Server (Tid : Type) where
  conns : ℕ → Option Connection
  interest : ℕ → Option Interest
  genCounter : ℕ
  phase : Phase
  pendingWrites : List PendingWrite
  completedCommands : List ConnId
  tasks : List Task
  pool : Tid → Worker

/-- What happens to the connections. -/
abbrev Event := ConnId × SerialService.Event (List Bytes) UInt8

namespace Server

variable {Tid : Type} (server : Server Tid)

/-- Before the first connection. -/
def initial : Server Tid where
  conns := fun _ => none
  interest := fun _ => none
  genCounter := 0
  phase := .polling
  pendingWrites := []
  completedCommands := []
  tasks := []
  pool := fun _ => .idle

def setConn (fd : ℕ) (conn : Connection) : Server Tid :=
  { server with conns := Function.update server.conns fd (some conn) }

def epollMod (fd : ℕ) (interest : Interest) : Server Tid :=
  { server with interest := Function.update server.interest fd (some interest) }

/-- `handle_close`. -/
def handleClose (fd : ℕ) : Server Tid :=
  match server.conns fd with
  | none => server
  | some _ =>
      { server with
        conns := Function.update server.conns fd none
        interest := Function.update server.interest fd none }

/-- One round of the loop of `handle_accept`. -/
def handleAccept (fd : ℕ) (now : ℤ) : Server Tid :=
  { server with
    conns := Function.update server.conns fd (some (.make (server.genCounter + 1) now))
    interest := Function.update server.interest fd (some .input)
    genCounter := server.genCounter + 1 }

/-- `dispatch_next_command` for the connection stored under a descriptor. -/
def dispatchNextCommand (fd : ℕ) (conn : Connection) : Server Tid :=
  match conn.commandQueue with
  | [] => server
  | args :: rest =>
      { server.setConn fd { conn with processing := true, commandQueue := rest } with
        tasks := server.tasks ++ [⟨⟨fd, conn.generation⟩, args⟩] }

/-- The read loop of `handle_read`: the receive buffer and the time of the last touch, or
none if the connection has to be closed. -/
def readLoop (maxRecvBytes : ℕ) : List ReadResult → Bytes → ℤ → Option (Bytes × ℤ)
  | [], buf, lastActive => some (buf, lastActive)
  | .read data now :: reads, buf, _ =>
      if data.isEmpty then none
      else if maxRecvBytes < (buf ++ data).length then none
      else readLoop maxRecvBytes reads (buf ++ data) now
  | .wouldBlock :: _, buf, lastActive => some (buf, lastActive)
  | .interrupted :: reads, buf, lastActive => readLoop maxRecvBytes reads buf lastActive
  | .error :: _, _, _ => none

/-- The commands that `handle_read` queues: those with at least one argument. -/
def queueable (frames : List (Option (List Bytes))) : List (List Bytes) :=
  (frames.filterMap id).filter fun args => !args.isEmpty

/-- The end of `handle_read`: queue the commands and hand out the first one if none is in
service. -/
def queueCommands (fd : ℕ) (conn : Connection) (cmds : List (List Bytes)) : Server Tid :=
  let conn := { conn with commandQueue := conn.commandQueue ++ cmds }
  if !conn.commandQueue.isEmpty && !conn.processing then
    (server.setConn fd conn).dispatchNextCommand fd conn
  else server.setConn fd conn

/-- `handle_read`; no result if the parser raises an exception. -/
def handleRead (config : ReactorConfig) (fd : ℕ) (reads : List ReadResult) :
    Option (Server Tid × List Event) :=
  match server.conns fd with
  | none => some (server, [])
  | some conn =>
      match readLoop config.maxRecvBytes reads conn.recvBuf conn.lastActive with
      | none => some (server.handleClose fd, [])
      | some (buf, lastActive) =>
          let taken := extractFrames buf
          match taken.failure with
          | some .raised => none
          | some .error => some (server.handleClose fd, [])
          | none =>
              let cmds := queueable taken.frames
              some (server.queueCommands fd
                  { conn with recvBuf := taken.rest, lastActive := lastActive } cmds,
                cmds.map fun args => (⟨fd, conn.generation⟩, .queued args))

/-- What a call of `handle_read` that returns has done. -/
inductive HandledRead (config : ReactorConfig) (server : Server Tid) (fd : ℕ)
    (reads : List ReadResult) : Server Tid → List Event → Prop where
  | absent (free : server.conns fd = none) : HandledRead config server fd reads server []
  | hungUp {conn : Connection} (held : server.conns fd = some conn)
      (ended : readLoop config.maxRecvBytes reads conn.recvBuf conn.lastActive = none) :
      HandledRead config server fd reads (server.handleClose fd) []
  | failed {conn : Connection} {buf : Bytes} {lastActive : ℤ} (held : server.conns fd = some conn)
      (received : readLoop config.maxRecvBytes reads conn.recvBuf conn.lastActive =
        some (buf, lastActive))
      (error : (extractFrames buf).failure = some .error) :
      HandledRead config server fd reads (server.handleClose fd) []
  | queued {conn : Connection} {buf : Bytes} {lastActive : ℤ} (held : server.conns fd = some conn)
      (received : readLoop config.maxRecvBytes reads conn.recvBuf conn.lastActive =
        some (buf, lastActive))
      (clean : (extractFrames buf).failure = none) :
      HandledRead config server fd reads
        (server.queueCommands fd
          { conn with recvBuf := (extractFrames buf).rest, lastActive := lastActive }
          (queueable (extractFrames buf).frames))
        ((queueable (extractFrames buf).frames).map fun args =>
          (⟨fd, conn.generation⟩, .queued args))

theorem handledRead {server after : Server Tid} {config : ReactorConfig} {fd : ℕ}
    {reads : List ReadResult} {events : List Event}
    (handled : server.handleRead config fd reads = some (after, events)) :
    HandledRead config server fd reads after events := by
  simp only [handleRead] at handled
  cases held : server.conns fd with
  | none =>
      simp only [held, Option.some.injEq, Prod.mk.injEq] at handled
      rcases handled with ⟨rfl, rfl⟩
      exact .absent held
  | some conn =>
      simp only [held] at handled
      split at handled
      · rename_i ended
        simp only [Option.some.injEq, Prod.mk.injEq] at handled
        rcases handled with ⟨rfl, rfl⟩
        exact .hungUp held ended
      · rename_i buf lastActive received
        split at handled
        · cases handled
        · rename_i error
          simp only [Option.some.injEq, Prod.mk.injEq] at handled
          rcases handled with ⟨rfl, rfl⟩
          exact .failed held received error
        · rename_i clean
          simp only [Option.some.injEq, Prod.mk.injEq] at handled
          rcases handled with ⟨rfl, rfl⟩
          exact .queued held received clean

/-- `flush` of a connection. -/
def flushConn (fd : ℕ) (conn : Connection) (results : List WriteResult) :
    FlushStatus × Server Tid × List Event :=
  let flushed := conn.send.flush results
  (flushed.1, server.setConn fd { conn with send := flushed.2.1 },
    [(⟨fd, conn.generation⟩, .wrote flushed.2.2)])

/-- `handle_write`. -/
def handleWrite (fd : ℕ) (results : List WriteResult) : Server Tid × List Event :=
  match server.conns fd with
  | none => (server, [])
  | some conn =>
      let flushed := server.flushConn fd conn results
      match flushed.1 with
      | .failed => (flushed.2.1.handleClose fd, flushed.2.2)
      | .drained => (flushed.2.1.epollMod fd .input, flushed.2.2)
      | .pending => flushed.2

/-- One entry of the batch of `process_pending_writes`. -/
def processWrite (write : PendingWrite) (results : List WriteResult) :
    Server Tid × List Event :=
  match server.conns write.id.fd with
  | none => (server, [])
  | some conn =>
      if conn.generation ≠ write.id.gen then (server, [])
      else
        let flushed := server.flushConn write.id.fd (conn.sendEnqueue write.data) results
        match flushed.1 with
        | .failed => (flushed.2.1.handleClose write.id.fd, flushed.2.2)
        | .drained => flushed.2
        | .pending => (flushed.2.1.epollMod write.id.fd .inputOutput, flushed.2.2)

/-- One entry of the batch of `process_completed_commands`. -/
def processComplete (id : ConnId) : Server Tid :=
  match server.conns id.fd with
  | none => server
  | some conn =>
      if conn.generation ≠ id.gen then server
      else
        let conn := { conn with processing := false }
        (server.setConn id.fd conn).dispatchNextCommand id.fd conn

/-- A connection that `check_idle` closes. -/
def timedOut (config : ReactorConfig) (now : ℤ) (fd : ℕ) : Bool :=
  match server.conns fd with
  | none => false
  | some conn => config.idleTimeoutS ≤ now - conn.lastActive

/-- `check_idle`. -/
def checkIdle (config : ReactorConfig) (now : ℤ) : Server Tid :=
  { server with
    conns := fun fd => if server.timedOut config now fd then none else server.conns fd
    interest := fun fd => if server.timedOut config now fd then none else server.interest fd }

def setPhase (phase : Phase) : Server Tid :=
  { server with phase := phase }

def setWorker [DecidableEq Tid] (tid : Tid) (worker : Worker) : Server Tid :=
  { server with pool := Function.update server.pool tid worker }

end Server

/-- One step of the reactor or of a worker.  The kernel hands out a descriptor that is not
open.  The reply is whatever `dispatch` returns on the shared store. -/
inductive Step {Tid : Type} [DecidableEq Tid] (config : ReactorConfig) (server : Server Tid) :
    List Event → Server Tid → Prop where
  | accept (fd : ℕ) (now : ℤ) (polling : server.phase = .polling)
      (free : server.conns fd = none) : Step config server [] (server.handleAccept fd now)
  | read (fd : ℕ) (reads : List ReadResult) {after : Server Tid} {events : List Event}
      (polling : server.phase = .polling)
      (handled : server.handleRead config fd reads = some (after, events)) :
      Step config server events after
  | write (fd : ℕ) (results : List WriteResult) (polling : server.phase = .polling) :
      Step config server (server.handleWrite fd results).2 (server.handleWrite fd results).1
  | close (fd : ℕ) (polling : server.phase = .polling) :
      Step config server [] (server.handleClose fd)
  | idle (now : ℤ) (polling : server.phase = .polling) (enabled : 0 < config.idleTimeoutS) :
      Step config server [] (server.checkIdle config now)
  | swapWrites (polling : server.phase = .polling) :
      Step config server []
        { server.setPhase (.writing server.pendingWrites) with pendingWrites := [] }
  | processWrite {write : PendingWrite} {writes : List PendingWrite} (results : List WriteResult)
      (writing : server.phase = .writing (write :: writes)) :
      Step config server ((server.setPhase (.writing writes)).processWrite write results).2
        ((server.setPhase (.writing writes)).processWrite write results).1
  | writesDone (writing : server.phase = .writing []) :
      Step config server [] (server.setPhase .polling)
  | swapCompletes (polling : server.phase = .polling) :
      Step config server []
        { server.setPhase (.completing server.completedCommands) with completedCommands := [] }
  | processComplete {id : ConnId} {completes : List ConnId}
      (completing : server.phase = .completing (id :: completes)) :
      Step config server [] ((server.setPhase (.completing completes)).processComplete id)
  | completesDone (completing : server.phase = .completing []) :
      Step config server [] (server.setPhase .polling)
  | take (tid : Tid) {task : Task} {tasks : List Task} (idle : server.pool tid = .idle)
      (front : server.tasks = task :: tasks) :
      Step config server [(task.id, .started task.args)]
        (({ server with tasks := tasks } : Server Tid).setWorker tid (.executing task))
  | execute (tid : Tid) {task : Task} (resp : Bytes)
      (executing : server.pool tid = .executing task) :
      Step config server [(task.id, .executed task.args resp)]
        (server.setWorker tid (.sending task.id resp))
  | send (tid : Tid) {id : ConnId} {resp : Bytes} (sending : server.pool tid = .sending id resp) :
      Step config server []
        (({ server with pendingWrites := server.pendingWrites ++ [⟨id, resp⟩] } :
          Server Tid).setWorker tid (.notifying id))
  | notify (tid : Tid) {id : ConnId} (notifying : server.pool tid = .notifying id) :
      Step config server []
        (({ server with completedCommands := server.completedCommands ++ [id] } :
          Server Tid).setWorker tid .idle)

/-- The runs of the server, with their events. -/
inductive Run {Tid : Type} [DecidableEq Tid] (config : ReactorConfig) :
    List Event → Server Tid → Prop where
  | nil : Run config [] .initial
  | snoc {events added : List Event} {server after : Server Tid}
      (run : Run config events server) (step : Step config server added after) :
      Run config (events ++ added) after

end RedisCpp.Net
