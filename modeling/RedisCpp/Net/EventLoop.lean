import RedisCpp.Lib.Transition
import RedisCpp.Net.OrderedService

/-!
# The event loop

`EpollReactor::run` decides when the handlers of the reactor are called.  It waits for a
batch of events, goes through the batch, drains the two queues of the workers and scans for
idle connections.  A byte in the wakeup pipe, which a worker writes after each push, is an
event like others; the loop then empties the pipe and drains the queues at once.

An event names a descriptor and nothing else.  Here it also carries the generation of the
connection for which the kernel reported it, which no handler looks at.

The loop refines the server, whose handlers are called in any order.
-/

namespace RedisCpp.Net

/-! ## What the handlers leave alone -/

/-- No connection is new, the reactor thread is where it was and the queues that the workers
fill are as they were. -/
structure Inherits {Tid : Type} (server after : Server Tid) : Prop where
  phase : after.phase = server.phase
  pendingWrites : after.pendingWrites = server.pendingWrites
  completedCommands : after.completedCommands = server.completedCommands
  genCounter : after.genCounter = server.genCounter
  conns : ∀ fd conn, after.conns fd = some conn →
    ∃ old, server.conns fd = some old ∧ old.generation = conn.generation

namespace Inherits

variable {Tid : Type} {server after later : Server Tid} {fd : ℕ} {conn old : Connection}

theorem refl (server : Server Tid) : Inherits server server :=
  ⟨rfl, rfl, rfl, rfl, fun _ conn held => ⟨conn, held, rfl⟩⟩

theorem trans (first : Inherits server after) (second : Inherits after later) :
    Inherits server later := by
  refine ⟨second.phase.trans first.phase, second.pendingWrites.trans first.pendingWrites,
    second.completedCommands.trans first.completedCommands,
    second.genCounter.trans first.genCounter, ?_⟩
  intro fd conn held
  rcases second.conns fd conn held with ⟨middle, stored, same⟩
  rcases first.conns fd middle stored with ⟨old, opened, before⟩
  exact ⟨old, opened, before.trans same⟩

theorem setConn (held : server.conns fd = some old) (kept : old.generation = conn.generation) :
    Inherits server (server.setConn fd conn) := by
  refine ⟨rfl, rfl, rfl, rfl, ?_⟩
  intro other found opened
  rcases eq_or_ne other fd with rfl | different
  · rw [conns_setConn] at opened
    cases opened
    exact ⟨old, held, kept⟩
  · have same : (server.setConn fd conn).conns other = server.conns other :=
      Function.update_of_ne different _ _
    rw [same] at opened
    exact ⟨found, opened, rfl⟩

theorem epollMod (server : Server Tid) (fd : ℕ) (interest : Interest) :
    Inherits server (server.epollMod fd interest) :=
  ⟨rfl, rfl, rfl, rfl, fun _ conn held => ⟨conn, held, rfl⟩⟩

theorem handleClose (server : Server Tid) (fd : ℕ) :
    Inherits server (server.handleClose fd) := by
  simp only [Server.handleClose]
  split
  · exact refl server
  · refine ⟨rfl, rfl, rfl, rfl, ?_⟩
    intro other conn opened
    rcases eq_or_ne other fd with rfl | different
    · simp at opened
    · simp only [Function.update_of_ne different] at opened
      exact ⟨conn, opened, rfl⟩

theorem checkIdle (server : Server Tid) (config : ReactorConfig) (now : ℤ) :
    Inherits server (server.checkIdle config now) := by
  refine ⟨rfl, rfl, rfl, rfl, ?_⟩
  intro fd conn opened
  simp only [Server.checkIdle] at opened
  split at opened
  · cases opened
  · exact ⟨conn, opened, rfl⟩

theorem dispatchNextCommand (held : server.conns fd = some conn) :
    Inherits server (server.dispatchNextCommand fd conn) := by
  simp only [Server.dispatchNextCommand]
  split
  · exact refl server
  · rename_i args rest front
    have moved : Inherits server
        (server.setConn fd { conn with processing := true, commandQueue := rest }) :=
      setConn held rfl
    exact ⟨moved.phase, moved.pendingWrites, moved.completedCommands, moved.genCounter,
      moved.conns⟩

theorem queueCommands (held : server.conns fd = some old) (kept : old.generation = conn.generation)
    (cmds : List (List Bytes)) : Inherits server (server.queueCommands fd conn cmds) := by
  have queued : Inherits server
      (server.setConn fd { conn with commandQueue := conn.commandQueue ++ cmds }) :=
    setConn held kept
  simp only [Server.queueCommands]
  split
  · apply queued.trans
    apply dispatchNextCommand
    apply conns_setConn
  · exact queued

theorem handleRead {config : ReactorConfig} {reads : List ReadResult} {events : List Event}
    (handled : server.handleRead config fd reads = some (after, events)) :
    Inherits server after := by
  cases Server.handledRead handled with
  | absent free => exact refl server
  | hungUp held ended => exact handleClose server fd
  | failed held received error => exact handleClose server fd
  | queued held received clean =>
      apply queueCommands held
      rfl

theorem flushConn (held : server.conns fd = some old) (kept : old.generation = conn.generation)
    (results : List WriteResult) : Inherits server (server.flushConn fd conn results).2.1 :=
  setConn held kept

theorem handleWrite (server : Server Tid) (fd : ℕ) (results : List WriteResult) :
    Inherits server (server.handleWrite fd results).1 := by
  simp only [Server.handleWrite]
  cases held : server.conns fd with
  | none => exact refl server
  | some conn =>
      have flushed : Inherits server (server.flushConn fd conn results).2.1 :=
        flushConn held rfl results
      simp only
      split
      · exact flushed.trans (handleClose _ fd)
      · exact flushed.trans (epollMod _ fd .input)
      · exact flushed

theorem processWrite (server : Server Tid) (write : PendingWrite) (results : List WriteResult) :
    Inherits server (server.processWrite write results).1 := by
  simp only [Server.processWrite]
  cases held : server.conns write.id.fd with
  | none => exact refl server
  | some conn =>
      have flushed : Inherits server
          (server.flushConn write.id.fd (conn.sendEnqueue write.data) results).2.1 := by
        apply flushConn held
        rfl
      simp only
      split
      · exact refl server
      · split
        · exact flushed.trans (handleClose _ write.id.fd)
        · exact flushed
        · exact flushed.trans (epollMod _ write.id.fd .inputOutput)

theorem processComplete (server : Server Tid) (id : ConnId) :
    Inherits server (server.processComplete id) := by
  simp only [Server.processComplete]
  cases held : server.conns id.fd with
  | none => exact refl server
  | some conn =>
      simp only
      split
      · exact refl server
      · have completed : Inherits server (server.setConn id.fd { conn with processing := false }) :=
          setConn held rfl
        apply completed.trans
        apply dispatchNextCommand
        apply conns_setConn

end Inherits

namespace EventLoop

/-! ## The machine -/

/-- `MAX_EVENTS`. -/
def maxEvents : ℕ := 64

/-- The size of the buffer into which the wakeup pipe is read. -/
def chunkSize : ℕ := 128

/-- The bytes in the wakeup pipe: `W`, `C` and `S`. -/
inductive WakeByte where
  | write
  | complete
  | stop
deriving DecidableEq, Repr

/-- What an event says about a connection.  `error` stands for `EPOLLERR`, `EPOLLHUP` and
`EPOLLRDHUP`. -/
structure Flags where
  error : Bool := false
  input : Bool := false
  output : Bool := false
deriving DecidableEq, Repr

/-- An event. -/
inductive Ready where
  | wakeup
  | listen
  | conn (id : ConnId) (flags : Flags)
deriving DecidableEq, Repr

/-- The descriptors that epoll watches. -/
inductive Source where
  | wakeup
  | listen
  | conn (fd : ℕ)
deriving DecidableEq, Repr

/-- The descriptor of an event. -/
def Ready.source : Ready → Source
  | .wakeup => .wakeup
  | .listen => .listen
  | .conn id _ => .conn id.fd

/-- Where a drain has been called: for a wakeup, with the events that are left and whether
the pipe held a stop byte, or at the end of an iteration. -/
inductive Origin where
  | wakeup (events : List Ready) (stopLoop : Bool)
  | iteration
deriving DecidableEq, Repr

/-- The parts of a drain: before and after the swap of each of the two queues. -/
inductive Drain where
  | writes
  | writing
  | completes
  | completing
deriving DecidableEq, Repr

/-- Where the reactor thread is. -/
inductive Place where
  | starting
  | top
  | waiting
  | handling (events : List Ready)
  | reading (events : List Ready) (stopLoop : Bool)
  | draining (drain : Drain) (origin : Origin)
  | idling
  | exited
deriving DecidableEq, Repr

/-- The two queues that the workers fill. -/
inductive Queue where
  | writes
  | completes
deriving DecidableEq, Repr

/-- A handler that an event calls, with the answers of the kernel. -/
inductive Call where
  | close
  | read (reads : List ReadResult)
  | write (results : List WriteResult)
deriving DecidableEq, Repr

/-- What a step is about. -/
inductive Label where
  | waited
  | accepted (fd : ℕ)
  | handled (id : ConnId) (call : Call)
  | swapped (queue : Queue)
  | other
deriving DecidableEq, Repr

/-- The server, the place of the reactor thread and the wakeup pipe.  A worker between its
push and its write to the pipe is signalling.  `stopping` counts the calls of `stop` between
their flag and their byte. -/
structure State (Tid : Type) where
  server : Server Tid
  place : Place
  running : Bool
  pipe : List WakeByte
  signalling : Tid → Option WakeByte
  stopping : ℕ

/-- After the drain of a wakeup the loop goes on with the batch, or leaves it if it has read
a stop byte; after the drain of an iteration it looks for idle connections. -/
def Origin.next : Origin → Place
  | .wakeup events false => .handling events
  | .wakeup _ true => .draining .writes .iteration
  | .iteration => .idling

/-- The stop byte is found after the drain. -/
def Origin.stops : Origin → Bool
  | .wakeup _ stopLoop => stopLoop
  | .iteration => false

namespace State

variable {Tid : Type}

/-- Before the first iteration. -/
def initial : State Tid where
  server := .initial
  place := .starting
  running := false
  pipe := []
  signalling := fun _ => none
  stopping := 0

/-- The entries that wait in a queue. -/
def Holds (state : State Tid) : Queue → Prop
  | .writes => state.server.pendingWrites ≠ []
  | .completes => state.server.completedCommands ≠ []

/-- The batches that `epoll_wait` may return: at most one event for each descriptor.  The
pipe is reported only if it can be read, and a connection only while it is open. -/
structure Reports (state : State Tid) (events : List Ready) : Prop where
  short : events.length ≤ maxEvents
  distinct : (events.map Ready.source).Nodup
  readable : Ready.wakeup ∈ events → state.pipe ≠ []
  current : ∀ id flags, Ready.conn id flags ∈ events →
    ∃ conn, state.server.conns id.fd = some conn ∧ conn.generation = id.gen

def setServer (state : State Tid) (server : Server Tid) (place : Place) : State Tid :=
  { state with server := server, place := place }

/-- A worker has pushed an entry and has yet to write its byte. -/
def push [DecidableEq Tid] (state : State Tid) (tid : Tid) (byte : WakeByte)
    (server : Server Tid) : State Tid :=
  { state with
    server := server
    signalling := Function.update state.signalling tid (some byte) }

/-- A worker has tried to write its byte. -/
def settle [DecidableEq Tid] (state : State Tid) (tid : Tid) (pipe : List WakeByte) :
    State Tid :=
  { state with
    pipe := pipe
    signalling := Function.update state.signalling tid none }

end State

/-- One step of the reactor thread, of a worker or of a thread that calls `stop`.  A write
to the pipe may fail only if the pipe is full. -/
inductive Step {Tid : Type} [DecidableEq Tid] (config : ReactorConfig) (state : State Tid) :
    Label → State Tid → Prop where
  | start (starting : state.place = .starting) :
      Step config state .other { state with running := true, place := .top }
  | enter (top : state.place = .top) (running : state.running = true) :
      Step config state .other { state with place := .waiting }
  | leave (top : state.place = .top) (stopped : state.running = false) :
      Step config state .other { state with place := .exited }
  | wait (events : List Ready) (waiting : state.place = .waiting)
      (reported : state.Reports events) :
      Step config state .waited { state with place := .handling events }
  | interrupted (waiting : state.place = .waiting) :
      Step config state .other { state with place := .top }
  | waitError (waiting : state.place = .waiting) :
      Step config state .other { state with place := .exited }
  -- the wakeup pipe
  | wake {events : List Ready} (handling : state.place = .handling (.wakeup :: events)) :
      Step config state .other { state with place := .reading events false }
  | readPipe {events : List Ready} {stopLoop : Bool}
      (reading : state.place = .reading events stopLoop) (available : state.pipe ≠ []) :
      Step config state .other
        { state with
          pipe := state.pipe.drop chunkSize
          place := .reading events (stopLoop || (state.pipe.take chunkSize).contains .stop) }
  | readDrained {events : List Ready} {stopLoop : Bool}
      (reading : state.place = .reading events stopLoop) (drained : state.pipe = []) :
      Step config state .other
        { state with place := .draining .writes (.wakeup events stopLoop) }
  | readError {events : List Ready} {stopLoop : Bool}
      (reading : state.place = .reading events stopLoop) :
      Step config state .other
        { state with place := .draining .writes (.wakeup events stopLoop) }
  -- the listening socket
  | accept (fd : ℕ) (now : ℤ) {events : List Ready}
      (handling : state.place = .handling (.listen :: events))
      (free : state.server.conns fd = none) :
      Step config state (.accepted fd)
        { state with server := state.server.handleAccept fd now }
  | acceptEnd {events : List Ready} (handling : state.place = .handling (.listen :: events)) :
      Step config state .other { state with place := .handling events }
  -- a connection
  | close {id : ConnId} {flags : Flags} {events : List Ready}
      (handling : state.place = .handling (.conn id flags :: events))
      (error : flags.error = true) :
      Step config state (.handled id .close)
        (state.setServer (state.server.handleClose id.fd) (.handling events))
  | read (reads : List ReadResult) {id : ConnId} {flags : Flags} {events : List Ready}
      {after : Server Tid} {observed : List Event}
      (handling : state.place = .handling (.conn id flags :: events))
      (alive : flags.error = false) (input : flags.input = true)
      (handled : state.server.handleRead config id.fd reads = some (after, observed)) :
      Step config state (.handled id (.read reads))
        (state.setServer after (.handling (.conn id { flags with input := false } :: events)))
  | write (results : List WriteResult) {id : ConnId} {flags : Flags} {events : List Ready}
      (handling : state.place = .handling (.conn id flags :: events))
      (alive : flags.error = false) (past : flags.input = false) (output : flags.output = true) :
      Step config state (.handled id (.write results))
        (state.setServer (state.server.handleWrite id.fd results).1 (.handling events))
  | skip {id : ConnId} {flags : Flags} {events : List Ready}
      (handling : state.place = .handling (.conn id flags :: events))
      (alive : flags.error = false) (past : flags.input = false) (idle : flags.output = false) :
      Step config state .other { state with place := .handling events }
  | finish (handling : state.place = .handling []) :
      Step config state .other { state with place := .draining .writes .iteration }
  -- the drains
  | swapWrites {origin : Origin} (draining : state.place = .draining .writes origin) :
      Step config state (.swapped .writes)
        (state.setServer
          { state.server.setPhase (.writing state.server.pendingWrites) with pendingWrites := [] }
          (.draining .writing origin))
  | processWrite (results : List WriteResult) {origin : Origin} {write : PendingWrite}
      {writes : List PendingWrite} (draining : state.place = .draining .writing origin)
      (writing : state.server.phase = .writing (write :: writes)) :
      Step config state .other
        { state with
          server := ((state.server.setPhase (.writing writes)).processWrite write results).1 }
  | writesDone {origin : Origin} (draining : state.place = .draining .writing origin)
      (writing : state.server.phase = .writing []) :
      Step config state .other
        (state.setServer (state.server.setPhase .polling) (.draining .completes origin))
  | swapCompletes {origin : Origin} (draining : state.place = .draining .completes origin) :
      Step config state (.swapped .completes)
        (state.setServer
          { state.server.setPhase (.completing state.server.completedCommands) with
            completedCommands := [] }
          (.draining .completing origin))
  | processComplete {origin : Origin} {id : ConnId} {completes : List ConnId}
      (draining : state.place = .draining .completing origin)
      (completing : state.server.phase = .completing (id :: completes)) :
      Step config state .other
        { state with
          server := (state.server.setPhase (.completing completes)).processComplete id }
  | completesDone {origin : Origin} (draining : state.place = .draining .completing origin)
      (completing : state.server.phase = .completing []) :
      Step config state .other
        { state.setServer (state.server.setPhase .polling) origin.next with
          running := state.running && !origin.stops }
  -- the scan for idle connections, if it is enabled and a second has passed
  | checkIdle (now : ℤ) (idling : state.place = .idling) (enabled : 0 < config.idleTimeoutS) :
      Step config state .other (state.setServer (state.server.checkIdle config now) .top)
  | skipIdle (idling : state.place = .idling) :
      Step config state .other { state with place := .top }
  -- the workers
  | take (tid : Tid) {task : Task} {tasks : List Task} (settled : state.signalling tid = none)
      (idle : state.server.pool tid = .idle) (front : state.server.tasks = task :: tasks) :
      Step config state .other
        { state with
          server :=
            ({ state.server with tasks := tasks } : Server Tid).setWorker tid (.executing task) }
  | execute (tid : Tid) {task : Task} (resp : Bytes)
      (executing : state.server.pool tid = .executing task) :
      Step config state .other
        { state with server := state.server.setWorker tid (.sending task.id resp) }
  | send (tid : Tid) {id : ConnId} {resp : Bytes}
      (sending : state.server.pool tid = .sending id resp) :
      Step config state .other
        (state.push tid .write
          (({ state.server with
              pendingWrites := state.server.pendingWrites ++ [⟨id, resp⟩] } :
            Server Tid).setWorker tid (.notifying id)))
  | notify (tid : Tid) {id : ConnId} (settled : state.signalling tid = none)
      (notifying : state.server.pool tid = .notifying id) :
      Step config state .other
        (state.push tid .complete
          (({ state.server with
              completedCommands := state.server.completedCommands ++ [id] } :
            Server Tid).setWorker tid .idle))
  | signal (tid : Tid) {byte : WakeByte} (signalling : state.signalling tid = some byte) :
      Step config state .other (state.settle tid (state.pipe ++ [byte]))
  | signalFull (tid : Tid) {byte : WakeByte} (signalling : state.signalling tid = some byte)
      (full : state.pipe ≠ []) : Step config state .other (state.settle tid state.pipe)
  -- `stop`
  | stopFlag :
      Step config state .other
        { state with running := false, stopping := state.stopping + 1 }
  | stopByte {left : ℕ} (stopping : state.stopping = left + 1) :
      Step config state .other
        { state with pipe := state.pipe ++ [.stop], stopping := left }
  | stopGaveUp {left : ℕ} (stopping : state.stopping = left + 1) :
      Step config state .other { state with stopping := left }

/-- The runs of the event loop. -/
abbrev Run {Tid : Type} [DecidableEq Tid] (config : ReactorConfig) :=
  Transition.Run (@Step Tid _ config) .initial

/-! ## The loop refines the server -/

variable {Tid : Type}

/-- Inside a drain the reactor has a swapped batch, elsewhere it has none. -/
def Place.Agrees : Place → Phase → Prop
  | .draining .writing _, phase => ∃ writes, phase = .writing writes
  | .draining .completing _, phase => ∃ completes, phase = .completing completes
  | _, phase => phase = .polling

theorem agrees_next (origin : Origin) : origin.next.Agrees .polling := by
  cases origin with
  | wakeup events stopLoop =>
      cases stopLoop with
      | false => rfl
      | true => rfl
  | iteration => rfl

variable [DecidableEq Tid] {config : ReactorConfig} {state after : State Tid} {label : Label}

/-- A step of the loop is a step of the server, or the server does not change. -/
theorem Step.server (step : Step config state label after)
    (agrees : state.place.Agrees state.server.phase) :
    after.place.Agrees after.server.phase ∧
      (after.server = state.server ∨
        ∃ observed, Net.Step config state.server observed after.server) := by
  cases step with
  | start here | enter here | leave here | wait _ here | interrupted here | waitError here
  | wake here | readPipe here | readDrained here | readError here | acceptEnd here | skip here
  | finish here | skipIdle here =>
      rw [here] at agrees
      exact ⟨agrees, Or.inl rfl⟩
  | signal tid | signalFull tid | stopFlag | stopByte | stopGaveUp =>
      exact ⟨agrees, Or.inl rfl⟩
  | accept fd now handling free =>
      have polling : state.server.phase = .polling := by rwa [handling] at agrees
      exact ⟨agrees, Or.inr ⟨_, .accept fd now polling free⟩⟩
  | close handling error =>
      rw [handling] at agrees
      exact ⟨(Inherits.handleClose state.server _).phase.trans agrees, Or.inr ⟨_, .close _ agrees⟩⟩
  | read reads handling alive input handled =>
      rw [handling] at agrees
      exact ⟨(Inherits.handleRead handled).phase.trans agrees,
        Or.inr ⟨_, .read _ reads agrees handled⟩⟩
  | write results handling alive past output =>
      rw [handling] at agrees
      exact ⟨(Inherits.handleWrite state.server _ results).phase.trans agrees,
        Or.inr ⟨_, .write _ results agrees⟩⟩
  | swapWrites draining =>
      rw [draining] at agrees
      exact ⟨⟨_, rfl⟩, Or.inr ⟨_, .swapWrites agrees⟩⟩
  | @processWrite results origin write writes draining writing =>
      have phase := (Inherits.processWrite (state.server.setPhase (.writing writes)) write
        results).phase
      simp only [draining, Place.Agrees]
      exact ⟨⟨writes, phase⟩, Or.inr ⟨_, .processWrite results writing⟩⟩
  | writesDone draining writing => exact ⟨rfl, Or.inr ⟨_, .writesDone writing⟩⟩
  | swapCompletes draining =>
      rw [draining] at agrees
      exact ⟨⟨_, rfl⟩, Or.inr ⟨_, .swapCompletes agrees⟩⟩
  | @processComplete origin id completes draining completing =>
      have phase := (Inherits.processComplete (state.server.setPhase (.completing completes))
        id).phase
      simp only [draining, Place.Agrees]
      exact ⟨⟨completes, phase⟩, Or.inr ⟨_, .processComplete completing⟩⟩
  | @completesDone origin draining completing =>
      exact ⟨agrees_next origin, Or.inr ⟨_, .completesDone completing⟩⟩
  | checkIdle now idling enabled =>
      rw [idling] at agrees
      exact ⟨agrees, Or.inr ⟨_, .idle now agrees enabled⟩⟩
  | take tid settled idle front => exact ⟨agrees, Or.inr ⟨_, .take tid idle front⟩⟩
  | execute tid resp executing => exact ⟨agrees, Or.inr ⟨_, .execute tid resp executing⟩⟩
  | send tid sending => exact ⟨agrees, Or.inr ⟨_, .send tid sending⟩⟩
  | notify tid settled notifying => exact ⟨agrees, Or.inr ⟨_, .notify tid notifying⟩⟩

/-- A run of the loop is a run of the server. -/
theorem server_run {moves : List (Transition.Move (State Tid) Label)}
    (run : Run config moves state) : ∃ observed, Net.Run config observed state.server := by
  have refined : state.place.Agrees state.server.phase ∧
      ∃ observed, Net.Run config observed state.server := by
    apply run.invariant ⟨rfl, [], .nil⟩
    intro moves state label after _ before step
    rcases before with ⟨agrees, observed, served⟩
    rcases step.server agrees with ⟨later, same | ⟨added, moved⟩⟩
    · exact ⟨later, observed, same ▸ served⟩
    · exact ⟨later, observed ++ added, served.snoc moved⟩
  exact refined.2

/-- With nothing left to do, the loop comes back to the wait. -/
theorem waits_again {moves : List (Transition.Move (State Tid) Label)}
    (run : Run config moves state) (handled : state.place = .handling [])
    (running : state.running = true) (polling : state.server.phase = .polling)
    (written : state.server.pendingWrites = [])
    (completed : state.server.completedCommands = []) :
    ∃ later, Run config later { state with place := .waiting } := by
  rcases state with ⟨server, place, running, pipe, signalling, stopping⟩
  rcases server with ⟨conns, interest, genCounter, phase, writes, completes, tasks, pool⟩
  simp only at handled running polling written completed
  subst handled running polling written completed
  have finished := run.snoc (.finish rfl)
  have wrote := (finished.snoc (.swapWrites rfl)).snoc (.writesDone rfl rfl)
  have drained := (wrote.snoc (.swapCompletes rfl)).snoc (.completesDone rfl rfl)
  exact ⟨_, (drained.snoc (.skipIdle rfl)).snoc (.enter rfl rfl)⟩

/-- A run after which the reply to a `PING` is in its queue and its byte in the pipe. -/
theorem replied_run :
    ∃ (moves : List (Transition.Move (State Unit) Label)) (server : Server Unit),
      Run {} moves ⟨server, .waiting, true, [.write], fun _ => none, 0⟩ ∧
        server.phase = .polling ∧ server.pendingWrites = [⟨⟨7, 1⟩, ascii "+PONG\r\n"⟩] ∧
        server.completedCommands = [] ∧
        ∃ conn, server.conns 7 = some conn ∧ conn.generation = 1 := by
  have entered := ((@Transition.Run.nil _ _ (@Step Unit _ {}) .initial).snoc
    (.start rfl)).snoc (.enter rfl rfl)
  have listening := entered.snoc (.wait [.listen] rfl ⟨by decide, by decide, by simp, by simp⟩)
  have accepted := (listening.snoc (.accept 7 0 rfl rfl)).snoc (.acceptEnd rfl)
  rcases waits_again accepted rfl rfl rfl rfl rfl with ⟨first, waiting⟩
  have reported := waiting.snoc (.wait [.conn ⟨7, 1⟩ { input := true }] rfl
    ⟨by decide, by decide, by simp, by simp; exact ⟨_, rfl, rfl⟩⟩)
  have received := reported.snoc (.read [.read (ascii "PING\r\n") 0] rfl rfl rfl rfl)
  have skipped := received.snoc (.skip rfl rfl rfl rfl)
  rcases waits_again skipped rfl rfl rfl rfl rfl with ⟨second, again⟩
  have taken := again.snoc (.take () rfl rfl rfl)
  have executed := taken.snoc (.execute () (ascii "+PONG\r\n") rfl)
  have signalled := (executed.snoc (.send () rfl)).snoc (.signal () rfl)
  exact ⟨_, _, signalled, rfl, rfl, rfl, _, rfl, rfl⟩

end EventLoop

end RedisCpp.Net
