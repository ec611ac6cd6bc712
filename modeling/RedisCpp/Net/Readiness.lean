import RedisCpp.Lib.ReadyList
import RedisCpp.Net.StaleEvents
import Mathlib.Logic.Relation

/-!
# The kernel behind the event loop

The event loop takes whatever the kernel answers.  Here the kernel has a state of its own: what
has arrived on the sockets and has not been read, whether they take more bytes, how many
connections wait to be accepted, and the ready list of epoll.  The network acts at any time, also
in the middle of a handler.

The connections and the listening socket are registered with `EPOLLET`: they are reported once for
each time something happens on them.  The read end of the wakeup pipe is registered without it and
is reported as long as it can be read.
-/

namespace RedisCpp.Net.EventLoop

variable {Tid : Type}

/-! ## The kernel -/

/-- A connection in the kernel: the bytes that have arrived and have not been read, whether the
peer has closed or reset the connection, and whether there is room for bytes to send. -/
structure Socket where
  unread : Bytes
  ended : Bool
  room : Bool
deriving DecidableEq, Repr

/-- The sockets, the number of connections to be accepted and the ready list of epoll. -/
structure Kernel where
  sockets : ℕ → Socket
  backlog : ℕ
  ready : ReadyList Source

/-- What `epoll_wait` finds on a connection that is registered for some events. -/
def Socket.flags (socket : Socket) (interest : Option Interest) : Flags where
  error := socket.ended
  input := !socket.unread.isEmpty || socket.ended
  output := socket.room && decide (interest = some .inputOutput)

/-- Something is to be reported. -/
def Flags.any (flags : Flags) : Bool :=
  flags.error || flags.input || flags.output

/-- The pipe is watched for its level. -/
def Source.level : Source → Bool
  | .wakeup => true
  | _ => false

/-- The pipe, the listening socket and the connections that are open. -/
def Source.watched (conns : ℕ → Option Connection) : Source → Bool
  | .conn fd => (conns fd).isSome
  | _ => true

namespace Kernel

def initial : Kernel where
  sockets := fun _ => ⟨[], false, true⟩
  backlog := 0
  ready := .empty

def setSocket (kernel : Kernel) (fd : ℕ) (socket : Socket) : Kernel :=
  { kernel with sockets := Function.update kernel.sockets fd socket }

def signal (kernel : Kernel) (source : Source) : Kernel :=
  { kernel with ready := kernel.ready.signal source }

/-- `EPOLL_CTL_ADD` and `EPOLL_CTL_MOD`: what can be reported at once is listed. -/
def arm (kernel : Kernel) (interest : ℕ → Option Interest) (fd : ℕ) : Kernel :=
  if ((kernel.sockets fd).flags (interest fd)).any then kernel.signal (.conn fd) else kernel

/-- A connection that is closed is no longer watched. -/
def forget (kernel : Kernel) (conns : ℕ → Option Connection) : Kernel :=
  { kernel with ready := kernel.ready.keep (Source.watched conns) }

/-- What a source has to report. -/
def report (kernel : Kernel) (loop : State Tid) : Source → Option Ready
  | .wakeup => if loop.pipe.isEmpty then none else some .wakeup
  | .listen => if kernel.backlog = 0 then none else some .listen
  | .conn fd =>
      (loop.server.conns fd).bind fun conn =>
        let flags := (kernel.sockets fd).flags (loop.server.interest fd)
        if flags.any then some (.conn ⟨fd, conn.generation⟩ flags) else none

end Kernel

/-- The network: bytes arrive, a peer closes or resets its connection, the peer has taken bytes so
that there is room again, a client connects. -/
inductive Network (interest : ℕ → Option Interest) (kernel : Kernel) : Kernel → Prop where
  | arrive (fd : ℕ) {data : Bytes} (watched : interest fd ≠ none) (some : data ≠ []) :
      Network interest kernel
        ((kernel.setSocket fd
          { kernel.sockets fd with unread := (kernel.sockets fd).unread ++ data }).signal
            (.conn fd))
  | hangUp (fd : ℕ) (watched : interest fd ≠ none) :
      Network interest kernel
        ((kernel.setSocket fd { kernel.sockets fd with ended := true }).signal (.conn fd))
  | drain (fd : ℕ) (watched : interest fd = some .inputOutput) :
      Network interest kernel
        ((kernel.setSocket fd { kernel.sockets fd with room := true }).signal (.conn fd))
  | drainUnwatched (fd : ℕ) (unwatched : interest fd ≠ some .inputOutput) :
      Network interest kernel (kernel.setSocket fd { kernel.sockets fd with room := true })
  | connect :
      Network interest kernel ({ kernel with backlog := kernel.backlog + 1 }.signal .listen)

/-- What the network does during a handler. -/
abbrev Acts (interest : ℕ → Option Interest) : Kernel → Kernel → Prop :=
  Relation.ReflTransGen (Network interest)

/-- The size of the chunks in which `handle_read` reads. -/
def readSize : ℕ := 4096

/-- The answers to the calls of `read` in one drain of a socket, up to the one that ends it.  The
drain ends before that if the receive buffer grows too long; then the connection is closed. -/
inductive Reading (interest : ℕ → Option Interest) (fd : ℕ) :
    Kernel → List ReadResult → Kernel → Prop where
  | network {kernel middle after : Kernel} {reads : List ReadResult}
      (acts : Network interest kernel middle) (later : Reading interest fd middle reads after) :
      Reading interest fd kernel reads after
  | data {kernel after : Kernel} {data rest : Bytes} {reads : List ReadResult} (now : ℤ)
      (stored : (kernel.sockets fd).unread = data ++ rest) (some : data ≠ [])
      (short : data.length ≤ readSize)
      (later : Reading interest fd
        (kernel.setSocket fd { kernel.sockets fd with unread := rest }) reads after) :
      Reading interest fd kernel (.read data now :: reads) after
  | interrupted {kernel after : Kernel} {reads : List ReadResult}
      (later : Reading interest fd kernel reads after) :
      Reading interest fd kernel (.interrupted :: reads) after
  | wouldBlock {kernel : Kernel} (empty : (kernel.sockets fd).unread = [])
      (open' : (kernel.sockets fd).ended = false) :
      Reading interest fd kernel [.wouldBlock] kernel
  | ended {kernel : Kernel} (now : ℤ) (empty : (kernel.sockets fd).unread = [])
      (ended : (kernel.sockets fd).ended = true) :
      Reading interest fd kernel [.read [] now] kernel
  | error {kernel : Kernel} : Reading interest fd kernel [.error] kernel

/-- What happens while `flush` writes to a socket.  A call that answers `EAGAIN` has found no
room. -/
inductive Flushing (interest : ℕ → Option Interest) (fd : ℕ) (kernel : Kernel)
    (status : FlushStatus) (after : Kernel) : Prop where
  | flush {middle : Kernel} (room : Bool) (first : Acts interest kernel middle)
      (taken : room = true → (middle.sockets fd).room = true)
      (full : status = .pending → room = false)
      (later : Acts interest (middle.setSocket fd { middle.sockets fd with room := room }) after) :
      Flushing interest fd kernel status after

/-- The end of a handler that has flushed a connection: it may call `epoll_mod`, and it may have
closed the connection. -/
def Kernel.settle (kernel : Kernel) (server : Server Tid) (fd : ℕ) (modified : Bool) : Kernel :=
  (if modified then kernel.arm server.interest fd else kernel).forget server.conns

/-! ## The loop and the kernel -/

/-- The event loop with the kernel behind it. -/
structure System (Tid : Type) where
  loop : State Tid
  kernel : Kernel

def System.initial : System Tid :=
  ⟨.initial, .initial⟩

/-- What a step of both is about. -/
inductive Act where
  | network
  | acceptFailed
  | loop (label : Label)
deriving DecidableEq, Repr

/-- The steps that end with an answer of the kernel about a socket. -/
def Label.asks : Label → Bool
  | .waited | .accepted _ | .handled _ _ => true
  | _ => false

/-- A step of the loop that asks the kernel for nothing: the connections that are open afterwards
were open before, with the same bytes to send and registered for the same events, nothing has been
written to an empty pipe, and `handle_accept` has not returned. -/
structure Quiet (state after : State Tid) : Prop where
  conns : ∀ fd conn, after.server.conns fd = some conn →
    ∃ old, state.server.conns fd = some old ∧ conn.send = old.send
  interest : after.server.interest = state.server.interest
  pipe : after.pipe ≠ [] → state.pipe ≠ []
  accepting : ∀ events, state.place = .handling (.listen :: events) → after.place = state.place

theorem Quiet.of_server {state after : State Tid} (server : after.server.conns = state.server.conns)
    (interest : after.server.interest = state.server.interest) (pipe : after.pipe = state.pipe)
    (elsewhere : ∀ events, state.place ≠ .handling (.listen :: events)) : Quiet state after := by
  refine ⟨?_, interest, ?_, ?_⟩
  · intro fd conn held
    exact ⟨conn, server ▸ held, rfl⟩
  · intro written
    rwa [← pipe]
  · intro events here
    exact absurd here (elsewhere events)

theorem Quiet.of_place {state after : State Tid} (server : after.server.conns = state.server.conns)
    (interest : after.server.interest = state.server.interest) (pipe : after.pipe = state.pipe)
    (place : after.place = state.place) : Quiet state after := by
  refine ⟨?_, interest, ?_, fun _ _ => place⟩
  · intro fd conn held
    exact ⟨conn, server ▸ held, rfl⟩
  · intro written
    rwa [← pipe]

namespace System

/-- One step of the network or of the loop, with the answers of the kernel. -/
inductive Step [DecidableEq Tid] (config : ReactorConfig) (system : System Tid) :
    Act → System Tid → Prop where
  | network {kernel : Kernel} (acts : Network system.loop.server.interest system.kernel kernel) :
      Step config system .network ⟨system.loop, kernel⟩
  | wait {events : List Ready} {ready : ReadyList Source}
      (step : EventLoop.Step config system.loop .waited
        { system.loop with place := .handling events })
      (polled : ReadyList.Polled (system.kernel.report system.loop) Source.level maxEvents
        system.kernel.ready events ready) :
      Step config system (.loop .waited)
        ⟨{ system.loop with place := .handling events }, { system.kernel with ready := ready }⟩
  | accept {fd : ℕ} {backlog : ℕ} {after : State Tid} (socket : Socket)
      (step : EventLoop.Step config system.loop (.accepted fd) after)
      (pending : system.kernel.backlog = backlog + 1) :
      Step config system (.loop (.accepted fd))
        ⟨after, ({ system.kernel with backlog := backlog }.setSocket fd socket).arm
          after.server.interest fd⟩
  | acceptEnd {events : List Ready} (handling : system.loop.place = .handling (.listen :: events))
      (empty : system.kernel.backlog = 0) :
      Step config system (.loop .other)
        ⟨{ system.loop with place := .handling events }, system.kernel⟩
  | acceptFailed {events : List Ready}
      (handling : system.loop.place = .handling (.listen :: events)) :
      Step config system .acceptFailed
        ⟨{ system.loop with place := .handling events }, system.kernel⟩
  -- the handlers of an event for a connection
  | absent {id : ConnId} {call : Call} {after : State Tid}
      (step : EventLoop.Step config system.loop (.handled id call) after)
      (free : system.loop.server.conns id.fd = none) :
      Step config system (.loop (.handled id call)) ⟨after, system.kernel⟩
  | close {id : ConnId} {after : State Tid}
      (step : EventLoop.Step config system.loop (.handled id .close) after) :
      Step config system (.loop (.handled id .close))
        ⟨after, system.kernel.forget after.server.conns⟩
  | read {id : ConnId} {reads : List ReadResult} {kernel : Kernel} {after : State Tid}
      (step : EventLoop.Step config system.loop (.handled id (.read reads)) after)
      (reading : Reading system.loop.server.interest id.fd system.kernel reads kernel) :
      Step config system (.loop (.handled id (.read reads)))
        ⟨after, kernel.forget after.server.conns⟩
  | write {id : ConnId} {results : List WriteResult} {conn : Connection} {kernel : Kernel}
      {after : State Tid}
      (step : EventLoop.Step config system.loop (.handled id (.write results)) after)
      (held : system.loop.server.conns id.fd = some conn)
      (flushing : Flushing system.loop.server.interest id.fd system.kernel
        (conn.send.flush results).1 kernel) :
      Step config system (.loop (.handled id (.write results)))
        ⟨after, kernel.settle after.server id.fd
          (decide ((conn.send.flush results).1 = .drained))⟩
  -- an entry of the batch of `process_pending_writes`
  | processWrite (results : List WriteResult) {origin : Origin} {write : PendingWrite}
      {writes : List PendingWrite} {conn : Connection} {kernel : Kernel} {server : Server Tid}
      (draining : system.loop.place = .draining .writing origin)
      (writing : system.loop.server.phase = .writing (write :: writes))
      (held : system.loop.server.conns write.id.fd = some conn)
      (current : conn.generation = write.id.gen)
      (flushing : Flushing system.loop.server.interest write.id.fd system.kernel
        ((conn.sendEnqueue write.data).send.flush results).1 kernel)
      (processed : server =
        ((system.loop.server.setPhase (.writing writes)).processWrite write results).1) :
      Step config system (.loop .other)
        ⟨{ system.loop with server := server }, kernel.settle server write.id.fd
          (decide (((conn.sendEnqueue write.data).send.flush results).1 = .pending))⟩
  | checkIdle (now : ℤ) (idling : system.loop.place = .idling)
      (enabled : 0 < config.idleTimeoutS) :
      Step config system (.loop .other)
        ⟨system.loop.setServer (system.loop.server.checkIdle config now) .top,
          system.kernel.forget (system.loop.server.checkIdle config now).conns⟩
  -- a byte for the wakeup pipe
  | written {after : State Tid} (step : EventLoop.Step config system.loop .other after)
      (grown : ∃ byte, after.pipe = system.loop.pipe ++ [byte])
      (server : after.server = system.loop.server) (place : after.place = system.loop.place) :
      Step config system (.loop .other) ⟨after, system.kernel.signal .wakeup⟩
  | other {label : Label} {after : State Tid} (step : EventLoop.Step config system.loop label after)
      (own : label.asks = false) (quiet : Quiet system.loop after) :
      Step config system (.loop label) ⟨after, system.kernel⟩

/-- The runs of the event loop with a kernel behind it. -/
abbrev Run [DecidableEq Tid] (config : ReactorConfig) :=
  Transition.Run (@Step Tid _ config) .initial

end System

end RedisCpp.Net.EventLoop
