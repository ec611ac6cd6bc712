import RedisCpp.Net.Readiness
import RedisCpp.Net.Shutdown
import RedisCpp.Net.Unwedged

/-!
# What the handlers leave behind

An edge is reported once.  So a handler must not leave anything on a socket that would not be
reported again.  Whatever the network does meanwhile, what comes to wait on a socket during a
handler is listed, a drain that does not close its connection has read everything, and room that is
found again while a connection is registered for `EPOLLOUT` is listed as well.  An event stays in
the batch until its handler is called.
-/

namespace RedisCpp.Net.EventLoop

variable {Tid : Type}

/-! ## What waits on a connection -/

/-- What a connection may wait for. -/
inductive Need where
  | input
  | output
deriving DecidableEq, Repr

/-- The handlers of an event attend to a need. -/
def Flags.meets (flags : Flags) : Need → Bool
  | .input => flags.error || flags.input
  | .output => flags.error || flags.output

/-- A handler attends to a need. -/
def Call.meets : Call → Need → Bool
  | .close, _ => true
  | .read _, .input => true
  | .write _, .output => true
  | _, _ => false

/-- There is something to be read from a socket, or something to be written to it and room for
it. -/
def Socket.Has (socket : Socket) (send : SendBuffer) : Need → Prop
  | .input => socket.unread ≠ [] ∨ socket.ended = true
  | .output => send.offset < send.buf.length ∧ socket.room = true

/-- An open connection waits for its handler. -/
def Wants (server : Server Tid) (kernel : Kernel) (need : Need) (fd : ℕ) : Prop :=
  ∃ conn, server.conns fd = some conn ∧ (kernel.sockets fd).Has conn.send need

/-- The events that are still to be handled. -/
def Place.batch : Place → List Ready
  | .handling events | .reading events _ | .draining _ (.wakeup events _) => events
  | _ => []

/-- The batch has an event whose handlers attend to a need. -/
def Place.Holds (place : Place) (need : Need) (fd : ℕ) : Prop :=
  ∃ id flags, .conn id flags ∈ place.batch ∧ id.fd = fd ∧ flags.meets need = true

/-- What is found on a socket is reported as such. -/
theorem Socket.meets_flags {socket : Socket} {send : SendBuffer} {interest : Option Interest}
    {need : Need} (has : socket.Has send need)
    (armed : send.offset < send.buf.length → interest = some .inputOutput) :
    (socket.flags interest).meets need = true := by
  cases need with
  | input =>
      rcases has with unread | ended
      · simp [Socket.flags, Flags.meets, unread]
      · simp [Socket.flags, Flags.meets, ended]
  | output =>
      rcases has with ⟨unsent, room⟩
      simp [Socket.flags, Flags.meets, room, armed unsent]

theorem Flags.any_of_meets {flags : Flags} {need : Need} (meets : flags.meets need = true) :
    flags.any = true := by
  cases need with
  | input =>
      simp only [Flags.meets] at meets
      rw [Flags.any, meets, Bool.true_or]
  | output =>
      simp only [Flags.meets, Bool.or_eq_true] at meets
      rcases meets with error | output
      · rw [Flags.any, error, Bool.true_or, Bool.true_or]
      · rw [Flags.any, output, Bool.or_true]

/-! ## The kernel during a handler -/

/-- What is listed stays so, and what comes to wait is listed. -/
structure Carries (server : Server Tid) (kernel after : Kernel) : Prop where
  stays : ∀ source, kernel.ready.Stays after.ready source
  wants : ∀ need fd, Wants server after need fd →
    Wants server kernel need fd ∨ .conn fd ∈ after.ready
  backlog : 0 < after.backlog → 0 < kernel.backlog ∨ .listen ∈ after.ready

/-- The connections with bytes to send are registered for `EPOLLOUT`. -/
def Armed (server : Server Tid) : Prop :=
  ∀ fd conn, server.conns fd = some conn → conn.send.offset < conn.send.buf.length →
    server.interest fd = some .inputOutput

namespace Carries

variable {server : Server Tid} {kernel after later : Kernel} {fd : ℕ}

theorem refl (server : Server Tid) (kernel : Kernel) : Carries server kernel kernel :=
  ⟨fun source => .refl _ source, fun _ _ wants => Or.inl wants, Or.inl⟩

theorem trans (first : Carries server kernel after) (second : Carries server after later) :
    Carries server kernel later := by
  refine ⟨fun source => (first.stays source).trans (second.stays source), ?_, ?_⟩
  · intro need fd wants
    rcases second.wants need fd wants with before | listed
    · rcases first.wants need fd before with start | listed
      · exact Or.inl start
      · exact Or.inr (second.stays _ listed).1
    · exact Or.inr listed
  · intro waiting
    rcases second.backlog waiting with before | listed
    · rcases first.backlog before with start | listed
      · exact Or.inl start
      · exact Or.inr (second.stays _ listed).1
    · exact Or.inr listed

/-- A socket changes, and its connection is listed. -/
theorem signal (server : Server Tid) (kernel : Kernel) (fd : ℕ) (socket : Socket) :
    Carries server kernel ((kernel.setSocket fd socket).signal (.conn fd)) := by
  refine ⟨fun source => .signal _ source _, ?_, Or.inl⟩
  rintro need other ⟨conn, held, has⟩
  by_cases same : other = fd
  · subst same
    exact Or.inr ReadyList.mem_signal_self
  · left
    refine ⟨conn, held, ?_⟩
    simpa only [Kernel.signal, Kernel.setSocket, Function.update_of_ne same] using has

/-- A socket changes so that nothing more waits on it. -/
theorem setSocket (socket : Socket)
    (less : ∀ conn need, server.conns fd = some conn → socket.Has conn.send need →
      (kernel.sockets fd).Has conn.send need) :
    Carries server kernel (kernel.setSocket fd socket) := by
  refine ⟨fun source => .refl _ source, ?_, Or.inl⟩
  rintro need other ⟨conn, held, has⟩
  left
  refine ⟨conn, held, ?_⟩
  by_cases same : other = fd
  · subst same
    simp only [Kernel.setSocket, Function.update_self] at has
    exact less conn need held has
  · simpa only [Kernel.setSocket, Function.update_of_ne same] using has

theorem network {interest : ℕ → Option Interest} (acts : Network interest kernel after)
    (armed : ∀ fd conn, server.conns fd = some conn → conn.send.offset < conn.send.buf.length →
      interest fd = some .inputOutput) :
    Carries server kernel after := by
  cases acts with
  | arrive | hangUp | drain => exact signal _ _ _ _
  | drainUnwatched fd unwatched =>
      apply setSocket
      intro conn need held has
      cases need with
      | input => exact has
      | output => exact absurd (armed fd conn held has.1) unwatched
  | connect =>
      exact ⟨fun source => .signal _ source _, fun _ _ wants => Or.inl wants,
        fun _ => Or.inr ReadyList.mem_signal_self⟩

theorem acts {interest : ℕ → Option Interest} (acts : Acts interest kernel after)
    (armed : ∀ fd conn, server.conns fd = some conn → conn.send.offset < conn.send.buf.length →
      interest fd = some .inputOutput) :
    Carries server kernel after := by
  induction acts with
  | refl => exact refl server kernel
  | tail _ next inductionHypothesis => exact inductionHypothesis.trans (network next armed)

theorem reading {reads : List ReadResult} (armed : Armed server)
    (reading : Reading server.interest fd kernel reads after) : Carries server kernel after := by
  induction reading with
  | network acts _ inductionHypothesis => exact (network acts armed).trans inductionHypothesis
  | @data kernel after data rest reads now stored some short later inductionHypothesis =>
      have fewer : Carries server kernel
          (kernel.setSocket fd { kernel.sockets fd with unread := rest }) := by
        apply setSocket
        intro conn need held has
        cases need with
        | input =>
            rcases has with unread | ended
            · left
              rw [stored]
              exact fun empty => some (List.append_eq_nil_iff.mp empty).1
            · exact Or.inr ended
        | output => exact has
      exact fewer.trans inductionHypothesis
  | interrupted _ inductionHypothesis => exact inductionHypothesis
  | wouldBlock | ended | error => exact refl server _

theorem flushing {status : FlushStatus} (armed : Armed server)
    (flushing : Flushing server.interest fd kernel status after) :
    Carries server kernel after := by
  rcases flushing with ⟨room, first, taken, full, later⟩
  apply (acts first armed).trans
  refine trans ?_ (acts later armed)
  apply setSocket
  intro conn need held has
  cases need with
  | input => exact has
  | output => exact ⟨has.1, taken has.2⟩

end Carries

/-- A drain that does not close the connection has read all there is. -/
theorem Reading.empty {interest : ℕ → Option Interest} {fd maxRecvBytes : ℕ}
    {kernel after : Kernel} {reads : List ReadResult} {buf : Bytes} {lastActive : ℤ}
    {found : Bytes × ℤ} (reading : Reading interest fd kernel reads after)
    (looped : Server.readLoop maxRecvBytes reads buf lastActive = some found) :
    (after.sockets fd).unread = [] ∧ (after.sockets fd).ended = false := by
  induction reading generalizing buf lastActive with
  | network _ _ inductionHypothesis => exact inductionHypothesis looped
  | @data kernel after data rest reads now stored some short later inductionHypothesis =>
      simp only [Server.readLoop] at looped
      split at looped
      · cases looped
      · split at looped
        · cases looped
        · exact inductionHypothesis looped
  | interrupted _ inductionHypothesis => exact inductionHypothesis looped
  | wouldBlock empty open' => exact ⟨empty, open'⟩
  | ended => simp [Server.readLoop] at looped
  | error => simp [Server.readLoop] at looped

/-- Room that is found again while the socket is registered for `EPOLLOUT` is reported. -/
theorem room_or_listed {interest : ℕ → Option Interest} {fd : ℕ} {kernel after : Kernel}
    (acts : Acts interest kernel after) (watched : interest fd = some .inputOutput)
    (full : (kernel.sockets fd).room = false) :
    (after.sockets fd).room = false ∨ .conn fd ∈ after.ready := by
  induction acts with
  | refl => exact Or.inl full
  | @tail middle after _ next inductionHypothesis =>
      rcases inductionHypothesis with still | listed
      · cases next with
        | connect => exact Or.inl still
        | drainUnwatched other unwatched =>
            have different : fd ≠ other := by
              rintro rfl
              exact unwatched watched
            left
            simpa only [Kernel.setSocket, Function.update_of_ne different] using still
        | arrive other | hangUp other | drain other =>
            by_cases same : fd = other
            · subst same
              exact Or.inr ReadyList.mem_signal_self
            · left
              simpa only [Kernel.signal, Kernel.setSocket, Function.update_of_ne same] using still
      · right
        cases next with
        | arrive | hangUp | drain | connect => exact ReadyList.mem_signal listed
        | drainUnwatched => exact listed

/-! ## Handlers that send nothing -/

/-- What a descriptor holds afterwards it held before, with the same bytes to send. -/
def SendKept (server after : Server Tid) (fd : ℕ) : Prop :=
  ∀ later, after.conns fd = some later →
    ∃ conn, server.conns fd = some conn ∧ later.send = conn.send

theorem Wants.before {server after : Server Tid} {kernel : Kernel} {need : Need} {fd : ℕ}
    (wants : Wants after kernel need fd) (kept : SendKept server after fd) :
    Wants server kernel need fd := by
  rcases wants with ⟨later, held, has⟩
  rcases kept later held with ⟨conn, heldBefore, same⟩
  exact ⟨conn, heldBefore, same ▸ has⟩

namespace SendKept

variable {server after middle : Server Tid} {fd other : ℕ} {conn old : Connection}

theorem of_eq (same : after.conns fd = server.conns fd) : SendKept server after fd := by
  intro later held
  exact ⟨later, same ▸ held, rfl⟩

theorem setConn (held : server.conns other = some old) (same : conn.send = old.send) :
    SendKept server (server.setConn other conn) fd := by
  intro later heldLater
  by_cases own : fd = other
  · subst own
    simp only [conns_setConn, Option.some.injEq] at heldLater
    subst heldLater
    exact ⟨old, held, same⟩
  · simp only [Server.setConn, Function.update_of_ne own] at heldLater
    exact ⟨later, heldLater, rfl⟩

theorem handleClose (server : Server Tid) (fd other : ℕ) :
    SendKept server (server.handleClose other) fd := by
  intro later held
  simp only [Server.handleClose] at held
  split at held
  · exact ⟨later, held, rfl⟩
  · by_cases own : fd = other
    · simp [own] at held
    · simp only [Function.update_of_ne own] at held
      exact ⟨later, held, rfl⟩

theorem dispatchNextCommand (held : server.conns other = some old)
    (same : conn.send = old.send) :
    SendKept server ((server.setConn other conn).dispatchNextCommand other conn) fd := by
  simp only [Server.dispatchNextCommand]
  split
  · exact setConn held same
  · rw [setConn_setConn]
    exact setConn held same

theorem queueCommands (held : server.conns other = some old) (same : conn.send = old.send)
    (cmds : List (List Bytes)) : SendKept server (server.queueCommands other conn cmds) fd := by
  simp only [Server.queueCommands]
  split
  · exact dispatchNextCommand held same
  · exact setConn held same

theorem handleRead {config : ReactorConfig} {reads : List ReadResult} {events : List Event}
    (handled : server.handleRead config other reads = some (after, events)) :
    SendKept server after fd := by
  cases Server.handledRead handled with
  | absent free => exact of_eq rfl
  | hungUp held ended => exact handleClose server fd other
  | failed held received error => exact handleClose server fd other
  | queued held received clean =>
      apply queueCommands held
      rfl

theorem processComplete (server : Server Tid) (fd : ℕ) (id : ConnId) :
    SendKept server (server.processComplete id) fd := by
  simp only [Server.processComplete]
  cases held : server.conns id.fd with
  | none => exact of_eq rfl
  | some conn =>
      simp only
      split
      · exact of_eq rfl
      · exact dispatchNextCommand held rfl

theorem checkIdle (server : Server Tid) (config : ReactorConfig) (now : ℤ) (fd : ℕ) :
    SendKept server (server.checkIdle config now) fd := by
  intro later held
  simp only [Server.checkIdle] at held
  split at held
  · cases held
  · exact ⟨later, held, rfl⟩

end SendKept

/-! ## The events of a batch -/

section Batch

variable [DecidableEq Tid] {config : ReactorConfig} {state after : State Tid} {label : Label}
  {need : Need} {fd : ℕ}

omit [DecidableEq Tid] in
theorem holds_next {origin : Origin} (holds : (Place.draining .completing origin).Holds need fd) :
    origin.next.Holds need fd ∨ origin.stops = true := by
  cases origin with
  | wakeup events stopLoop =>
      cases stopLoop with
      | false => exact Or.inl holds
      | true => exact Or.inr rfl
  | iteration =>
      rcases holds with ⟨id, flags, mem, -, -⟩
      cases mem

omit [DecidableEq Tid] in
theorem holds_cons {first : Ready} {events : List Ready}
    (holds : (Place.handling (first :: events)).Holds need fd) :
    (∃ id flags, first = .conn id flags ∧ id.fd = fd ∧ flags.meets need = true) ∨
      (Place.handling events).Holds need fd := by
  rcases holds with ⟨id, flags, mem, own, meets⟩
  rcases List.mem_cons.mp mem with same | later
  · exact Or.inl ⟨id, flags, same.symm, own, meets⟩
  · exact Or.inr ⟨id, flags, later, own, meets⟩

omit [DecidableEq Tid] in
theorem not_holds_of_nil {place : Place} (empty : place.batch = []) : ¬place.Holds need fd := by
  rintro ⟨id, flags, mem, -, -⟩
  rw [empty] at mem
  cases mem

/-- An event stays in the batch until a handler attends to it, or the loop leaves. -/
theorem Step.holds (step : Step config state label after) (holds : state.place.Holds need fd) :
    after.place.Holds need fd ∨ Leaving after ∨
      ∃ id call, label = .handled id call ∧ id.fd = fd ∧ call.meets need = true := by
  have moved := step
  cases step with
  | start here | enter here | leave here | wait _ here | interrupted here | waitError here
  | checkIdle _ here | skipIdle here | finish here =>
      rw [here] at holds
      exact absurd holds (not_holds_of_nil rfl)
  | accept | processWrite | processComplete | take | execute | send | notify | signal | signalFull
  | stopFlag | stopByte | stopGaveUp => exact Or.inl holds
  | wake here | acceptEnd here =>
      rw [here] at holds
      rcases holds_cons holds with ⟨id, flags, first, -, -⟩ | held
      · cases first
      · exact Or.inl held
  | readPipe here | readDrained here | readError here =>
      rw [here] at holds
      exact Or.inl holds
  | close here error =>
      rw [here] at holds
      rcases holds_cons holds with ⟨id, flags, ⟨⟩, own, meets⟩ | held
      · exact Or.inr (Or.inr ⟨_, _, rfl, own, rfl⟩)
      · exact Or.inl held
  | @read reads id flags events server observed here alive input handled =>
      rw [here] at holds
      rcases holds_cons holds with ⟨other, found, ⟨⟩, own, meets⟩ | ⟨other, found, mem, own, meets⟩
      · cases need with
        | input => exact Or.inr (Or.inr ⟨_, _, rfl, own, rfl⟩)
        | output => exact Or.inl ⟨id, { flags with input := false }, List.mem_cons_self, own, meets⟩
      · exact Or.inl ⟨other, found, List.mem_cons_of_mem _ mem, own, meets⟩
  | write results here alive past output =>
      rw [here] at holds
      rcases holds_cons holds with ⟨id, flags, ⟨⟩, own, meets⟩ | held
      · cases need with
        | input =>
            rw [Flags.meets, alive, past] at meets
            cases meets
        | output => exact Or.inr (Or.inr ⟨_, _, rfl, own, rfl⟩)
      · exact Or.inl held
  | skip here alive past idle =>
      rw [here] at holds
      rcases holds_cons holds with ⟨id, flags, ⟨⟩, own, meets⟩ | held
      · cases need with
        | input =>
            rw [Flags.meets, alive, past] at meets
            cases meets
        | output =>
            rw [Flags.meets, alive, idle] at meets
            cases meets
      · exact Or.inl held
  | @swapWrites origin here | @writesDone origin here | @swapCompletes origin here =>
      rw [here] at holds
      cases origin with
      | wakeup events stopLoop => exact Or.inl holds
      | iteration => exact absurd holds (not_holds_of_nil rfl)
  | @completesDone origin here =>
      have leaving : state.place.stopping = origin.stops := by rw [here]; rfl
      rw [here] at holds
      rcases holds_next holds with held | stops
      · exact Or.inl held
      · right; left
        exact moved.leaving (Or.inr (Or.inr (leaving.trans stops)))

theorem Step.place_of_handled {id : ConnId} {call : Call}
    (step : Step config state (.handled id call) after) :
    ∃ flags events, state.place = .handling (.conn id flags :: events) := by
  cases step with
  | close handling | read _ handling | write _ handling => exact ⟨_, _, handling⟩

/-- The listening socket stays in the batch until `handle_accept` returns, or the loop leaves. -/
theorem Step.listening (step : Step config state label after)
    (listening : .listen ∈ state.place.batch) :
    .listen ∈ after.place.batch ∨ Leaving after ∨
      ∃ events, state.place = .handling (.listen :: events) ∧ after.place = .handling events := by
  have moved := step
  cases step with
  | start here | enter here | leave here | wait _ here | interrupted here | waitError here
  | checkIdle _ here | skipIdle here | finish here =>
      rw [here] at listening
      cases listening
  | accept | processWrite | processComplete | take | execute | send | notify | signal | signalFull
  | stopFlag | stopByte | stopGaveUp => exact Or.inl listening
  | readPipe here | readDrained here | readError here =>
      rw [here] at listening
      exact Or.inl listening
  | acceptEnd here => exact Or.inr (Or.inr ⟨_, here, rfl⟩)
  | wake here | close here | write _ here | skip here =>
      rw [here] at listening
      rcases List.mem_cons.mp listening with first | later
      · cases first
      · exact Or.inl later
  | read reads here =>
      rw [here] at listening
      rcases List.mem_cons.mp listening with first | later
      · cases first
      · exact Or.inl (List.mem_cons_of_mem _ later)
  | @swapWrites origin here | @writesDone origin here | @swapCompletes origin here =>
      rw [here] at listening
      cases origin with
      | wakeup events stopLoop => exact Or.inl listening
      | iteration => cases listening
  | @completesDone origin here =>
      rw [here] at listening
      cases origin with
      | wakeup events stopLoop =>
          cases stopLoop with
          | false => exact Or.inl listening
          | true =>
              right; left
              apply moved.leaving
              right; right
              rw [here]
              rfl
      | iteration => cases listening

end Batch

end RedisCpp.Net.EventLoop
