import RedisCpp.Net.Edges

/-!
# No connection is overlooked

Whatever waits on a socket, bytes to be read, the end of the stream, or room for the bytes that are
left to be written, has its connection on the ready list or in the batch that the loop goes through.
For the listening socket this holds unless `handle_accept` has given up.  The kernel polls round
robin, so that the handlers are called within a bounded number of waits.
-/

namespace RedisCpp.Net.EventLoop

open ReadyList (Stays)

variable {Tid : Type} {server after : Server Tid} {kernel middle kernelAfter : Kernel} {fd : ℕ}
  {need : Need}

/-! ## What a handler comes back with -/

/-- What is watched and listed stays so, and what comes to wait is listed. -/
structure Answered (server : Server Tid) (kernel : Kernel) (after : Server Tid)
    (kernelAfter : Kernel) : Prop where
  stays : ∀ source, source.watched after.conns = true →
    kernel.ready.Stays kernelAfter.ready source
  wants : ∀ need fd, Wants after kernelAfter need fd →
    Wants server kernel need fd ∨ .conn fd ∈ kernelAfter.ready
  backlog : 0 < kernelAfter.backlog → 0 < kernel.backlog ∨ .listen ∈ kernelAfter.ready

theorem stays_arm (kernel : Kernel) (interest : ℕ → Option Interest) (fd : ℕ) (source : Source) :
    kernel.ready.Stays (kernel.arm interest fd).ready source := by
  simp only [Kernel.arm]
  split
  · exact .signal _ source _
  · exact .refl _ source

theorem sockets_arm (kernel : Kernel) (interest : ℕ → Option Interest) (fd : ℕ) :
    (kernel.arm interest fd).sockets = kernel.sockets := by
  simp only [Kernel.arm]
  split
  · rfl
  · rfl

theorem backlog_arm (kernel : Kernel) (interest : ℕ → Option Interest) (fd : ℕ) :
    (kernel.arm interest fd).backlog = kernel.backlog := by
  simp only [Kernel.arm]
  split
  · rfl
  · rfl

theorem mem_arm {interest : ℕ → Option Interest}
    (any : ((kernel.sockets fd).flags (interest fd)).any = true) :
    .conn fd ∈ (kernel.arm interest fd).ready := by
  simp only [Kernel.arm, any, if_true]
  exact ReadyList.mem_signal_self

theorem Wants.watched (wants : Wants server kernel need fd) :
    (Source.conn fd).watched server.conns = true := by
  rcases wants with ⟨conn, held, -⟩
  rw [Source.watched, held, Option.isSome_some]

namespace Answered

theorem of_carries (carries : Carries server kernel kernelAfter) :
    Answered server kernel server kernelAfter :=
  ⟨fun source _ => carries.stays source, carries.wants, carries.backlog⟩

/-- A handler that sends nothing, and may close connections. -/
theorem of_sendKept (carries : Carries server kernel middle)
    (kept : ∀ fd, SendKept server after fd) :
    Answered server kernel after (middle.forget after.conns) := by
  refine ⟨fun source watched => (carries.stays source).trans (.keep watched), ?_, ?_⟩
  · intro need fd wants
    have before : Wants after middle need fd := wants
    rcases carries.wants need fd (before.before (kept fd)) with start | listed
    · exact Or.inl start
    · exact Or.inr (ReadyList.mem_keep listed wants.watched)
  · intro waiting
    rcases carries.backlog waiting with start | listed
    · exact Or.inl start
    · exact Or.inr (ReadyList.mem_keep listed rfl)

/-- A step that asks the kernel for nothing. -/
theorem of_conns (kept : ∀ fd, SendKept server after fd) : Answered server kernel after kernel :=
  ⟨fun source _ => .refl _ source, fun _ fd wants => Or.inl (wants.before (kept fd)), Or.inl⟩

/-- A new connection, on which something may have arrived before it was accepted. -/
theorem accept (server : Server Tid) (fd : ℕ) (now : ℤ) (kernel : Kernel) (socket : Socket) :
    Answered server kernel (server.handleAccept fd now)
      ((kernel.setSocket fd socket).arm (server.handleAccept fd now).interest fd) := by
  refine ⟨fun source _ => stays_arm (kernel.setSocket fd socket) _ fd source, ?_, ?_⟩
  · rintro need other ⟨conn, held, has⟩
    rw [sockets_arm] at has
    by_cases same : other = fd
    · subst same
      right
      apply mem_arm
      simp only [Server.handleAccept, Function.update_self, Option.some.injEq] at held
      subst held
      apply Flags.any_of_meets
      apply Socket.meets_flags has
      intro left
      exact absurd left (Nat.lt_irrefl 0)
    · left
      simp only [Server.handleAccept, Function.update_of_ne same] at held
      simp only [Kernel.setSocket, Function.update_of_ne same] at has
      exact ⟨conn, held, has⟩
  · rw [backlog_arm]
    exact Or.inl

end Answered

/-! ### Handlers that flush a connection -/

/-- A handler flushes one connection, and closes it if that fails.  Bytes that are left are sent
once the socket has room, for which it has been registered before or is now. -/
structure Flushes (server after : Server Tid) (fd : ℕ) (send : SendBuffer)
    (results : List WriteResult) (modified : Bool) : Prop where
  others : ∀ other, other ≠ fd → after.conns other = server.conns other
  own : ∀ later, after.conns fd = some later →
    (send.flush results).1 ≠ .failed ∧ later.send = (send.flush results).2.1
  registered : (send.flush results).1 = .pending → server.interest fd = some .inputOutput ∨
    modified = true ∧ after.interest fd = some .inputOutput

namespace Flushes

variable {send : SendBuffer} {results : List WriteResult} {modified : Bool} {conn : Connection}

theorem handleWrite (held : server.conns fd = some conn) (armed : Armed server) :
    Flushes server (server.handleWrite fd results).1 fd conn.send results
      (decide ((conn.send.flush results).1 = .drained)) := by
  have touched := touches_handleWrite held results
  refine ⟨touched.others, ?_, ?_⟩
  · intro later heldLater
    by_cases failed : (conn.send.flush results).1 = .failed
    · exact absurd (heldLater.symm.trans (touched.ended failed)) nofun
    · refine ⟨failed, ?_⟩
      simp only [Server.handleWrite, held, Server.flushConn] at heldLater
      split at heldLater
      · rename_i status
        exact absurd status failed
      · simp only [Server.epollMod, conns_setConn, Option.some.injEq] at heldLater
        rw [← heldLater]
      · simp only [conns_setConn, Option.some.injEq] at heldLater
        rw [← heldLater]
  · intro pending
    exact Or.inl (armed fd conn held (SendBuffer.flush_pending pending))

theorem processWrite {write : PendingWrite} (held : server.conns write.id.fd = some conn)
    (current : conn.generation = write.id.gen) :
    Flushes server (server.processWrite write results).1 write.id.fd
      (conn.sendEnqueue write.data).send results
      (decide (((conn.sendEnqueue write.data).send.flush results).1 = .pending)) := by
  simp only [Server.processWrite, held, current, ne_eq, not_true_eq_false, if_false,
    Server.flushConn]
  split
  · rename_i failed
    have closed := touches_handleClose (conns_setConn server write.id.fd
      { conn.sendEnqueue write.data with
        send := ((conn.sendEnqueue write.data).send.flush results).2.1 }) failed
    refine ⟨?_, ?_, ?_⟩
    · intro other different
      exact (closed.others other different).trans (Function.update_of_ne different _ _)
    · intro later heldLater
      exact absurd (heldLater.symm.trans (closed.ended failed)) (by simp)
    · intro pending
      exact absurd (failed.symm.trans pending) (by simp)
  · rename_i drained
    refine ⟨fun other different => Function.update_of_ne different _ _, ?_, ?_⟩
    · intro later heldLater
      simp only [conns_setConn, Option.some.injEq] at heldLater
      exact ⟨by rw [drained]; simp, by rw [← heldLater]⟩
    · intro pending
      exact absurd (drained.symm.trans pending) (by simp)
  · rename_i pending
    refine ⟨fun other different => Function.update_of_ne different _ _, ?_, ?_⟩
    · intro later heldLater
      simp only [Server.epollMod, conns_setConn, Option.some.injEq] at heldLater
      exact ⟨by rw [pending]; simp, by rw [← heldLater]⟩
    · intro _
      exact Or.inr ⟨decide_eq_true pending, Function.update_self _ _ _⟩

theorem stays_settle (kernel : Kernel) (after : Server Tid) (fd : ℕ) (modified : Bool)
    {source : Source} (watched : source.watched after.conns = true) :
    kernel.ready.Stays (kernel.settle after fd modified).ready source := by
  simp only [Kernel.settle]
  split
  · exact (stays_arm _ _ _ source).trans (.keep watched)
  · exact .keep watched

theorem sockets_settle (kernel : Kernel) (server : Server Tid) (fd : ℕ) (modified : Bool) :
    (kernel.settle server fd modified).sockets = kernel.sockets := by
  simp only [Kernel.settle]
  split
  · exact sockets_arm kernel server.interest fd
  · rfl

theorem backlog_settle (kernel : Kernel) (server : Server Tid) (fd : ℕ) (modified : Bool) :
    (kernel.settle server fd modified).backlog = kernel.backlog := by
  simp only [Kernel.settle]
  split
  · exact backlog_arm kernel server.interest fd
  · rfl

/-- Bytes that are left on a socket with room: their connection is listed. -/
theorem listed (flushes : Flushes server after fd send results modified)
    (flushing : Flushing server.interest fd kernel (send.flush results).1 middle)
    (wants : Wants after (middle.settle after fd modified) .output fd) :
    .conn fd ∈ (middle.settle after fd modified).ready := by
  rcases wants with ⟨later, held, left, room⟩
  have watched : (Source.conn fd).watched after.conns = true := by
    rw [Source.watched, held, Option.isSome_some]
  rw [sockets_settle] at room
  rcases flushes.own later held with ⟨alive, same⟩
  have pending : (send.flush results).1 = .pending := by
    cases status : (send.flush results).1 with
    | pending => rfl
    | failed => exact absurd status alive
    | drained =>
        rw [same, SendBuffer.flush_drained status] at left
        exact absurd left (Nat.lt_irrefl 0)
  rcases flushes.registered pending with before | ⟨now, registered⟩
  · rcases flushing with ⟨found, first, taken, full, acts⟩
    have empty := full pending
    subst empty
    have returned := room_or_listed acts before (by simp [Kernel.setSocket])
    rcases returned with still | listed
    · exact absurd (still.symm.trans room) (by simp)
    · exact (stays_settle middle after fd modified watched listed).1
  · subst now
    have meets : ((middle.sockets fd).flags (after.interest fd)).any = true := by
      simp [Socket.flags, Flags.any, room, registered]
    exact ReadyList.mem_keep (mem_arm meets) watched

theorem answered (flushes : Flushes server after fd send results modified)
    (held : server.conns fd = some conn) (armed : Armed server)
    (flushing : Flushing server.interest fd kernel (send.flush results).1 middle) :
    Answered server kernel after (middle.settle after fd modified) := by
  have carries := Carries.flushing armed flushing
  refine ⟨fun source watched => (carries.stays source).trans
    (stays_settle middle after fd modified watched), ?_, ?_⟩
  · intro need other wants
    have watched := wants.watched
    by_cases same : other = fd
    · subst same
      cases need with
      | output => exact Or.inr (flushes.listed flushing wants)
      | input =>
          rcases wants with ⟨later, -, has⟩
          rw [sockets_settle] at has
          rcases carries.wants .input other ⟨conn, held, has⟩ with start | listed
          · exact Or.inl start
          · exact Or.inr (stays_settle middle after other modified watched listed).1
    · rcases wants with ⟨later, heldLater, has⟩
      rw [sockets_settle] at has
      rw [flushes.others other same] at heldLater
      rcases carries.wants need other ⟨later, heldLater, has⟩ with start | listed
      · exact Or.inl start
      · exact Or.inr (stays_settle middle after fd modified watched listed).1
  · intro waiting
    rw [backlog_settle] at waiting
    rcases carries.backlog waiting with start | listed
    · exact Or.inl start
    · exact Or.inr (stays_settle middle after fd modified rfl listed).1

end Flushes

/-! ## The steps of the system -/

namespace System

variable [DecidableEq Tid] {config : ReactorConfig} {system next : System Tid} {act : Act}

/-- A step of the system is a step of the loop, or the loop does not move. -/
theorem Step.loop_step (step : Step config system act next) :
    next.loop = system.loop ∨
      ∃ label, EventLoop.Step config system.loop label next.loop ∧
        (act = .loop label ∨ act = .acceptFailed ∧ label = .other) := by
  cases step with
  | network => exact Or.inl rfl
  | wait step | accept _ step | absent step | close step | read step | write step | written step
  | other step => exact Or.inr ⟨_, step, Or.inl rfl⟩
  | acceptEnd handling => exact Or.inr ⟨_, .acceptEnd handling, Or.inl rfl⟩
  | acceptFailed handling => exact Or.inr ⟨_, .acceptEnd handling, Or.inr ⟨rfl, rfl⟩⟩
  | processWrite results draining writing held current flushing processed =>
      subst processed
      exact Or.inr ⟨_, .processWrite results draining writing, Or.inl rfl⟩
  | checkIdle now idling enabled => exact Or.inr ⟨_, .checkIdle now idling enabled, Or.inl rfl⟩

omit [DecidableEq Tid] in
theorem interest_processComplete (server : Server Tid) (id : ConnId) :
    (server.processComplete id).interest = server.interest := by
  simp only [Server.processComplete, Server.dispatchNextCommand]
  split
  · rfl
  · split
    · rfl
    · split
      · rfl
      · rfl

/-- Whatever the kernel has, the loop may do what does not end with an answer about a socket. -/
theorem exists_step {label : Label} {state : State Tid}
    (step : EventLoop.Step config system.loop label state) (own : label.asks = false) :
    ∃ act kernel, Step config system act ⟨state, kernel⟩ := by
  have moved := step
  cases step with
  | wait | accept | close | read | write => cases own
  | start here | enter here | leave here | interrupted here | waitError here | wake here
  | readDrained here | readError here | skip here | finish here | swapWrites here
  | writesDone here | swapCompletes here | completesDone here | skipIdle here =>
      exact ⟨_, _, .other moved rfl (.of_server rfl rfl rfl fun _ elsewhere =>
        absurd (here.symm.trans elsewhere) nofun)⟩
  | take | execute | send | notify | signalFull | stopFlag | stopGaveUp =>
      exact ⟨_, _, .other moved rfl (.of_place rfl rfl rfl rfl)⟩
  | readPipe here available =>
      refine ⟨_, _, .other moved rfl ⟨fun _ conn held => ⟨conn, held, rfl⟩, rfl, fun _ => available,
        fun _ elsewhere => absurd (here.symm.trans elsewhere) nofun⟩⟩
  | acceptEnd here => exact ⟨_, _, .acceptFailed here⟩
  | checkIdle now here enabled => exact ⟨_, _, .checkIdle now here enabled⟩
  | signal | stopByte => exact ⟨_, _, .written moved ⟨_, rfl⟩ rfl rfl⟩
  | @processComplete origin done completes here completing =>
      refine ⟨_, _, .other moved rfl ⟨?_, ?_, id, fun _ _ => rfl⟩⟩
      · exact fun fd => SendKept.processComplete (system.loop.server.setPhase _) fd done
      · exact interest_processComplete (system.loop.server.setPhase _) done
  | @processWrite results origin write writes here writing =>
      rcases conn_cases (system.loop.server.setPhase (.writing writes)) write.id with
        ⟨conn, held, current⟩ | closed
      · exact ⟨_, _, .processWrite results here writing held current
          ⟨false, .refl, nofun, fun _ => rfl, .refl⟩ rfl⟩
      · have unchanged := congrArg Prod.fst
          (@processWrite_of_closed _ _ _ results closed)
        refine ⟨_, _, .other moved rfl (.of_place ?_ ?_ rfl rfl)⟩
        · exact (congrArg Server.conns unchanged).trans rfl
        · exact (congrArg Server.interest unchanged).trans rfl

/-- A run of the system is a run of the loop. -/
theorem loop_run {moves : List (Transition.Move (System Tid) Act)} (run : Run config moves system) :
    ∃ steps, EventLoop.Run config steps system.loop := by
  induction run with
  | nil => exact ⟨[], .nil⟩
  | snoc _ step inductionHypothesis =>
      rcases inductionHypothesis with ⟨steps, before⟩
      rcases step.loop_step with same | ⟨label, moved, -⟩
      · exact ⟨steps, same ▸ before⟩
      · exact ⟨_, before.snoc moved⟩

theorem armed_run {moves : List (Transition.Move (System Tid) Act)}
    (run : Run config moves system) :
    Armed system.loop.server := by
  rcases loop_run run with ⟨steps, looped⟩
  rcases server_run looped with ⟨observed, served⟩
  intro fd conn held
  exact (Unwedged.run served fd conn held).armed

/-- A step other than a wait answers whatever comes to wait. -/
theorem Step.answered (step : Step config system act next) (armed : Armed system.loop.server)
    (other : act ≠ .loop .waited) :
    Answered system.loop.server system.kernel next.loop.server next.kernel := by
  cases step with
  | network acts => exact .of_carries (.network acts armed)
  | wait => exact absurd rfl other
  | acceptEnd | acceptFailed => exact .of_carries (.refl _ _)
  | absent step free =>
      rw [step.conns_of_closed free]
      exact .of_carries (.refl _ _)
  | written step grown server place =>
      rw [server]
      exact ⟨fun source _ => .signal _ source _, fun _ _ wants => Or.inl wants, Or.inl⟩
  | other step own quiet => exact .of_conns quiet.conns
  | checkIdle now idling enabled => exact .of_sendKept (.refl _ _) (.checkIdle _ config now)
  | close step =>
      cases step with
      | close handling error => exact .of_sendKept (.refl _ _) fun fd => .handleClose _ fd _
  | read step reading =>
      cases step with
      | read reads handling alive input handled =>
          exact .of_sendKept (.reading armed reading) fun _ => .handleRead handled
  | write step held flushing =>
      cases step with
      | write results handling alive past output =>
          exact (Flushes.handleWrite held armed).answered held armed flushing
  | @processWrite results origin write writes conn kernel server draining writing held current
      flushing processed =>
      subst processed
      have flushed : Flushes (system.loop.server.setPhase (.writing writes)) _ write.id.fd _ results
        _ := .processWrite held current
      have answered := flushed.answered held armed flushing
      exact ⟨answered.stays, answered.wants, answered.backlog⟩
  | @accept fd backlog _ socket step pending =>
      cases step with
      | accept _ now handling free =>
          have answered := Answered.accept system.loop.server fd now
            { system.kernel with backlog := backlog } socket
          exact ⟨answered.stays, answered.wants, fun _ => Or.inl (by omega)⟩

omit [DecidableEq Tid] in
theorem not_held_handleClose (server : Server Tid) (fd : ℕ) {conn : Connection} :
    (server.handleClose fd).conns fd ≠ some conn := by
  simp only [Server.handleClose]
  split
  · rename_i free
    rw [free]
    simp
  · simp

omit [DecidableEq Tid] in
/-- A connection that is open after a read has not been at its end. -/
theorem readLoop_of_open {reads : List ReadResult} {events : List Event} {conn : Connection}
    (handled : server.handleRead config fd reads = some (after, events))
    (held : after.conns fd = some conn) :
    ∃ buf lastActive found,
      Server.readLoop config.maxRecvBytes reads buf lastActive = some found := by
  cases Server.handledRead handled with
  | absent free =>
      rw [free] at held
      cases held
  | hungUp | failed => exact absurd held (not_held_handleClose server fd)
  | queued opened received clean => exact ⟨_, _, _, received⟩

/-- A handler that attends to a need leaves nothing of it unlisted. -/
theorem Step.attends {id : ConnId} {call : Call}
    (step : Step config system (.loop (.handled id call)) next) (armed : Armed system.loop.server)
    (meets : call.meets need = true)
    (wants : Wants next.loop.server next.kernel need id.fd) : .conn id.fd ∈ next.kernel.ready := by
  cases step with
  | absent step free =>
      rcases wants with ⟨conn, held, -⟩
      rw [step.conns_of_closed free, free] at held
      cases held
  | close step =>
      rcases wants with ⟨conn, held, -⟩
      cases step with
      | close handling error => exact absurd held (not_held_handleClose system.loop.server id.fd)
  | read step reading =>
      cases need with
      | output => cases meets
      | input =>
          rcases wants with ⟨conn, held, has⟩
          cases step with
          | read reads handling alive input handled =>
              rcases readLoop_of_open handled held with ⟨buf, lastActive, found, looped⟩
              rcases reading.empty looped with ⟨empty, open'⟩
              rcases has with unread | ended
              · exact absurd empty unread
              · exact absurd (open'.symm.trans ended) nofun
  | write step held flushing =>
      cases need with
      | input => cases meets
      | output =>
          cases step with
          | write results handling alive past output =>
              exact (Flushes.handleWrite held armed).listed flushing wants
  | other step own => cases own

/-! ## Whatever waits is listed -/

omit [DecidableEq Tid] in
/-- What waits on a connection is found by a poll that comes to it. -/
theorem report_of_wants {loop : State Tid} (wants : Wants loop.server kernel need fd)
    (armed : Armed loop.server) :
    ∃ id flags, kernel.report loop (.conn fd) = some (.conn id flags) ∧ id.fd = fd ∧
      flags.meets need = true := by
  rcases wants with ⟨conn, held, has⟩
  have meets := Socket.meets_flags has (armed fd conn held)
  refine ⟨⟨fd, conn.generation⟩, (kernel.sockets fd).flags (loop.server.interest fd), ?_, rfl,
    meets⟩
  simp only [Kernel.report, held, Option.bind_some, Flags.any_of_meets meets, if_true]

/-- A wait reports a connection that is listed, or leaves fewer sources ahead of it. -/
theorem Step.waited_conn (step : Step config system (.loop .waited) next)
    (armed : Armed system.loop.server) (wants : Wants system.loop.server system.kernel need fd)
    (listed : .conn fd ∈ system.kernel.ready) :
    next.loop.place.Holds need fd ∨ .conn fd ∈ next.kernel.ready ∧
      next.kernel.ready.ahead (.conn fd) + maxEvents ≤ system.kernel.ready.ahead (.conn fd) := by
  cases step with
  | wait step polled =>
      rcases report_of_wants wants armed with ⟨id, flags, reports, own, meets⟩
      rcases polled.reported_or_ahead listed reports with reported | later
      · exact Or.inl ⟨id, flags, reported, own, meets⟩
      · exact Or.inr later
  | other step own => cases own

/-- While the loop goes on, whatever waits on an open connection has the connection listed or in
the batch, and a pipe that is not empty is listed. -/
structure Attended (system : System Tid) : Prop where
  conns : ∀ need fd, Wants system.loop.server system.kernel need fd →
    .conn fd ∈ system.kernel.ready ∨ system.loop.place.Holds need fd ∨ Leaving system.loop
  wakeup : system.loop.pipe ≠ [] → .wakeup ∈ system.kernel.ready

/-- Somebody who waits to be accepted has the listening socket listed or in the batch. -/
def Listens (system : System Tid) : Prop :=
  0 < system.kernel.backlog → .listen ∈ system.kernel.ready ∨
    .listen ∈ system.loop.place.batch ∨ Leaving system.loop

theorem Step.leaving (step : Step config system act next) (leaving : Leaving system.loop) :
    Leaving next.loop := by
  rcases step.loop_step with same | ⟨label, moved, -⟩
  · rwa [same]
  · exact moved.leaving leaving

/-- An event that a need has in the batch stays there, unless its handler is called now. -/
theorem Step.holds (step : Step config system act next)
    (holds : system.loop.place.Holds need fd) :
    next.loop.place.Holds need fd ∨ Leaving next.loop ∨
      ∃ id call, act = .loop (.handled id call) ∧ id.fd = fd ∧ call.meets need = true := by
  rcases step.loop_step with same | ⟨label, moved, named⟩
  · left
    rwa [same]
  · rcases moved.holds holds with held | leaving | ⟨id, call, rfl, own, meets⟩
    · exact Or.inl held
    · exact Or.inr (Or.inl leaving)
    · rcases named with same | ⟨-, other⟩
      · exact Or.inr (Or.inr ⟨id, call, same, own, meets⟩)
      · cases other

omit [DecidableEq Tid] in
theorem not_holds_of_waiting (waiting : system.loop.place = .waiting) :
    ¬system.loop.place.Holds need fd := by
  apply not_holds_of_nil
  rw [waiting]
  rfl

theorem Step.place_of_waited (step : Step config system (.loop .waited) next) :
    system.loop.place = .waiting := by
  cases step with
  | wait step => exact (step.waited rfl).1
  | other step own => cases own

theorem Step.attended_conn (step : Step config system act next)
    (armed : Armed system.loop.server) (attended : Attended system)
    (wants : Wants next.loop.server next.kernel need fd) :
    .conn fd ∈ next.kernel.ready ∨ next.loop.place.Holds need fd ∨ Leaving next.loop := by
  by_cases waited : act = .loop .waited
  · subst waited
    have before : Wants system.loop.server system.kernel need fd := by
      cases step with
      | wait => exact wants
      | other step own => cases own
    rcases attended.conns need fd before with listed | held | leaving
    · rcases step.waited_conn armed before listed with held | ⟨listed, -⟩
      · exact Or.inr (Or.inl held)
      · exact Or.inl listed
    · exact absurd held (not_holds_of_waiting step.place_of_waited)
    · exact Or.inr (Or.inr (step.leaving leaving))
  · have answered := step.answered armed waited
    rcases answered.wants need fd wants with before | listed
    · rcases attended.conns need fd before with listed | held | leaving
      · exact Or.inl (answered.stays _ wants.watched listed).1
      · rcases step.holds held with held | leaving | ⟨id, call, rfl, rfl, meets⟩
        · exact Or.inr (Or.inl held)
        · exact Or.inr (Or.inr leaving)
        · exact Or.inl (step.attends armed meets wants)
      · exact Or.inr (Or.inr (step.leaving leaving))
    · exact Or.inl listed

/-- Only a write puts a byte into an empty pipe. -/
theorem Step.pipe (step : Step config system act next) (written : next.loop.pipe ≠ []) :
    system.loop.pipe ≠ [] ∨ .wakeup ∈ next.kernel.ready := by
  cases step with
  | network | wait | acceptEnd | acceptFailed | processWrite | checkIdle => exact Or.inl written
  | accept _ step | absent step | close step | read step | write step =>
      left
      cases step
      all_goals exact written
  | written step grown server place => exact Or.inr ReadyList.mem_signal_self
  | other step own quiet => exact Or.inl (quiet.pipe written)

theorem Step.attended (step : Step config system act next) (armed : Armed system.loop.server)
    (attended : Attended system) : Attended next := by
  refine ⟨fun need fd wants => step.attended_conn armed attended wants, ?_⟩
  intro written
  by_cases waited : act = .loop .waited
  · subst waited
    cases step with
    | wait step polled =>
        apply polled.mem_of_level (attended.wakeup written) rfl
        show (if system.loop.pipe.isEmpty then none else some Ready.wakeup) = some .wakeup
        rw [if_neg]
        simpa using written
    | other step own => cases own
  · rcases step.pipe written with before | listed
    · exact ((step.answered armed waited).stays .wakeup rfl (attended.wakeup before)).1
    · exact listed

/-- `handle_accept` returns when nobody waits to be accepted, or it gives up. -/
theorem Step.accepted_all {events : List Ready} (step : Step config system act next)
    (here : system.loop.place = .handling (.listen :: events))
    (gone : next.loop.place = .handling events) :
    next.kernel.backlog = 0 ∨ act = .acceptFailed := by
  have moved : next.loop.place ≠ system.loop.place := by
    rw [here, gone]
    simp
  cases step with
  | acceptEnd handling empty => exact Or.inl empty
  | acceptFailed => exact Or.inr rfl
  | network | processWrite => exact absurd rfl moved
  | written step grown server place => exact absurd place moved
  | other step own quiet => exact absurd (quiet.accepting events here) moved
  | checkIdle now idling => exact absurd (idling.symm.trans here) nofun
  | wait step => exact absurd ((step.waited rfl).1.symm.trans here) nofun
  | accept socket step =>
      cases step with
      | accept => exact absurd rfl moved
  | absent step | close step | read step | write step =>
      rcases step.place_of_handled with ⟨flags, rest, handling⟩
      exact absurd (handling.symm.trans here) nofun

theorem Step.listens (step : Step config system act next) (armed : Armed system.loop.server)
    (succeeds : act ≠ .acceptFailed) (listens : Listens system) : Listens next := by
  intro waiting
  by_cases waited : act = .loop .waited
  · subst waited
    have place := step.place_of_waited
    have leavingAfter := step.leaving
    cases step with
    | wait step polled =>
        rcases listens waiting with listed | held | leaving
        · have reports : system.kernel.report system.loop .listen = some .listen :=
            if_neg (Nat.pos_iff_ne_zero.mp waiting)
          rcases polled.reported_or_ahead listed reports with reported | ⟨later, -⟩
          · exact Or.inr (Or.inl reported)
          · exact Or.inl later
        · rw [place] at held
          cases held
        · exact Or.inr (Or.inr (leavingAfter leaving))
    | other step own => cases own
  · have answered := step.answered armed waited
    rcases answered.backlog waiting with before | listed
    · rcases listens before with listed | held | leaving
      · exact Or.inl (answered.stays .listen rfl listed).1
      · rcases step.loop_step with same | ⟨label, moved, -⟩
        · exact Or.inr (Or.inl (same ▸ held))
        · rcases moved.listening held with held | leaving | ⟨events, here, gone⟩
          · exact Or.inr (Or.inl held)
          · exact Or.inr (Or.inr leaving)
          · rcases step.accepted_all here gone with empty | failed
            · exact absurd empty (Nat.pos_iff_ne_zero.mp waiting)
            · exact absurd failed succeeds
      · exact Or.inr (Or.inr (step.leaving leaving))
    · exact Or.inl listed

/-! ## Runs -/

variable {moves later : List (Transition.Move (System Tid) Act)} {final : System Tid}

theorem attended_run (run : Run config moves system) : Attended system := by
  apply run.invariant
  · refine ⟨?_, fun written => absurd rfl written⟩
    rintro need fd ⟨conn, held, -⟩
    cases held
  · intro _ _ _ _ before attended step
    exact step.attended (armed_run before) attended

theorem listens_run (run : Run config moves system)
    (succeeds : ∀ move ∈ moves, move.label ≠ .acceptFailed) : Listens system := by
  induction run with
  | nil => exact fun waiting => absurd waiting (Nat.lt_irrefl 0)
  | snoc run step inductionHypothesis =>
      apply step.listens (armed_run run)
      · exact succeeds _ (List.mem_append_right _ (List.mem_singleton_self _))
      · apply inductionHypothesis
        intro move mem
        exact succeeds move (List.mem_append_left _ mem)

/-- The number of waits that have returned events. -/
def waits (moves : List (Transition.Move (System Tid) Act)) : ℕ :=
  moves.countP fun move => move.label = .loop .waited

omit [DecidableEq Tid] in
theorem waits_snoc (moves : List (Transition.Move (System Tid) Act)) (source target : System Tid)
    (act : Act) :
    waits (moves ++ [⟨source, act, target⟩]) =
      waits moves + if act = .loop .waited then 1 else 0 := by
  simp [waits, List.countP_append, List.countP_cons]

/-- While something waits on a connection and no handler attends to it, each wait brings the
connection closer to the front of the ready list, until it is in the batch. -/
theorem nearer_run (run : Run config moves system)
    (continued : Transition.Run (Step config) system later final)
    (wants : Wants system.loop.server system.kernel need fd)
    (waiting : ∀ move ∈ later, Wants move.target.loop.server move.target.kernel need fd)
    (unattended : ∀ move ∈ later, ∀ id call, move.label = .loop (.handled id call) →
      id.fd = fd → call.meets need = false) :
    (.conn fd ∈ final.kernel.ready ∧ final.kernel.ready.ahead (.conn fd) + maxEvents * waits later ≤
        system.kernel.ready.ahead (.conn fd)) ∨
      (final.loop.place.Holds need fd ∧
        waits later ≤ system.kernel.ready.ahead (.conn fd) / maxEvents + 1) ∨
      Leaving final.loop := by
  induction continued with
  | nil =>
      rcases (attended_run run).conns need fd wants with listed | held | leaving
      · exact Or.inl ⟨listed, by simp [waits]⟩
      · exact Or.inr (Or.inl ⟨held, Nat.zero_le _⟩)
      · exact Or.inr (Or.inr leaving)
  | @snoc later middle after act continued step inductionHypothesis =>
      have armed := armed_run (run.trans continued)
      have last : (⟨middle, act, after⟩ : Transition.Move (System Tid) Act) ∈
          later ++ [⟨middle, act, after⟩] := List.mem_append_right _ (List.mem_singleton_self _)
      have before := inductionHypothesis
        (fun move mem => waiting move (List.mem_append_left _ mem))
        (fun move mem => unattended move (List.mem_append_left _ mem))
      have wantsAfter := waiting _ last
      have wantsBefore : Wants middle.loop.server middle.kernel need fd := by
        rcases continued.ends with rfl | ⟨move, mem, rfl⟩
        · exact wants
        · exact waiting move (List.mem_append_left _ mem)
      rw [waits_snoc]
      by_cases waited : act = .loop .waited
      · subst waited
        rw [if_pos rfl]
        rcases before with ⟨listed, bound⟩ | ⟨held, -⟩ | leaving
        · have waitsBound : waits later ≤ system.kernel.ready.ahead (.conn fd) / maxEvents := by
            rw [Nat.le_div_iff_mul_le (by decide), Nat.mul_comm]
            exact (Nat.le_add_left _ _).trans bound
          rcases step.waited_conn armed wantsBefore listed with held | ⟨still, fewer⟩
          · exact Or.inr (Or.inl ⟨held, Nat.succ_le_succ waitsBound⟩)
          · refine Or.inl ⟨still, ?_⟩
            rw [Nat.mul_succ]
            omega
        · exact absurd held (not_holds_of_waiting step.place_of_waited)
        · exact Or.inr (Or.inr (step.leaving leaving))
      · rw [if_neg waited, Nat.add_zero]
        rcases before with ⟨listed, bound⟩ | ⟨held, bound⟩ | leaving
        · rcases (step.answered armed waited).stays _ wantsAfter.watched listed with ⟨still, fewer⟩
          exact Or.inl ⟨still, (Nat.add_le_add_right fewer _).trans bound⟩
        · rcases step.holds held with held | leaving | ⟨id, call, same, own, meets⟩
          · exact Or.inr (Or.inl ⟨held, bound⟩)
          · exact Or.inr (Or.inr leaving)
          · rw [unattended _ last id call same own] at meets
            cases meets
        · exact Or.inr (Or.inr (step.leaving leaving))

/-- Nothing that waits on a socket is overlooked, whatever the network does in the meantime.  While
the loop goes on, an open connection with bytes to be read, with an end of the stream to be noticed
or with bytes to be written and room for them is on the ready list or in the batch.  The same holds
for the listening socket while clients wait to be accepted, unless `handle_accept` has given up, and
a wakeup pipe that is not empty is always listed. -/
theorem nothing_overlooked {Tid : Type} [DecidableEq Tid] {config : ReactorConfig}
    {moves : List (Transition.Move (System Tid) Act)} {system : System Tid}
    (run : Run config moves system) (going : ¬Leaving system.loop) :
    (∀ fd conn need, system.loop.server.conns fd = some conn →
        (system.kernel.sockets fd).Has conn.send need →
        .conn fd ∈ system.kernel.ready ∨ system.loop.place.Holds need fd) ∧
      (0 < system.kernel.backlog → .listen ∈ system.kernel.ready ∨
        .listen ∈ system.loop.place.batch ∨ ∃ move ∈ moves, move.label = .acceptFailed) ∧
      (system.loop.pipe ≠ [] → .wakeup ∈ system.kernel.ready) := by
  have attended := attended_run run
  refine ⟨?_, ?_, attended.wakeup⟩
  · intro fd conn need held has
    rcases attended.conns need fd ⟨conn, held, has⟩ with listed | held | leaving
    · exact Or.inl listed
    · exact Or.inr held
    · exact absurd leaving going
  · intro waiting
    by_cases failed : ∃ move ∈ moves, move.label = .acceptFailed
    · exact Or.inr (Or.inr failed)
    · have succeeds : ∀ move ∈ moves, move.label ≠ .acceptFailed := by
        intro move mem gaveUp
        exact failed ⟨move, mem, gaveUp⟩
      rcases listens_run run succeeds waiting with listed | held | leaving
      · exact Or.inl listed
      · exact Or.inr (Or.inl held)
      · exact absurd leaving going

/-- With nothing left to do, the loop comes back to the wait. -/
theorem waits_again (run : Run config moves system) (handled : system.loop.place = .handling [])
    (running : system.loop.running = true) (polling : system.loop.server.phase = .polling)
    (written : system.loop.server.pendingWrites = [])
    (completed : system.loop.server.completedCommands = []) :
    ∃ later, Run config later ⟨{ system.loop with place := .waiting }, system.kernel⟩ := by
  rcases system with ⟨⟨server, place, running, pipe, signalling, stopping⟩, kernel⟩
  rcases server with ⟨conns, interest, genCounter, phase, writes, completes, tasks, pool⟩
  simp only at handled running polling written completed
  subst handled running polling written completed
  have finished := run.snoc (.other (.finish rfl) rfl (.of_server rfl rfl rfl nofun))
  have wrote := (finished.snoc (.other (.swapWrites rfl) rfl (.of_server rfl rfl rfl nofun))).snoc
    (.other (.writesDone rfl rfl) rfl (.of_server rfl rfl rfl nofun))
  have drained := (wrote.snoc (.other (.swapCompletes rfl) rfl (.of_server rfl rfl rfl nofun))).snoc
    (.other (.completesDone rfl rfl) rfl (.of_server rfl rfl rfl nofun))
  exact ⟨_, (drained.snoc (.other (.skipIdle rfl) rfl (.of_server rfl rfl rfl nofun))).snoc
    (.other (.enter rfl rfl) rfl (.of_server rfl rfl rfl nofun))⟩

/-- A client has connected and has sent a request before it was accepted. -/
theorem accepted_run :
    ∃ (moves : List (Transition.Move (System Unit) Act)) (server : Server Unit) (conn : Connection)
      (kernel : Kernel),
      Run {} moves ⟨⟨server, .handling [.listen], true, [], fun _ => none, 0⟩, kernel⟩ ∧
        server.conns 7 = some conn ∧ server.interest 7 = some .input ∧
        server.phase = .polling ∧ server.pendingWrites = [] ∧
        server.completedCommands = [] ∧ kernel.backlog = 0 ∧
        kernel.sockets 7 = ⟨ascii "PING\r\n", false, true⟩ ∧ kernel.ready.sources = [.conn 7] := by
  have connected := (@Transition.Run.nil _ _ (@Step Unit _ {}) .initial).snoc (.network .connect)
  have entered := (connected.snoc (.other (.start rfl) rfl (.of_server rfl rfl rfl nofun))).snoc
    (.other (.enter rfl rfl) rfl (.of_server rfl rfl rfl nofun))
  have reported := entered.snoc (@Step.wait Unit _ {} _ [.listen] .empty
    (.wait [.listen] rfl ⟨by simp [maxEvents], by simp, by simp, by simp⟩)
    ⟨[.listen], [], rfl, rfl, by simp [maxEvents], Or.inl rfl, rfl⟩)
  have accepted := reported.snoc (.accept ⟨ascii "PING\r\n", false, true⟩ (.accept 7 0 rfl rfl) rfl)
  exact ⟨_, _, _, _, accepted, rfl, rfl, rfl, rfl, rfl, rfl, rfl, rfl⟩

theorem nothing_overlooked_early :
    ∃ (moves : List (Transition.Move (System Unit) Act)) (system : System Unit),
      Run {} moves system ∧ (system.kernel.sockets 7).unread = ascii "PING\r\n" ∧
        .conn 7 ∈ system.kernel.ready := by
  rcases accepted_run with
    ⟨moves, server, conn, kernel, accepted, held, -, -, -, -, -, socket, -⟩
  have going : ¬Leaving (State.mk server (.handling [.listen]) true [] (fun _ => none) 0) := by
    simp [Leaving, Place.stopping]
  have has : (kernel.sockets 7).Has conn.send .input := by
    left
    rw [socket]
    simp [ascii]
  refine ⟨_, _, accepted, by rw [socket], ?_⟩
  rcases (nothing_overlooked accepted going).1 7 conn .input held has with
    listed | ⟨id, flags, mem, -⟩
  · exact listed
  · cases List.mem_singleton.mp mem

/-- A connection on which something waits has its handler called before the loop has waited more
often than it takes to go through the sources that are listed before it, and once more. -/
theorem attended_within {Tid : Type} [DecidableEq Tid] {config : ReactorConfig}
    {moves later : List (Transition.Move (System Tid) Act)} {system final : System Tid}
    {need : Need} {fd : ℕ} (run : Run config moves system)
    (wants : Wants system.loop.server system.kernel need fd)
    (continued : Transition.Run (Step config) system later final)
    (waiting : ∀ move ∈ later, Wants move.target.loop.server move.target.kernel need fd)
    (unattended : ∀ move ∈ later, ∀ id call, move.label = .loop (.handled id call) →
      id.fd = fd → call.meets need = false)
    (going : ¬Leaving final.loop) :
    waits later ≤ system.kernel.ready.ahead (.conn fd) / maxEvents + 1 := by
  rcases nearer_run run continued wants waiting unattended with ⟨-, bound⟩ | ⟨-, bound⟩ | leaving
  · have passed : waits later ≤ system.kernel.ready.ahead (.conn fd) / maxEvents := by
      rw [Nat.le_div_iff_mul_le (by decide), Nat.mul_comm]
      exact (Nat.le_add_left _ _).trans bound
    exact Nat.le_succ_of_le passed
  · exact bound
  · exact absurd leaving going

/-- The connection of the client is reported by the next wait. -/
theorem attended_within_early :
    ∃ (moves later : List (Transition.Move (System Unit) Act)) (system final : System Unit),
      Run {} moves system ∧ Wants system.loop.server system.kernel .input 7 ∧
        Transition.Run (Step {}) system later final ∧ final.loop.place.Holds .input 7 ∧
        waits later ≤ 1 := by
  rcases accepted_run with
    ⟨moves, server, conn, kernel, accepted, held, registered, polling, written, completed, empty,
      socket, front⟩
  rcases waits_again (accepted.snoc (.acceptEnd rfl empty)) rfl rfl polling written completed with
    ⟨moves, waiting⟩
  have has : (kernel.sockets 7).Has conn.send .input := by
    left
    rw [socket]
    nofun
  have wants : Wants server kernel .input 7 := ⟨conn, held, has⟩
  have flags : (kernel.sockets 7).flags (server.interest 7) = { input := true } := by
    rw [socket, registered]
    rfl
  have reports : State.Reports ⟨server, .waiting, true, [], fun _ => none, 0⟩
      [.conn ⟨7, conn.generation⟩ { input := true }] := by
    refine ⟨by simp [maxEvents], by simp, by simp, ?_⟩
    rintro id flags mem
    cases List.mem_singleton.mp mem
    exact ⟨conn, held, rfl⟩
  have reported := (@Transition.Run.nil _ _ (@Step Unit _ {}) _).snoc
    (@Step.wait Unit _ {} ⟨⟨server, .waiting, true, [], fun _ => none, 0⟩, kernel⟩ _ .empty
      (.wait _ rfl reports) ⟨[.conn 7], [], front, by simp [Kernel.report, held, flags, Flags.any],
        by simp [maxEvents], Or.inl rfl, by simp [ReadyList.empty, Source.level]⟩)
  have bound := attended_within waiting wants reported (by
    intro move mem
    cases List.mem_singleton.mp mem
    exact wants) (by
    intro move mem id call same
    cases List.mem_singleton.mp mem
    cases same) (by simp [Leaving, Place.stopping])
  rw [ReadyList.ahead, front] at bound
  exact ⟨_, _, _, _, waiting, wants, reported, ⟨_, _, List.mem_singleton_self _, rfl, rfl⟩, bound⟩

end System

end RedisCpp.Net.EventLoop
