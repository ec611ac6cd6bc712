import RedisCpp.Net.EventLoop
import RedisCpp.Net.Pipelining

/-!
# What arrives on a connection

The steps of the server do not say which bytes the kernel has delivered.  Here they do: a call
of `handle_read` for an open connection delivers bytes to it, and all other steps leave the
receive buffers alone.

So the commands that are queued on a connection can be compared with its stream.  They are the
commands of the frames that come out of the stream as it arrives, chunk by chunk, and the
receive buffer holds what is left.  Only the chunk with which a connection is closed does not
count: its commands are dropped.
-/

namespace RedisCpp.Net

open Protocol StreamDecoder
open SerialService (queued)

variable {Tid : Type}

/-- The bytes that `read` delivers in one drain of the socket, up to the answer that ends the
drain. -/
def bytesRead : List ReadResult → Bytes
  | .read data _ :: reads => if data.isEmpty then [] else data ++ bytesRead reads
  | .interrupted :: reads => bytesRead reads
  | _ => []

/-- Bytes that are delivered to a connection in one call of `handle_read`. -/
abbrev Arrival := ConnId × Bytes

/-- The chunks in which the stream of a connection arrives. -/
def chunksOf (id : ConnId) (arrivals : List Arrival) : List Bytes :=
  arrivals.filterMap fun arrival => if arrival.1 = id then some arrival.2 else none

@[simp]
theorem chunksOf_append (id : ConnId) (front back : List Arrival) :
    chunksOf id (front ++ back) = chunksOf id front ++ chunksOf id back :=
  List.filterMap_append

/-! ## Steps that read nothing -/

/-- No command is queued. -/
def Unqueued (events : List Event) : Prop :=
  ∀ event ∈ events, ∀ args, event.2 ≠ .queued args

theorem unqueued_nil : Unqueued [] := by
  simp [Unqueued]

theorem Unqueued.queued_eq {events : List Event} (unqueued : Unqueued events) (id : ConnId) :
    queued (eventsOf id events) = [] := by
  apply List.filterMap_eq_nil_iff.mpr
  intro event mem
  rcases List.mem_filterMap.mp mem with ⟨⟨owner, found⟩, listed, own⟩
  have other := unqueued _ listed
  by_cases same : owner = id
  · simp only [same, if_true, Option.some.injEq] at own
    subst own
    cases found with
    | queued args => exact absurd rfl (other args)
    | started | executed | wrote => rfl
  · simp [same] at own

theorem unqueued_flushConn (server : Server Tid) (fd : ℕ) (conn : Connection)
    (results : List WriteResult) : Unqueued (server.flushConn fd conn results).2.2 := by
  simp [Unqueued, Server.flushConn]

theorem unqueued_handleWrite (server : Server Tid) (fd : ℕ) (results : List WriteResult) :
    Unqueued (server.handleWrite fd results).2 := by
  simp only [Server.handleWrite]
  split
  · exact unqueued_nil
  · rename_i conn held
    have flushed := unqueued_flushConn server fd conn results
    split
    · exact flushed
    · exact flushed
    · exact flushed

theorem unqueued_processWrite (server : Server Tid) (write : PendingWrite)
    (results : List WriteResult) : Unqueued (server.processWrite write results).2 := by
  simp only [Server.processWrite]
  split
  · exact unqueued_nil
  · rename_i conn held
    have flushed := unqueued_flushConn server write.id.fd (conn.sendEnqueue write.data) results
    split
    · exact unqueued_nil
    · split
      · exact flushed
      · exact flushed
      · exact flushed

/-- Nothing is taken off a socket: no command is queued, the connections that were open before
keep their receive buffers, and those of new connections are empty. -/
structure Unread (server : Server Tid) (events : List Event) (after : Server Tid) : Prop where
  unqueued : Unqueued events
  counter : server.genCounter ≤ after.genCounter
  buffers : ∀ fd conn, after.conns fd = some conn →
    (server.genCounter < conn.generation ∧ conn.generation ≤ after.genCounter ∧
        conn.recvBuf = []) ∨
      ∃ old, server.conns fd = some old ∧ conn.generation = old.generation ∧
        conn.recvBuf = old.recvBuf

namespace Unread

variable {server after : Server Tid} {events : List Event}

theorem of_untouched (unqueued : Unqueued events)
    (counter : after.genCounter = server.genCounter)
    (untouched : ∀ fd, Server.Untouched server after fd) : Unread server events after :=
  ⟨unqueued, counter.ge, fun fd conn held => Or.inr (untouched fd conn held)⟩

theorem of_conns (unqueued : Unqueued events) (conns : after.conns = server.conns)
    (counter : after.genCounter = server.genCounter) : Unread server events after :=
  of_untouched unqueued counter fun fd => .of_eq (congrFun conns fd)

theorem handleAccept {fd : ℕ} (now : ℤ) : Unread server [] (server.handleAccept fd now) := by
  refine ⟨unqueued_nil, Nat.le_succ _, ?_⟩
  intro other conn held
  rcases eq_or_ne other fd with rfl | different
  · simp only [Server.handleAccept, Function.update_self, Option.some.injEq] at held
    subst held
    exact Or.inl ⟨Nat.lt_succ_self _, le_refl _, rfl⟩
  · simp only [Server.handleAccept, Function.update_of_ne different] at held
    exact Or.inr ⟨conn, held, rfl, rfl⟩

end Unread

/-! ## Steps with arrivals -/

/-- A step of the server together with what it takes off a socket. -/
inductive Arrives [DecidableEq Tid] (config : ReactorConfig) (server : Server Tid) :
    Option Arrival → List Event → Server Tid → Prop where
  | read (fd : ℕ) (reads : List ReadResult) {conn : Connection} {after : Server Tid}
      {events : List Event} (polling : server.phase = .polling)
      (held : server.conns fd = some conn)
      (handled : server.handleRead config fd reads = some (after, events)) :
      Arrives config server (some (⟨fd, conn.generation⟩, bytesRead reads)) events after
  | other {after : Server Tid} {events : List Event} (step : Step config server events after)
      (unread : Unread server events after) : Arrives config server none events after

variable [DecidableEq Tid] {config : ReactorConfig} {server after : Server Tid}
  {events added : List Event} {arrival : Option Arrival} {arrivals : List Arrival}

theorem Arrives.step (arrives : Arrives config server arrival events after) :
    Step config server events after := by
  cases arrives with
  | read fd reads polling held handled => exact .read fd reads polling handled
  | other step unread => exact step

/-- Of every step one can say what it takes off a socket. -/
theorem Step.arrives (step : Step config server events after) :
    ∃ arrival, Arrives config server arrival events after := by
  have moved := step
  cases step with
  | read fd reads polling handled =>
      cases held : server.conns fd with
      | some conn => exact ⟨_, .read fd reads polling held handled⟩
      | none =>
          simp only [Server.handleRead, held, Option.some.injEq, Prod.mk.injEq] at handled
          rcases handled with ⟨rfl, rfl⟩
          exact ⟨none, .other moved (.of_conns unqueued_nil rfl rfl)⟩
  | accept fd now => exact ⟨none, .other moved (.handleAccept now)⟩
  | write fd results =>
      have inherits := Inherits.handleWrite server fd results
      exact ⟨none, .other moved (.of_untouched (unqueued_handleWrite server fd results)
        inherits.genCounter fun other => .handleWrite server other fd results)⟩
  | close fd =>
      have inherits := Inherits.handleClose server fd
      exact ⟨none, .other moved (.of_untouched unqueued_nil inherits.genCounter
        fun other => .handleClose server other fd)⟩
  | idle now =>
      exact ⟨none, .other moved (.of_untouched unqueued_nil rfl
        fun other => .checkIdle server config now other)⟩
  | @processWrite write writes results =>
      have inherits := Inherits.processWrite (server.setPhase (.writing writes)) write results
      exact ⟨none, .other moved (.of_untouched (unqueued_processWrite _ write results)
        inherits.genCounter fun other =>
          .processWrite (server.setPhase (.writing writes)) other write results)⟩
  | @processComplete id completes =>
      have inherits := Inherits.processComplete (server.setPhase (.completing completes)) id
      exact ⟨none, .other moved (.of_untouched unqueued_nil inherits.genCounter fun other =>
        .processComplete (server.setPhase (.completing completes)) other id)⟩
  | swapWrites | writesDone | swapCompletes | completesDone | take | execute | send | notify =>
      exact ⟨none, .other moved (.of_conns (by simp [Unqueued]) rfl rfl)⟩

/-- The runs of the server, with what arrives and what happens. -/
inductive Reception {Tid : Type} [DecidableEq Tid] (config : ReactorConfig) :
    List Arrival → List Event → Server Tid → Prop where
  | nil : Reception config [] [] .initial
  | snoc {arrivals : List Arrival} {events added : List Event} {server after : Server Tid}
      {arrival : Option Arrival} (reception : Reception config arrivals events server)
      (arrives : Arrives config server arrival added after) :
      Reception config (arrivals ++ arrival.toList) (events ++ added) after

/-- Of every run one can say what arrives in it. -/
theorem Run.reception (run : Run config events server) :
    ∃ arrivals, Reception config arrivals events server := by
  induction run with
  | nil => exact ⟨[], .nil⟩
  | snoc _ step inductionHypothesis =>
      rcases inductionHypothesis with ⟨arrivals, reception⟩
      rcases step.arrives with ⟨arrival, arrives⟩
      exact ⟨_, reception.snoc arrives⟩

theorem Reception.run (reception : Reception config arrivals events server) :
    Run config events server := by
  induction reception with
  | nil => exact .nil
  | snoc _ arrives inductionHypothesis => exact inductionHypothesis.snoc arrives.step

/-! ## The stream and the commands -/

/-- A drain that leaves the connection open has appended what `read` has delivered, and stays
within the guard. -/
theorem readLoop_eq {maxRecvBytes : ℕ} {reads : List ReadResult} {buf bytes : Bytes}
    {lastActive touched : ℤ} (bounded : buf.length ≤ maxRecvBytes)
    (looped : Server.readLoop maxRecvBytes reads buf lastActive = some (bytes, touched)) :
    bytes = buf ++ bytesRead reads ∧ bytes.length ≤ maxRecvBytes := by
  induction reads generalizing buf lastActive with
  | nil =>
      simp only [Server.readLoop, Option.some.injEq, Prod.mk.injEq] at looped
      rcases looped with ⟨rfl, -⟩
      exact ⟨(List.append_nil _).symm, bounded⟩
  | cons result reads inductionHypothesis =>
      cases result with
      | wouldBlock =>
          simp only [Server.readLoop, Option.some.injEq, Prod.mk.injEq] at looped
          rcases looped with ⟨rfl, -⟩
          exact ⟨(List.append_nil _).symm, bounded⟩
      | error => simp [Server.readLoop] at looped
      | interrupted => exact inductionHypothesis bounded looped
      | read data now =>
          by_cases ended : data.isEmpty = true
          · simp [Server.readLoop, ended] at looped
          · by_cases guarded : maxRecvBytes < (buf ++ data).length
            · simp only [Server.readLoop, ended, guarded, if_true] at looped
              cases looped
            · simp only [Server.readLoop, ended, guarded, if_false] at looped
              rw [bytesRead, if_neg ended, ← List.append_assoc]
              exact inductionHypothesis (Nat.le_of_not_lt guarded) looped

/-- How the stream of a connection has been decoded. -/
structure Decoded (config : ReactorConfig) (kept : List Bytes) (commands : List (List Bytes))
    (rest : Bytes) : Prop where
  received : ∃ frames, receiveChunks kept = ⟨frames, rest, none⟩ ∧
    commands = Server.queueable frames
  settled : extractFrames rest = ⟨[], rest, none⟩
  bounded : rest.length ≤ config.maxRecvBytes

theorem Decoded.nil (config : ReactorConfig) : Decoded config [] [] [] :=
  ⟨⟨[], rfl, rfl⟩, rfl, Nat.zero_le _⟩

theorem Decoded.eq_nil {commands : List (List Bytes)} {rest : Bytes}
    (decoded : Decoded config [] commands rest) : rest = [] := by
  rcases decoded.received with ⟨frames, received, -⟩
  exact (congrArg Extraction.rest received).symm

/-- Another chunk, from which complete frames are taken. -/
theorem Decoded.snoc {kept : List Bytes} {commands : List (List Bytes)} {rest bytes : Bytes}
    (decoded : Decoded config kept commands rest)
    (fits : (rest ++ bytes).length ≤ config.maxRecvBytes)
    (clean : (extractFrames (rest ++ bytes)).failure = none) :
    Decoded config (kept ++ [bytes])
      (commands ++ Server.queueable (extractFrames (rest ++ bytes)).frames)
      (extractFrames (rest ++ bytes)).rest := by
  rcases decoded.received with ⟨frames, received, queued⟩
  refine ⟨⟨frames ++ (extractFrames (rest ++ bytes)).frames, ?_, ?_⟩, ?_, ?_⟩
  · rw [receiveChunks, receive_snoc received]
    simp only [← extractFrames.eq_1, clean]
  · rw [queueable_append, queued]
  · exact extract_rest progresses_parse clean
  · exact (length_rest_le progresses_parse _).trans fits

/-- The commands of a connection are those of its stream, and what is left of it is in the
receive buffer.  The chunk with which the connection is closed does not count. -/
structure Taken (config : ReactorConfig) (id : ConnId) (chunks : List Bytes)
    (commands : List (List Bytes)) (server : Server Tid) : Prop where
  unused : server.genCounter < id.gen → chunks = [] ∧ commands = []
  used : ∀ conn, server.HeldBy id conn → id.gen ≤ server.genCounter
  stream : ∃ kept dropped rest, chunks = kept ++ dropped ∧ dropped.length ≤ 1 ∧
    Decoded config kept commands rest ∧
      ∀ conn, server.HeldBy id conn → dropped = [] ∧ conn.recvBuf = rest

namespace Taken

variable {id : ConnId} {chunks : List Bytes} {commands : List (List Bytes)}

omit [DecidableEq Tid] in
theorem initial (config : ReactorConfig) (id : ConnId) :
    Taken config id [] [] (Server.initial : Server Tid) := by
  refine ⟨fun _ => ⟨rfl, rfl⟩, ?_, [], [], [], rfl, Nat.zero_le _, .nil config, ?_⟩
  · rintro conn ⟨held, -⟩
    cases held
  · rintro conn ⟨held, -⟩
    cases held

omit [DecidableEq Tid] in
/-- Nothing has arrived on the connection, which may just have been opened. -/
theorem keep (taken : Taken config id chunks commands server)
    (counter : server.genCounter ≤ after.genCounter)
    (buffers : ∀ conn, after.HeldBy id conn →
      (server.genCounter < id.gen ∧ id.gen ≤ after.genCounter ∧ conn.recvBuf = []) ∨
        ∃ old, server.HeldBy id old ∧ conn.recvBuf = old.recvBuf) :
    Taken config id chunks commands after := by
  refine ⟨fun fresh => taken.unused (counter.trans_lt fresh), ?_, ?_⟩
  · intro conn held
    rcases buffers conn held with ⟨-, given, -⟩ | ⟨old, heldBefore, -⟩
    · exact given
    · exact (taken.used old heldBefore).trans counter
  · rcases taken.stream with ⟨kept, dropped, rest, split, last, decoded, open'⟩
    refine ⟨kept, dropped, rest, split, last, decoded, ?_⟩
    intro conn held
    rcases buffers conn held with ⟨fresh, -, empty⟩ | ⟨old, heldBefore, same⟩
    · rw [(taken.unused fresh).1, eq_comm, List.append_eq_nil_iff] at split
      rcases split with ⟨rfl, rfl⟩
      exact ⟨rfl, empty.trans decoded.eq_nil.symm⟩
    · rw [same]
      exact open' old heldBefore

omit [DecidableEq Tid] in
/-- A chunk has arrived on the connection itself. -/
theorem read (taken : Taken config id chunks commands server) {conn : Connection}
    (held : server.HeldBy id conn) {reads : List ReadResult}
    (handled : server.handleRead config id.fd reads = some (after, added)) :
    Taken config id (chunks ++ [bytesRead reads]) (commands ++ queued (eventsOf id added))
      after := by
  have given := taken.used conn held
  have counter := (Inherits.handleRead handled).genCounter
  rcases taken.stream with ⟨kept, dropped, rest, split, -, decoded, open'⟩
  rcases open' conn held with ⟨rfl, rfl⟩
  rw [List.append_nil] at split
  subst split
  have closed : Taken config id (chunks ++ [bytesRead reads]) (commands ++ [])
      (server.handleClose id.fd) := by
    have same := (Inherits.handleClose server id.fd).genCounter
    rw [List.append_nil]
    refine ⟨fun fresh => absurd given (by omega), ?_, chunks, [bytesRead reads], _, rfl, le_refl _,
      decoded, ?_⟩
    · intro later heldLater
      exact absurd heldLater (not_heldBy_handleClose held)
    · intro later heldLater
      exact absurd heldLater (not_heldBy_handleClose held)
  cases Server.handledRead handled with
  | absent free =>
      rw [held.1] at free
      cases free
  | hungUp => exact closed
  | failed => exact closed
  | @queued found buf lastActive heldNow received clean =>
      rw [held.1, Option.some.injEq] at heldNow
      subst heldNow
      rcases readLoop_eq decoded.bounded received with ⟨buf_eq, fits⟩
      have own : (⟨id.fd, conn.generation⟩ : ConnId) = id := by
        rw [held.2]
      have commandsOf : queued (eventsOf id ((Server.queueable (extractFrames buf).frames).map
          fun args => ((⟨id.fd, conn.generation⟩ : ConnId), .queued args))) =
          Server.queueable (extractFrames buf).frames := by
        simp only [own, eventsOf, List.filterMap_map, Function.comp_def, if_true,
          List.filterMap_eq_map']
        exact SerialService.queued_map_queued _
      refine ⟨fun fresh => absurd given (by omega), fun _ _ => by omega,
        chunks ++ [bytesRead reads], [], (extractFrames buf).rest, (List.append_nil _).symm,
        Nat.zero_le _, ?_, ?_⟩
      · rw [commandsOf]
        rw [buf_eq] at fits clean ⊢
        exact decoded.snoc fits clean
      · intro later heldLater
        rcases @heldBy_queueCommands _ id server
          { conn with recvBuf := (extractFrames buf).rest, lastActive := lastActive } held.2
          (Server.queueable (extractFrames buf).frames) with ⟨next, heldNext, recvBuf⟩
        have same := heldLater.1.symm.trans heldNext.1
        rw [Option.some.injEq] at same
        exact ⟨rfl, by rw [same, recvBuf]⟩

omit [DecidableEq Tid] in
/-- A chunk has arrived on another connection. -/
theorem aside (taken : Taken config id chunks commands server) {fd : ℕ} {conn : Connection}
    (held : server.conns fd = some conn) (other : (⟨fd, conn.generation⟩ : ConnId) ≠ id)
    {reads : List ReadResult} (handled : server.handleRead config fd reads = some (after, added)) :
    Taken config id chunks commands after ∧ queued (eventsOf id added) = [] := by
  have inherits := Inherits.handleRead handled
  constructor
  · apply taken.keep inherits.genCounter.ge
    rintro later ⟨heldLater, own⟩
    right
    by_cases same : id.fd = fd
    · subst same
      rcases inherits.conns id.fd later heldLater with ⟨old, heldBefore, generation⟩
      rw [held, Option.some.injEq] at heldBefore
      subst heldBefore
      exact absurd (by rw [generation, own]) other
    · rcases Server.Untouched.handleRead same handled later heldLater with
        ⟨old, heldBefore, generation, recvBuf⟩
      exact ⟨old, ⟨heldBefore, generation.symm.trans own⟩, recvBuf⟩
  · cases Server.handledRead handled with
    | absent | hungUp | failed => rfl
    | queued heldNow =>
        rw [held, Option.some.injEq] at heldNow
        subst heldNow
        simp [eventsOf, queued, other]

end Taken

/-- Every step keeps up with the streams of all connections. -/
theorem Taken.step {id : ConnId}
    (taken : Taken config id (chunksOf id arrivals) (queued (eventsOf id events)) server)
    (arrives : Arrives config server arrival added after) :
    Taken config id (chunksOf id (arrivals ++ arrival.toList))
      (queued (eventsOf id (events ++ added))) after := by
  rw [chunksOf_append, eventsOf_append, SerialService.queued_append]
  cases arrives with
  | @read fd reads conn after events polling held handled =>
      by_cases own : (⟨fd, conn.generation⟩ : ConnId) = id
      · subst own
        have chunk : chunksOf ⟨fd, conn.generation⟩
            (some ((⟨fd, conn.generation⟩ : ConnId), bytesRead reads)).toList =
              [bytesRead reads] := by
          simp [chunksOf]
        rw [chunk]
        exact taken.read ⟨held, rfl⟩ handled
      · have chunk : chunksOf id
            (some ((⟨fd, conn.generation⟩ : ConnId), bytesRead reads)).toList = [] := by
          simp [chunksOf, own]
        rcases taken.aside held own handled with ⟨kept, unqueued⟩
        rw [chunk, unqueued, List.append_nil, List.append_nil]
        exact kept
  | other step unread =>
      rw [unread.unqueued.queued_eq, List.append_nil, Option.toList_none]
      rw [show chunksOf id [] = [] from rfl, List.append_nil]
      apply taken.keep unread.counter
      rintro conn ⟨held, own⟩
      rcases unread.buffers id.fd conn held with ⟨fresh, given, empty⟩ |
        ⟨old, heldBefore, generation, recvBuf⟩
      · exact Or.inl ⟨own ▸ fresh, own ▸ given, empty⟩
      · exact Or.inr ⟨old, ⟨heldBefore, generation.symm.trans own⟩, recvBuf⟩

theorem taken_run (reception : Reception config arrivals events server) (id : ConnId) :
    Taken config id (chunksOf id arrivals) (queued (eventsOf id events)) server := by
  induction reception with
  | nil => exact .initial config id
  | snoc _ arrives inductionHypothesis => exact inductionHypothesis.step arrives

end RedisCpp.Net
