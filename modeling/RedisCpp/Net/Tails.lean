import RedisCpp.Net.EpollReactor
import RedisCpp.Protocol.ValidFrames

/-!
# What follows complete commands

`handle_read` drains the socket, parses what has arrived and queues the commands.  It
returns early when the drain meets the end of the stream and when the parser meets a
malformed frame.  The commands before them are in the receive buffer or already parsed,
and they are dropped with the connection.  In an event of their own they are queued.
-/

namespace RedisCpp.Net

open Protocol StreamDecoder

/-! ## Drains -/

/-- The answers of `read` in one drain of the socket up to the one that ends it, with the
bytes they deliver. -/
inductive Drain (last : ReadResult) : List ReadResult → Bytes → Prop where
  | done : Drain last [last] []
  | interrupted {reads : List ReadResult} {bytes : Bytes} (drain : Drain last reads bytes) :
      Drain last (.interrupted :: reads) bytes
  | read {data bytes : Bytes} {now : ℤ} {reads : List ReadResult} (nonempty : data ≠ [])
      (size : data.length ≤ 4096) (drain : Drain last reads bytes) :
      Drain last (.read data now :: reads) (data ++ bytes)

/-- The drain ends because the socket has nothing more to read. -/
abbrev Blocked : List ReadResult → Bytes → Prop :=
  Drain .wouldBlock

/-- The drain ends because the peer has closed the connection. -/
abbrev Closed (now : ℤ) : List ReadResult → Bytes → Prop :=
  Drain (.read [] now)

namespace Server

section ReadLoop

variable {maxRecvBytes : ℕ} {reads : List ReadResult} {bytes buf : Bytes} {lastActive : ℤ}

theorem readLoop_blocked (drain : Blocked reads bytes)
    (fits : (buf ++ bytes).length ≤ maxRecvBytes) :
    ∃ touched, readLoop maxRecvBytes reads buf lastActive = some (buf ++ bytes, touched) := by
  induction drain generalizing buf lastActive with
  | done => exact ⟨lastActive, by simp [readLoop]⟩
  | interrupted _ inductionHypothesis => exact inductionHypothesis fits
  | @read data bytes now reads nonempty _ _ inductionHypothesis =>
      have below : ¬maxRecvBytes < (buf ++ data).length := by
        simp only [List.length_append] at fits ⊢
        omega
      rw [← List.append_assoc] at fits ⊢
      simp only [readLoop, List.isEmpty_iff, nonempty, if_false, below]
      exact inductionHypothesis fits

/-- Bytes beyond the guard end the drain at the read that brings them. -/
theorem readLoop_exceeded {last : ReadResult} (drain : Drain last reads bytes)
    (received : buf.length ≤ maxRecvBytes) (exceeded : maxRecvBytes < (buf ++ bytes).length) :
    readLoop maxRecvBytes reads buf lastActive = none := by
  induction drain generalizing buf lastActive with
  | done =>
      rw [List.append_nil] at exceeded
      omega
  | interrupted _ inductionHypothesis => exact inductionHypothesis received exceeded
  | @read data bytes now reads nonempty _ _ inductionHypothesis =>
      simp only [readLoop, List.isEmpty_iff, nonempty, if_false]
      by_cases guarded : maxRecvBytes < (buf ++ data).length
      · simp only [guarded, if_true]
      · simp only [guarded, if_false]
        rw [← List.append_assoc] at exceeded
        exact inductionHypothesis (Nat.le_of_not_lt guarded) exceeded

theorem readLoop_closed {now : ℤ} (drain : Closed now reads bytes) :
    readLoop maxRecvBytes reads buf lastActive = none := by
  induction drain generalizing buf lastActive with
  | done => rfl
  | interrupted _ inductionHypothesis => exact inductionHypothesis
  | read nonempty _ _ inductionHypothesis =>
      simp only [readLoop, List.isEmpty_iff, nonempty, if_false]
      split
      · rfl
      · exact inductionHypothesis

end ReadLoop

/-! ## What is queued -/

/-- The commands among the events of a call. -/
def queued (events : List Event) : List (List Bytes) :=
  events.filterMap fun event =>
    match event.2 with
    | .queued args => some args
    | _ => none

variable {Tid : Type}

/-- The commands that a call of `handle_read` queues; none if it raises an exception. -/
def handedOver (server : Server Tid) (config : ReactorConfig) (fd : ℕ)
    (reads : List ReadResult) : List (List Bytes) :=
  match server.handleRead config fd reads with
  | none => []
  | some (_, events) => queued events

theorem queued_map (id : ConnId) (cmds : List (List Bytes)) :
    queued (cmds.map fun args => (id, .queued args)) = cmds := by
  induction cmds with
  | nil => rfl
  | cons args cmds inductionHypothesis =>
      simp only [queued] at inductionHypothesis
      simp only [queued, List.map_cons, List.filterMap_cons, inductionHypothesis]

variable {server : Server Tid} {config : ReactorConfig} {fd : ℕ} {conn : Connection}
  {reads : List ReadResult} {frames : List Bytes} {commands : List (Option (List Bytes))}

/-- A call that finds only complete frames and the beginning of another one queues their
commands. -/
theorem handleRead_frames (held : server.conns fd = some conn) {bytes part : Bytes}
    (drain : Blocked reads bytes) (fits : (conn.recvBuf ++ bytes).length ≤ config.maxRecvBytes)
    {later : List Bytes} {laterCommands : List (Option (List Bytes))}
    (valid : ValidFrames frames commands) (laterValid : ValidFrames later laterCommands)
    (begun : Begun part later) (stream : conn.recvBuf ++ bytes = frames.flatten ++ part) :
    ∃ touched, server.handleRead config fd reads =
      some (server.queueCommands fd { conn with recvBuf := part, lastActive := touched }
          (queueable commands),
        (queueable commands).map fun args => (⟨fd, conn.generation⟩, .queued args)) := by
  rcases @readLoop_blocked _ reads bytes _ conn.lastActive drain fits with ⟨touched, looped⟩
  refine ⟨touched, ?_⟩
  have taken := extractFrames_append valid part
  rw [extractFrames_begun laterValid begun, List.append_nil] at taken
  simp only [handleRead, held, looped, stream, taken]

/-- In an event of their own the frames are all queued. -/
theorem handedOver_frames (held : server.conns fd = some conn) {bytes : Bytes}
    (drain : Blocked reads bytes) (fits : (conn.recvBuf ++ bytes).length ≤ config.maxRecvBytes)
    (valid : ValidFrames frames commands) (stream : conn.recvBuf ++ bytes = frames.flatten) :
    server.handedOver config fd reads = queueable commands := by
  have begun : Begun [] [] := rfl
  rcases handleRead_frames held drain fits valid .nil begun (by rw [stream, List.append_nil])
    with ⟨touched, handled⟩
  simp only [handedOver, handled, queued_map]

/-- A malformed frame in the same drain takes all commands before it along. -/
theorem handedOver_malformed (held : server.conns fd = some conn) {bytes tail : Bytes}
    (drain : Blocked reads bytes) (fits : (conn.recvBuf ++ bytes).length ≤ config.maxRecvBytes)
    (valid : ValidFrames frames commands) {failure : ParseFailure}
    (malformed : parse tail = .failed failure)
    (stream : conn.recvBuf ++ bytes = frames.flatten ++ tail) :
    server.handedOver config fd reads = [] := by
  rcases @readLoop_blocked _ reads bytes _ conn.lastActive drain fits with ⟨touched, looped⟩
  have nonempty : tail ≠ [] := ne_nil_of_settled (by simp [malformed])
  have stuck : extractFrames tail = ⟨[], tail, some failure⟩ := extract_failed nonempty malformed
  have taken := extractFrames_append valid tail
  rw [stuck, List.append_nil] at taken
  simp only [handedOver, handleRead, held, looped, stream, taken]
  cases failure with
  | error => rfl
  | raised => rfl

/-- So does the end of the stream. -/
theorem handedOver_closed (held : server.conns fd = some conn) {bytes : Bytes} {now : ℤ}
    (drain : Closed now reads bytes) : server.handedOver config fd reads = [] := by
  simp only [handedOver, handleRead, held, readLoop_closed drain]
  rfl

end Server

/-- What follows complete frames in the same drain, a malformed frame or the end of the
stream, leaves their commands alone if and only if they carry none.  In an event of their
own all their commands are queued. -/
theorem tail_harmless_iff {Tid : Type} {server : Server Tid} {config : ReactorConfig} {fd : ℕ}
    {conn : Connection} (held : server.conns fd = some conn) {frames : List Bytes}
    {commands : List (Option (List Bytes))} (valid : ValidFrames frames commands) :
    (∀ reads bytes tail failure, Blocked reads bytes →
      (conn.recvBuf ++ bytes).length ≤ config.maxRecvBytes → parse tail = .failed failure →
      conn.recvBuf ++ bytes = frames.flatten ++ tail →
      (server.handedOver config fd reads = Server.queueable commands ↔
        Server.queueable commands = [])) ∧
    (∀ reads bytes now, Closed now reads bytes →
      (conn.recvBuf ++ bytes).length ≤ config.maxRecvBytes →
      conn.recvBuf ++ bytes = frames.flatten →
      (server.handedOver config fd reads = Server.queueable commands ↔
        Server.queueable commands = [])) ∧
    ∀ reads bytes, Blocked reads bytes →
      (conn.recvBuf ++ bytes).length ≤ config.maxRecvBytes →
      conn.recvBuf ++ bytes = frames.flatten →
      server.handedOver config fd reads = Server.queueable commands := by
  refine ⟨?_, ?_, ?_⟩
  · intro reads bytes tail failure drain fits malformed stream
    rw [Server.handedOver_malformed held drain fits valid malformed stream]
    exact eq_comm
  · intro reads bytes now drain _ _
    rw [Server.handedOver_closed held drain]
    exact eq_comm
  · intro reads bytes drain fits stream
    exact Server.handedOver_frames held drain fits valid stream

theorem validFrame_ping : ValidFrame (ascii "PING\r\n") (some [ascii "PING"]) :=
  @ValidFrame.line (ascii "PING") (by decide) (by decide)

/-- A blank line in front of a malformed frame. -/
theorem tail_harmless_iff_blank :
    (Server.initial.handleAccept 7 0 : Server Unit).handedOver {} 7
        [.read (ascii "\r\n*-1\r\n") 0, .wouldBlock] = Server.queueable [none] ∧
      (Server.initial.handleAccept 7 0 : Server Unit).handedOver {} 7
        [.read (ascii "\r\n") 0, .wouldBlock] = Server.queueable [none] := by
  have blank : ValidFrame (ascii "\r\n") none := @ValidFrame.line [] (by decide) (by decide)
  have held : (Server.initial.handleAccept 7 0 : Server Unit).conns 7 = some (.make 1 0) := by
    decide
  have harmless := @tail_harmless_iff Unit _ {} 7 _ held [ascii "\r\n"] [none]
    (.cons blank .nil)
  constructor
  · exact (harmless.1 _ (ascii "\r\n*-1\r\n") (ascii "*-1\r\n") .error
      (.read (by decide) (by decide) .done) (by decide) (by decide) (by decide)).mpr rfl
  · exact harmless.2.2 _ (ascii "\r\n") (.read (by decide) (by decide) .done) (by decide)
      (by decide)

/-- A command in front of a malformed frame, or of the end of the stream, is lost. -/
theorem not_tail_harmless :
    (¬∀ (server : Server Unit) (config : ReactorConfig) (fd : ℕ) (conn : Connection)
        (frames : List Bytes) (commands : List (Option (List Bytes))) (reads : List ReadResult)
        (bytes tail : Bytes), server.conns fd = some conn → ValidFrames frames commands →
        Blocked reads bytes → (conn.recvBuf ++ bytes).length ≤ config.maxRecvBytes →
        parse tail = .failed .error → conn.recvBuf ++ bytes = frames.flatten ++ tail →
        server.handedOver config fd reads = Server.queueable commands) ∧
      ¬∀ (server : Server Unit) (config : ReactorConfig) (fd : ℕ) (conn : Connection)
        (frames : List Bytes) (commands : List (Option (List Bytes))) (reads : List ReadResult)
        (bytes : Bytes) (now : ℤ), server.conns fd = some conn → ValidFrames frames commands →
        Closed now reads bytes → (conn.recvBuf ++ bytes).length ≤ config.maxRecvBytes →
        conn.recvBuf ++ bytes = frames.flatten →
        server.handedOver config fd reads = Server.queueable commands := by
  have held : (Server.initial.handleAccept 7 0 : Server Unit).conns 7 = some (.make 1 0) := by
    decide
  constructor
  · intro harmless
    have handed := harmless (Server.initial.handleAccept 7 0) {} 7 _ [ascii "PING\r\n"]
      [some [ascii "PING"]] [.read (ascii "PING\r\n*-1\r\n") 0, .wouldBlock]
      (ascii "PING\r\n*-1\r\n") (ascii "*-1\r\n") held (.cons validFrame_ping .nil)
      (.read (by decide) (by decide) .done) (by decide) (by decide) (by decide)
    exact absurd handed (by decide)
  · intro harmless
    have handed := harmless (Server.initial.handleAccept 7 0) {} 7 _ [ascii "PING\r\n"]
      [some [ascii "PING"]] [.read (ascii "PING\r\n") 0, .read [] 0] (ascii "PING\r\n") 0 held
      (.cons validFrame_ping .nil) (.read (by decide) (by decide) .done) (by decide) (by decide)
    exact absurd handed (by decide)

end RedisCpp.Net
