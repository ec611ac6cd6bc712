import RedisCpp.Net.EpollReactor
import RedisCpp.Protocol.Completion

/-!
# What a client can send to the reactor

`handle_read` runs on the reactor thread, where nothing catches an exception.  It parses
whatever the client has sent, frame by frame.  The places at which it starts to parse are
described here without the parser.  It raises an exception exactly if one of them begins
with an oversized request.
-/

namespace RedisCpp.Net

open Protocol StreamDecoder

/-! ## Where frames start -/

/-- A line at the front of the data, with its end: the first CRLF, or the first LF if there
is no CRLF. -/
inductive Line (data : Bytes) : ℕ → Prop where
  | crlf {place : ℕ} (found : findCrlf data 0 = some place) : Line data (place + 2)
  | lf {place : ℕ} (missing : findCrlf data 0 = none)
      (found : data.findIdx? (· == LF) = some place) : Line data (place + 1)

/-- What remains of a buffer where one of its frames starts. -/
inductive FrameStart (buffer : Bytes) : Bytes → Prop where
  | first : FrameStart buffer buffer
  | afterRequest {data : Bytes} {args : List Bytes} {length : ℕ} (start : FrameStart buffer data)
      (formed : LooselyFormed data args length) (capacity : args.length ≤ maxVectorSize) :
      FrameStart buffer (data.drop length)
  | afterLine {data : Bytes} {length : ℕ} (start : FrameStart buffer data)
      (inline : data.head? ≠ some 42) (line : Line data length) :
      FrameStart buffer (data.drop length)

theorem parseInline_iff_line {data : Bytes} {length : ℕ} :
    (∃ command, parseInline data = .complete command length) ↔ Line data length := by
  constructor
  · rintro ⟨command, complete⟩
    rw [parseInline] at complete
    split at complete
    · rename_i place found
      cases complete
      exact .crlf found
    · rename_i missing
      split at complete
      · cases complete
      · rename_i place found
        cases complete
        exact .lf missing found
  · intro line
    cases line with
    | crlf found => exact ⟨_, parseInline_of_crlf found⟩
    | lf missing found =>
        rw [parseInline, missing]
        simp only [found]
        exact ⟨_, rfl⟩

/-- Frames start where the parser has come to the end of one. -/
theorem frameStart_iff_boundary {buffer data : Bytes} :
    FrameStart buffer data ↔ Boundary parse buffer data := by
  constructor
  · intro start
    induction start with
    | first => exact .start
    | afterRequest _ formed capacity inductionHypothesis =>
        have star := formed.head
        have complete := (parseMultibulk_eq_complete_iff star).mpr ⟨_, rfl, formed, capacity⟩
        rw [← parse_of_star star] at complete
        exact inductionHypothesis.next complete
    | @afterLine data length _ inline line inductionHypothesis =>
        rcases parseInline_iff_line.mpr line with ⟨command, complete⟩
        have nonempty : data ≠ [] := by
          rintro rfl
          cases complete
        rw [← parse_of_not_star nonempty inline] at complete
        exact inductionHypothesis.next complete
  · intro boundary
    induction boundary with
    | start => exact .first
    | @next data command length _ complete inductionHypothesis =>
        have nonempty : data ≠ [] := ne_nil_of_settled (by simp [complete])
        by_cases star : data.head? = some 42
        · rw [parse_of_star star] at complete
          rcases (parseMultibulk_eq_complete_iff star).mp complete with
            ⟨args, -, formed, capacity⟩
          exact inductionHypothesis.afterRequest formed capacity
        · rw [parse_of_not_star nonempty star] at complete
          exact inductionHypothesis.afterLine star (parseInline_iff_line.mp ⟨command, complete⟩)

/-- `extract_frames` raises an exception exactly if an oversized request starts a frame. -/
theorem extractFrames_raised_iff {buffer : Bytes} :
    (extractFrames buffer).failure = some .raised ↔
      ∃ data, FrameStart buffer data ∧ Oversized data := by
  rw [extractFrames, extract_failure_iff progresses_parse]
  constructor
  · rintro ⟨data, boundary, -, raised⟩
    exact ⟨data, frameStart_iff_boundary.mpr boundary, parse_eq_raised_iff.mp raised⟩
  · rintro ⟨data, start, oversized⟩
    have raised := parse_eq_raised_iff.mpr oversized
    exact ⟨data, frameStart_iff_boundary.mp start, ne_nil_of_settled (by simp [raised]), raised⟩

/-! ## Reading from a client -/

namespace Server

variable {Tid : Type}

/-- The receive buffer that a call of `handle_read` hands to the parser. -/
def Receives (server : Server Tid) (config : ReactorConfig) (fd : ℕ) (reads : List ReadResult)
    (buffer : Bytes) : Prop :=
  ∃ conn lastActive, server.conns fd = some conn ∧
    readLoop config.maxRecvBytes reads conn.recvBuf conn.lastActive = some (buffer, lastActive)

/-- The calls of `handle_read` for one client; no result if one of them raises an
exception. -/
def receive (config : ReactorConfig) (fd : ℕ) :
    Server Tid → List (List ReadResult) → Option (Server Tid)
  | server, [] => some server
  | server, reads :: later =>
      match server.handleRead config fd reads with
      | none => none
      | some (after, _) => receive config fd after later

/-- No frame that the client sends is an oversized request. -/
def Moderate (server : Server Tid) (config : ReactorConfig) (fd : ℕ) (reads : List ReadResult) :
    Prop :=
  ∀ buffer data, server.Receives config fd reads buffer → FrameStart buffer data →
    ¬Oversized data

/-- All calls of `handle_read` find moderate frames. -/
def ModerateThroughout (config : ReactorConfig) (fd : ℕ) :
    Server Tid → List (List ReadResult) → Prop
  | _, [] => True
  | server, reads :: later => server.Moderate config fd reads ∧
      ∀ after events, server.handleRead config fd reads = some (after, events) →
        ModerateThroughout config fd after later

variable {server : Server Tid} {config : ReactorConfig} {fd : ℕ}

/-- A call of `handle_read` returns exactly if the frames it finds are moderate. -/
theorem handleRead_ne_none_iff {reads : List ReadResult} :
    server.handleRead config fd reads ≠ none ↔ server.Moderate config fd reads := by
  constructor
  · rintro returns buffer data ⟨conn, lastActive, held, buffered⟩ start oversized
    apply returns
    have raised := extractFrames_raised_iff.mpr ⟨data, start, oversized⟩
    simp only [handleRead, held, buffered, raised]
  · intro moderate
    simp only [handleRead]
    cases held : server.conns fd with
    | none => simp
    | some conn =>
        simp only
        cases buffered : readLoop config.maxRecvBytes reads conn.recvBuf conn.lastActive with
        | none => simp
        | some found =>
            rcases found with ⟨buffer, lastActive⟩
            simp only
            split
            · rename_i raised
              rcases extractFrames_raised_iff.mp raised with ⟨data, start, oversized⟩
              exact absurd oversized
                (moderate buffer data ⟨conn, lastActive, held, buffered⟩ start)
            · simp
            · simp

theorem receive_ne_none_iff {batches : List (List ReadResult)} :
    receive config fd server batches ≠ none ↔ ModerateThroughout config fd server batches := by
  induction batches generalizing server with
  | nil => simp [receive, ModerateThroughout]
  | cons reads later inductionHypothesis =>
      rw [receive, ModerateThroughout, ← handleRead_ne_none_iff]
      cases handled : server.handleRead config fd reads with
      | none => simp
      | some outcome =>
          rcases outcome with ⟨after, events⟩
          simp only [inductionHypothesis, ne_eq, reduceCtorEq, not_false_eq_true, true_and,
            Option.some.injEq, Prod.mk.injEq]
          constructor
          · rintro moderate _ _ ⟨rfl, rfl⟩
            exact moderate
          · intro moderate
            exact moderate after events ⟨rfl, rfl⟩

end Server

/-- Whatever a client sends and however it is cut into reads, the reactor survives a call
of `handle_read`, and all calls for that client, exactly if no frame is an oversized
request. -/
theorem reactor_survives_iff {Tid : Type} (config : ReactorConfig) (server : Server Tid)
    (fd : ℕ) :
    (∀ reads, server.handleRead config fd reads ≠ none ↔ server.Moderate config fd reads) ∧
      ∀ batches, server.receive config fd batches ≠ none ↔
        server.ModerateThroughout config fd batches :=
  ⟨fun _ => Server.handleRead_ne_none_iff, fun _ => Server.receive_ne_none_iff⟩

/-- A header of twenty-two bytes ends the reactor thread. -/
theorem not_reactor_survives :
    ¬∀ (config : ReactorConfig) (server : Server Unit) (fd : ℕ) (reads : List ReadResult),
      server.handleRead config fd reads ≠ none := by
  intro survives
  apply survives {} (Server.initial.handleAccept 7 0) 7
    [.read (ascii "*9223372036854775807\r\n") 0]
  rfl

end RedisCpp.Net
