import RedisCpp.Protocol.Framing
import RedisCpp.Lib.Transition

/-!
# The loop of `extract_frames`

`extract_frames` has no measure of its own: it goes on as long as `parse` finds complete frames,
and how far it gets is the sum of the frame lengths.  In this file the loop and the parser keep
their output parameters and their offsets as the source has them: `out_cmds` and `frame_len` are
handed through, and the sums that a number from the wire enters are computed in `size_t`.

No sum wraps as long as the buffer is not larger than a string view can be.  Every frame then
has at least one byte and lies within the buffer, so the loop ends with what the extraction of
`Protocol.Framing` gives.
-/

namespace RedisCpp.Protocol

open StreamDecoder

/-- What is read as a number fits. -/
theorem parseInteger_le {data : Bytes} {start next : ℕ} {value : ℤ}
    (parsed : parseInteger data start = some (value, next)) : value ≤ int64Max := by
  rw [parseInteger] at parsed
  split at parsed
  · cases parsed
  · split at parsed
    · rename_i found
      cases parsed
      exact (inInt64_of_fromChars found).2
    · cases parsed

namespace Sized

/-- `parse` and its parts return how they ended, `out_cmds` and `frame_len`; none for an
exception. -/
abbrev Outputs := Option (ParseStatus × List (List Bytes) × ℕ)

/-- The argument loop of `parse_multibulk`.  `substr` raises an exception if the argument begins
behind the data. -/
def parseBulks (data : Bytes) : ℕ → ℕ → List Bytes → Outcome (List Bytes) ParseFailure
  | 0, pos, args => .complete args pos
  | remaining + 1, pos, args =>
      match data[pos]? with
      | none => .incomplete
      | some byte =>
          if byte ≠ 36 then .failed .error
          else
            match parseInteger data (pos + 1) with
            | none => .incomplete
            | some (blen, afterHdr) =>
                if blen < 0 then .failed .error
                else if data.length < wrapSize (afterHdr + blen.toNat + 2) then .incomplete
                else if data.length < afterHdr then .failed .raised
                else parseBulks data remaining (wrapSize (afterHdr + blen.toNat + 2))
                  (args ++ [(data.drop afterHdr).take blen.toNat])

def parseMultibulk (data : Bytes) (out : List (List Bytes)) (consumed : ℕ) : Outputs :=
  match parseInteger data 1 with
  | none => some (.incomplete, out, consumed)
  | some (nargs, pos) =>
      if nargs < 0 then some (.error, out, consumed)
      else if nargs = 0 then some (.complete, out ++ [[]], pos)
      else if maxVectorSize < nargs.toNat then none
      else
        match parseBulks data nargs.toNat pos [] with
        | .complete args pos => some (.complete, out ++ [args], pos)
        | .incomplete => some (.incomplete, out, consumed)
        | .failed .error => some (.error, out, consumed)
        | .failed .raised => none

def parseInline (data : Bytes) (out : List (List Bytes)) (consumed : ℕ) : Outputs :=
  match findCrlf data 0 with
  | some crlf =>
      some (.complete, out ++ (inlineCommand (data.take crlf)).toList, wrapSize (crlf + 2))
  | none =>
      match data.findIdx? (· == LF) with
      | none => some (.incomplete, out, consumed)
      | some lf =>
          let crlf := if 0 < lf ∧ data[lf - 1]? = some CR then lf - 1 else lf
          some (.complete, out ++ (inlineCommand (data.take crlf)).toList, wrapSize (lf + 1))

def parse (data : Bytes) (outCmds : List (List Bytes)) (frameLen : ℕ) : Outputs :=
  match data with
  | [] => some (.incomplete, outCmds, frameLen)
  | byte :: _ =>
      if byte = 42 then parseMultibulk data outCmds frameLen
      else parseInline data outCmds frameLen

/-- The output parameters after a result of the parser on paper. -/
def outputs (outCmds : List (List Bytes)) (frameLen : ℕ) : ParseResult → Outputs
  | .complete command length => some (.complete, outCmds ++ command.toList, length)
  | .incomplete => some (.incomplete, outCmds, frameLen)
  | .failed .error => some (.error, outCmds, frameLen)
  | .failed .raised => none

theorem parseInto_eq (data : Bytes) (outCmds : List (List Bytes)) (frameLen : ℕ) :
    parseInto data outCmds frameLen = outputs outCmds frameLen (Protocol.parse data) := rfl

/-! ## No sum wraps -/

section Fits

variable {data : Bytes} (fits : data.length ≤ maxViewSize)

include fits

theorem wrapSize_of_le {offset : ℕ} (within : offset ≤ data.length + 2) :
    wrapSize offset = offset := by
  apply wrapSize_of_lt
  simp only [maxViewSize] at fits
  omega

/-- The sum over an argument is the one on paper. -/
theorem wrapSize_bulk {start afterHdr : ℕ} {blen : ℤ}
    (header : parseInteger data start = some (blen, afterHdr)) :
    wrapSize (afterHdr + blen.toNat + 2) = afterHdr + blen.toNat + 2 := by
  have within := (parseInteger_bound header).2
  have small := parseInteger_le header
  apply wrapSize_of_lt
  simp only [maxViewSize] at fits
  simp only [int64Max] at small
  omega

theorem parseBulks_eq (remaining pos : ℕ) (args : List Bytes) :
    Protocol.parseBulks data remaining pos args =
      match parseBulks data remaining pos args with
      | .complete args pos => .complete (some args) pos
      | .incomplete => .incomplete
      | .failed failure => .failed failure := by
  induction remaining generalizing pos args with
  | zero => rfl
  | succ remaining inductionHypothesis =>
      rw [Protocol.parseBulks, parseBulks]
      cases data[pos]? with
      | none => rfl
      | some byte =>
          simp only
          split
          · rfl
          · cases header : parseInteger data (pos + 1) with
            | none => rfl
            | some found =>
                rcases found with ⟨blen, afterHdr⟩
                have inside : ¬data.length < afterHdr :=
                  not_lt.mpr (parseInteger_bound header).2
                simp only [wrapSize_bulk fits header, inside, if_false]
                split
                · rfl
                · split
                  · rfl
                  · exact inductionHypothesis _ _

theorem parseMultibulk_eq (out : List (List Bytes)) (consumed : ℕ) :
    parseMultibulk data out consumed = outputs out consumed (Protocol.parseMultibulk data) := by
  rw [parseMultibulk, Protocol.parseMultibulk]
  cases parseInteger data 1 with
  | none => rfl
  | some found =>
      rcases found with ⟨nargs, pos⟩
      simp only [parseBulks_eq fits]
      split
      · rfl
      · split
        · rfl
        · split
          · rfl
          · cases parseBulks data nargs.toNat pos [] with
            | complete args length => rfl
            | incomplete => rfl
            | failed failure =>
                cases failure with
                | error => rfl
                | raised => rfl

theorem parseInline_eq (out : List (List Bytes)) (consumed : ℕ) :
    parseInline data out consumed = outputs out consumed (Protocol.parseInline data) := by
  rw [parseInline, Protocol.parseInline]
  cases found : findCrlf data 0 with
  | some crlf =>
      have bound := findCrlf_bound found
      simp only [wrapSize_of_le fits (by omega : crlf + 2 ≤ data.length + 2), outputs]
  | none =>
      cases bare : data.findIdx? (· == LF) with
      | none => rfl
      | some lf =>
          have bound := findIdx_bound bare
          simp only [wrapSize_of_le fits (by omega : lf + 1 ≤ data.length + 2), outputs]

/-- With offsets in `size_t` the parser does the same. -/
theorem parse_eq (outCmds : List (List Bytes)) (frameLen : ℕ) :
    parse data outCmds frameLen = parseInto data outCmds frameLen := by
  rw [parseInto_eq]
  cases data with
  | nil => rfl
  | cons byte rest =>
      rw [parse, Protocol.parse]
      split
      · exact parseMultibulk_eq fits outCmds frameLen
      · exact parseInline_eq fits outCmds frameLen

end Fits

/-- What `parse` promises: a complete frame has at least one byte, lies within the data and brings
at most one command; otherwise the output parameters are as before. -/
def Kept (data : Bytes) (outCmds : List (List Bytes)) (frameLen : ℕ) : Outputs → Prop
  | some (.complete, cmds, length) =>
      0 < length ∧ length ≤ data.length ∧ ∃ command : Option (List Bytes),
        cmds = outCmds ++ command.toList
  | some (_, cmds, length) => cmds = outCmds ∧ length = frameLen
  | none => True

theorem kept_parse {data : Bytes} (fits : data.length ≤ maxViewSize)
    (outCmds : List (List Bytes)) (frameLen : ℕ) :
    Kept data outCmds frameLen (parse data outCmds frameLen) := by
  rw [parse_eq fits, parseInto_eq]
  cases said : Protocol.parse data with
  | complete command length =>
      have bounds := progresses_parse data command length said
      exact ⟨bounds.1, bounds.2, command, rfl⟩
  | incomplete => exact ⟨rfl, rfl⟩
  | failed failure =>
      cases failure with
      | error => exact ⟨rfl, rfl⟩
      | raised => trivial

/-! ## The loop -/

/-- The locals of `extract_frames` that the loop changes. -/
structure Progress where
  consumed : ℕ
  outCmds : List (List Bytes)
deriving DecidableEq, Repr

/-- How `extract_frames` ends: with what is left in `recv_buf`, with `handle_close`, or with an
exception. -/
inductive Extracted where
  | alive (recvBuf : Bytes) (outCmds : List (List Bytes))
  | closed (outCmds : List (List Bytes))
  | raised
deriving DecidableEq, Repr

/-- One iteration of the loop: the locals afterwards, or how the loop ends. -/
def extractIteration (buf : Bytes) (state : Progress) : Progress ⊕ Extracted :=
  if state.consumed < buf.length then
    match parse (buf.drop state.consumed) state.outCmds 0 with
    | some (.complete, outCmds, frameLen) => .inl ⟨wrapSize (state.consumed + frameLen), outCmds⟩
    | some (.incomplete, outCmds, _) => .inr (.alive (buf.drop state.consumed) outCmds)
    | some (.error, outCmds, _) => .inr (.closed outCmds)
    | none => .inr .raised
  else .inr (.alive (buf.drop state.consumed) state.outCmds)

/-- The loop; none if the fuel runs out before it ends. -/
def extractLoop (buf : Bytes) : ℕ → Progress → Option Extracted
  | 0, _ => none
  | fuel + 1, state =>
      match extractIteration buf state with
      | .inl after => extractLoop buf fuel after
      | .inr ended => some ended

/-- An iteration that takes a frame off the buffer. -/
inductive Takes (buf : Bytes) (state : Progress) : Bytes → Progress → Prop where
  | frame {outCmds : List (List Bytes)} {frameLen : ℕ} (more : state.consumed < buf.length)
      (parsed : parse (buf.drop state.consumed) state.outCmds 0 =
        some (.complete, outCmds, frameLen)) :
      Takes buf state ((buf.drop state.consumed).take frameLen)
        ⟨wrapSize (state.consumed + frameLen), outCmds⟩

/-- What the extraction of `Protocol.Framing` amounts to for the caller of `extract_frames`. -/
def Extracted.ofExtraction (outCmds : List (List Bytes))
    (taken : Extraction UInt8 (Option (List Bytes)) ParseFailure) : Extracted :=
  match taken.failure with
  | none => .alive taken.rest (outCmds ++ taken.frames.filterMap id)
  | some .error => .closed (outCmds ++ taken.frames.filterMap id)
  | some .raised => .raised

theorem ofExtraction_cons (outCmds : List (List Bytes)) (command : Option (List Bytes))
    (taken : Extraction UInt8 (Option (List Bytes)) ParseFailure) :
    Extracted.ofExtraction outCmds ⟨command :: taken.frames, taken.rest, taken.failure⟩ =
      .ofExtraction (outCmds ++ command.toList) taken := by
  have commands : (command :: taken.frames).filterMap id =
      command.toList ++ taken.frames.filterMap id := by
    cases command with
    | none => rfl
    | some args => rfl
  simp only [Extracted.ofExtraction, commands, List.append_assoc]

section Loop

variable {buf : Bytes} (fits : buf.length ≤ maxViewSize) {state after : Progress}

/-- The loop goes on if and only if it takes a frame. -/
theorem extractIteration_eq_inl_iff :
    extractIteration buf state = .inl after ↔ ∃ frame, Takes buf state frame after := by
  constructor
  · intro goesOn
    rw [extractIteration] at goesOn
    split at goesOn
    · rename_i more
      split at goesOn
      · rename_i outCmds frameLen parsed
        cases goesOn
        exact ⟨_, .frame more parsed⟩
      · cases goesOn
      · cases goesOn
      · cases goesOn
    · cases goesOn
  · rintro ⟨frame, takes⟩
    cases takes with
    | frame more parsed => simp only [extractIteration, more, if_true, parsed]

include fits

theorem drop_fits (consumed : ℕ) : (buf.drop consumed).length ≤ maxViewSize := by
  rw [List.length_drop]
  omega

/-- The next frame is where the last one ended, and within the buffer. -/
theorem Takes.conserves {frame : Bytes} (takes : Takes buf state frame after) :
    state.consumed < after.consumed ∧ after.consumed ≤ buf.length ∧
      buf.drop state.consumed = frame ++ buf.drop after.consumed := by
  cases takes with
  | @frame outCmds frameLen more parsed =>
      have kept := kept_parse (drop_fits fits state.consumed) state.outCmds 0
      rw [parsed] at kept
      rcases kept with ⟨positive, within, -⟩
      rw [List.length_drop] at within
      have sum : wrapSize (state.consumed + frameLen) = state.consumed + frameLen :=
        wrapSize_of_le fits (by omega)
      simp only [sum]
      refine ⟨by omega, by omega, ?_⟩
      rw [← List.drop_drop, List.take_append_drop]

/-- The frames taken are the front of the buffer. -/
theorem run_conserves {outCmds : List (List Bytes)}
    {moves : List (Transition.Move Progress Bytes)}
    (run : Transition.Run (Takes buf) ⟨0, outCmds⟩ moves state) :
    state.consumed ≤ buf.length ∧
      buf = (moves.map Transition.Move.label).flatten ++ buf.drop state.consumed := by
  induction run with
  | nil => exact ⟨Nat.zero_le _, rfl⟩
  | snoc _ takes inductionHypothesis =>
      rcases inductionHypothesis with ⟨-, parts⟩
      rcases takes.conserves fits with ⟨-, within, next⟩
      refine ⟨within, ?_⟩
      rw [next] at parts
      simpa using parts

/-- The loop ends where a run of it ends. -/
theorem extractLoop_ends {outCmds : List (List Bytes)}
    {moves : List (Transition.Move Progress Bytes)}
    (run : Transition.Run (Takes buf) ⟨0, outCmds⟩ moves state) :
    ∃ moves final ended, Transition.Run (Takes buf) ⟨0, outCmds⟩ moves final ∧
      extractIteration buf final = .inr ended ∧
      ∀ fuel, buf.length - state.consumed < fuel → extractLoop buf fuel state = some ended := by
  induction left : buf.length - state.consumed using Nat.strongRecOn generalizing state moves with
  | _ left inductionHypothesis =>
      cases iterated : extractIteration buf state with
      | inr ended =>
          refine ⟨moves, state, ended, run, iterated, ?_⟩
          intro fuel enough
          rcases Nat.exists_eq_succ_of_ne_zero (by omega : fuel ≠ 0) with ⟨fuel, rfl⟩
          simp only [extractLoop, iterated]
      | inl after =>
          rcases extractIteration_eq_inl_iff.mp iterated with ⟨frame, takes⟩
          rcases takes.conserves fits with ⟨further, within, -⟩
          rcases inductionHypothesis (buf.length - after.consumed) (by omega) (run.snoc takes)
            rfl with ⟨moves, final, ended, reached, ends, loop⟩
          refine ⟨moves, final, ended, reached, ends, ?_⟩
          intro fuel enough
          rcases Nat.exists_eq_succ_of_ne_zero (by omega : fuel ≠ 0) with ⟨fuel, rfl⟩
          simp only [extractLoop, iterated]
          exact loop fuel (by omega)

/-- The loop gives what the extraction of all complete frames gives. -/
theorem extractLoop_eq {fuel : ℕ} (enough : buf.length - state.consumed < fuel) :
    extractLoop buf fuel state =
      some (.ofExtraction state.outCmds (extractFrames (buf.drop state.consumed))) := by
  induction fuel generalizing state with
  | zero => omega
  | succ fuel inductionHypothesis =>
      rw [extractLoop, extractIteration, extractFrames]
      by_cases more : state.consumed < buf.length
      · have nonempty : buf.drop state.consumed ≠ [] := by
          rw [← List.length_pos_iff, List.length_drop]
          omega
        rw [if_pos more, parse_eq (drop_fits fits _), parseInto_eq]
        cases said : Protocol.parse (buf.drop state.consumed) with
        | incomplete =>
            rw [extract_incomplete said]
            simp [outputs, Extracted.ofExtraction]
        | failed failure =>
            rw [extract_failed nonempty said]
            cases failure with
            | error => simp [outputs, Extracted.ofExtraction]
            | raised => rfl
        | complete command length =>
            have bounds := progresses_parse _ _ _ said
            rw [List.length_drop] at bounds
            have sum : wrapSize (state.consumed + length) = state.consumed + length :=
              wrapSize_of_le fits (by omega)
            rw [extract_complete progresses_parse said]
            simp only [outputs, sum]
            rw [inductionHypothesis (by simp only; omega), extractFrames, ← List.drop_drop,
              ofExtraction_cons]
      · have atEnd : buf.drop state.consumed = [] := List.drop_eq_nil_of_le (not_lt.mp more)
        rw [if_neg more, atEnd]
        simp [Extracted.ofExtraction]

end Loop

/-- Frame extraction makes progress and conserves bytes.  A complete frame has at least one byte,
lies within the data and brings at most one command, and other results change nothing.  So the
loop ends, whatever the buffer holds: it never gets behind the end of the buffer, and where it
ends with the connection alive, the buffer was the frames taken followed by what is left, in
which there is no further frame. -/
theorem extraction_conserves :
    (∀ data outCmds frameLen, data.length ≤ maxViewSize →
      Kept data outCmds frameLen (parse data outCmds frameLen)) ∧
    ∀ (buf : Bytes) (outCmds : List (List Bytes)), buf.length ≤ maxViewSize →
      (∀ moves state, Transition.Run (Takes buf) ⟨0, outCmds⟩ moves state →
        state.consumed ≤ buf.length) ∧
      ∃ moves state ended, Transition.Run (Takes buf) ⟨0, outCmds⟩ moves state ∧
        extractIteration buf state = .inr ended ∧
        (∀ fuel, buf.length < fuel → extractLoop buf fuel ⟨0, outCmds⟩ = some ended) ∧
        ∀ recvBuf cmds, ended = .alive recvBuf cmds →
          buf = (moves.map Transition.Move.label).flatten ++ recvBuf ∧
            (recvBuf = [] ∨ parse recvBuf cmds 0 = some (.incomplete, cmds, 0)) := by
  refine ⟨fun data outCmds frameLen fits => kept_parse fits outCmds frameLen, ?_⟩
  intro buf outCmds fits
  refine ⟨fun moves state run => (run_conserves fits run).1, ?_⟩
  rcases extractLoop_ends fits (@Transition.Run.nil _ _ (Takes buf) ⟨0, outCmds⟩) with
    ⟨moves, state, ended, run, ends, loop⟩
  refine ⟨moves, state, ended, run, ends, loop, ?_⟩
  rintro recvBuf cmds rfl
  have parts := (run_conserves fits run).2
  rw [extractIteration] at ends
  split at ends
  · have kept := kept_parse (drop_fits fits state.consumed) state.outCmds 0
    split at ends
    · cases ends
    · rename_i cmds frameLen parsed
      cases ends
      rw [parsed] at kept
      rw [kept.1, kept.2] at parsed
      refine ⟨parts, Or.inr ?_⟩
      rw [kept.1]
      exact parsed
    · cases ends
    · cases ends
  · rename_i atEnd
    cases ends
    exact ⟨parts, Or.inl (List.drop_eq_nil_of_le (not_lt.mp atEnd))⟩

/-- A line and the beginning of an array. -/
theorem extraction_conserves_line :
    Kept (ascii "PING\r\n*1\r\n") [] 7 (parse (ascii "PING\r\n*1\r\n") [] 7) ∧
      ∃ moves state ended,
        Transition.Run (Takes (ascii "PING\r\n*1\r\n")) ⟨0, []⟩ moves state ∧
          extractLoop (ascii "PING\r\n*1\r\n") 11 ⟨0, []⟩ = some ended ∧
          ended = .alive (ascii "*1\r\n") [[ascii "PING"]] := by
  refine ⟨extraction_conserves.1 _ _ _ (by decide), ?_⟩
  rcases (extraction_conserves.2 (ascii "PING\r\n*1\r\n") [] (by decide)).2 with
    ⟨moves, state, ended, run, -, loop, -⟩
  have ends := loop 11 (by decide)
  refine ⟨moves, state, ended, run, ends, ?_⟩
  rw [show extractLoop (ascii "PING\r\n*1\r\n") 11 ⟨0, []⟩ =
    some (.alive (ascii "*1\r\n") [[ascii "PING"]]) by decide] at ends
  exact (Option.some.inj ends).symm

end Sized

end RedisCpp.Protocol
