import RedisCpp.Protocol.Completion
import Mathlib.Data.List.Forall2
import Mathlib.Data.List.Induction

/-!
# Streams of valid frames

A valid frame is a request in which CRLF closes every payload, or a line of text ended by
CRLF.  Nothing that follows a valid frame changes how it is read, and no proper part of it
is read as a frame.  So the frames of a stream come out one by one, whatever stands behind
them and wherever the stream is cut.
-/

namespace RedisCpp.Protocol

open StreamDecoder

/-- A frame as the protocol has it, with the command it carries.  The argument vector can
hold the payloads of a request; a line of text does not begin with a star. -/
inductive ValidFrame : Bytes → Option (List Bytes) → Prop where
  | request {args : List Bytes} {frame : Bytes} (whole : Frame Terminated args frame)
      (capacity : args.length ≤ maxVectorSize) : ValidFrame frame (some args)
  | line {text : Bytes} (inline : text.head? ≠ some 42) (clean : LF ∉ text) :
      ValidFrame (text ++ crlf) (inlineCommand text)

/-- The frames of a stream with their commands. -/
abbrev ValidFrames (frames : List Bytes) (commands : List (Option (List Bytes))) : Prop :=
  List.Forall₂ ValidFrame frames commands

/-! ## One frame -/

theorem crlfOffset_eq_none {text : Bytes} (clean : LF ∉ text) : crlfOffset text = none := by
  cases found : crlfOffset text with
  | none => rfl
  | some offset =>
      rcases getElem_of_crlfOffset found with ⟨-, lf⟩
      exact absurd (List.mem_of_getElem? lf) clean

theorem findCrlf_line {text : Bytes} (clean : LF ∉ text) (rest : Bytes) :
    findCrlf (text ++ crlf ++ rest) 0 = some text.length := by
  have first := crlfOffset_append_crlf (crlfOffset_eq_none clean)
  simp only [findCrlf, List.drop_zero, crlfOffset_append first, Option.map_some, Nat.add_zero]

theorem head_line {text : Bytes} (inline : text.head? ≠ some 42) (rest : Bytes) :
    (text ++ crlf ++ rest).head? ≠ some 42 := by
  cases text with
  | nil =>
      intro star
      exact absurd star (by simp [crlf, CR])
  | cons byte text => simpa using inline

namespace ValidFrame

variable {frame : Bytes} {command : Option (List Bytes)}

theorem ne_nil (valid : ValidFrame frame command) : frame ≠ [] := by
  cases valid with
  | request whole _ =>
      rcases whole with ⟨field, items, rfl, -⟩
      exact List.cons_ne_nil _ _
  | line _ _ => simp [crlf]

/-- What follows a valid frame makes no difference. -/
theorem parse_append (valid : ValidFrame frame command) (rest : Bytes) :
    parse (frame ++ rest) = .complete command frame.length := by
  cases valid with
  | request whole capacity =>
      have complete := parse_frame (whole.mono fun _ => Terminated.skipped) capacity
      have star : frame.head? = some 42 := by
        rcases whole with ⟨field, items, rfl, -⟩
        rfl
      rw [Protocol.parse_append (by simp [complete]) (Or.inl star), complete]
  | @line text inline clean =>
      rw [parse_of_not_star (by simp [crlf]) (head_line inline rest),
        parseInline_of_crlf (findCrlf_line clean rest)]
      simp only [List.append_assoc, List.take_left, List.length_append, length_crlf]

/-- No bare LF stands before the end of a valid frame. -/
theorem lineSafe (valid : ValidFrame frame command) (rest : Bytes) :
    LineSafe (frame ++ rest) := by
  cases valid with
  | request whole _ =>
      rcases whole with ⟨field, items, rfl, -⟩
      exact Or.inl rfl
  | line inline clean =>
      right
      intro place found
      rw [findCrlf_line clean rest] at found
      cases found
      simpa only [List.append_assoc, List.take_left] using clean

/-- A proper part of a valid frame is not read as a frame. -/
theorem parse_front (valid : ValidFrame frame command) {front back : Bytes}
    (parts : frame = front ++ back) (proper : back ≠ []) : parse front = .incomplete := by
  by_contra settled
  have complete := valid.parse_append []
  have consistent := consistent_parse (valid.lineSafe [])
  rw [List.append_nil] at complete consistent
  rw [consistent front back parts settled] at complete
  have within := (progresses_parse _ _ _ complete).2
  have shorter := List.length_pos_iff.mpr proper
  rw [parts, List.length_append] at within
  omega

end ValidFrame

/-! ## Many frames -/

/-- The frames of a stream come out one by one, and then what is found behind them. -/
theorem extractFrames_append {frames : List Bytes} {commands : List (Option (List Bytes))}
    (valid : ValidFrames frames commands) (tail : Bytes) :
    extractFrames (frames.flatten ++ tail) =
      ⟨commands ++ (extractFrames tail).frames, (extractFrames tail).rest,
        (extractFrames tail).failure⟩ := by
  induction valid with
  | nil => rfl
  | @cons frame command frames commands first _ inductionHypothesis =>
      rw [extractFrames] at inductionHypothesis
      have complete := first.parse_append (frames.flatten ++ tail)
      rw [List.flatten_cons, List.append_assoc, extractFrames,
        extract_complete progresses_parse complete, List.drop_left, inductionHypothesis]
      rfl

/-- The part of the next frame that has arrived, if it is not there as a whole. -/
def Begun (part : Bytes) : List Bytes → Prop
  | [] => part = []
  | frame :: _ => ∃ back, frame = part ++ back ∧ back ≠ []

theorem Begun.length_lt {part frame : Bytes} {frames : List Bytes}
    (begun : Begun part (frame :: frames)) : part.length < frame.length := by
  rcases begun with ⟨back, rfl, proper⟩
  have shorter := List.length_pos_iff.mpr proper
  rw [List.length_append]
  omega

theorem begun_nil {frames : List Bytes} {commands : List (Option (List Bytes))}
    (valid : ValidFrames frames commands) : Begun [] frames := by
  cases valid with
  | nil => rfl
  | cons first _ => exact ⟨_, rfl, first.ne_nil⟩

/-- Nothing comes out of a frame that is not there as a whole. -/
theorem extractFrames_begun {frames : List Bytes} {commands : List (Option (List Bytes))}
    (valid : ValidFrames frames commands) {part : Bytes} (begun : Begun part frames) :
    extractFrames part = ⟨[], part, none⟩ := by
  cases valid with
  | nil =>
      rw [Begun] at begun
      rw [begun]
      rfl
  | cons first _ =>
      rcases begun with ⟨back, parts, proper⟩
      exact extract_incomplete (first.parse_front parts proper)

/-- What the first bytes of a stream consist of: whole frames and the beginning of the next
one. -/
theorem exists_begun {frames : List Bytes} {commands : List (Option (List Bytes))}
    (valid : ValidFrames frames commands) {front back : Bytes}
    (parts : frames.flatten = front ++ back) :
    ∃ done later doneCommands laterCommands part,
      frames = done ++ later ∧ commands = doneCommands ++ laterCommands ∧
        ValidFrames done doneCommands ∧ ValidFrames later laterCommands ∧
        front = done.flatten ++ part ∧ Begun part later := by
  induction valid generalizing front with
  | nil =>
      have empty := List.append_eq_nil_iff.mp parts.symm
      exact ⟨[], [], [], [], [], rfl, rfl, .nil, .nil, by simp [empty.1], rfl⟩
  | @cons frame command frames commands first rest inductionHypothesis =>
      rw [List.flatten_cons] at parts
      rcases List.append_eq_append_iff.mp parts with ⟨more, front_eq, later_eq⟩ |
        ⟨missing, frame_eq, back_eq⟩
      · rcases inductionHypothesis later_eq with
          ⟨done, later, doneCommands, laterCommands, part, rfl, rfl, doneValid, laterValid,
            more_eq, begun⟩
        refine ⟨frame :: done, later, command :: doneCommands, laterCommands, part, rfl, rfl,
          .cons first doneValid, laterValid, ?_, begun⟩
        rw [front_eq, more_eq, List.flatten_cons, List.append_assoc]
      · by_cases whole : missing = []
        · subst whole
          rw [List.append_nil] at frame_eq
          refine ⟨[frame], frames, [command], commands, [], rfl, rfl, .cons first .nil, rest,
            ?_, begun_nil rest⟩
          simp [frame_eq]
        · exact ⟨[], frame :: frames, [], command :: commands, front, rfl, rfl, .nil,
            .cons first rest, rfl, missing, frame_eq, whole⟩

/-- From the first bytes of a stream, in chunks of any size, come the commands of the frames
that are there as a whole.  The beginning of the next one is left. -/
theorem receiveChunks_begun {frames : List Bytes} {commands : List (Option (List Bytes))}
    (valid : ValidFrames frames commands) {chunks : List Bytes}
    (ahead : chunks.flatten <+: frames.flatten) :
    ∃ done later doneCommands laterCommands part,
      frames = done ++ later ∧ commands = doneCommands ++ laterCommands ∧
        ValidFrames done doneCommands ∧ ValidFrames later laterCommands ∧
        chunks.flatten = done.flatten ++ part ∧ Begun part later ∧
        receiveChunks chunks = ⟨doneCommands, part, none⟩ := by
  induction chunks using List.reverseRecOn with
  | nil => exact ⟨[], frames, [], commands, [], rfl, rfl, .nil, valid, rfl, begun_nil valid, rfl⟩
  | append_singleton chunks chunk inductionHypothesis =>
      rw [List.flatten_append, List.flatten_singleton] at ahead
      rcases ahead with ⟨back, parts⟩
      rcases inductionHypothesis ⟨chunk ++ back, by rw [← parts, List.append_assoc]⟩ with
        ⟨done, later, doneCommands, laterCommands, part, rfl, rfl, doneValid, laterValid,
          front_eq, -, received⟩
      have rest : later.flatten = (part ++ chunk) ++ back := by
        rw [front_eq, List.flatten_append] at parts
        simpa using parts.symm
      rcases exists_begun laterValid rest with
        ⟨newDone, newLater, newCommands, newLaterCommands, newPart, rfl, rfl, newValid,
          newLaterValid, more_eq, begun⟩
      have taken := extractFrames_append newValid newPart
      rw [extractFrames_begun newLaterValid begun, List.append_nil, ← more_eq,
        extractFrames] at taken
      refine ⟨done ++ newDone, newLater, doneCommands ++ newCommands, newLaterCommands, newPart,
        ?_, ?_, List.rel_append doneValid newValid, newLaterValid, ?_, begun, ?_⟩
      · rw [List.append_assoc]
      · rw [List.append_assoc]
      · rw [List.flatten_append, List.flatten_singleton, front_eq, List.append_assoc, more_eq,
          List.flatten_append, List.append_assoc]
      · rw [receiveChunks, receive_snoc received, taken]

end RedisCpp.Protocol
