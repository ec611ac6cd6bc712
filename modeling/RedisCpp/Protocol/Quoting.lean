import RedisCpp.Protocol.Cuts
import RedisCpp.Protocol.ValidFrames

/-!
# Quoting of inline commands

A word of an inline command is written bare, or between double quotes with an escape for
every byte that would end the token or the line.  Words are separated by blanks.  The
tokenizer gives the words back, whatever bytes they consist of: it undoes one escape after
the other up to the closing quote, and one word after the other up to the end of the line.
-/

namespace RedisCpp.Protocol

open StreamDecoder

/-! ## Renderings -/

/-- A byte of a quoted word. -/
def escapeByte (byte : UInt8) : Bytes :=
  if byte = 92 then [92, 92]
  else if byte = 34 then [92, 34]
  else if byte = LF then [92, 110]
  else if byte = CR then [92, 114]
  else if byte = 9 then [92, 116]
  else [byte]

/-- A word between double quotes. -/
def quoted (word : Bytes) : Bytes :=
  34 :: (word.flatMap escapeByte ++ [34])

/-- Only spaces and tabs. -/
def Blanks (text : Bytes) : Prop :=
  ∀ byte ∈ text, isBlank byte = true

/-- A word that may be written as it is. -/
structure Bare (word : Bytes) : Prop where
  nonempty : word ≠ []
  visible : ∀ byte ∈ word, isBlank byte = false
  noCr : CR ∉ word
  noLf : LF ∉ word
  notQuote : word.head? ≠ some 34

/-- The ways to write a word. -/
inductive Rendering (word : Bytes) : Bytes → Prop where
  | bare (bare : Bare word) : Rendering word word
  | quoted : Rendering word (quoted word)

/-- Words with blanks between them and, optionally, behind the last one. -/
inductive WordLine : List Bytes → Bytes → Prop where
  | last {word form trailing : Bytes} (rendering : Rendering word form)
      (blanks : Blanks trailing) : WordLine [word] (form ++ trailing)
  | cons {word form gap rest : Bytes} {words : List Bytes} (rendering : Rendering word form)
      (blanks : Blanks gap) (separated : gap ≠ []) (line : WordLine words rest) :
      WordLine (word :: words) (form ++ (gap ++ rest))

/-! ## No line end in a line -/

theorem lf_notMem_blanks {text : Bytes} (blanks : Blanks text) : LF ∉ text := by
  intro mem
  exact absurd (blanks LF mem) (by decide)

theorem lf_notMem_escapeByte (byte : UInt8) : LF ∉ escapeByte byte := by
  simp only [escapeByte]
  split
  · decide
  · split
    · decide
    · split
      · decide
      · rename_i notLf
        split
        · decide
        · split
          · decide
          · intro mem
            exact notLf (List.mem_singleton.mp mem).symm

theorem lf_notMem_rendering {word form : Bytes} (rendering : Rendering word form) :
    LF ∉ form := by
  cases rendering with
  | bare bare => exact bare.noLf
  | quoted =>
      simp only [quoted, List.mem_cons, List.mem_append, List.mem_flatMap, List.not_mem_nil,
        or_false, not_or, not_exists, not_and]
      exact ⟨by decide, fun byte _ => lf_notMem_escapeByte byte, by decide⟩

theorem lf_notMem_wordLine {words : List Bytes} {line : Bytes} (written : WordLine words line) :
    LF ∉ line := by
  induction written with
  | last rendering blanks =>
      rw [List.mem_append]
      rintro (mem | mem)
      · exact lf_notMem_rendering rendering mem
      · exact lf_notMem_blanks blanks mem
  | cons rendering blanks _ _ inductionHypothesis =>
      rw [List.mem_append, List.mem_append]
      rintro (mem | mem | mem)
      · exact lf_notMem_rendering rendering mem
      · exact lf_notMem_blanks blanks mem
      · exact inductionHypothesis mem

/-! ## Tokens -/

/-- One escape is undone. -/
theorem quotedToken_escapeByte (byte : UInt8) (rest : Bytes) :
    quotedToken (escapeByte byte ++ rest) =
      (byte :: (quotedToken rest).1, (quotedToken rest).2) := by
  simp only [escapeByte]
  split
  · rename_i backslash
    rw [backslash]
    rfl
  · rename_i notEscape
    split
    · rename_i quote
      rw [quote]
      rfl
    · rename_i notQuote
      split
      · rename_i lf
        rw [lf]
        rfl
      · split
        · rename_i cr
          rw [cr]
          rfl
        · split
          · rename_i tab
            rw [tab]
            rfl
          · exact quotedToken_cons notQuote notEscape rest

/-- A quoted word is read up to its closing quote. -/
theorem quotedToken_quoted (word rest : Bytes) :
    quotedToken (word.flatMap escapeByte ++ 34 :: rest) = (word, rest) := by
  induction word with
  | nil => rfl
  | cons byte word inductionHypothesis =>
      rw [List.flatMap_cons, List.append_assoc, quotedToken_escapeByte, inductionHypothesis]

section Loop

variable {word form leading tail : Bytes}

theorem dropWhile_blanks (blanks : Blanks leading) (rest : Bytes) :
    (leading ++ rest).dropWhile isBlank = rest.dropWhile isBlank :=
  List.dropWhile_append_of_pos blanks

/-- The tokenizer reads one written word. -/
theorem tokenizeLoop_rendering (rendering : Rendering word form) (blanks : Blanks leading)
    (stops : ∀ byte, tail.head? = some byte → isBlank byte = true) (fuel : ℕ) :
    tokenizeLoop (fuel + 1) (leading ++ (form ++ tail)) = word :: tokenizeLoop fuel tail := by
  cases rendering with
  | quoted =>
      have trimmed : (leading ++ (quoted word ++ tail)).dropWhile isBlank =
          34 :: (word.flatMap escapeByte ++ 34 :: tail) := by
        rw [dropWhile_blanks blanks]
        simp [quoted, isBlank]
      rw [tokenizeLoop_quote trimmed, quotedToken_quoted]
  | bare bare =>
      cases word with
      | nil => exact absurd rfl bare.nonempty
      | cons byte word =>
          have notQuote : byte ≠ 34 := by
            rintro rfl
            exact bare.notQuote rfl
          have shown : ∀ other ∈ byte :: word, (!isBlank other) = true := by
            intro other mem
            simp [bare.visible other mem]
          have trimmed : (leading ++ (byte :: word ++ tail)).dropWhile isBlank =
              byte :: (word ++ tail) := by
            rw [dropWhile_blanks blanks]
            simp [bare.visible byte (by simp)]
          have ended : tail.takeWhile (!isBlank ·) = [] ∧ tail.dropWhile (!isBlank ·) = tail := by
            cases tail with
            | nil => exact ⟨rfl, rfl⟩
            | cons next tail => simp [stops next rfl]
          rw [tokenizeLoop_word notQuote trimmed, ← List.cons_append,
            List.takeWhile_append_of_pos shown, List.dropWhile_append_of_pos shown, ended.1,
            ended.2, List.append_nil]

theorem length_form_pos (rendering : Rendering word form) : 0 < form.length := by
  cases rendering with
  | bare bare => exact List.length_pos_iff.mpr bare.nonempty
  | quoted => simp [quoted]

/-- The tokenizer reads the words of a line. -/
theorem tokenizeLoop_wordLine {words : List Bytes} {line : Bytes} (written : WordLine words line)
    {leading : Bytes} (blanks : Blanks leading) {fuel : ℕ} (enough : line.length ≤ fuel) :
    tokenizeLoop fuel (leading ++ line) = words := by
  induction written generalizing leading fuel with
  | @last word form trailing rendering trailingBlanks =>
      have positive := length_form_pos rendering
      rw [List.length_append] at enough
      cases fuel with
      | zero => omega
      | succ fuel =>
          have stops : ∀ byte, trailing.head? = some byte → isBlank byte = true := by
            intro byte first
            exact trailingBlanks byte (List.mem_of_mem_head? first)
          rw [tokenizeLoop_rendering rendering blanks stops]
          congr 1
          exact tokenizeLoop_blank (List.dropWhile_eq_nil_iff.mpr trailingBlanks)
  | @cons word form gap rest words rendering gapBlanks separated _ inductionHypothesis =>
      have positive := length_form_pos rendering
      rw [List.length_append, List.length_append] at enough
      cases fuel with
      | zero => omega
      | succ fuel =>
          have stops : ∀ byte, (gap ++ rest).head? = some byte → isBlank byte = true := by
            intro byte first
            rw [head_append separated] at first
            exact gapBlanks byte (List.mem_of_mem_head? first)
          rw [tokenizeLoop_rendering rendering blanks stops, inductionHypothesis gapBlanks]
          omega

end Loop

/-! ## The round trip -/

/-- Parsing a line of written words in front of any bytes gives the words back, with the
name of the command in upper case. -/
theorem parseInto_wordLine {name : Bytes} {args : List Bytes} {leading line : Bytes}
    (blanks : Blanks leading) (written : WordLine (name :: args) line)
    (inline : (leading ++ line).head? ≠ some 42) (more : Bytes) (outCmds : List (List Bytes))
    (frameLen : ℕ) :
    parseInto (leading ++ line ++ crlf ++ more) outCmds frameLen =
      some (.complete, outCmds ++ [toUpper name :: args], (leading ++ line).length + 2) := by
  have clean : LF ∉ leading ++ line := by
    rw [List.mem_append]
    rintro (mem | mem)
    · exact lf_notMem_blanks blanks mem
    · exact lf_notMem_wordLine written mem
  have tokens : tokenize (leading ++ line) = name :: args := by
    apply tokenizeLoop_wordLine written blanks
    simp only [List.length_append]
    omega
  have command : inlineCommand (leading ++ line) = some (toUpper name :: args) := by
    simp only [inlineCommand, tokens]
  have parsed := (ValidFrame.line inline clean).parse_append more
  rw [command, List.length_append, length_crlf] at parsed
  simp only [parseInto, parsed, Option.toList_some]

/-- A bare name, an empty word and a word with a line end. -/
theorem parseInto_wordLine_set :
    parseInto (ascii " set \"\" \t\"a\\\\\\\"\\r\\n\" \r\nPING") [] 0 =
      some (.complete, [[ascii "SET", [], ascii "a\\\"\r\n"]], 23) := by
  have blank : Blanks (ascii " ") := List.all_eq_true.mp (by decide)
  have tab : Blanks (ascii " \t") := List.all_eq_true.mp (by decide)
  have visible : (ascii "set").all (fun byte => !isBlank byte) = true := by decide
  have bare : Bare (ascii "set") :=
    ⟨by decide, by simpa using visible, by decide, by decide, by decide⟩
  have written : WordLine [ascii "set", [], ascii "a\\\"\r\n"] _ :=
    .cons (.bare bare) blank (by decide) (.cons .quoted tab (by decide) (.last .quoted blank))
  exact parseInto_wordLine blank written (by decide) (ascii "PING") [] 0

end RedisCpp.Protocol
