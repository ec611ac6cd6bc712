import RedisCpp.Protocol.Framing

/-!
# Where cutting a stream makes a difference

A frame is found from its own bytes, so cutting a stream behind a complete frame is
harmless.  Cutting a line behind a bare LF is not if a CRLF follows: the line that ends
at the LF never has the tokens of the longer line.
-/

namespace RedisCpp.Protocol

open StreamDecoder

/-! ## Frames are found from their own bytes -/

section SelfContained

variable {front back : Bytes}

theorem findCrlf_of_append {start crlf : ℕ} (found : findCrlf (front ++ back) start = some crlf)
    (within : crlf + 2 ≤ front.length) : findCrlf front start = some crlf := by
  have bound := findCrlf_bound found
  rcases Option.map_eq_some_iff.mp found with ⟨offset, inner, rfl⟩
  rw [List.drop_append_of_le_length (by omega)] at inner
  have early := crlfOffset_of_append inner (by rw [List.length_drop]; omega)
  rw [findCrlf, early]
  rfl

theorem parseInteger_of_append {start next : ℕ} {value : ℤ}
    (parsed : parseInteger (front ++ back) start = some (value, next))
    (within : next ≤ front.length) : parseInteger front start = some (value, next) := by
  simp only [parseInteger] at parsed
  split at parsed
  · cases parsed
  · rename_i crlf found
    have bound := findCrlf_bound found
    have inside : crlf + 2 ≤ front.length := by
      split at parsed
      · cases parsed
        exact within
      · cases parsed
    rw [slice_append (by omega)] at parsed
    simp only [parseInteger, findCrlf_of_append found inside]
    exact parsed

theorem parseBulks_of_append {remaining pos length : ℕ} {args : List Bytes}
    {command : Option (List Bytes)}
    (complete : parseBulks (front ++ back) remaining pos args = .complete command length)
    (within : length ≤ front.length) :
    parseBulks front remaining pos args = .complete command length := by
  induction remaining generalizing pos args with
  | zero => exact complete
  | succ remaining inductionHypothesis =>
      simp only [parseBulks] at complete
      split at complete
      · cases complete
      · rename_i byte here
        split at complete
        · cases complete
        · rename_i dollar
          split at complete
          · cases complete
          · rename_i blen afterHdr header
            have bound := parseInteger_bound header
            split at complete
            · cases complete
            · rename_i positive
              split at complete
              · cases complete
              · rename_i enough
                have later := parseBulks_bound (by omega) complete
                rw [List.getElem?_append_left (by omega)] at here
                rw [slice_append (by omega)] at complete
                simp only [parseBulks, here, dollar, if_false,
                  parseInteger_of_append header (by omega), positive]
                rw [if_neg (by omega)]
                exact inductionHypothesis complete

theorem parseMultibulk_of_append {command : Option (List Bytes)} {length : ℕ}
    (complete : parseMultibulk (front ++ back) = .complete command length)
    (within : length ≤ front.length) : parseMultibulk front = .complete command length := by
  simp only [parseMultibulk] at complete
  split at complete
  · cases complete
  · rename_i nargs pos header
    have bound := parseInteger_bound header
    split at complete
    · cases complete
    · rename_i positive
      split at complete
      · rename_i zero
        cases complete
        simp only [parseMultibulk, parseInteger_of_append header within, zero, if_true]
        rfl
      · rename_i some
        split at complete
        · cases complete
        · rename_i small
          have later := parseBulks_bound bound.2 complete
          simp only [parseMultibulk, parseInteger_of_append header (by omega), positive, some,
            small, if_false]
          exact parseBulks_of_append complete within

theorem findIdx_of_append {lf : ℕ} (found : (front ++ back).findIdx? (· == LF) = some lf)
    (within : lf < front.length) : front.findIdx? (· == LF) = some lf := by
  rw [List.findIdx?_append] at found
  cases early : front.findIdx? (· == LF) with
  | none =>
      simp only [early, Option.none_or, Option.map_eq_some_iff] at found
      rcases found with ⟨offset, -, rfl⟩
      omega
  | some first =>
      simpa only [early, Option.some_or] using found

theorem parseInline_of_append {command : Option (List Bytes)} {length : ℕ}
    (complete : parseInline (front ++ back) = .complete command length)
    (within : length ≤ front.length) : parseInline front = .complete command length := by
  cases whole : findCrlf (front ++ back) 0 with
  | some crlf =>
      rw [parseInline_of_crlf whole] at complete
      cases complete
      rw [parseInline_of_crlf (findCrlf_of_append whole within),
        List.take_append_of_le_length (by omega)]
  | none =>
      have missing : findCrlf front 0 = none := by
        cases early : findCrlf front 0 with
        | none => rfl
        | some crlf =>
            rw [findCrlf_append early] at whole
            cases whole
      cases found : (front ++ back).findIdx? (· == LF) with
      | none =>
          simp only [parseInline, whole, found] at complete
          cases complete
      | some lf =>
          have inside : lf < front.length := by
            simp only [parseInline, whole, found] at complete
            cases complete
            exact within
          rw [parseInline_append_of_lf missing whole (findIdx_of_append found inside)] at complete
          exact complete

/-- A frame is found from its own bytes. -/
theorem selfContained_parse : SelfContained parse := by
  intro front back command length complete within
  have bound := progresses_parse _ _ _ complete
  have nonempty : front ≠ [] := by
    rintro rfl
    simp only [List.length_nil] at within
    omega
  by_cases star : front.head? = some 42
  · rw [parse_of_star (by rw [head_append nonempty, star])] at complete
    rw [parse_of_star star]
    exact parseMultibulk_of_append complete within
  · rw [parse_of_not_star (by simp [nonempty]) (by rw [head_append nonempty]; exact star)]
      at complete
    rw [parse_of_not_star nonempty star]
    exact parseInline_of_append complete within

end SelfContained

/-! ## Lines and their continuations -/

/-- The number of line feeds in the tokens of a line. -/
def lineFeeds (tokens : List Bytes) : ℕ :=
  (tokens.map (List.count LF)).sum

theorem quotedToken_cons {byte : UInt8} (notQuote : byte ≠ 34) (notEscape : byte ≠ 92)
    (rest : Bytes) :
    quotedToken (byte :: rest) = (byte :: (quotedToken rest).1, (quotedToken rest).2) := by
  rw [quotedToken]
  · exact notQuote
  · intro escaped later escape
    exact absurd escape notEscape

/-- A quoted token is closed before the LF or takes the LF in. -/
theorem quotedToken_append_lf (line more : Bytes) :
    quotedToken (line ++ LF :: more) =
        ((quotedToken line).1, (quotedToken line).2 ++ LF :: more) ∨
      (quotedToken line).2 = [] ∧
        (quotedToken line).1.count LF < (quotedToken (line ++ LF :: more)).1.count LF := by
  induction line using quotedToken.induct with
  | case1 =>
      right
      rw [List.nil_append, quotedToken_cons (by decide) (by decide)]
      simp [quotedToken]
  | case2 rest =>
      left
      rfl
  | case3 escaped rest inductionHypothesis =>
      simp only [List.cons_append, quotedToken]
      rcases inductionHypothesis with closed | ⟨ended, grows⟩
      · left
        simp only [closed]
      · right
        refine ⟨ended, ?_⟩
        simp only [List.count_cons]
        omega
  | case4 byte rest notQuote notEscape inductionHypothesis =>
      by_cases escape : byte = 92
      · cases rest with
        | nil =>
            right
            subst escape
            simp [quotedToken, unescape, LF]
        | cons escaped rest => exact absurd rfl (notEscape escaped rest escape)
      · rw [List.cons_append, quotedToken_cons notQuote escape, quotedToken_cons notQuote escape]
        rcases inductionHypothesis with closed | ⟨ended, grows⟩
        · left
          simp only [closed]
        · right
          refine ⟨ended, ?_⟩
          simp only [List.count_cons]
          omega

theorem length_quotedToken (line : Bytes) : (quotedToken line).2.length ≤ line.length := by
  induction line using quotedToken.induct with
  | case1 => exact Nat.le_refl _
  | case2 rest => exact Nat.le_succ _
  | case3 escaped rest inductionHypothesis =>
      simp only [quotedToken, List.length_cons]
      omega
  | case4 byte rest notQuote notEscape inductionHypothesis =>
      rw [quotedToken]
      · simp only [List.length_cons]
        omega
      · exact notQuote
      · exact notEscape

section Tokens

variable {line rest more : Bytes} {byte : UInt8} {fuel other : ℕ}

theorem tokenizeLoop_blank (trimmed : line.dropWhile isBlank = []) :
    tokenizeLoop fuel line = [] := by
  cases fuel with
  | zero => rfl
  | succ fuel => simp only [tokenizeLoop, trimmed]

theorem tokenizeLoop_quote (trimmed : line.dropWhile isBlank = 34 :: rest) :
    tokenizeLoop (fuel + 1) line =
      (quotedToken rest).1 :: tokenizeLoop fuel (quotedToken rest).2 := by
  simp only [tokenizeLoop, trimmed]

theorem tokenizeLoop_word (notQuote : byte ≠ 34)
    (trimmed : line.dropWhile isBlank = byte :: rest) :
    tokenizeLoop (fuel + 1) line = (byte :: rest).takeWhile (!isBlank ·) ::
      tokenizeLoop fuel ((byte :: rest).dropWhile (!isBlank ·)) := by
  simp only [tokenizeLoop, trimmed]

theorem dropWhile_append_lf (line more : Bytes) :
    (line ++ LF :: more).dropWhile isBlank = line.dropWhile isBlank ++ LF :: more := by
  rw [List.dropWhile_append]
  split
  · rename_i blank
    rw [List.isEmpty_iff.mp blank]
    rfl
  · rfl

theorem lineFeeds_append_lf_of_blank (blank : line.dropWhile isBlank = []) (enough : 0 < other) :
    lineFeeds (tokenizeLoop fuel line) < lineFeeds (tokenizeLoop other (line ++ LF :: more)) := by
  have appended := dropWhile_append_lf line more
  rw [blank, List.nil_append] at appended
  cases other with
  | zero => omega
  | succ other =>
      rw [tokenizeLoop_blank blank, tokenizeLoop_word (by decide) appended]
      simp [lineFeeds, LF, isBlank]

/-- An unquoted token is ended by a blank or takes the LF in. -/
theorem word_append_lf (line more : Bytes) :
    ((line ++ LF :: more).takeWhile (!isBlank ·) = line.takeWhile (!isBlank ·) ∧
        (line ++ LF :: more).dropWhile (!isBlank ·) =
          line.dropWhile (!isBlank ·) ++ LF :: more) ∨
      line.dropWhile (!isBlank ·) = [] ∧ (line.takeWhile (!isBlank ·)).count LF <
        ((line ++ LF :: more).takeWhile (!isBlank ·)).count LF := by
  have whole := List.takeWhile_append_dropWhile (p := (!isBlank ·)) (l := line)
  cases ended : line.dropWhile (!isBlank ·) with
  | nil =>
      right
      rw [ended, List.append_nil] at whole
      refine ⟨rfl, ?_⟩
      rw [List.takeWhile_append, whole, if_pos rfl]
      simp [LF, isBlank]
  | cons byte rest =>
      left
      rw [List.takeWhile_append, List.dropWhile_append, ended, if_neg, if_neg]
      · exact ⟨rfl, rfl⟩
      · simp
      · intro same
        rw [ended] at whole
        have length := congrArg List.length whole
        simp only [List.length_append, same, List.length_cons] at length
        omega

/-- Behind a line, an LF and whatever follows it give a further line feed. -/
theorem lineFeeds_append_lf (enough : line.length ≤ fuel)
    (otherEnough : (line ++ LF :: more).length ≤ other) :
    lineFeeds (tokenizeLoop fuel line) < lineFeeds (tokenizeLoop other (line ++ LF :: more)) := by
  simp only [List.length_append, List.length_cons] at otherEnough
  induction fuel generalizing other line with
  | zero =>
      have empty : line = [] := List.length_eq_zero_iff.mp (Nat.le_zero.mp enough)
      subst empty
      exact lineFeeds_append_lf_of_blank rfl (by omega)
  | succ fuel inductionHypothesis =>
      cases other with
      | zero => omega
      | succ other =>
          have appended := dropWhile_append_lf line more
          have shorter : (line.dropWhile isBlank).length ≤ line.length :=
            (List.dropWhile_suffix isBlank).length_le
          cases trimmed : line.dropWhile isBlank with
          | nil => exact lineFeeds_append_lf_of_blank trimmed (by omega)
          | cons byte rest =>
              rw [trimmed, List.cons_append] at appended
              rw [trimmed, List.length_cons] at shorter
              by_cases quote : byte = 34
              · subst quote
                have bound := length_quotedToken rest
                rw [tokenizeLoop_quote trimmed, tokenizeLoop_quote appended]
                rcases quotedToken_append_lf rest more with closed | ⟨ended, grows⟩
                · have later : lineFeeds (tokenizeLoop fuel (quotedToken rest).2) <
                      lineFeeds (tokenizeLoop other ((quotedToken rest).2 ++ LF :: more)) :=
                    inductionHypothesis (by omega) (by omega)
                  simp only [closed, lineFeeds, List.map_cons, List.sum_cons] at later ⊢
                  omega
                · rw [ended, tokenizeLoop_blank rfl]
                  simp only [lineFeeds, List.map_cons, List.sum_cons, List.map_nil, List.sum_nil]
                  omega
              · rw [tokenizeLoop_word quote trimmed, tokenizeLoop_word quote appended]
                rw [← List.cons_append]
                have visible : isBlank byte = false := by
                  have head := List.head?_dropWhile_not isBlank line
                  simpa only [trimmed, List.head?_cons] using head
                have bound : ((byte :: rest).dropWhile (!isBlank ·)).length ≤ rest.length := by
                  rw [List.dropWhile_cons_of_pos (by simp [visible])]
                  exact (List.dropWhile_suffix _).length_le
                rcases word_append_lf (byte :: rest) more with ⟨kept, left⟩ | ⟨ended, grows⟩
                · have later : lineFeeds (tokenizeLoop fuel
                        ((byte :: rest).dropWhile (!isBlank ·))) <
                      lineFeeds (tokenizeLoop other
                        ((byte :: rest).dropWhile (!isBlank ·) ++ LF :: more)) :=
                    inductionHypothesis (by omega) (by omega)
                  rw [kept, left]
                  simp only [lineFeeds, List.map_cons, List.sum_cons] at later ⊢
                  omega
                · rw [ended, tokenizeLoop_blank rfl]
                  simp only [lineFeeds, List.map_cons, List.sum_cons, List.map_nil, List.sum_nil]
                  omega

end Tokens

/-- Upper case neither makes nor removes a line feed. -/
theorem upper_eq_lf (byte : UInt8) :
    ((if 97 ≤ byte && byte ≤ 122 then byte - 32 else byte) == LF) = (byte == LF) := by
  split
  · rename_i letter
    simp only [Bool.and_eq_true, decide_eq_true_eq] at letter
    have notLf : byte ≠ LF := by
      rintro rfl
      exact absurd letter.1 (by decide)
    have lowered : byte - 32 ≠ LF := by
      intro same
      have back : byte = LF + 32 := by rw [← same, UInt8.sub_add_cancel]
      rw [back] at letter
      exact absurd letter.1 (by decide)
    simp [notLf, lowered]
  · rfl

theorem count_toUpper (text : Bytes) : (toUpper text).count LF = text.count LF := by
  induction text with
  | nil => rfl
  | cons byte rest inductionHypothesis =>
      simp only [toUpper, List.map_cons, List.count_cons, upper_eq_lf] at inductionHypothesis ⊢
      rw [inductionHypothesis]

/-- A line that ends at a bare LF is another command than the longer line. -/
theorem inlineCommand_append_lf_ne (line more : Bytes) :
    inlineCommand line ≠ inlineCommand (line ++ LF :: more) := by
  intro same
  have grows : lineFeeds (tokenize line) < lineFeeds (tokenize (line ++ LF :: more)) :=
    lineFeeds_append_lf (Nat.le_refl _) (Nat.le_refl _)
  simp only [inlineCommand] at same
  split at same
  · rename_i empty
    split at same
    · rename_i blank
      rw [empty, blank] at grows
      exact Nat.lt_irrefl _ grows
    · cases same
  · rename_i name args short
    split at same
    · cases same
    · rename_i other rest long
      simp only [Option.some.injEq, List.cons.injEq] at same
      have counts := congrArg (List.count LF) same.1
      simp only [count_toUpper] at counts
      rw [short, long, same.2] at grows
      simp only [lineFeeds, List.map_cons, List.sum_cons, counts] at grows
      exact Nat.lt_irrefl _ grows

/-! ## Streams -/

/-- What ends at the first LF, without a CRLF before it, is a line of its own. -/
theorem parseInline_line_lf {line : Bytes} (noLf : LF ∉ line)
    (missing : findCrlf (line ++ [LF]) 0 = none) :
    parseInline (line ++ [LF]) = .complete (inlineCommand line) (line ++ [LF]).length := by
  have notCr : line.getLast? ≠ some CR := by
    intro last
    have line_eq := List.dropLast_append_getLast? CR last
    have ending : line ++ [LF] = line.dropLast ++ crlf := by
      rw [← line_eq]
      simp [crlf]
    rw [findCrlf, List.drop_zero, Option.map_eq_none_iff, ending] at missing
    cases early : crlfOffset line.dropLast with
    | none =>
        rw [crlfOffset_append_crlf early] at missing
        cases missing
    | some offset =>
        rw [crlfOffset_append early] at missing
        cases missing
  have first : (line ++ [LF]).findIdx? (· == LF) = some line.length := by
    have before : line.findIdx? (· == LF) = none := by
      apply List.findIdx?_eq_none_iff.mpr
      intro byte mem
      simp only [beq_eq_false_iff_ne, ne_eq]
      rintro rfl
      exact noLf mem
    rw [List.findIdx?_append, before]
    simp [List.findIdx?_cons]
  have bare : ¬(0 < line.length ∧ (line ++ [LF])[line.length - 1]? = some CR) := by
    rintro ⟨positive, last⟩
    rw [List.getElem?_append_left (by omega), ← List.getLast?_eq_getElem?] at last
    exact notCr last
  simp only [parseInline, missing, first, bare, if_false, List.length_append,
    List.length_singleton, List.take_left]

/-- A line that is not safe gives another frame when its first bare LF ends what has
arrived. -/
theorem exists_early_frame {data : Bytes} (risky : ¬LineSafe data) :
    ∃ part back early late length, data = part ++ back ∧
      parse part = .complete early part.length ∧ parse data = .complete late length ∧
      early ≠ late := by
  simp only [LineSafe, not_or, not_forall, not_not] at risky
  rcases risky with ⟨inline, crlf, found, mem⟩
  have bound := findCrlf_bound found
  rcases List.eq_append_cons_of_mem mem with ⟨line, rest, taken, noLf⟩
  have data_eq : data = (line ++ [LF]) ++ (rest ++ data.drop crlf) := by
    have whole := List.take_append_drop crlf data
    rw [taken] at whole
    simpa using whole.symm
  have length : crlf = line.length + (rest.length + 1) := by
    have lengths := congrArg List.length taken
    simp only [List.length_take, List.length_append, List.length_cons] at lengths
    omega
  have missing : findCrlf (line ++ [LF]) 0 = none := by
    cases early : findCrlf (line ++ [LF]) 0 with
    | none => rfl
    | some offset =>
        have again := findCrlf_append early (rest ++ data.drop crlf)
        have inside := findCrlf_bound early
        rw [← data_eq, found] at again
        cases again
        simp only [List.length_append, List.length_singleton] at inside
        omega
  refine ⟨line ++ [LF], rest ++ data.drop crlf, inlineCommand line,
    inlineCommand (data.take crlf), crlf + 2, data_eq, ?_, ?_, ?_⟩
  · rw [parse_of_not_star (by simp)]
    · exact parseInline_line_lf noLf missing
    · rw [data_eq, head_append (by simp)] at inline
      exact inline
  · rw [parse_of_not_star _ inline, parseInline_of_crlf found]
    rintro rfl
    cases found
  · rw [taken]
    exact inlineCommand_append_lf_ne line rest

/-- A complete frame is found again in every extension exactly if it was ended by the
preferred terminator.  A stream gives the same frames and the same unconsumed bytes
however it is cut exactly if none of its lines ended by CRLF has a bare LF in it. -/
theorem framing_stable_iff (stream : Bytes) :
    (∀ command length, parse stream = .complete command length →
      ((∀ more, parse (stream ++ more) = .complete command length) ↔
        stream.head? = some 42 ∨ findCrlf stream 0 ≠ none)) ∧
      ((extractFrames stream).failure = none →
        ((∀ left right, left.flatten = stream → right.flatten = stream →
            receiveChunks left = receiveChunks right) ↔
          ∀ data, Boundary parse stream data → LineSafe data)) := by
  constructor
  · intro command length complete
    constructor
    · intro stable
      by_contra fallback
      simp only [not_or, ne_eq, not_not] at fallback
      exact parse_append_crlf_ne complete fallback.1 fallback.2 (stable crlf)
    · intro preferred more
      rw [parse_append (by simp [complete]) preferred, complete]
  · intro clean
    constructor
    · intro same data boundary
      by_contra risky
      rcases exists_early_frame risky with
        ⟨part, back, early, late, length, rfl, found, complete, differ⟩
      rcases boundary.cut_ne progresses_parse selfContained_parse found complete differ with
        ⟨left, right, leftFlat, rightFlat, distinct⟩
      exact distinct (same left right leftFlat rightFlat)
    · intro safe left right leftFlat rightFlat
      have whole : ∀ chunks : List Bytes, chunks.flatten = stream →
          receiveChunks chunks = extractFrames stream := by
        rintro chunks rfl
        exact receive_eq_extract progresses_parse extract_nil
          (fun data boundary => consistent_parse (safe data boundary)) clean
      rw [whole left leftFlat, whole right rightFlat]

theorem framing_stable_iff_ping :
    (∀ more, parse (ascii "PING\r\n" ++ more) = .complete (some [ascii "PING"]) 6) ∧
      receiveChunks [ascii "PING\r", ascii "\n"] = receiveChunks [ascii "PING\r\n"] := by
  have parsed : parse (ascii "PING\r\n") = .complete (some [ascii "PING"]) 6 := by decide
  have boundaries : ∀ data, Boundary parse (ascii "PING\r\n") data →
      data = ascii "PING\r\n" ∨ data = [] := by
    intro data boundary
    induction boundary with
    | start => exact Or.inl rfl
    | next _ complete inductionHypothesis =>
        rcases inductionHypothesis with rfl | rfl
        · rw [parsed] at complete
          cases complete
          exact Or.inr rfl
        · cases complete
  constructor
  · exact ((framing_stable_iff _).1 _ _ parsed).mpr (Or.inr (by decide))
  · apply ((framing_stable_iff (ascii "PING\r\n")).2 (by decide)).mpr
    · intro data boundary
      rcases boundaries data boundary with rfl | rfl
      · right
        intro crlf found
        have crlf_eq : findCrlf (ascii "PING\r\n") 0 = some 4 := by decide
        rw [crlf_eq] at found
        cases found
        decide
      · right
        intro crlf found
        cases found
    · decide
    · decide

/-- A bare LF ends a line as long as no CRLF has arrived, and no longer afterwards. -/
theorem not_framing_stable :
    (¬∀ data command length more, parse data = .complete command length →
      parse (data ++ more) = .complete command length) ∧
      ¬∀ stream, (extractFrames stream).failure = none →
        ∀ left right, left.flatten = stream → right.flatten = stream →
          receiveChunks left = receiveChunks right := by
  constructor
  · intro stable
    have later := stable (ascii "PING\n") (some [ascii "PING"]) 5 (ascii "PING\r\n") (by decide)
    exact absurd later (by decide)
  · intro same
    have equal := same (ascii "PING\nPING\r\n") (by decide) [ascii "PING\n", ascii "PING\r\n"]
      [ascii "PING\nPING\r\n"] (by decide) (by decide)
    exact absurd equal (by decide)

end RedisCpp.Protocol
