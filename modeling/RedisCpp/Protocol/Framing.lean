import RedisCpp.Protocol.RespParser

/-!
# Framing of the request stream

A frame that the parser has found should stay the same frame when more bytes arrive.
This holds of multi-bulk arrays and of lines ended by CRLF, whose ends are found at
the first possible place.  It fails for lines ended by a bare LF: the parser prefers
a CRLF anywhere behind it.  `extract_frames` inherits both facts, the first through
the general theory of stream decoders.
-/

namespace RedisCpp.Protocol

open StreamDecoder

/-! ## Line ends and numbers -/

theorem crlfOffset_bound {data : Bytes} {offset : ℕ} (found : crlfOffset data = some offset) :
    offset + 2 ≤ data.length := by
  induction data generalizing offset with
  | nil => cases found
  | cons byte rest inductionHypothesis =>
      rw [crlfOffset] at found
      split at found
      · rename_i here
        cases found
        cases rest with
        | nil => simp at here
        | cons next rest => simp
      · rcases Option.map_eq_some_iff.mp found with ⟨inner, innerFound, rfl⟩
        have bound := inductionHypothesis innerFound
        simp only [List.length_cons]
        omega

/-- The first CRLF stays the first when bytes follow. -/
theorem crlfOffset_append {data : Bytes} {offset : ℕ} (found : crlfOffset data = some offset)
    (more : Bytes) : crlfOffset (data ++ more) = some offset := by
  induction data generalizing offset with
  | nil => cases found
  | cons byte rest inductionHypothesis =>
      rw [crlfOffset] at found
      rw [List.cons_append, crlfOffset]
      split at found
      · rename_i here
        cases rest with
        | nil => simp at here
        | cons next rest =>
            rw [if_pos (by simpa using here)]
            exact found
      · rename_i elsewhere
        rcases Option.map_eq_some_iff.mp found with ⟨inner, innerFound, rfl⟩
        cases rest with
        | nil => cases innerFound
        | cons next rest =>
            rw [if_neg (by simpa using elsewhere), inductionHypothesis innerFound]
            rfl

/-- A CRLF that lies within the front is found there. -/
theorem crlfOffset_of_append {front back : Bytes} {offset : ℕ}
    (found : crlfOffset (front ++ back) = some offset) (within : offset + 2 ≤ front.length) :
    crlfOffset front = some offset := by
  induction front generalizing offset with
  | nil => simp at within
  | cons byte rest inductionHypothesis =>
      rw [List.cons_append, crlfOffset] at found
      rw [crlfOffset]
      split at found
      · rename_i here
        cases found
        cases rest with
        | nil => simp at within
        | cons next rest => rw [if_pos (by simpa using here)]
      · rename_i elsewhere
        rcases Option.map_eq_some_iff.mp found with ⟨inner, innerFound, rfl⟩
        simp only [List.length_cons] at within
        cases rest with
        | nil => simp at within
        | cons next rest =>
            rw [if_neg (by simpa using elsewhere), inductionHypothesis innerFound (by omega)]
            rfl

/-- Where a CRLF is found there is one. -/
theorem getElem_of_crlfOffset {data : Bytes} {offset : ℕ}
    (found : crlfOffset data = some offset) :
    data[offset]? = some CR ∧ data[offset + 1]? = some LF := by
  induction data generalizing offset with
  | nil => cases found
  | cons byte rest inductionHypothesis =>
      rw [crlfOffset] at found
      split at found
      · rename_i here
        cases found
        simpa [List.head?_eq_getElem?] using here
      · rcases Option.map_eq_some_iff.mp found with ⟨inner, innerFound, rfl⟩
        simpa using inductionHypothesis innerFound

theorem findCrlf_bound {data : Bytes} {start crlf : ℕ} (found : findCrlf data start = some crlf) :
    start ≤ crlf ∧ crlf + 2 ≤ data.length := by
  rcases Option.map_eq_some_iff.mp found with ⟨offset, inner, rfl⟩
  have bound := crlfOffset_bound inner
  rw [List.length_drop] at bound
  omega

theorem findCrlf_append {data : Bytes} {start crlf : ℕ} (found : findCrlf data start = some crlf)
    (more : Bytes) : findCrlf (data ++ more) start = some crlf := by
  have bound := findCrlf_bound found
  rcases Option.map_eq_some_iff.mp found with ⟨offset, inner, rfl⟩
  rw [findCrlf, List.drop_append_of_le_length (by omega), crlfOffset_append inner]
  rfl

/-- A slice of the data is a slice of all that begins with them. -/
theorem slice_append {data more : Bytes} {start count : ℕ}
    (within : start + count ≤ data.length) :
    ((data ++ more).drop start).take count = (data.drop start).take count := by
  rw [List.drop_append_of_le_length (by omega), List.take_append_of_le_length]
  rw [List.length_drop]
  omega

theorem parseInteger_bound {data : Bytes} {start next : ℕ} {value : ℤ}
    (parsed : parseInteger data start = some (value, next)) :
    start + 2 ≤ next ∧ next ≤ data.length := by
  rw [parseInteger] at parsed
  split at parsed
  · cases parsed
  · rename_i crlf found
    have bound := findCrlf_bound found
    split at parsed
    · cases parsed
      omega
    · cases parsed

theorem parseInteger_append {data : Bytes} {start : ℕ} {result : ℤ × ℕ}
    (parsed : parseInteger data start = some result) (more : Bytes) :
    parseInteger (data ++ more) start = some result := by
  rw [parseInteger] at parsed
  split at parsed
  · cases parsed
  · rename_i crlf found
    have bound := findCrlf_bound found
    rw [parseInteger, findCrlf_append found]
    simp only [slice_append (show start + (crlf - start) ≤ data.length by omega)]
    exact parsed

/-! ## Frames -/

theorem parseBulks_append {data : Bytes} (more : Bytes) {remaining pos : ℕ} {args : List Bytes}
    (settled : parseBulks data remaining pos args ≠ .incomplete) :
    parseBulks (data ++ more) remaining pos args = parseBulks data remaining pos args := by
  induction remaining generalizing pos args with
  | zero => rfl
  | succ remaining inductionHypothesis =>
      rw [parseBulks] at settled ⊢
      rw [parseBulks]
      cases here : data[pos]? with
      | none => simp [here] at settled
      | some byte =>
          have inside : pos < data.length := (List.getElem?_eq_some_iff.mp here).1
          rw [List.getElem?_append_left inside, here]
          simp only [here] at settled ⊢
          by_cases dollar : byte ≠ 36
          · simp [dollar]
          · simp only [dollar, if_false] at settled ⊢
            cases header : parseInteger data (pos + 1) with
            | none => simp [header] at settled
            | some found =>
                rcases found with ⟨blen, afterHdr⟩
                rw [parseInteger_append header]
                simp only [header] at settled ⊢
                by_cases negative : blen < 0
                · simp [negative]
                · simp only [negative, if_false] at settled ⊢
                  by_cases short : data.length < afterHdr + blen.toNat + 2
                  · simp [short] at settled
                  · simp only [short, if_false] at settled ⊢
                    rw [if_neg (by rw [List.length_append]; omega),
                      slice_append (by omega)]
                    exact inductionHypothesis settled

theorem parseMultibulk_append {data : Bytes} (more : Bytes)
    (settled : parseMultibulk data ≠ .incomplete) :
    parseMultibulk (data ++ more) = parseMultibulk data := by
  rw [parseMultibulk] at settled ⊢
  rw [parseMultibulk]
  cases header : parseInteger data 1 with
  | none => simp [header] at settled
  | some found =>
      rcases found with ⟨nargs, pos⟩
      rw [parseInteger_append header]
      simp only [header] at settled ⊢
      by_cases negative : nargs < 0
      · simp [negative]
      · by_cases zero : nargs = 0
        · simp [zero]
        · by_cases large : maxVectorSize < nargs.toNat
          · simp [negative, zero, large]
          · simp only [negative, zero, large, if_false] at settled ⊢
            exact parseBulks_append more settled

theorem parseBulks_bound {data : Bytes} {remaining pos length : ℕ} {args : List Bytes}
    {command : Option (List Bytes)} (inside : pos ≤ data.length)
    (complete : parseBulks data remaining pos args = .complete command length) :
    pos ≤ length ∧ length ≤ data.length := by
  induction remaining generalizing pos args with
  | zero =>
      cases complete
      exact ⟨le_refl _, inside⟩
  | succ remaining inductionHypothesis =>
      rw [parseBulks] at complete
      split at complete
      · cases complete
      · split at complete
        · cases complete
        · split at complete
          · cases complete
          · rename_i blen afterHdr header
            have bound := parseInteger_bound header
            split at complete
            · cases complete
            · split at complete
              · cases complete
              · rename_i enough
                have later := inductionHypothesis (by omega) complete
                omega

theorem parseMultibulk_bound {data : Bytes} {command : Option (List Bytes)} {length : ℕ}
    (complete : parseMultibulk data = .complete command length) :
    0 < length ∧ length ≤ data.length := by
  rw [parseMultibulk] at complete
  split at complete
  · cases complete
  · rename_i nargs pos header
    have bound := parseInteger_bound header
    split at complete
    · cases complete
    · split at complete
      · cases complete
        omega
      · split at complete
        · cases complete
        · have later := parseBulks_bound bound.2 complete
          omega

theorem findIdx_bound {data : Bytes} {lf : ℕ} (found : data.findIdx? (· == LF) = some lf) :
    lf < data.length := by
  rcases List.findIdx?_eq_some_iff_getElem.mp found with ⟨bound, -⟩
  exact bound

theorem parseInline_bound {data : Bytes} {command : Option (List Bytes)} {length : ℕ}
    (complete : parseInline data = .complete command length) :
    0 < length ∧ length ≤ data.length := by
  rw [parseInline] at complete
  split at complete
  · rename_i crlf found
    have bound := findCrlf_bound found
    cases complete
    omega
  · split at complete
    · cases complete
    · rename_i lf found
      have bound := findIdx_bound found
      cases complete
      omega

/-- A frame has at least one byte and lies within the data. -/
theorem progresses_parse : Progresses parse := by
  intro data command length complete
  cases data with
  | nil => cases complete
  | cons byte rest =>
      rw [parse] at complete
      split at complete
      · exact parseMultibulk_bound complete
      · exact parseInline_bound complete

/-! ## Stability -/

theorem parse_of_star {data : Bytes} (star : data.head? = some 42) :
    parse data = parseMultibulk data := by
  cases data with
  | nil => cases star
  | cons byte rest =>
      simp only [List.head?_cons, Option.some.injEq] at star
      simp [parse, star]

theorem parse_of_not_star {data : Bytes} (nonempty : data ≠ []) (inline : data.head? ≠ some 42) :
    parse data = parseInline data := by
  cases data with
  | nil => exact absurd rfl nonempty
  | cons byte rest =>
      simp only [List.head?_cons, ne_eq, Option.some.injEq] at inline
      simp [parse, inline]

theorem parseInline_of_crlf {data : Bytes} {crlf : ℕ} (found : findCrlf data 0 = some crlf) :
    parseInline data = .complete (inlineCommand (data.take crlf)) (crlf + 2) := by
  rw [parseInline, found]

theorem parseInline_append_of_crlf {data : Bytes} {crlf : ℕ} (found : findCrlf data 0 = some crlf)
    (more : Bytes) : parseInline (data ++ more) = parseInline data := by
  have bound := findCrlf_bound found
  rw [parseInline_of_crlf (findCrlf_append found more), parseInline_of_crlf found,
    List.take_append_of_le_length (by omega)]

theorem head_append {data : Bytes} (nonempty : data ≠ []) (more : Bytes) :
    (data ++ more).head? = data.head? := by
  cases data with
  | nil => exact absurd rfl nonempty
  | cons byte rest => rfl

theorem ne_nil_of_settled {data : Bytes} (settled : parse data ≠ .incomplete) : data ≠ [] := by
  intro empty
  rw [empty] at settled
  exact settled rfl

/-- A frame found by the preferred terminator is found again in every extension. -/
theorem parse_append {data : Bytes} (settled : parse data ≠ .incomplete)
    (preferred : data.head? = some 42 ∨ findCrlf data 0 ≠ none) (more : Bytes) :
    parse (data ++ more) = parse data := by
  have nonempty := ne_nil_of_settled settled
  by_cases star : data.head? = some 42
  · rw [parse_of_star star] at settled
    rw [parse_of_star (by rw [head_append nonempty, star]), parse_of_star star]
    exact parseMultibulk_append more settled
  · rcases preferred with starred | found
    · exact absurd starred star
    · rcases Option.ne_none_iff_exists'.mp found with ⟨crlf, found⟩
      rw [parse_of_not_star (by simp [nonempty]) (by rw [head_append nonempty]; exact star),
        parse_of_not_star nonempty star]
      exact parseInline_append_of_crlf found more

/-- A CRLF behind everything received so far. -/
theorem crlfOffset_append_crlf {data : Bytes} (missing : crlfOffset data = none) :
    crlfOffset (data ++ crlf) = some data.length := by
  induction data with
  | nil => rfl
  | cons byte rest inductionHypothesis =>
      rw [crlfOffset] at missing
      split at missing
      · cases missing
      · rename_i elsewhere
        have later := inductionHypothesis (Option.map_eq_none_iff.mp missing)
        rw [List.cons_append, crlfOffset, later, if_neg]
        · rfl
        · cases rest with
          | nil =>
              rintro ⟨-, next⟩
              exact absurd next (by decide)
          | cons next rest => simpa using elsewhere

/-- The frame of a bare LF is another one as soon as a CRLF arrives. -/
theorem parse_append_crlf_ne {data : Bytes} {command : Option (List Bytes)} {length : ℕ}
    (complete : parse data = .complete command length) (inline : data.head? ≠ some 42)
    (missing : findCrlf data 0 = none) : parse (data ++ crlf) ≠ .complete command length := by
  have nonempty : data ≠ [] := ne_nil_of_settled (by simp [complete])
  have bound := progresses_parse data command length complete
  have later : findCrlf (data ++ crlf) 0 = some data.length := by
    simp only [findCrlf, List.drop_zero, Option.map_eq_none_iff] at missing
    simp [findCrlf, crlfOffset_append_crlf missing]
  rw [parse_of_not_star (by simp [nonempty]) (by rw [head_append nonempty]; exact inline),
    parseInline_of_crlf later]
  intro equal
  cases equal
  omega

/-- No line ended by CRLF has a bare LF before its end. -/
def LineSafe (data : Bytes) : Prop :=
  data.head? = some 42 ∨ ∀ crlf, findCrlf data 0 = some crlf → LF ∉ data.take crlf

/-- With a bare LF in the front and no CRLF there, the CRLF of a safe line is not
behind it. -/
theorem findCrlf_eq_none_of_safe {front back : Bytes} {lf : ℕ}
    (safe : ∀ crlf, findCrlf (front ++ back) 0 = some crlf → LF ∉ (front ++ back).take crlf)
    (missing : findCrlf front 0 = none) (found : front.findIdx? (· == LF) = some lf) :
    findCrlf (front ++ back) 0 = none := by
  cases whole : findCrlf (front ++ back) 0 with
  | none => rfl
  | some crlf =>
      exfalso
      rcases List.findIdx?_eq_some_iff_getElem.mp found with ⟨inside, isLf, -⟩
      simp only [beq_iff_eq] at isLf
      have lf_at : (front ++ back)[lf]? = some LF := by
        rw [List.getElem?_append_left inside, List.getElem?_eq_getElem inside, isLf]
      have notBefore : ¬lf < crlf := by
        intro before
        apply safe crlf whole
        apply List.mem_of_getElem? (i := lf)
        rw [List.getElem?_take_of_lt before, lf_at]
      simp only [findCrlf, List.drop_zero, Nat.add_zero, Option.map_id'] at whole missing
      rcases getElem_of_crlfOffset whole with ⟨cr_at, -⟩
      have different : lf ≠ crlf := by
        intro equal
        rw [equal, cr_at] at lf_at
        exact absurd lf_at (by decide)
      rw [crlfOffset_of_append whole (by omega)] at missing
      cases missing

/-- A bare LF stays the end of its line if no CRLF follows. -/
theorem parseInline_append_of_lf {front back : Bytes} {lf : ℕ}
    (missing : findCrlf front 0 = none) (absent : findCrlf (front ++ back) 0 = none)
    (found : front.findIdx? (· == LF) = some lf) :
    parseInline (front ++ back) = parseInline front := by
  have bound := findIdx_bound found
  have again : (front ++ back).findIdx? (· == LF) = some lf := by
    rw [List.findIdx?_append, found]
    rfl
  have before : (front ++ back)[lf - 1]? = front[lf - 1]? :=
    List.getElem?_append_left (by omega)
  rw [parseInline, parseInline, absent, missing]
  simp only [again, found, before]
  congr 2
  apply List.take_append_of_le_length
  split
  · omega
  · omega

theorem consistent_parse {data : Bytes} (safe : LineSafe data) : Consistent parse data := by
  rintro front back rfl settled
  have nonempty := ne_nil_of_settled settled
  by_cases preferred : front.head? = some 42 ∨ findCrlf front 0 ≠ none
  · exact parse_append settled preferred back
  · simp only [not_or, ne_eq, not_not] at preferred
    rcases preferred with ⟨inline, missing⟩
    rcases safe with star | safe
    · rw [head_append nonempty] at star
      exact absurd star inline
    · rw [parse_of_not_star nonempty inline] at settled
      rw [parse_of_not_star (by simp [nonempty]) (by rw [head_append nonempty]; exact inline),
        parse_of_not_star nonempty inline]
      cases found : front.findIdx? (· == LF) with
      | none => simp [parseInline, missing, found] at settled
      | some lf =>
          exact parseInline_append_of_lf missing
            (findCrlf_eq_none_of_safe safe missing found) found

/-! ## Streams -/

/-- `extract_frames` on the contents of `recv_buf`. -/
def extractFrames (buffer : Bytes) : Extraction UInt8 (Option (List Bytes)) ParseFailure :=
  extract parse buffer

/-- The chunks of a stream, each appended to `recv_buf` and followed by a call of
`extract_frames`. -/
def receiveChunks (chunks : List Bytes) : Extraction UInt8 (Option (List Bytes)) ParseFailure :=
  receive parse [] chunks

end RedisCpp.Protocol
