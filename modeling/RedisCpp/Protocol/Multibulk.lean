import RedisCpp.Protocol.Framing

/-!
# The multi-bulk format

A grammar for the requests that begin with a star, independent of the parser: a header
with the number of payloads, and for each payload a header with its length, its bytes
and what closes it.  In a well-formed request a CRLF closes every payload.

The parser skips the two bytes behind a payload without looking at them.  So it accepts
the looser format in which any two bytes close a payload, up to the capacity of the
argument vector.  What the encoder produces is well-formed, and decoding gives it back.
-/

namespace RedisCpp.Protocol

open StreamDecoder

/-! ## Numerals -/

/-- A field that `std::from_chars` reads as a number to its end. -/
def Numeral (field : Bytes) (value : ℤ) : Prop :=
  fromChars field = some (value, [])

namespace Numeral

variable {field : Bytes} {value : ℤ}

theorem isDigit_of_read {digits : Bytes} {number : ℕ}
    (read : Decimal.read digits = some (number, [])) :
    ∀ byte ∈ digits, Decimal.isDigit byte = true := by
  rw [Decimal.read] at read
  split at read
  · cases read
  · simp only [Option.some.injEq, Prod.mk.injEq] at read
    exact List.dropWhile_eq_nil_iff.mp read.2

/-- A numeral has digits, and one minus sign in front of them at most. -/
theorem bytes (numeral : Numeral field value) :
    ∀ byte ∈ field, byte = 45 ∨ Decimal.isDigit byte = true := by
  unfold Numeral fromChars at numeral
  have parsed := (Option.filter_eq_some_iff.mp numeral).1
  split at parsed
  · rename_i digits
    rcases Option.map_eq_some_iff.mp parsed with ⟨⟨number, rest⟩, read, equal⟩
    simp only [Prod.mk.injEq] at equal
    rw [equal.2] at read
    intro byte mem
    rcases List.mem_cons.mp mem with rfl | mem
    · exact Or.inl rfl
    · exact Or.inr (isDigit_of_read read byte mem)
  · rcases Option.map_eq_some_iff.mp parsed with ⟨⟨number, rest⟩, read, equal⟩
    simp only [Prod.mk.injEq] at equal
    rw [equal.2] at read
    intro byte mem
    exact Or.inr (isDigit_of_read read byte mem)

theorem cr_notMem (numeral : Numeral field value) : CR ∉ field := by
  intro mem
  rcases numeral.bytes CR mem with minus | digit
  · exact absurd minus (by decide)
  · exact absurd digit (by decide)

theorem le_int64Max (numeral : Numeral field value) : value ≤ int64Max := by
  unfold Numeral fromChars at numeral
  have bounds := (Option.filter_eq_some_iff.mp numeral).2
  simp only [Bool.and_eq_true, decide_eq_true_eq] at bounds
  exact bounds.2

/-- What `std::to_string` prints is a numeral. -/
theorem print {number : ℕ} (fits : (number : ℤ) ≤ int64Max) :
    Numeral (Decimal.print number) number := by
  rcases exists_digit_cons_print number with ⟨digit, tail, shape, isDigit⟩
  have notMinus : digit ≠ 45 := ne_of_isDigit isDigit (by decide)
  have readAll := Decimal.read_print number
  have lower : int64Min ≤ (number : ℤ) := by
    simp only [int64Min]
    omega
  rw [shape] at readAll ⊢
  unfold Numeral fromChars
  simp only
  split
  · rename_i digits equal
    exact absurd (List.cons.inj equal).1 notMinus
  · simp [readAll, Option.filter, lower, fits]

end Numeral

/-! ## Header lines -/

@[simp]
theorem length_crlf : crlf.length = 2 := rfl

theorem crlfOffset_line {line : Bytes} (clean : CR ∉ line) (rest : Bytes) :
    crlfOffset (line ++ (crlf ++ rest)) = some line.length := by
  induction line with
  | nil => rfl
  | cons byte line inductionHypothesis =>
      have later := inductionHypothesis fun mem => clean (List.mem_cons_of_mem byte mem)
      have notCr : byte ≠ CR := fun equal => clean (by simp [equal])
      rw [List.cons_append, crlfOffset, if_neg (by simp [notCr]), later]
      rfl

/-- The bytes around the first CRLF. -/
theorem eq_line_of_crlfOffset {data : Bytes} {offset : ℕ}
    (found : crlfOffset data = some offset) :
    data = data.take offset ++ (crlf ++ data.drop (offset + 2)) := by
  rcases getElem_of_crlfOffset found with ⟨cr, lf⟩
  rcases List.getElem?_eq_some_iff.mp cr with ⟨crInside, crAt⟩
  rcases List.getElem?_eq_some_iff.mp lf with ⟨lfInside, lfAt⟩
  have tail : data.drop offset = crlf ++ data.drop (offset + 2) := by
    rw [List.drop_eq_getElem_cons crInside, List.drop_eq_getElem_cons lfInside, crAt, lfAt]
    rfl
  rw [← tail, List.take_append_drop]

/-- A header is read at its place as it would be read at the front. -/
theorem parseInteger_drop (data : Bytes) (start : ℕ) :
    parseInteger data start =
      (parseInteger (data.drop start) 0).map fun found => (found.1, found.2 + start) := by
  have place : findCrlf (data.drop start) 0 = crlfOffset (data.drop start) := by
    simp [findCrlf]
  rw [parseInteger, parseInteger, place, findCrlf]
  cases crlfOffset (data.drop start) with
  | none => rfl
  | some offset =>
      simp only [Option.map_some, List.drop_zero, Nat.add_sub_cancel, Nat.sub_zero]
      split
      · simp only [Option.map_some, Option.some.injEq, Prod.mk.injEq, true_and]
        omega
      · rfl

/-- A header is a numeral and a CRLF. -/
theorem parseInteger_eq_some_iff {rest : Bytes} {value : ℤ} {next : ℕ} :
    parseInteger rest 0 = some (value, next) ↔
      ∃ field tail, rest = field ++ (crlf ++ tail) ∧ Numeral field value ∧
        next = field.length + 2 := by
  constructor
  · intro parsed
    rw [parseInteger] at parsed
    split at parsed
    · cases parsed
    · rename_i offset found
      simp only [findCrlf, List.drop_zero, Nat.add_zero, Option.map_id'] at found
      have bound := crlfOffset_bound found
      simp only [List.drop_zero, Nat.sub_zero] at parsed
      split at parsed
      · rename_i number read
        cases parsed
        refine ⟨_, _, eq_line_of_crlfOffset found, read, ?_⟩
        rw [List.length_take, Nat.min_eq_left (by omega)]
      · cases parsed
  · rintro ⟨field, tail, rfl, numeral, rfl⟩
    have found : findCrlf (field ++ (crlf ++ tail)) 0 = some field.length := by
      simp [findCrlf, crlfOffset_line numeral.cr_notMem tail]
    rw [parseInteger, found]
    simp only [List.drop_zero, Nat.sub_zero, List.take_left]
    rw [numeral]

/-! ## The grammar -/

/-- Payloads with their headers.  `Closing` says which bytes may close a payload. -/
inductive Items (Closing : Bytes → Prop) : List Bytes → Bytes → Prop where
  | nil : Items Closing [] []
  | cons {field payload closing rest : Bytes} {payloads : List Bytes}
      (header : Numeral field payload.length) (closes : Closing closing)
      (items : Items Closing payloads rest) :
      Items Closing (payload :: payloads)
        (36 :: (field ++ (crlf ++ (payload ++ (closing ++ rest)))))

/-- A request: the number of payloads and the payloads. -/
def Frame (Closing : Bytes → Prop) (args : List Bytes) (frame : Bytes) : Prop :=
  ∃ field items, frame = 42 :: (field ++ (crlf ++ items)) ∧ Numeral field args.length ∧
    Items Closing args items

/-- Payloads are closed by CRLF. -/
def Terminated (closing : Bytes) : Prop :=
  closing = crlf

/-- Payloads are closed by any two bytes. -/
def Skipped (closing : Bytes) : Prop :=
  closing.length = 2

theorem Terminated.skipped {closing : Bytes} (terminated : Terminated closing) :
    Skipped closing := by
  rw [Terminated] at terminated
  rw [terminated]
  rfl

theorem Items.mono {Closing Other : Bytes → Prop} (weaker : ∀ closing, Closing closing →
    Other closing) {args : List Bytes} {bytes : Bytes} (items : Items Closing args bytes) :
    Items Other args bytes := by
  induction items with
  | nil => exact .nil
  | cons header closes _ inductionHypothesis =>
      exact .cons header (weaker _ closes) inductionHypothesis

theorem Frame.mono {Closing Other : Bytes → Prop} (weaker : ∀ closing, Closing closing →
    Other closing) {args : List Bytes} {frame : Bytes} (whole : Frame Closing args frame) :
    Frame Other args frame := by
  rcases whole with ⟨field, bytes, shape, header, items⟩
  exact ⟨field, bytes, shape, header, items.mono weaker⟩

/-- The first `length` bytes of the data are a well-formed request. -/
def WellFormed (data : Bytes) (args : List Bytes) (length : ℕ) : Prop :=
  length ≤ data.length ∧ Frame Terminated args (data.take length)

/-- The first `length` bytes of the data are a request up to the bytes behind its
payloads. -/
def LooselyFormed (data : Bytes) (args : List Bytes) (length : ℕ) : Prop :=
  length ≤ data.length ∧ Frame Skipped args (data.take length)

theorem WellFormed.loosely {data : Bytes} {args : List Bytes} {length : ℕ}
    (wellFormed : WellFormed data args length) : LooselyFormed data args length :=
  ⟨wellFormed.1, wellFormed.2.mono fun _ => Terminated.skipped⟩

theorem LooselyFormed.head {data : Bytes} {args : List Bytes} {length : ℕ}
    (formed : LooselyFormed data args length) : data.head? = some 42 := by
  rcases formed with ⟨-, field, items, shape, -⟩
  rw [← List.take_append_drop length data, shape]
  rfl

/-! ## The parser and the grammar -/

section Parser

variable {data : Bytes} {args payloads : List Bytes} {remaining pos : ℕ}

/-- What follows an initial part of the rest of the data. -/
theorem drop_past (front : Bytes) {back : Bytes} (here : data.drop pos = front ++ back) :
    data.drop (front.length + pos) = back := by
  rw [Nat.add_comm, ← List.drop_drop, here, List.drop_left]

/-- The first byte of the rest of the data. -/
theorem getElem_of_drop {byte : UInt8} {tail : Bytes} (here : data.drop pos = byte :: tail) :
    data[pos]? = some byte := by
  have head := congrArg List.head? here
  rw [List.head?_drop] at head
  exact head

/-- A header in the rest of the data. -/
theorem parseInteger_of_drop {field tail : Bytes} {value : ℤ}
    (here : data.drop pos = field ++ (crlf ++ tail)) (numeral : Numeral field value) :
    parseInteger data pos = some (value, field.length + 2 + pos) := by
  rw [parseInteger_drop, here, parseInteger_eq_some_iff.mpr ⟨field, tail, rfl, numeral, rfl⟩]
  rfl

/-- What follows the header of a payload. -/
theorem drop_length {field tail : Bytes} (here : data.drop pos = 36 :: (field ++ (crlf ++ tail))) :
    data.drop (field.length + 2 + (1 + pos)) = tail := by
  have headerAt : data.drop (1 + pos) = field ++ (crlf ++ tail) := drop_past [36] here
  have behind := drop_past (field ++ crlf) (by simpa using headerAt)
  rw [List.length_append, length_crlf] at behind
  exact behind

/-- What follows the first header. -/
theorem drop_header (field tail : Bytes) :
    (42 :: (field ++ (crlf ++ tail))).drop (field.length + 3) = tail := by
  have past : (42 :: (field ++ (crlf ++ tail))).drop ((42 :: (field ++ crlf)).length + 0) = tail :=
    drop_past _ (by simp)
  simpa [Nat.add_assoc] using past

/-- One payload is read and the two bytes behind it are skipped. -/
theorem parseBulks_item {field payload closing rest : Bytes}
    (header : Numeral field payload.length) (closes : Skipped closing)
    (here : data.drop pos = 36 :: (field ++ (crlf ++ (payload ++ (closing ++ rest))))) :
    parseBulks data (remaining + 1) pos args =
      parseBulks data remaining (field.length + payload.length + 5 + pos) (args ++ [payload]) := by
  have headerAt : data.drop (1 + pos) = field ++ (crlf ++ (payload ++ (closing ++ rest))) :=
    drop_past [36] here
  have read := parseInteger_of_drop headerAt header
  have payloadAt := drop_length here
  have long := congrArg List.length payloadAt
  rw [Skipped] at closes
  simp only [List.length_drop, List.length_append, closes] at long
  rw [parseBulks, getElem_of_drop here, Nat.add_comm pos]
  simp only [ne_eq, not_true_eq_false, if_false, read, Int.toNat_natCast]
  rw [if_neg (by omega), if_neg (by omega), payloadAt, List.take_left]
  congr 1
  omega

/-- What follows a payload and the two bytes behind it. -/
theorem drop_item {field payload closing rest : Bytes} (closes : Skipped closing)
    (here : data.drop pos = 36 :: (field ++ (crlf ++ (payload ++ (closing ++ rest))))) :
    data.drop (field.length + payload.length + 5 + pos) = rest := by
  have behind := drop_past (36 :: (field ++ (crlf ++ (payload ++ closing)))) (by simpa using here)
  rw [Skipped] at closes
  simp only [List.length_cons, List.length_append, closes, length_crlf] at behind
  rw [← behind]
  congr 1
  omega

/-- The parser goes through payloads and on from the byte behind them. -/
theorem parseBulks_items {items tail : Bytes} (parts : Items Skipped payloads items)
    (here : data.drop pos = items ++ tail) :
    parseBulks data (payloads.length + remaining) pos args =
      parseBulks data remaining (items.length + pos) (args ++ payloads) := by
  induction parts generalizing pos args with
  | nil => simp
  | @cons field payload closing rest payloads header closes _ inductionHypothesis =>
      have first : data.drop pos =
          36 :: (field ++ (crlf ++ (payload ++ (closing ++ (rest ++ tail))))) := by
        simpa using here
      have restAt := drop_item closes first
      have counted : (payload :: payloads).length + remaining =
          payloads.length + remaining + 1 := by
        simp only [List.length_cons]
        omega
      rw [counted, parseBulks_item header closes first, inductionHypothesis restAt]
      rw [Skipped] at closes
      simp only [List.append_assoc, List.cons_append, List.nil_append, List.length_cons,
        List.length_append, closes, length_crlf]
      congr 1
      omega

/-- Where the parser has to wait for more bytes: before a payload, in a header, or in a
payload and what closes it. -/
inductive Waiting : Bytes → Prop where
  | item : Waiting []
  | header {header : Bytes} (unread : parseInteger header 0 = none) : Waiting (36 :: header)
  | payload {field part : Bytes} {length : ℕ} (header : Numeral field length)
      (short : part.length < length + 2) : Waiting (36 :: (field ++ (crlf ++ part)))

theorem parseBulks_unread {header : Bytes} (here : data.drop pos = 36 :: header)
    (unread : parseInteger header 0 = none) :
    parseBulks data (remaining + 1) pos args = .incomplete := by
  have headerAt : data.drop (1 + pos) = header := drop_past [36] here
  rw [parseBulks, getElem_of_drop here, Nat.add_comm pos, parseInteger_drop, headerAt, unread]
  rfl

theorem parseBulks_negative {field tail : Bytes} {blen : ℤ}
    (here : data.drop pos = 36 :: (field ++ (crlf ++ tail))) (header : Numeral field blen)
    (negative : blen < 0) : parseBulks data (remaining + 1) pos args = .failed .error := by
  have headerAt : data.drop (1 + pos) = field ++ (crlf ++ tail) := drop_past [36] here
  have read := parseInteger_of_drop headerAt header
  rw [parseBulks, getElem_of_drop here, Nat.add_comm pos]
  simp only [ne_eq, not_true_eq_false, if_false, read, negative, if_true]

/-- A payload that has not arrived as a whole, with the two bytes behind it. -/
theorem parseBulks_short {field part : Bytes} {length : ℕ}
    (here : data.drop pos = 36 :: (field ++ (crlf ++ part))) (header : Numeral field length)
    (short : part.length < length + 2) :
    parseBulks data (remaining + 1) pos args = .incomplete := by
  have headerAt : data.drop (1 + pos) = field ++ (crlf ++ part) := drop_past [36] here
  have read := parseInteger_of_drop headerAt header
  have nonneg : ¬(length : ℤ) < 0 := by omega
  have inside := congrArg List.length headerAt
  simp only [List.length_drop, List.length_append, length_crlf] at inside
  rw [parseBulks, getElem_of_drop here, Nat.add_comm pos]
  simp only [ne_eq, not_true_eq_false, if_false, read, nonneg, Int.toNat_natCast]
  rw [if_pos (by omega)]

/-- Enough bytes for a payload and what closes it. -/
theorem exists_payload {rest : Bytes} {length : ℕ} (enough : length + 2 ≤ rest.length) :
    ∃ payload closing tail, rest = payload ++ (closing ++ tail) ∧ payload.length = length ∧
      Skipped closing := by
  refine ⟨rest.take length, (rest.drop length).take 2, (rest.drop length).drop 2, ?_, ?_, ?_⟩
  · rw [List.take_append_drop, List.take_append_drop]
  · rw [List.length_take, Nat.min_eq_left (by omega)]
  · rw [Skipped, List.length_take, List.length_drop, Nat.min_eq_left (by omega)]

/-- What one round of the argument loop does. -/
theorem parseBulks_cases (data : Bytes) (remaining pos : ℕ) (args : List Bytes) :
    (∃ field payload closing rest, Numeral field payload.length ∧ Skipped closing ∧
        data.drop pos = 36 :: (field ++ (crlf ++ (payload ++ (closing ++ rest)))) ∧
        parseBulks data (remaining + 1) pos args = parseBulks data remaining
          (field.length + payload.length + 5 + pos) (args ++ [payload])) ∨
      Waiting (data.drop pos) ∧ parseBulks data (remaining + 1) pos args = .incomplete ∨
      parseBulks data (remaining + 1) pos args = .failed .error := by
  cases here : data.drop pos with
  | nil =>
      right
      left
      refine ⟨.item, ?_⟩
      rw [parseBulks, List.getElem?_eq_none (List.drop_eq_nil_iff.mp here)]
  | cons byte header =>
      by_cases dollar : byte = 36
      · subst dollar
        cases read : parseInteger header 0 with
        | none => exact Or.inr (Or.inl ⟨.header read, parseBulks_unread here read⟩)
        | some found =>
            rcases found with ⟨blen, next⟩
            rcases parseInteger_eq_some_iff.mp read with ⟨field, rest, rfl, numeral, rfl⟩
            by_cases negative : blen < 0
            · exact Or.inr (Or.inr (parseBulks_negative here numeral negative))
            · lift blen to ℕ using (by omega)
              by_cases short : rest.length < blen + 2
              · right
                left
                exact ⟨.payload numeral short, parseBulks_short here numeral short⟩
              · left
                rcases exists_payload (Nat.le_of_not_lt short) with
                  ⟨payload, closing, tail, rfl, rfl, closes⟩
                exact ⟨field, payload, closing, tail, numeral, closes, rfl,
                  parseBulks_item numeral closes here⟩
      · right
        right
        rw [parseBulks, getElem_of_drop here]
        simp [dollar]

/-- What the argument loop accepts are payloads, closed by any two bytes. -/
theorem items_of_parseBulks {command : Option (List Bytes)} {length : ℕ}
    (complete : parseBulks data remaining pos args = .complete command length) :
    ∃ payloads items tail, command = some (args ++ payloads) ∧ payloads.length = remaining ∧
      Items Skipped payloads items ∧ data.drop pos = items ++ tail ∧
      length = items.length + pos := by
  induction remaining generalizing pos args with
  | zero =>
      cases complete
      exact ⟨[], [], _, by simp, rfl, .nil, rfl, by simp⟩
  | succ remaining inductionHypothesis =>
      rcases parseBulks_cases data remaining pos args with
        ⟨field, payload, closing, rest, header, closes, here, step⟩ | ⟨-, stuck⟩ | failed
      · rw [step] at complete
        rcases inductionHypothesis complete with
          ⟨payloads, items, tail, rfl, rfl, parts, restAt, rfl⟩
        have rest_eq : rest = items ++ tail := by
          rw [← restAt]
          exact (drop_item closes here).symm
        rw [Skipped] at closes
        refine ⟨_, _, tail, ?_, ?_, .cons header closes parts, ?_, ?_⟩
        · simp
        · simp
        · rw [here, rest_eq]
          simp
        · simp only [List.length_cons, List.length_append, closes, length_crlf]
          omega
      · rw [stuck] at complete
        cases complete
      · rw [failed] at complete
        cases complete

theorem parseMultibulk_unread {header : Bytes} (unread : parseInteger header 0 = none) :
    parseMultibulk (42 :: header) = .incomplete := by
  rw [parseMultibulk, parseInteger_drop, List.drop_one, List.tail_cons, unread]
  rfl

/-- The number of payloads of a request. -/
theorem parseInteger_count {field tail : Bytes} {nargs : ℤ} (header : Numeral field nargs) :
    parseInteger (42 :: (field ++ (crlf ++ tail))) 1 = some (nargs, field.length + 2 + 1) :=
  parseInteger_of_drop rfl header

theorem parseMultibulk_negative {field tail : Bytes} {nargs : ℤ} (header : Numeral field nargs)
    (negative : nargs < 0) :
    parseMultibulk (42 :: (field ++ (crlf ++ tail))) = .failed .error := by
  rw [parseMultibulk, parseInteger_count header]
  simp only [negative, if_true]

theorem parseMultibulk_oversized {field tail : Bytes} {nargs : ℤ} (header : Numeral field nargs)
    (large : maxVectorSize < nargs) :
    parseMultibulk (42 :: (field ++ (crlf ++ tail))) = .failed .raised := by
  rw [parseMultibulk, parseInteger_count header]
  simp only
  rw [if_neg (by omega), if_neg (by omega), if_pos (by omega)]

/-- A request with a number of payloads that the argument vector can hold is read payload
by payload. -/
theorem parseMultibulk_of_header {field tail : Bytes} {nargs : ℕ} (header : Numeral field nargs)
    (capacity : nargs ≤ maxVectorSize) :
    parseMultibulk (42 :: (field ++ (crlf ++ tail))) =
      parseBulks (42 :: (field ++ (crlf ++ tail))) nargs (field.length + 3) [] := by
  have nonneg : ¬(nargs : ℤ) < 0 := by omega
  rw [parseMultibulk, parseInteger_count header]
  simp only [nonneg, if_false, Int.toNat_natCast]
  by_cases zero : nargs = 0
  · simp [zero, parseBulks]
  · rw [if_neg (by omega), if_neg (by omega)]

/-- The first bytes of the data are a request. -/
theorem looselyFormed_append {frame : Bytes} (whole : Frame Skipped args frame)
    (rest : Bytes) : LooselyFormed (frame ++ rest) args frame.length := by
  constructor
  · simp
  · rw [List.take_left]
    exact whole

/-- What the parser accepts is a request with any two bytes behind each payload. -/
theorem looselyFormed_of_complete {rest : Bytes} {command : Option (List Bytes)} {length : ℕ}
    (complete : parseMultibulk (42 :: rest) = .complete command length) :
    ∃ args, command = some args ∧ LooselyFormed (42 :: rest) args length ∧
      args.length ≤ maxVectorSize := by
  cases header : parseInteger rest 0 with
  | none =>
      rw [parseMultibulk_unread header] at complete
      cases complete
  | some found =>
      rcases found with ⟨nargs, next⟩
      rcases parseInteger_eq_some_iff.mp header with ⟨field, tail, rfl, numeral, rfl⟩
      have nonneg : ¬nargs < 0 := by
        intro negative
        rw [parseMultibulk_negative numeral negative] at complete
        cases complete
      lift nargs to ℕ using (by omega)
      have capacity : nargs ≤ maxVectorSize := by
        by_contra large
        rw [parseMultibulk_oversized numeral (by omega)] at complete
        cases complete
      rw [parseMultibulk_of_header numeral capacity] at complete
      rcases items_of_parseBulks complete with
        ⟨args, items, behind, rfl, rfl, parts, here, rfl⟩
      have tail_eq : tail = items ++ behind := by
        rw [← here]
        exact (drop_header field tail).symm
      subst tail_eq
      refine ⟨args, by simp, ?_, capacity⟩
      have whole : Frame Skipped args (42 :: (field ++ (crlf ++ items))) :=
        ⟨field, items, rfl, numeral, parts⟩
      have formed := looselyFormed_append whole behind
      simp only [List.cons_append, List.append_assoc, List.length_cons, List.length_append,
        length_crlf] at formed
      have size : items.length + (field.length + 3) =
          field.length + (2 + items.length) + 1 := by
        omega
      rw [size]
      exact formed

/-- The parser accepts such a request and nothing behind it. -/
theorem complete_of_looselyFormed {rest : Bytes} {length : ℕ}
    (formed : LooselyFormed (42 :: rest) args length) (capacity : args.length ≤ maxVectorSize) :
    parseMultibulk (42 :: rest) = .complete (some args) length := by
  rcases formed with ⟨bound, field, items, shape, header, parts⟩
  have split := List.take_append_drop length (42 :: rest)
  rw [shape] at split
  simp only [List.cons_append, List.append_assoc] at split
  have size := congrArg List.length shape
  rw [List.length_take, Nat.min_eq_left bound] at size
  simp only [List.length_cons, List.length_append, length_crlf] at size
  rw [← split, parseMultibulk_of_header header capacity]
  have here := drop_header field (items ++ (42 :: rest).drop length)
  rw [← Nat.add_zero args.length, parseBulks_items parts here, parseBulks]
  simp only [List.nil_append]
  congr 1
  omega

/-- The parser accepts the looser format, as long as the argument vector can hold the
payloads. -/
theorem parseMultibulk_eq_complete_iff {command : Option (List Bytes)} {length : ℕ}
    (star : data.head? = some 42) :
    parseMultibulk data = .complete command length ↔ ∃ args, command = some args ∧
      LooselyFormed data args length ∧ args.length ≤ maxVectorSize := by
  cases data with
  | nil => cases star
  | cons byte rest =>
      simp only [List.head?_cons, Option.some.injEq] at star
      subst star
      constructor
      · exact looselyFormed_of_complete
      · rintro ⟨args, rfl, formed, capacity⟩
        exact complete_of_looselyFormed formed capacity

end Parser

/-! ## Acceptance -/

/-- The parser accepts exactly the well-formed requests if and only if every request whose
payloads are closed by any two bytes is well-formed, and the argument vector can hold the
payloads of the well-formed ones. -/
theorem parseMultibulk_accepts_iff {data : Bytes} (star : data.head? = some 42) :
    (∀ args length, parseMultibulk data = .complete (some args) length ↔
        WellFormed data args length) ↔
      (∀ args length, LooselyFormed data args length → args.length ≤ maxVectorSize →
          WellFormed data args length) ∧
        ∀ args length, WellFormed data args length → args.length ≤ maxVectorSize := by
  have accepts : ∀ args length, parseMultibulk data = .complete (some args) length ↔
      LooselyFormed data args length ∧ args.length ≤ maxVectorSize := by
    intro args length
    rw [parseMultibulk_eq_complete_iff star]
    simp
  constructor
  · intro exact
    constructor
    · intro args length loosely capacity
      rw [← exact, accepts]
      exact ⟨loosely, capacity⟩
    · intro args length wellFormed
      rw [← exact, accepts] at wellFormed
      exact wellFormed.2
  · rintro ⟨closed, held⟩ args length
    rw [accepts]
    constructor
    · rintro ⟨loosely, capacity⟩
      exact closed args length loosely capacity
    · intro wellFormed
      exact ⟨wellFormed.loosely, held args length wellFormed⟩

theorem parseMultibulk_accepts_iff_ping :
    (∀ args length, parseMultibulk (ascii "*1\r\n$4\r\nPING\r\n") = .complete (some args) length ↔
        WellFormed (ascii "*1\r\n$4\r\nPING\r\n") args length) ↔
      (∀ args length, LooselyFormed (ascii "*1\r\n$4\r\nPING\r\n") args length →
          args.length ≤ maxVectorSize →
          WellFormed (ascii "*1\r\n$4\r\nPING\r\n") args length) ∧
        ∀ args length, WellFormed (ascii "*1\r\n$4\r\nPING\r\n") args length →
          args.length ≤ maxVectorSize :=
  parseMultibulk_accepts_iff (by decide)

theorem getLast_items {args : List Bytes} {bytes : Bytes} (items : Items Terminated args bytes) :
    (crlf ++ bytes).getLast? = some LF := by
  induction items with
  | nil => rfl
  | @cons field payload closing rest payloads header closes _ inductionHypothesis =>
      rw [Terminated] at closes
      subst closes
      have split : crlf ++ 36 :: (field ++ (crlf ++ (payload ++ (crlf ++ rest)))) =
          (crlf ++ 36 :: (field ++ (crlf ++ payload))) ++ (crlf ++ rest) := by
        simp
      rw [split, List.getLast?_append, inductionHypothesis]
      rfl

theorem getLast_frame {args : List Bytes} {frame : Bytes} (whole : Frame Terminated args frame) :
    frame.getLast? = some LF := by
  rcases whole with ⟨field, items, rfl, -, parts⟩
  rw [← List.cons_append, List.getLast?_append, getLast_items parts]
  rfl

/-- A payload with other bytes behind it is accepted. -/
theorem not_parseMultibulk_accepts :
    ¬∀ data : Bytes, data.head? = some 42 → ∀ args length,
      parseMultibulk data = .complete (some args) length ↔ WellFormed data args length := by
  intro accepts
  have wellFormed := (accepts (ascii "*1\r\n$4\r\nPINGXX") (by decide) [ascii "PING"] 14).mp rfl
  exact absurd (getLast_frame wellFormed.2) (by decide)

/-! ## Decoding what was encoded -/

theorem items_flatMap_bulkString {args : List Bytes}
    (sizes : ∀ arg ∈ args, arg.length < 2 ^ 63) :
    Items Terminated args (args.flatMap bulkString) := by
  induction args with
  | nil => exact .nil
  | cons arg args inductionHypothesis =>
      have fits : (arg.length : ℤ) ≤ int64Max := by
        have size := sizes arg (by simp)
        simp only [int64Max]
        omega
      have later := inductionHypothesis fun other mem => sizes other (by simp [mem])
      have closes : Terminated crlf := rfl
      have parts := Items.cons (Numeral.print fits) closes later
      simpa [bulkString] using parts

theorem frame_array {args : List Bytes} (capacity : args.length ≤ maxVectorSize)
    (sizes : ∀ arg ∈ args, arg.length < 2 ^ 63) : Frame Terminated args (array args) := by
  have fits : (args.length : ℤ) ≤ int64Max := by
    simp only [maxVectorSize] at capacity
    simp only [int64Max]
    omega
  refine ⟨_, _, ?_, Numeral.print fits, items_flatMap_bulkString sizes⟩
  simp [array]

/-- Decoding an encoded request in front of any bytes gives its arguments back. -/
theorem parseInto_array {args : List Bytes} (capacity : args.length ≤ maxVectorSize)
    (sizes : ∀ arg ∈ args, arg.length < 2 ^ 63) (rest : Bytes) (outCmds : List (List Bytes))
    (frameLen : ℕ) :
    parseInto (array args ++ rest) outCmds frameLen =
      some (.complete, outCmds ++ [args], (array args).length) := by
  have star : (array args ++ rest).head? = some 42 := by simp [array]
  have whole := (frame_array capacity sizes).mono fun _ => Terminated.skipped
  have complete := (parseMultibulk_eq_complete_iff star).mpr
    ⟨args, rfl, looselyFormed_append whole rest, capacity⟩
  rw [parseInto, parse_of_star star, complete]
  rfl

/-- A payload that looks like framing, behind an earlier command and before a torn one. -/
theorem parseInto_array_framing :
    parseInto (array [ascii "SET", [], ascii "*1\r\n$4\r\n"] ++ ascii "*2\r") [[ascii "PING"]] 0 =
      some (.complete, [[ascii "PING"], [ascii "SET", [], ascii "*1\r\n$4\r\n"]], 33) :=
  @parseInto_array [ascii "SET", [], ascii "*1\r\n$4\r\n"] (by decide) (by decide)
    (ascii "*2\r") [[ascii "PING"]] 0

end RedisCpp.Protocol
