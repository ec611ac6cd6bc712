import RedisCpp.Store.AofWriter
import Mathlib.Data.List.TakeDrop

/-!
# Round trip of the append-only file

What `replay` does on the bytes written by the logging functions, whole or cut
at an arbitrary byte.  The argument goes up with the format: a line, a bulk
string, an argument vector, a record, a file.  At every level the complete
encoding is read back exactly, and a proper prefix is either read back as if it
were complete, when at most the closing line end is missing, or rejected.
-/

namespace RedisCpp.Store

namespace IfStream

theorem getline_line {line rest : Bytes} (noLf : LF ∉ line) :
    getline { rest := line ++ LF :: rest } = (some line, { rest := rest }) := by
  have before : ∀ byte ∈ line, (byte != LF) = true := by
    intro byte mem
    simp only [bne_iff_ne, ne_eq]
    rintro rfl
    exact noLf mem
  have drop_eq : (line ++ LF :: rest).dropWhile (· != LF) = LF :: rest := by
    rw [List.dropWhile_append_of_pos before]
    simp
  have take_eq : (line ++ LF :: rest).takeWhile (· != LF) = line := by
    rw [List.takeWhile_append_of_pos before]
    simp
  simp [getline, good, drop_eq, take_eq]

theorem getline_unterminated {rest : Bytes} (noLf : LF ∉ rest) (nonempty : rest ≠ []) :
    getline { rest := rest } = (some rest, { rest := [], eofbit := true }) := by
  have before : ∀ byte ∈ rest, (byte != LF) = true := by
    intro byte mem
    simp only [bne_iff_ne, ne_eq]
    rintro rfl
    exact noLf mem
  have drop_eq : rest.dropWhile (· != LF) = [] := by
    simpa using before
  simp [getline, good, drop_eq, nonempty]

theorem getline_of_rest_nil {stream : IfStream} (atEnd : stream.rest = []) :
    stream.getline.1 = none ∧ stream.getline.2.rest = [] := by
  rw [getline]
  split
  · simp [atEnd]
  · exact ⟨rfl, atEnd⟩

theorem peekEof_of_rest_nil {stream : IfStream} (atEnd : stream.rest = []) :
    stream.peekEof = true := by
  simp [peekEof, atEnd]

theorem peekEof_of_cons {byte : UInt8} {rest : Bytes} :
    peekEof { rest := byte :: rest } = false := by
  simp [peekEof, good]

end IfStream

/-! ## Lines -/

theorem lf_not_digit : Decimal.isDigit LF = false := by decide

theorem cr_not_digit : Decimal.isDigit CR = false := by decide

theorem not_mem_print {byte : UInt8} (notDigit : Decimal.isDigit byte = false) (number : ℕ) :
    byte ∉ Decimal.print number := by
  intro mem
  rw [Decimal.isDigit_of_mem_print mem] at notDigit
  exact Bool.noConfusion notDigit

theorem stripCr_append_cr (line : Bytes) : stripCr (line ++ [CR]) = line := by
  simp [stripCr]

theorem stripCr_of_not_mem {line : Bytes} (noCr : CR ∉ line) : stripCr line = line := by
  rw [stripCr, if_neg]
  intro last
  exact noCr (List.mem_of_getLast? last)

/-- The prefixes of a line that ends in a carriage return lose it again. -/
theorem stripCr_take_append_cr {line : Bytes} (noCr : CR ∉ line) (count : ℕ) :
    stripCr ((line ++ [CR]).take count) = line.take count := by
  by_cases whole : count ≤ line.length
  · rw [List.take_append_of_le_length whole]
    exact stripCr_of_not_mem fun mem => noCr (List.mem_of_mem_take mem)
  · rw [List.take_of_length_le (by simp; omega), List.take_of_length_le (by omega)]
    exact stripCr_append_cr line

/-! ## Numbers in headers -/

theorem stoll_of_digits {text : Bytes} (digits : ∀ byte ∈ text, Decimal.isDigit byte = true)
    {number : ℤ} (parsed : stoll text = some number) : number = Decimal.value text := by
  have noSpace : text.dropWhile isSpace = text := by
    cases text with
    | nil => rfl
    | cons byte tail => simp [isSpace_of_isDigit (digits byte (by simp))]
  rw [stoll, Option.filter_eq_some_iff] at parsed
  rcases parsed with ⟨read, -⟩
  rw [strtol, noSpace] at read
  split at read
  · exact absurd (digits 45 (by simp)) (by decide)
  · exact absurd (digits 43 (by simp)) (by decide)
  · rw [Option.map_eq_some_iff] at read
    rcases read with ⟨⟨magnitude, rest⟩, found, rfl⟩
    rw [Decimal.read_of_digits digits found]

/-- A length that is cut off is read as a smaller one. -/
theorem stoll_take_print_le {number count : ℕ} {len : ℤ}
    (parsed : stoll ((Decimal.print number).take count) = some len) : 0 ≤ len ∧ len ≤ number := by
  have digits : ∀ byte ∈ (Decimal.print number).take count, Decimal.isDigit byte = true :=
    fun byte mem => Decimal.isDigit_of_mem_print (List.mem_of_mem_take mem)
  have smaller := Decimal.value_take_le (Decimal.print number) count
  rw [Decimal.value_print] at smaller
  rw [stoll_of_digits digits parsed]
  omega

/-! ## Bulk strings -/

/-- The header line of a bulk string, without its line end. -/
def bulkHeader (text : Bytes) : Bytes :=
  36 :: Decimal.print text.length

theorem bulk_eq (text : Bytes) :
    bulk text = bulkHeader text ++ crlf ++ (text ++ crlf) := by
  simp [bulk, bulkHeader, show ascii "$" = [36] from by decide]

theorem not_mem_bulkHeader {byte : UInt8} (notDigit : Decimal.isDigit byte = false)
    (notDollar : byte ≠ 36) (text : Bytes) : byte ∉ bulkHeader text := by
  intro mem
  rcases List.mem_cons.mp mem with equal | printed
  · exact notDollar equal
  · exact not_mem_print notDigit _ printed

theorem length_bulk (text : Bytes) :
    (bulk text).length = (bulkHeader text).length + 2 + text.length + 2 := by
  rw [bulk_eq]
  simp [crlf]
  omega

theorem bulkHeader_length_pos (text : Bytes) : 2 ≤ (bulkHeader text).length := by
  have nonempty := List.length_pos_iff.mpr (Decimal.print_ne_nil text.length)
  simp only [bulkHeader, List.length_cons]
  omega

/-- After a complete header line, `read_bulk` is decided by the payload alone. -/
theorem readBulk_of_header {text rest : Bytes} (fits : text.length ≤ maxStringSize) :
    readBulk { rest := bulkHeader text ++ crlf ++ rest } =
      if text.length ≤ rest.length then
        .ok (rest.take text.length)
          (IfStream.getline { rest := rest.drop text.length }).2
      else .failed := by
  have noLf : LF ∉ bulkHeader text ++ [CR] := by
    intro mem
    rcases List.mem_append.mp mem with header | last
    · exact not_mem_bulkHeader lf_not_digit (by decide) text header
    · exact absurd (List.mem_singleton.mp last) (by decide)
  have shape : bulkHeader text ++ crlf ++ rest = (bulkHeader text ++ [CR]) ++ LF :: rest := by
    simp [crlf]
  have parsed : stoll (Decimal.print text.length) = some (text.length : ℤ) := by
    have upper : (text.length : ℤ) ≤ int64Max := by
      simp only [maxStringSize] at fits
      simp only [int64Max]
      omega
    simpa using stoll_print_append upper [] (by simp)
  have size : ¬maxStringSize < text.length := by omega
  rw [readBulk, shape, IfStream.getline_line noLf]
  simp only [stripCr_append_cr, bulkHeader, parsed, Int.toNat_natCast, size, if_false]
  rw [if_neg (by omega : ¬(text.length : ℤ) < 0)]
  by_cases enough : text.length ≤ rest.length
  · simp [IfStream.read, IfStream.good, enough]
  · simp [IfStream.read, IfStream.good, enough]

theorem readBulk_bulk_append {text : Bytes} (fits : text.length ≤ maxStringSize) (rest : Bytes) :
    readBulk { rest := bulk text ++ rest } = .ok text { rest := rest } := by
  have shape : bulk text ++ rest = bulkHeader text ++ crlf ++ (text ++ ([CR] ++ LF :: rest)) := by
    rw [bulk_eq]
    simp [crlf]
  rw [shape, readBulk_of_header fits, if_pos (by simp), List.take_left, List.drop_left,
    IfStream.getline_line (by decide)]

theorem readBulk_of_rest_nil {stream : IfStream} (atEnd : stream.rest = []) :
    readBulk stream = .failed := by
  have noLine := (IfStream.getline_of_rest_nil atEnd).1
  rw [readBulk]
  split
  · rfl
  · rename_i line next found
    rw [found] at noLine
    exact absurd noLine (by simp)

/-- A header line cut by the end of the file is never taken for a shorter one. -/
theorem readBulk_torn_header {text : Bytes} {count : ℕ}
    (cut : count ≤ (bulkHeader text).length + 1) :
    readBulk { rest := (bulkHeader text ++ [CR]).take count } = .failed := by
  by_cases start : count = 0
  · subst count
    exact readBulk_of_rest_nil (by simp)
  have noCr : CR ∉ bulkHeader text := not_mem_bulkHeader cr_not_digit (by decide) text
  have noLf : LF ∉ (bulkHeader text ++ [CR]).take count := by
    intro mem
    rcases List.mem_append.mp (List.mem_of_mem_take mem) with header | last
    · exact not_mem_bulkHeader lf_not_digit (by decide) text header
    · exact absurd (List.mem_singleton.mp last) (by decide)
  have nonempty : (bulkHeader text ++ [CR]).take count ≠ [] := by
    simp [bulkHeader, start]
  rw [readBulk, IfStream.getline_unterminated noLf nonempty]
  simp only [stripCr_take_append_cr noCr]
  rcases Nat.exists_eq_succ_of_ne_zero start with ⟨kept, rfl⟩
  simp only [bulkHeader, List.take_succ_cons]
  cases parsed : stoll ((Decimal.print text.length).take kept) with
  | none => rfl
  | some len =>
      have range := stoll_take_print_le parsed
      simp [IfStream.read, IfStream.good, show ¬len < 0 by omega,
        not_lt.mpr (stoll_toNat_le parsed)]

/-- A torn bulk string is read as complete exactly when only bytes of its closing
line end are missing; the stream is then exhausted. -/
theorem readBulk_torn {text : Bytes} (fits : text.length ≤ maxStringSize) {count : ℕ}
    (cut : count < (bulk text).length) :
    if (bulk text).length ≤ count + 2 then
      ∃ stream : IfStream, readBulk { rest := (bulk text).take count } = .ok text stream ∧
        stream.rest = []
    else readBulk { rest := (bulk text).take count } = .failed := by
  rw [length_bulk] at cut ⊢
  by_cases header : count ≤ (bulkHeader text).length + 1
  · rw [if_neg (by omega)]
    have shape : (bulk text).take count = (bulkHeader text ++ [CR]).take count := by
      have split : bulk text = (bulkHeader text ++ [CR]) ++ (LF :: (text ++ crlf)) := by
        rw [bulk_eq]
        simp [crlf]
      rw [split, List.take_append_of_le_length (by simp; omega)]
    rw [shape]
    exact readBulk_torn_header header
  · have shape : (bulk text).take count = bulkHeader text ++ crlf ++
        (text ++ crlf).take (count - ((bulkHeader text).length + 2)) := by
      rw [bulk_eq, List.take_append]
      simp [crlf, List.take_of_length_le (show (bulkHeader text ++ [CR, LF]).length ≤ count by
        simp; omega)]
    rw [shape, readBulk_of_header fits]
    have kept : ((text ++ crlf).take (count - ((bulkHeader text).length + 2))).length =
        count - ((bulkHeader text).length + 2) := by
      simp [crlf]
      omega
    rw [kept]
    by_cases payload : text.length ≤ count - ((bulkHeader text).length + 2)
    · rw [if_pos (by omega), if_pos payload]
      refine ⟨(IfStream.getline { rest := ((text ++ crlf).take
        (count - ((bulkHeader text).length + 2))).drop text.length }).2, ?_, ?_⟩
      · rw [List.take_take, Nat.min_eq_left payload, List.take_left]
      · rw [List.drop_take, List.drop_left]
        have missing : count - ((bulkHeader text).length + 2) - text.length < 2 := by omega
        rcases Nat.lt_succ_iff_lt_or_eq.mp missing with none | one
        · rw [show count - ((bulkHeader text).length + 2) - text.length = 0 by omega]
          exact (IfStream.getline_of_rest_nil rfl).2
        · rw [one]
          decide
    · rw [if_neg (by omega), if_neg payload]

/-! ## Argument vectors -/

theorem readArgs_append {args : List Bytes} (fits : ∀ arg ∈ args, arg.length ≤ maxStringSize)
    (rest : Bytes) :
    readArgs args.length { rest := args.flatMap bulk ++ rest } = .ok args { rest := rest } := by
  induction args with
  | nil => simp [readArgs]
  | cons arg args ih =>
      have tail := ih fun next mem => fits next (by simp [mem])
      simp only [List.flatMap_cons, List.append_assoc, List.length_cons, readArgs]
      rw [readBulk_bulk_append (fits arg (by simp))]
      simp only [tail]

theorem readArgs_of_rest_nil {stream : IfStream} (atEnd : stream.rest = []) (remaining : ℕ) :
    readArgs (remaining + 1) stream = .failed := by
  rw [readArgs, readBulk_of_rest_nil atEnd]

/-- Only the last argument of a torn argument vector may miss its line end. -/
theorem readArgs_torn {args : List Bytes} (fits : ∀ arg ∈ args, arg.length ≤ maxStringSize)
    (count : ℕ) (cut : count < (args.flatMap bulk).length) :
    if (args.flatMap bulk).length ≤ count + 2 then
      ∃ stream : IfStream,
        readArgs args.length { rest := (args.flatMap bulk).take count } = .ok args stream ∧
          stream.rest = []
    else readArgs args.length { rest := (args.flatMap bulk).take count } = .failed := by
  induction args generalizing count with
  | nil => simp at cut
  | cons arg args ih =>
      have argFits := fits arg (by simp)
      have restFit : ∀ next ∈ args, next.length ≤ maxStringSize :=
        fun next mem => fits next (by simp [mem])
      simp only [List.flatMap_cons, List.length_append, List.length_cons] at cut ⊢
      by_cases inHead : count < (bulk arg).length
      · have head := readBulk_torn argFits inHead
        rw [List.take_append_of_le_length (by omega)]
        cases args with
        | nil =>
            simp only [List.flatMap_nil, List.length_nil, Nat.add_zero] at cut ⊢
            by_cases complete : (bulk arg).length ≤ count + 2
            · rw [if_pos complete] at head ⊢
              rcases head with ⟨stream, read, atEnd⟩
              exact ⟨stream, by simp [readArgs, read], atEnd⟩
            · rw [if_neg complete] at head ⊢
              simp [readArgs, head]
        | cons next args =>
            have more : 6 ≤ ((next :: args).flatMap bulk).length := by
              have header := bulkHeader_length_pos next
              simp only [List.flatMap_cons, List.length_append, length_bulk]
              omega
            rw [if_neg (by omega), List.length_cons, readArgs]
            by_cases complete : (bulk arg).length ≤ count + 2
            · rw [if_pos complete] at head
              rcases head with ⟨stream, read, atEnd⟩
              simp only [read, readArgs_of_rest_nil atEnd]
            · rw [if_neg complete] at head
              rw [head]
      · have tail := ih restFit (count - (bulk arg).length) (by omega)
        rw [List.take_append, List.take_of_length_le (by omega), readArgs,
          readBulk_bulk_append argFits]
        by_cases complete : (args.flatMap bulk).length ≤ count - (bulk arg).length + 2
        · rw [if_pos complete] at tail
          rw [if_pos (by omega)]
          rcases tail with ⟨stream, read, atEnd⟩
          exact ⟨stream, by simp [read], atEnd⟩
        · rw [if_neg complete] at tail
          rw [if_neg (by omega)]
          simp [tail]

/-! ## Records -/

/-- The header line of an array of the given length, with its line end. -/
def arrayHeader (nargs : ℕ) : Bytes :=
  42 :: Decimal.print nargs ++ crlf

namespace Record

/-- The argument vector that a record encodes. -/
def args : Record → List Bytes
  | .set key value => [ascii "SET", key, value]
  | .setEx key value expireAtMs =>
      [ascii "SET", key, value, ascii "PXAT", stdToString expireAtMs]
  | .del key => [ascii "DEL", key]
  | .expire key expireAtMs => [ascii "PEXPIREAT", key, stdToString expireAtMs]

/-- A record that the logging functions can be asked to write: its strings exist
in memory and its deadline is a positive `int64_t`. -/
def Fits : Record → Prop
  | .set key value => key.length ≤ maxStringSize ∧ value.length ≤ maxStringSize
  | .setEx key value expireAtMs =>
      key.length ≤ maxStringSize ∧ value.length ≤ maxStringSize ∧
        0 < expireAtMs ∧ expireAtMs ≤ int64Max
  | .del key => key.length ≤ maxStringSize
  | .expire key expireAtMs =>
      key.length ≤ maxStringSize ∧ 0 < expireAtMs ∧ expireAtMs ≤ int64Max

theorem bytes_eq (record : Record) :
    record.bytes = arrayHeader record.args.length ++ record.args.flatMap bulk := by
  cases record with
  | set key value =>
      have header : ascii "*3\r\n" = arrayHeader 3 := by decide
      simp [bytes, args, header]
  | setEx key value expireAtMs =>
      have header : ascii "*5\r\n" = arrayHeader 5 := by decide
      simp [bytes, args, header]
  | del key =>
      have header : ascii "*2\r\n" = arrayHeader 2 := by decide
      simp [bytes, args, header]
  | expire key expireAtMs =>
      have header : ascii "*3\r\n" = arrayHeader 3 := by decide
      simp [bytes, args, header]

theorem args_length (record : Record) : 2 ≤ record.args.length ∧ record.args.length ≤ 5 := by
  cases record <;> simp [args]

theorem length_stdToString {number : ℤ} (positive : 0 < number) (fits : number ≤ int64Max) :
    (stdToString number).length ≤ maxStringSize := by
  have upper : number ≤ 2 ^ 63 - 1 := fits
  have digits : (Nat.toDigits 10 number.toNat).length ≤ 19 :=
    (Nat.length_toDigits_le_iff (by omega) (by omega)).mpr (by omega)
  rw [stdToString_of_nonneg (by omega), Decimal.print, List.length_map]
  simp only [maxStringSize]
  omega

theorem args_fit {record : Record} (fits : record.Fits) :
    ∀ arg ∈ record.args, arg.length ≤ maxStringSize := by
  have small : ∀ name : Bytes, name.length ≤ 9 → name.length ≤ maxStringSize := by
    intro name short
    simp only [maxStringSize]
    omega
  cases record with
  | set key value =>
      rcases fits with ⟨keyFits, valueFits⟩
      simp only [args, List.mem_cons, List.not_mem_nil, or_false]
      rintro arg (rfl | rfl | rfl)
      · exact small _ (by decide)
      · exact keyFits
      · exact valueFits
  | setEx key value expireAtMs =>
      rcases fits with ⟨keyFits, valueFits, positive, deadlineFits⟩
      simp only [args, List.mem_cons, List.not_mem_nil, or_false]
      rintro arg (rfl | rfl | rfl | rfl | rfl)
      · exact small _ (by decide)
      · exact keyFits
      · exact valueFits
      · exact small _ (by decide)
      · exact length_stdToString positive deadlineFits
  | del key =>
      simp only [args, List.mem_cons, List.not_mem_nil, or_false]
      rintro arg (rfl | rfl)
      · exact small _ (by decide)
      · exact fits
  | expire key expireAtMs =>
      rcases fits with ⟨keyFits, positive, deadlineFits⟩
      simp only [args, List.mem_cons, List.not_mem_nil, or_false]
      rintro arg (rfl | rfl | rfl)
      · exact small _ (by decide)
      · exact keyFits
      · exact length_stdToString positive deadlineFits

/-- The dispatch step of `replay` recovers the record from its argument vector. -/
theorem dispatchRecord_args {record : Record} (fits : record.Fits) :
    dispatchRecord record.args = some record := by
  cases record with
  | set key value => simp [args, dispatchRecord]
  | setEx key value expireAtMs =>
      rcases fits with ⟨-, -, positive, deadlineFits⟩
      have parsed := stoll_stdToString (by omega) deadlineFits
      simp [args, dispatchRecord, stollOrZero, parsed, positive]
  | del key => simp [args, dispatchRecord]
  | expire key expireAtMs =>
      rcases fits with ⟨-, positive, deadlineFits⟩
      have parsed := stoll_stdToString (by omega) deadlineFits
      simp [args, dispatchRecord, stollOrZero, parsed, positive,
        show ascii "PEXPIREAT" ≠ ascii "SET" from by decide]

end Record

theorem castSize_natCast {number : ℕ} (small : number ≤ 5) :
    ¬maxVectorSize < castSize (number : ℤ) := by
  simp only [maxVectorSize, castSize]
  omega

/-- One iteration of the record loop, from a complete array header on. -/
theorem replayLoop_arrayHeader {nargs : ℕ} (small : nargs ≤ 5) (fuel : ℕ) (rest : Bytes)
    (count : ℤ) :
    replayLoop (fuel + 1) { rest := arrayHeader nargs ++ rest } count =
      match readArgs nargs { rest := rest } with
      | .failed => ⟨[], .returned count⟩
      | .raised => ⟨[], .raised⟩
      | .ok [] _ => ⟨[], .returned count⟩
      | .ok args stream =>
          match dispatchRecord args with
          | none => replayLoop fuel stream count
          | some call =>
              let outcome := replayLoop fuel stream (count + 1)
              ⟨call :: outcome.calls, outcome.status⟩ := by
  have noLf : LF ∉ (42 :: Decimal.print nargs) ++ [CR] := by
    intro mem
    rcases List.mem_append.mp mem with line | last
    · rcases List.mem_cons.mp line with star | printed
      · exact absurd star (by decide)
      · exact not_mem_print lf_not_digit _ printed
    · exact absurd (List.mem_singleton.mp last) (by decide)
  have shape : arrayHeader nargs ++ rest =
      ((42 :: Decimal.print nargs) ++ [CR]) ++ LF :: rest := by
    simp [arrayHeader, crlf]
  have parsed : stoi (Decimal.print nargs) = some (nargs : ℤ) := by
    simpa using stoi_print_append (by omega) [] (by simp)
  have notEof : IfStream.peekEof
      { rest := ((42 :: Decimal.print nargs) ++ [CR]) ++ LF :: rest } = false :=
    IfStream.peekEof_of_cons
  rw [replayLoop, shape, notEof, IfStream.getline_line noLf]
  cases taken : readArgs nargs { rest := rest } with
  | failed | raised =>
      simp only [Bool.false_eq_true, if_false, stripCr_append_cr, parsed, castSize_natCast small,
        Int.toNat_natCast, taken]
  | ok args stream =>
      cases args with
      | nil =>
          simp only [Bool.false_eq_true, if_false, stripCr_append_cr, parsed,
            castSize_natCast small, Int.toNat_natCast, taken]
      | cons cmd others =>
          cases dispatched : dispatchRecord (cmd :: others) with
          | none | some =>
              simp only [Bool.false_eq_true, if_false, stripCr_append_cr, parsed,
                castSize_natCast small, Int.toNat_natCast, taken, dispatched]

/-- An array header cut by the end of the file ends the replay. -/
theorem replayLoop_torn_arrayHeader {nargs : ℕ} (small : nargs ≤ 5) (positive : 0 < nargs)
    (fuel : ℕ) {kept : ℕ} (count : ℤ) :
    replayLoop (fuel + 1) { rest := (42 :: (Decimal.print nargs ++ [CR])).take (kept + 1) } count =
      ⟨[], .returned count⟩ := by
  have noCr : CR ∉ Decimal.print nargs := not_mem_print cr_not_digit nargs
  have noLf : LF ∉ 42 :: (Decimal.print nargs ++ [CR]).take kept := by
    intro mem
    rcases List.mem_cons.mp mem with star | printed
    · exact absurd star (by decide)
    rcases List.mem_append.mp (List.mem_of_mem_take printed) with digits | last
    · exact not_mem_print lf_not_digit _ digits
    · exact absurd (List.mem_singleton.mp last) (by decide)
  have stripped : stripCr (42 :: (Decimal.print nargs ++ [CR]).take kept) =
      42 :: (Decimal.print nargs).take kept := by
    have noCrLine : CR ∉ 42 :: Decimal.print nargs := by
      simp only [List.mem_cons, not_or]
      exact ⟨by decide, noCr⟩
    simpa using stripCr_take_append_cr noCrLine (kept + 1)
  have atEnd : ∀ remaining, readArgs (remaining + 1) { rest := [], eofbit := true } = .failed :=
    fun remaining => readArgs_of_rest_nil rfl remaining
  rw [replayLoop, List.take_succ_cons, IfStream.peekEof_of_cons,
    IfStream.getline_unterminated noLf (by simp)]
  simp only [Bool.false_eq_true, if_false, stripped]
  cases parsed : stoi ((Decimal.print nargs).take kept) with
  | none => rfl
  | some number =>
      by_cases whole : (Decimal.print nargs).length ≤ kept
      · have all : stoi (Decimal.print nargs) = some (nargs : ℤ) := by
          simpa using stoi_print_append (by omega) [] (by simp)
        rw [List.take_of_length_le whole, all] at parsed
        cases parsed
        rcases Nat.exists_eq_succ_of_ne_zero positive.ne' with ⟨remaining, rfl⟩
        simp only [castSize_natCast small, if_false, Int.toNat_natCast, Nat.succ_eq_add_one,
          atEnd]
      · have digits : (Decimal.print nargs).length = 1 := by
          rw [Decimal.print, List.length_map, Nat.toDigits_of_lt_base (by omega)]
          rfl
        have nothing : kept = 0 := by omega
        subst kept
        rw [List.take_zero, show stoi [] = none from by decide] at parsed
        exact absurd parsed (by simp)

/-- A complete record is replayed as its callback. -/
theorem replayLoop_record {record : Record} (fits : record.Fits) (fuel : ℕ) (rest : Bytes)
    (count : ℤ) :
    replayLoop (fuel + 1) { rest := record.bytes ++ rest } count =
      ⟨record :: (replayLoop fuel { rest := rest } (count + 1)).calls,
        (replayLoop fuel { rest := rest } (count + 1)).status⟩ := by
  rcases record.args_length with ⟨lower, upper⟩
  rw [record.bytes_eq, List.append_assoc, replayLoop_arrayHeader upper,
    readArgs_append (Record.args_fit fits)]
  have dispatched := Record.dispatchRecord_args fits
  cases shape : record.args with
  | nil => simp [shape] at lower
  | cons cmd args =>
      rw [shape] at dispatched
      simp only [dispatched]

theorem length_arrayHeader (nargs : ℕ) :
    (arrayHeader nargs).length = (Decimal.print nargs).length + 3 := by
  simp [arrayHeader, crlf]

theorem length_bytes_pos (record : Record) : 10 ≤ record.bytes.length := by
  rcases record.args_length with ⟨lower, -⟩
  rw [record.bytes_eq, List.length_append, length_arrayHeader]
  cases shape : record.args with
  | nil => simp [shape] at lower
  | cons cmd args =>
      have header := bulkHeader_length_pos cmd
      have digits := List.length_pos_iff.mpr (Decimal.print_ne_nil (cmd :: args).length)
      rw [List.flatMap_cons, List.length_append, length_bulk]
      omega

/-- A torn record is replayed exactly when only bytes of its closing line end are
missing, and it ends the replay in either case. -/
theorem replayLoop_torn_record {record : Record} (fits : record.Fits) (fuel : ℕ) {kept : ℕ}
    (cut : kept < record.bytes.length) (count : ℤ) :
    replayLoop (fuel + 2) { rest := record.bytes.take kept } count =
      if record.bytes.length ≤ kept + 2 then ⟨[record], .returned (count + 1)⟩
      else ⟨[], .returned count⟩ := by
  rcases record.args_length with ⟨lower, upper⟩
  have argsFit := Record.args_fit fits
  have size := length_bytes_pos record
  rw [record.bytes_eq, List.length_append, length_arrayHeader] at cut size ⊢
  by_cases header : kept < (Decimal.print record.args.length).length + 3
  · have digits : (Decimal.print record.args.length).length = 1 := by
      rw [Decimal.print, List.length_map, Nat.toDigits_of_lt_base (by omega)]
      rfl
    rw [if_neg (by omega)]
    cases kept with
    | zero =>
        rw [List.take_zero, replayLoop, IfStream.peekEof_of_rest_nil rfl]
        simp
    | succ kept =>
        have shape : (arrayHeader record.args.length ++ record.args.flatMap bulk).take (kept + 1) =
            (42 :: (Decimal.print record.args.length ++ [CR])).take (kept + 1) := by
          have split : arrayHeader record.args.length ++ record.args.flatMap bulk =
              (42 :: (Decimal.print record.args.length ++ [CR])) ++
                LF :: record.args.flatMap bulk := by
            simp [arrayHeader, crlf]
          rw [split, List.take_append_of_le_length (by simp; omega)]
        rw [shape]
        exact replayLoop_torn_arrayHeader upper (by omega) (fuel + 1) count
  · have shape : (arrayHeader record.args.length ++ record.args.flatMap bulk).take kept =
        arrayHeader record.args.length ++ (record.args.flatMap bulk).take
          (kept - (arrayHeader record.args.length).length) := by
      rw [List.take_append, List.take_of_length_le (by rw [length_arrayHeader]; omega)]
    rw [shape, replayLoop_arrayHeader upper, length_arrayHeader]
    have torn := readArgs_torn argsFit
      (kept - ((Decimal.print record.args.length).length + 3)) (by omega)
    by_cases complete : (Decimal.print record.args.length).length + 3 +
        (record.args.flatMap bulk).length ≤ kept + 2
    · rw [if_pos (by omega)] at torn
      rcases torn with ⟨stream, read, atEnd⟩
      have dispatched := Record.dispatchRecord_args fits
      rw [if_pos complete, read]
      cases args : record.args with
      | nil => simp [args] at lower
      | cons cmd rest =>
          rw [args] at dispatched
          simp [dispatched, replayLoop, IfStream.peekEof_of_rest_nil atEnd]
    · rw [if_neg (by omega)] at torn
      rw [if_neg complete, torn]

/-! ## Files -/

/-- The records of a file that lie within its first `size` bytes, not counting
the closing line end of the last one. -/
def completeWithin : ℕ → List Record → List Record
  | _, [] => []
  | size, record :: records =>
      if record.bytes.length ≤ size + 2 then
        record :: completeWithin (size - record.bytes.length) records
      else []

theorem fileBytes_append (left right : List Record) :
    fileBytes (left ++ right) = fileBytes left ++ fileBytes right :=
  List.flatMap_append

theorem completeWithin_zero (records : List Record) : completeWithin 0 records = [] := by
  cases records with
  | nil => rfl
  | cons record records =>
      have size := length_bytes_pos record
      rw [completeWithin, if_neg (by omega)]

theorem replayLoop_take {records : List Record} (fits : ∀ record ∈ records, record.Fits)
    (size : ℕ) {fuel : ℕ} (enough : ((fileBytes records).take size).length < fuel) (count : ℤ) :
    replayLoop fuel { rest := (fileBytes records).take size } count =
      ⟨completeWithin size records,
        .returned (count + (completeWithin size records).length)⟩ := by
  induction records generalizing size fuel count with
  | nil =>
      rcases Nat.exists_eq_succ_of_ne_zero (by omega : fuel ≠ 0) with ⟨fuel, rfl⟩
      simp [fileBytes, completeWithin, replayLoop, IfStream.peekEof]
  | cons record records ih =>
      have recordFits := fits record (by simp)
      have bytesPos := length_bytes_pos record
      simp only [fileBytes, List.flatMap_cons] at enough ⊢
      by_cases whole : record.bytes.length ≤ size
      · have shape : (record.bytes ++ records.flatMap Record.bytes).take size =
            record.bytes ++ (fileBytes records).take (size - record.bytes.length) := by
          rw [List.take_append, List.take_of_length_le whole]
          rfl
        rw [shape, List.length_append] at enough
        rcases Nat.exists_eq_succ_of_ne_zero (by omega : fuel ≠ 0) with ⟨fuel, rfl⟩
        rw [shape, replayLoop_record recordFits, ih (fun next mem => fits next (by simp [mem])) _
          (by omega), completeWithin, if_pos (by omega)]
        simp only [List.length_cons, Nat.cast_add, Nat.cast_one, ReplayOutcome.mk.injEq,
          ReplayStatus.returned.injEq, true_and]
        omega
      · rw [List.take_append_of_le_length (by omega)] at enough ⊢
        rw [completeWithin, show size - record.bytes.length = 0 by omega, completeWithin_zero]
        by_cases start : size = 0
        · subst size
          rcases Nat.exists_eq_succ_of_ne_zero (by omega : fuel ≠ 0) with ⟨fuel, rfl⟩
          rw [if_neg (by omega), List.take_zero, replayLoop, IfStream.peekEof_of_rest_nil rfl]
          simp
        · have length_eq : (record.bytes.take size).length = size := by
            rw [List.length_take]
            omega
          rcases Nat.exists_eq_add_of_le (by omega : 2 ≤ fuel) with ⟨fuel, rfl⟩
          rw [Nat.add_comm 2 fuel, replayLoop_torn_record recordFits fuel (by omega)]
          by_cases complete : record.bytes.length ≤ size + 2
          · simp [complete]
          · simp [complete]

theorem completeWithin_eq_take (size : ℕ) (records : List Record) :
    ∃ kept ≤ records.length, completeWithin size records = records.take kept ∧
      ∀ index < records.length,
        index < kept ↔ (fileBytes (records.take (index + 1))).length ≤ size + 2 := by
  induction records generalizing size with
  | nil => exact ⟨0, by simp, rfl, by simp⟩
  | cons record records ih =>
      rw [completeWithin]
      by_cases complete : record.bytes.length ≤ size + 2
      · rcases ih (size - record.bytes.length) with ⟨kept, keptLe, eq_take, within⟩
        refine ⟨kept + 1, by simpa using keptLe, by simp [complete, eq_take], ?_⟩
        intro index bound
        cases index with
        | zero => simpa [fileBytes] using complete
        | succ index =>
            have inner := within index (by simpa using bound)
            have tailPos : 10 ≤ (fileBytes (records.take (index + 1))).length := by
              cases records with
              | nil => simp at bound
              | cons next rest =>
                  have nextPos := length_bytes_pos next
                  simp only [fileBytes, List.take_succ_cons, List.flatMap_cons,
                    List.length_append]
                  omega
            simp only [fileBytes, List.take_succ_cons, List.flatMap_cons,
              List.length_append] at inner tailPos ⊢
            omega
      · refine ⟨0, by simp, by simp [complete], ?_⟩
        intro index _
        simp only [fileBytes, List.take_succ_cons, List.flatMap_cons, List.length_append]
        omega

theorem replay_fileBytes {records : List Record} (fits : ∀ record ∈ records, record.Fits) :
    replay (fileBytes records) = ⟨records, .returned records.length⟩ := by
  have whole : completeWithin (fileBytes records).length records = records := by
    rcases completeWithin_eq_take (fileBytes records).length records with
      ⟨kept, keptLe, eq_take, within⟩
    have all : records.length ≤ kept := by
      by_contra short
      have missing := (within kept (by omega)).not.mp (by omega)
      apply missing
      have prefixLe : (fileBytes (records.take (kept + 1))).length ≤
          (fileBytes records).length := by
        have split := fileBytes_append (records.take (kept + 1)) (records.drop (kept + 1))
        rw [List.take_append_drop] at split
        rw [split, List.length_append]
        exact Nat.le_add_right _ _
      omega
    rw [eq_take, List.take_of_length_le all]
  have enough : ((fileBytes records).take (fileBytes records).length).length <
      (fileBytes records).length + 1 := by
    rw [List.take_length]
    omega
  have replayed := replayLoop_take fits (fileBytes records).length enough 0
  rw [List.take_length, whole] at replayed
  simpa [replay] using replayed

/-- The log codec round-trips and degrades to a prefix: on the first `size` bytes
of a log, `replay` invokes the callbacks of exactly those records of which at most
the closing line end is missing, and returns their number. -/
theorem replay_take_fileBytes {records : List Record} (fits : ∀ record ∈ records, record.Fits) :
    (∀ size, ∃ kept ≤ records.length,
      (∀ index < records.length,
        index < kept ↔ (fileBytes (records.take (index + 1))).length - 2 ≤ size) ∧
      replay ((fileBytes records).take size) = ⟨records.take kept, .returned kept⟩) ∧
    replay (fileBytes records) = ⟨records, .returned records.length⟩ := by
  refine ⟨?_, replay_fileBytes fits⟩
  intro size
  rcases completeWithin_eq_take size records with ⟨kept, keptLe, eq_take, within⟩
  refine ⟨kept, keptLe, ?_, ?_⟩
  · intro index bound
    rw [within index bound]
    omega
  · rw [replay, replayLoop_take fits size (by omega), eq_take, List.length_take,
      Nat.min_eq_left keptLe]
    simp

theorem replay_take_fileBytes_binary :
    let records := [Record.set [CR, LF, 36] [], Record.expire [0, 42] 1700000000000]
    (∀ record ∈ records, record.Fits) ∧
      replay (fileBytes records) = ⟨records, .returned 2⟩ := by
  intro records
  have fits : ∀ record ∈ records, record.Fits := by
    simp only [records, List.mem_cons, List.not_mem_nil, or_false]
    rintro record (rfl | rfl)
    · exact ⟨by decide, by decide⟩
    · exact ⟨by decide, by decide, by decide⟩
  exact ⟨fits, (replay_take_fileBytes fits).2⟩

end RedisCpp.Store
