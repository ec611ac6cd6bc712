import RedisCpp.Protocol.RespParser

/-!
# Replies as a client reads them

The grammar of RESP values from the client's side.  A simple string or an error is a
line without a CR or LF before its end, a bulk string has as many bytes as it
announces, and an array is followed by its items.  The decoder returns the value and
the bytes after it; a reply is *one value* when nothing is left over.
-/

namespace RedisCpp.Protocol

/-- A decoded reply. -/
inductive Reply where
  | simple (text : Bytes)
  | error (text : Bytes)
  | integer (number : ℤ)
  | bulk (text : Bytes)
  | nil
  | array (items : List Reply)
deriving Repr

/-- A byte that may stand inside a line. -/
def inLine (byte : UInt8) : Bool :=
  byte != CR && byte != LF

/-- A line and the bytes after its CRLF. -/
def readLine (data : Bytes) : Option (Bytes × Bytes) :=
  match data.dropWhile inLine with
  | 13 :: 10 :: rest => some (data.takeWhile inLine, rest)
  | _ => none

/-- A numeral that takes up all of its text. -/
def readNumeral (text : Bytes) : Option ℕ :=
  match Decimal.read text with
  | some (number, []) => some number
  | _ => none

/-- A numeral with an optional minus sign. -/
def readInteger : Bytes → Option ℤ
  | 45 :: digits => (readNumeral digits).map fun number => -(number : ℤ)
  | digits => (readNumeral digits).map fun number => (number : ℤ)

/-- The payload of a bulk string and the bytes after its CRLF. -/
def readPayload (length : ℕ) (data : Bytes) : Option (Bytes × Bytes) :=
  match data.drop length with
  | 13 :: 10 :: rest => some (data.take length, rest)
  | _ => none

/-- The items of an array, one after the other. -/
def decodeItems (decode : Bytes → Option (Reply × Bytes)) :
    ℕ → Bytes → Option (List Reply × Bytes)
  | 0, data => some ([], data)
  | count + 1, data =>
      match decode data with
      | none => none
      | some (item, rest) =>
          (decodeItems decode count rest).map fun items => (item :: items.1, items.2)

/-- The body of a reply, after its type byte and the line that follows. -/
def decodeBody (decode : Bytes → Option (Reply × Bytes)) (kind : UInt8) (line rest : Bytes) :
    Option (Reply × Bytes) :=
  match kind with
  | 43 => some (.simple line, rest)
  | 45 => some (.error line, rest)
  | 58 => (readInteger line).map fun number => (.integer number, rest)
  | 36 =>
      if line = ascii "-1" then some (.nil, rest)
      else
        match readNumeral line with
        | none => none
        | some length => (readPayload length rest).map fun found => (.bulk found.1, found.2)
  | 42 =>
      match readNumeral line with
      | none => none
      | some count => (decodeItems decode count rest).map fun found => (.array found.1, found.2)
  | _ => none

/-- Arrays nest; the fuel bounds the depth. -/
def decodeValue : ℕ → Bytes → Option (Reply × Bytes)
  | 0, _ => none
  | _, [] => none
  | fuel + 1, kind :: data =>
      match readLine data with
      | none => none
      | some (line, rest) => decodeBody (decodeValue fuel) kind line rest

/-- The value at the front of the data.  It cannot nest deeper than the data are
long. -/
def decodeReply (data : Bytes) : Option (Reply × Bytes) :=
  decodeValue data.length data

/-- The data are exactly one value. -/
def OneValue (data : Bytes) : Prop :=
  ∃ reply, decodeReply data = some (reply, [])

/-- All values of a stream of replies; every value takes at least one byte. -/
def decodeLoop : ℕ → Bytes → Option (List Reply)
  | _, [] => some []
  | 0, _ => none
  | fuel + 1, data =>
      match decodeReply data with
      | none => none
      | some (reply, rest) => (decodeLoop fuel rest).map (reply :: ·)

def decodeReplies (data : Bytes) : Option (List Reply) :=
  decodeLoop data.length data

/-! ## Decoding in front of more bytes -/

theorem readLine_append {line : Bytes} (clean : ∀ byte ∈ line, inLine byte = true) (rest : Bytes) :
    readLine (line ++ crlf ++ rest) = some (line, rest) := by
  have stop : (crlf ++ rest).takeWhile inLine = [] := rfl
  have remains : (crlf ++ rest).dropWhile inLine = crlf ++ rest := rfl
  rw [readLine, List.append_assoc, List.dropWhile_append_of_pos clean,
    List.takeWhile_append_of_pos clean, stop, remains, List.append_nil]
  rfl

theorem inLine_of_isDigit {byte : UInt8} (digit : Decimal.isDigit byte = true) :
    inLine byte = true := by
  have notCr : byte ≠ CR := ne_of_isDigit digit (by decide)
  have notLf : byte ≠ LF := ne_of_isDigit digit (by decide)
  simp [inLine, notCr, notLf]

theorem readNumeral_print (number : ℕ) : readNumeral (Decimal.print number) = some number := by
  simp [readNumeral]

theorem inLine_print (number : ℕ) : ∀ byte ∈ Decimal.print number, inLine byte = true :=
  fun _ mem => inLine_of_isDigit (Decimal.isDigit_of_mem_print mem)

theorem readInteger_stdToString (number : ℤ) : readInteger (stdToString number) = some number := by
  cases number with
  | ofNat magnitude =>
      rcases exists_digit_cons_print magnitude with ⟨digit, tail, shape, isDigit⟩
      have notMinus : digit ≠ 45 := ne_of_isDigit isDigit (by decide)
      have parsed := readNumeral_print magnitude
      rw [stdToString, shape] at *
      simp [readInteger, notMinus, parsed]
  | negSucc magnitude =>
      simp only [stdToString, readInteger, readNumeral_print]
      rfl

theorem inLine_stdToString (number : ℤ) : ∀ byte ∈ stdToString number, inLine byte = true := by
  cases number with
  | ofNat magnitude => exact inLine_print magnitude
  | negSucc magnitude =>
      intro byte mem
      rcases List.mem_cons.mp mem with rfl | digit
      · rfl
      · exact inLine_print _ byte digit

theorem eq_of_readLine {data line rest : Bytes} (found : readLine data = some (line, rest)) :
    data = line ++ crlf ++ rest ∧ ∀ byte ∈ line, inLine byte = true := by
  have split := List.takeWhile_append_dropWhile (p := inLine) (l := data)
  rw [readLine] at found
  split at found
  · rename_i ended
    cases found
    rw [ended] at split
    refine ⟨?_, fun byte mem => List.mem_takeWhile_imp mem⟩
    rw [List.append_assoc]
    exact split.symm
  · cases found

/-- A line that ends here ends here whatever follows. -/
theorem readLine_mono {data line rest : Bytes} (found : readLine data = some (line, rest))
    (more : Bytes) : readLine (data ++ more) = some (line, rest ++ more) := by
  rcases eq_of_readLine found with ⟨rfl, clean⟩
  rw [List.append_assoc]
  exact readLine_append clean (rest ++ more)

theorem readPayload_mono {data text rest : Bytes} {length : ℕ}
    (found : readPayload length data = some (text, rest)) (more : Bytes) :
    readPayload length (data ++ more) = some (text, rest ++ more) := by
  rw [readPayload] at found
  split at found
  · rename_i ended
    cases found
    have enough : length ≤ data.length := by
      by_contra short
      rw [List.drop_of_length_le (by omega)] at ended
      cases ended
    rw [readPayload, List.drop_append_of_le_length enough, ended,
      List.take_append_of_le_length enough]
    rfl
  · cases found

/-- What `decode` finds in the data it finds in front of more bytes. -/
def Extends (decode other : Bytes → Option (Reply × Bytes)) : Prop :=
  ∀ data reply rest, decode data = some (reply, rest) → ∀ more,
    other (data ++ more) = some (reply, rest ++ more)

theorem decodeItems_mono {decode other : Bytes → Option (Reply × Bytes)}
    (stable : Extends decode other) {count : ℕ} {data rest : Bytes} {items : List Reply}
    (found : decodeItems decode count data = some (items, rest)) (more : Bytes) :
    decodeItems other count (data ++ more) = some (items, rest ++ more) := by
  induction count generalizing data items with
  | zero =>
      cases found
      rfl
  | succ count inductionHypothesis =>
      rw [decodeItems] at found ⊢
      cases first : decode data with
      | none => simp [first] at found
      | some pair =>
          rcases pair with ⟨item, left⟩
          simp only [first, Option.map_eq_some_iff] at found
          rcases found with ⟨⟨others, final⟩, decoded, equal⟩
          cases equal
          simp only [stable data item left first more, inductionHypothesis decoded,
            Option.map_some]

theorem decodeBody_mono {decode other : Bytes → Option (Reply × Bytes)}
    (stable : Extends decode other) {kind : UInt8} {line data rest : Bytes} {reply : Reply}
    (found : decodeBody decode kind line data = some (reply, rest)) (more : Bytes) :
    decodeBody other kind line (data ++ more) = some (reply, rest ++ more) := by
  unfold decodeBody at found ⊢
  split at found
  · cases found
    rfl
  · cases found
    rfl
  · rcases Option.map_eq_some_iff.mp found with ⟨number, parsed, equal⟩
    cases equal
    simp [parsed]
  · split at found
    · rename_i isNil
      cases found
      simp [isNil]
    · rename_i notNil
      simp only [notNil, if_false]
      split at found
      · cases found
      · rename_i length parsed
        rcases Option.map_eq_some_iff.mp found with ⟨⟨text, final⟩, payload, equal⟩
        cases equal
        simp [readPayload_mono payload]
  · split at found
    · cases found
    · rename_i count parsed
      rcases Option.map_eq_some_iff.mp found with ⟨⟨items, final⟩, decoded, equal⟩
      cases equal
      simp [decodeItems_mono stable decoded]
  · cases found

/-- More fuel and more bytes change nothing. -/
theorem decodeValue_mono {fuel larger : ℕ} (le : fuel ≤ larger) :
    Extends (decodeValue fuel) (decodeValue larger) := by
  induction fuel generalizing larger with
  | zero =>
      intro data reply rest found
      cases found
  | succ fuel inductionHypothesis =>
      intro data reply rest found more
      cases larger with
      | zero => omega
      | succ larger =>
          cases data with
          | nil => cases found
          | cons kind data =>
              rw [decodeValue] at found
              rw [List.cons_append, decodeValue]
              cases line : readLine data with
              | none => simp [line] at found
              | some pair =>
                  rcases pair with ⟨text, left⟩
                  simp only [line] at found
                  simp only [readLine_mono line]
                  exact decodeBody_mono (inductionHypothesis (by omega)) found more

/-- A reply that is one value is the first of any stream it starts. -/
theorem decodeReply_append {data : Bytes} {reply : Reply}
    (one : decodeReply data = some (reply, [])) (more : Bytes) :
    decodeReply (data ++ more) = some (reply, more) := by
  have larger : data.length ≤ (data ++ more).length := by simp
  exact decodeValue_mono larger data reply [] one more

theorem ne_nil_of_oneValue {data : Bytes} (one : OneValue data) : data ≠ [] := by
  rintro rfl
  rcases one with ⟨reply, decoded⟩
  cases decoded

/-- Replies that are one value each decode to themselves, in order. -/
theorem decodeLoop_flatten {replies : List Bytes} (each : ∀ reply ∈ replies, OneValue reply)
    {fuel : ℕ} (enough : replies.flatten.length ≤ fuel) :
    ∃ values, decodeLoop fuel replies.flatten = some values ∧
      List.Forall₂ (fun reply value => decodeReply reply = some (value, [])) replies values := by
  induction replies generalizing fuel with
  | nil => exact ⟨[], by cases fuel <;> rfl, .nil⟩
  | cons reply replies inductionHypothesis =>
      have one := each reply (by simp)
      have nonempty := ne_nil_of_oneValue one
      rcases one with ⟨value, decoded⟩
      have positive := List.length_pos_iff.mpr nonempty
      simp only [List.flatten_cons, List.length_append] at enough ⊢
      cases fuel with
      | zero => omega
      | succ fuel =>
          rcases inductionHypothesis (fun other mem => each other (by simp [mem]))
            (show replies.flatten.length ≤ fuel by omega) with ⟨values, rest, matched⟩
          refine ⟨value :: values, ?_, .cons decoded matched⟩
          have first := decodeReply_append decoded replies.flatten
          cases shape : reply ++ replies.flatten with
          | nil =>
              simp only [List.append_eq_nil_iff] at shape
              exact absurd shape.1 nonempty
          | cons byte bytes =>
              rw [shape] at first
              simp only [decodeLoop, first, rest, Option.map_some]

theorem oneValue_simpleString {text : Bytes} (clean : ∀ byte ∈ text, inLine byte = true) :
    OneValue (simpleString text) := by
  refine ⟨.simple text, ?_⟩
  have line := readLine_append clean []
  rw [List.append_nil] at line
  simp [decodeReply, simpleString, decodeValue, line, decodeBody]

/-- An error is one value exactly if its text fits on a line. -/
theorem oneValue_error_iff {msg : Bytes} :
    OneValue (error msg) ↔ ∀ byte ∈ msg, inLine byte = true := by
  have shape : error msg = 45 :: (ascii "ERR " ++ msg ++ crlf) := rfl
  rw [shape]
  constructor
  · rintro ⟨reply, decoded⟩
    simp only [decodeReply, List.length_cons, decodeValue] at decoded
    cases line : readLine (ascii "ERR " ++ msg ++ crlf) with
    | none =>
        rw [line] at decoded
        cases decoded
    | some pair =>
        rcases pair with ⟨text, rest⟩
        simp only [line, decodeBody, Option.some.injEq, Prod.mk.injEq] at decoded
        rcases eq_of_readLine line with ⟨whole, clean⟩
        rw [decoded.2, List.append_nil] at whole
        intro byte mem
        apply clean
        rw [← List.append_cancel_right whole]
        exact List.mem_append_right _ mem
  · intro clean
    have cleanLine : ∀ byte ∈ ascii "ERR " ++ msg, inLine byte = true := by
      intro byte mem
      rcases List.mem_append.mp mem with tag | text
      · exact List.all_eq_true.mp (show (ascii "ERR ").all inLine = true from rfl) byte tag
      · exact clean byte text
    have line := readLine_append cleanLine []
    rw [List.append_nil] at line
    refine ⟨.error (ascii "ERR " ++ msg), ?_⟩
    simp only [decodeReply, List.length_cons, decodeValue, line, decodeBody]

theorem oneValue_integer (number : ℤ) : OneValue (integer number) := by
  refine ⟨.integer number, ?_⟩
  have line := readLine_append (inLine_stdToString number) []
  rw [List.append_nil] at line
  simp [decodeReply, integer, decodeValue, line, decodeBody, readInteger_stdToString]

theorem oneValue_bulkString (text : Bytes) : OneValue (bulkString text) := by
  refine ⟨.bulk text, ?_⟩
  have line := readLine_append (inLine_print text.length) (text ++ crlf)
  have notNil : Decimal.print text.length ≠ ascii "-1" := by
    intro equal
    rcases exists_digit_cons_print text.length with ⟨digit, tail, shape, isDigit⟩
    rw [shape] at equal
    exact ne_of_isDigit isDigit (by decide) (List.cons.inj equal).1
  have payload : readPayload text.length (text ++ crlf) = some (text, []) := by
    rw [readPayload, List.drop_left, List.take_left]
    rfl
  simp only [bulkString, decodeReply, List.cons_append, List.length_cons, decodeValue]
  rw [List.append_assoc, line]
  simp [decodeBody, notNil, readNumeral_print, payload]

theorem oneValue_nilBulk : OneValue nilBulk :=
  ⟨.nil, by rfl⟩

end RedisCpp.Protocol
