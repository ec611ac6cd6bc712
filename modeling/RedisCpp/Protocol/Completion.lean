import RedisCpp.Protocol.Multibulk

/-!
# Waiting for more bytes

The parser asks for more bytes when it has seen the beginning of a frame.  It also does so
when it cannot read a header that is already there, or that can only become a number it
will not take.  Such a buffer stays as it is whatever arrives.  A header that declares more
payloads than an argument vector can hold is not even refused: reserving the room for them
raises an exception.
-/

namespace RedisCpp.Protocol

open StreamDecoder

/-- A line that does not begin with a number and a CRLF. -/
def Unread (header : Bytes) : Prop :=
  ∀ field value tail, Numeral field value → header ≠ field ++ (crlf ++ tail)

/-- The beginning of a header whose number lies within a bound. -/
def Begins (bound : ℤ) (header : Bytes) : Prop :=
  ∃ field value, Numeral field value ∧ 0 ≤ value ∧ value ≤ bound ∧ header <+: field ++ crlf

/-- Data in which a header is to be read next, with all that has arrived from it on and the
largest number it may declare. -/
inductive OpenHeader : Bytes → Bytes → ℤ → Prop where
  | count (header : Bytes) : OpenHeader (42 :: header) header maxVectorSize
  | length {field items : Bytes} {payloads : List Bytes} {nargs : ℕ} (header : Bytes)
      (count : Numeral field nargs) (capacity : nargs ≤ maxVectorSize)
      (parts : Items Skipped payloads items) (fewer : payloads.length < nargs) :
      OpenHeader (42 :: (field ++ (crlf ++ (items ++ 36 :: header)))) header int64Max

/-- The next header has not been read and no continuation of it will do. -/
def DeadHeader (data : Bytes) : Prop :=
  ∃ header bound, OpenHeader data header bound ∧ Unread header ∧ ¬Begins bound header

/-- A request that declares more payloads than an argument vector can hold. -/
def Oversized (data : Bytes) : Prop :=
  ∃ field value tail, data = 42 :: (field ++ (crlf ++ tail)) ∧ Numeral field value ∧
    maxVectorSize < value

theorem parseInteger_eq_none_iff {header : Bytes} :
    parseInteger header 0 = none ↔ Unread header := by
  rw [← not_iff_not, ← ne_eq, Option.ne_none_iff_exists']
  simp only [Unread, not_forall, ne_eq, not_not]
  constructor
  · rintro ⟨⟨value, next⟩, read⟩
    rcases parseInteger_eq_some_iff.mp read with ⟨field, tail, shape, numeral, -⟩
    exact ⟨field, value, tail, numeral, shape⟩
  · rintro ⟨field, value, tail, numeral, shape⟩
    exact ⟨_, parseInteger_eq_some_iff.mpr ⟨field, tail, shape, numeral, rfl⟩⟩

/-! ## Reading the number of payloads -/

section Count

variable {header field tail : Bytes} {nargs : ℤ}

theorem parse_star (header : Bytes) : parse (42 :: header) = parseMultibulk (42 :: header) :=
  parse_of_star rfl

theorem parse_count_unread (unread : Unread header) : parse (42 :: header) = .incomplete := by
  rw [parse_star, parseMultibulk_unread (parseInteger_eq_none_iff.mpr unread)]

theorem parse_count_negative (count : Numeral field nargs) (negative : nargs < 0) :
    parse (42 :: (field ++ (crlf ++ tail))) = .failed .error := by
  rw [parse_star, parseMultibulk_negative count negative]

theorem parse_count_oversized (count : Numeral field nargs) (large : maxVectorSize < nargs) :
    parse (42 :: (field ++ (crlf ++ tail))) = .failed .raised := by
  rw [parse_star, parseMultibulk_oversized count large]

theorem parse_count {nargs : ℕ} (count : Numeral field nargs)
    (capacity : nargs ≤ maxVectorSize) :
    parse (42 :: (field ++ (crlf ++ tail))) =
      parseBulks (42 :: (field ++ (crlf ++ tail))) nargs (field.length + 3) [] := by
  rw [parse_star, parseMultibulk_of_header count capacity]

/-- The argument loop raises no exception. -/
theorem parseBulks_ne_raised {data : Bytes} {remaining pos : ℕ} {args : List Bytes} :
    parseBulks data remaining pos args ≠ .failed .raised := by
  induction remaining generalizing pos args with
  | zero => simp [parseBulks]
  | succ remaining inductionHypothesis =>
      rcases parseBulks_cases data remaining pos args with
        ⟨_, _, _, _, -, -, -, step⟩ | ⟨-, stuck⟩ | failed
      · rw [step]
        exact inductionHypothesis
      · simp [stuck]
      · simp [failed]

/-- The parser raises an exception exactly on an oversized request. -/
theorem parse_eq_raised_iff {data : Bytes} : parse data = .failed .raised ↔ Oversized data := by
  constructor
  · intro raised
    have nonempty : data ≠ [] := ne_nil_of_settled (by simp [raised])
    by_cases star : data.head? = some 42
    · cases data with
      | nil => cases star
      | cons byte header =>
          simp only [List.head?_cons, Option.some.injEq] at star
          subst star
          by_cases unread : Unread header
          · rw [parse_count_unread unread] at raised
            cases raised
          · simp only [Unread, not_forall, ne_eq, not_not] at unread
            rcases unread with ⟨field, nargs, tail, count, rfl⟩
            refine ⟨field, nargs, tail, rfl, count, ?_⟩
            by_contra capacity
            by_cases negative : nargs < 0
            · rw [parse_count_negative count negative] at raised
              cases raised
            · lift nargs to ℕ using (by omega)
              rw [parse_count count (by omega)] at raised
              exact parseBulks_ne_raised raised
    · rw [parse_of_not_star nonempty star, parseInline] at raised
      split at raised
      · cases raised
      · split at raised
        · cases raised
        · cases raised
  · rintro ⟨field, nargs, tail, rfl, count, large⟩
    exact parse_count_oversized count large

end Count

/-! ## Dead headers -/

namespace OpenHeader

variable {data header : Bytes} {bound : ℤ}

theorem append (opened : OpenHeader data header bound) (more : Bytes) :
    OpenHeader (data ++ more) (header ++ more) bound := by
  cases opened with
  | count header => exact .count (header ++ more)
  | length header count capacity parts fewer =>
      have longer := OpenHeader.length (header ++ more) count capacity parts fewer
      simpa using longer

/-- As long as the header cannot be read the parser waits. -/
theorem parse_unread (opened : OpenHeader data header bound) (unread : Unread header) :
    parse data = .incomplete := by
  cases opened with
  | count header => exact parse_count_unread unread
  | @length field items payloads nargs header count capacity parts fewer =>
      have here := drop_header field (items ++ 36 :: header)
      have behind := drop_past items here
      rcases Nat.exists_eq_add_of_lt fewer with ⟨left, rfl⟩
      rw [parse_count count capacity, Nat.add_assoc, parseBulks_items parts here]
      exact parseBulks_unread behind (parseInteger_eq_none_iff.mpr unread)

/-- A number out of bounds gives no frame. -/
theorem parse_ne_complete {field tail : Bytes} {value : ℤ}
    (opened : OpenHeader data (field ++ (crlf ++ tail)) bound) (numeral : Numeral field value)
    (outside : value < 0 ∨ bound < value) (command : Option (List Bytes)) (length : ℕ) :
    parse data ≠ .complete command length := by
  generalize shape : field ++ (crlf ++ tail) = header at opened
  cases opened with
  | count header =>
      subst shape
      rcases outside with negative | large
      · simp [parse_count_negative numeral negative]
      · simp [parse_count_oversized numeral large]
  | @length first items payloads nargs header count capacity parts fewer =>
      subst shape
      have negative : value < 0 := by
        have fits := numeral.le_int64Max
        omega
      have here := drop_header first (items ++ 36 :: (field ++ (crlf ++ tail)))
      have behind := drop_past items here
      rcases Nat.exists_eq_add_of_lt fewer with ⟨left, rfl⟩
      rw [parse_count count capacity, Nat.add_assoc, parseBulks_items parts here,
        parseBulks_negative behind numeral negative]
      simp

end OpenHeader

/-- A header that can be read only with more bytes is the beginning of what is read. -/
theorem isPrefix_of_unread {header more field tail : Bytes} {value : ℤ} (unread : Unread header)
    (numeral : Numeral field value) (shape : header ++ more = field ++ (crlf ++ tail)) :
    header <+: field ++ crlf := by
  have front : header <+: field ++ (crlf ++ tail) := ⟨more, shape⟩
  have whole : field ++ crlf <+: field ++ (crlf ++ tail) := ⟨tail, by simp⟩
  rcases List.prefix_or_prefix_of_prefix front whole with short | ⟨rest, long⟩
  · exact short
  · exact absurd (by rw [← long, List.append_assoc]) (unread field value rest numeral)

/-- Nothing that follows a dead header makes a frame. -/
theorem DeadHeader.ne_complete {data : Bytes} (dead : DeadHeader data) (more : Bytes)
    (command : Option (List Bytes)) (length : ℕ) :
    parse (data ++ more) ≠ .complete command length := by
  rcases dead with ⟨header, bound, opened, unread, hopeless⟩
  by_cases still : Unread (header ++ more)
  · rw [(opened.append more).parse_unread still]
    simp
  · simp only [Unread, not_forall, ne_eq, not_not] at still
    rcases still with ⟨field, value, tail, numeral, shape⟩
    have later := opened.append more
    rw [shape] at later
    apply later.parse_ne_complete numeral
    by_contra within
    simp only [not_or, not_lt] at within
    exact hopeless ⟨field, value, numeral, within.1, within.2,
      isPrefix_of_unread unread numeral shape⟩

theorem DeadHeader.incomplete {data : Bytes} (dead : DeadHeader data) :
    parse data = .incomplete := by
  rcases dead with ⟨header, bound, opened, unread, -⟩
  exact opened.parse_unread unread

/-! ## Completing a frame -/

theorem Items.append {Closing : Bytes → Prop} {payloads others : List Bytes}
    {items behind : Bytes} (parts : Items Closing payloads items)
    (later : Items Closing others behind) :
    Items Closing (payloads ++ others) (items ++ behind) := by
  induction parts with
  | nil => exact later
  | cons header closes _ inductionHypothesis =>
      have whole := Items.cons header closes inductionHypothesis
      simpa using whole

/-- Any number of payloads can be sent. -/
theorem exists_items (count : ℕ) :
    ∃ payloads items, payloads.length = count ∧ Items Skipped payloads items := by
  have parts : Items Terminated (List.replicate count []) _ := items_flatMap_bulkString (by
    intro arg mem
    rw [List.eq_of_mem_replicate mem]
    exact Nat.two_pow_pos 63)
  exact ⟨_, _, List.length_replicate, parts.mono fun _ => Terminated.skipped⟩

/-- A payload with its closing bytes, followed by further payloads. -/
theorem exists_items_of_header {field : Bytes} {length : ℕ} (header : Numeral field length)
    (whole : Bytes) (size : whole.length = length + 2) (count : ℕ) :
    ∃ payloads items more, payloads.length = count + 1 ∧ Items Skipped payloads items ∧
      items = 36 :: (field ++ (crlf ++ (whole ++ more))) := by
  rcases exists_items count with ⟨others, behind, counted, later⟩
  have payload : (whole.take length).length = length := by
    rw [List.length_take]
    omega
  have closes : Skipped (whole.drop length) := by
    rw [Skipped, List.length_drop]
    omega
  rw [← payload] at header
  have parts := Items.cons header closes later
  rw [← List.append_assoc (whole.take length), List.take_append_drop] at parts
  exact ⟨_, _, behind, by simp [counted], parts, rfl⟩

/-- Where the parser waits, the payloads that are missing can be sent, unless it waits in a
header that cannot be completed. -/
theorem Waiting.exists_items {tail : Bytes} (waiting : Waiting tail)
    (alive : ∀ header, tail = 36 :: header → Unread header → Begins int64Max header)
    (count : ℕ) :
    ∃ payloads items more, payloads.length = count + 1 ∧ Items Skipped payloads items ∧
      items = tail ++ more := by
  cases waiting with
  | item =>
      rcases RedisCpp.Protocol.exists_items (count + 1) with ⟨payloads, items, counted, parts⟩
      exact ⟨payloads, items, items, counted, parts, rfl⟩
  | @header header unread =>
      rcases alive header rfl (parseInteger_eq_none_iff.mp unread) with
        ⟨field, value, numeral, nonneg, -, rest, completed⟩
      lift value to ℕ using nonneg
      rcases exists_items_of_header numeral (List.replicate (value + 2) 0) (by simp)
        count with ⟨payloads, items, more, counted, parts, shape⟩
      refine ⟨payloads, items, rest ++ (List.replicate (value + 2) 0 ++ more), counted, parts, ?_⟩
      rw [shape, ← List.append_assoc field, ← completed]
      simp
  | @payload field part length header short =>
      have size : (part ++ List.replicate (length + 2 - part.length) 0).length = length + 2 := by
        rw [List.length_append, List.length_replicate]
        omega
      rcases exists_items_of_header header _ size count with
        ⟨payloads, items, more, counted, parts, shape⟩
      refine ⟨payloads, items, List.replicate (length + 2 - part.length) 0 ++ more, counted,
        parts, ?_⟩
      rw [shape]
      simp

/-- Where the argument loop stops for more bytes. -/
theorem waiting_of_parseBulks {data : Bytes} {remaining pos : ℕ} {args : List Bytes}
    (incomplete : parseBulks data remaining pos args = .incomplete) :
    ∃ payloads items tail, Items Skipped payloads items ∧ payloads.length < remaining ∧
      data.drop pos = items ++ tail ∧ Waiting tail := by
  induction remaining generalizing pos args with
  | zero => cases incomplete
  | succ remaining inductionHypothesis =>
      rcases parseBulks_cases data remaining pos args with
        ⟨field, payload, closing, rest, header, closes, here, step⟩ | ⟨waiting, -⟩ | failed
      · rw [step] at incomplete
        rcases inductionHypothesis incomplete with
          ⟨payloads, items, tail, parts, fewer, restAt, waiting⟩
        have rest_eq : rest = items ++ tail := by
          rw [← restAt]
          exact (drop_item closes here).symm
        refine ⟨_, _, tail, .cons header closes parts, ?_, ?_, waiting⟩
        · simp only [List.length_cons]
          omega
        · rw [here, rest_eq]
          simp
      · exact ⟨[], [], _, .nil, by simp, rfl, waiting⟩
      · rw [failed] at incomplete
        cases incomplete

theorem parse_frame {args : List Bytes} {frame : Bytes} (whole : Frame Skipped args frame)
    (capacity : args.length ≤ maxVectorSize) :
    parse frame = .complete (some args) frame.length := by
  have star : frame.head? = some 42 := by
    rcases whole with ⟨field, items, rfl, -⟩
    rfl
  have formed := looselyFormed_append whole []
  rw [List.append_nil] at formed
  rw [parse_of_star star]
  exact (parseMultibulk_eq_complete_iff star).mpr ⟨args, rfl, formed, capacity⟩

theorem exists_completion_of_star {header : Bytes} (incomplete : parse (42 :: header) = .incomplete)
    (alive : ¬DeadHeader (42 :: header)) :
    ∃ more command length, parse (42 :: header ++ more) = .complete command length := by
  by_cases unread : Unread header
  · have begins : Begins maxVectorSize header := by
      by_contra hopeless
      exact alive ⟨header, _, .count header, unread, hopeless⟩
    rcases begins with ⟨field, value, numeral, nonneg, capacity, rest, completed⟩
    lift value to ℕ using nonneg
    rcases exists_items value with ⟨payloads, items, rfl, parts⟩
    have whole : Frame Skipped payloads (42 :: (field ++ (crlf ++ items))) :=
      ⟨field, items, rfl, numeral, parts⟩
    have frame_eq : 42 :: header ++ (rest ++ items) = 42 :: (field ++ (crlf ++ items)) := by
      rw [List.cons_append, ← List.append_assoc, completed, List.append_assoc]
    rw [← frame_eq] at whole
    exact ⟨_, _, _, parse_frame whole (by omega)⟩
  · simp only [Unread, not_forall, ne_eq, not_not] at unread
    rcases unread with ⟨field, nargs, tail, count, rfl⟩
    have nonneg : ¬nargs < 0 := by
      intro negative
      rw [parse_count_negative count negative] at incomplete
      cases incomplete
    have capacity : ¬(maxVectorSize : ℤ) < nargs := by
      intro large
      rw [parse_count_oversized count large] at incomplete
      cases incomplete
    lift nargs to ℕ using (by omega)
    have holds : nargs ≤ maxVectorSize := by omega
    rw [parse_count count holds] at incomplete
    rcases waiting_of_parseBulks incomplete with
      ⟨payloads, items, behind, parts, fewer, here, waiting⟩
    rw [drop_header] at here
    subst here
    rcases Nat.exists_eq_add_of_lt fewer with ⟨left, rfl⟩
    have viable : ∀ awaited, behind = 36 :: awaited → Unread awaited → Begins int64Max awaited := by
      intro awaited shape unread
      by_contra hopeless
      subst shape
      exact alive ⟨awaited, _, .length awaited count holds parts fewer, unread, hopeless⟩
    rcases waiting.exists_items viable left with ⟨others, later, more, counted, rest, rfl⟩
    have whole : Frame Skipped (payloads ++ others)
        (42 :: (field ++ (crlf ++ (items ++ (behind ++ more))))) := by
      refine ⟨field, _, rfl, ?_, parts.append rest⟩
      rw [List.length_append, counted]
      exact count
    have frame_eq : 42 :: (field ++ (crlf ++ (items ++ behind))) ++ more =
        42 :: (field ++ (crlf ++ (items ++ (behind ++ more)))) := by
      simp
    rw [← frame_eq] at whole
    exact ⟨more, _, _, parse_frame whole (by rw [List.length_append, counted]; omega)⟩

/-- A line feed ends every line. -/
theorem parseInline_append_lf (data : Bytes) :
    ∃ command length, parseInline (data ++ [LF]) = .complete command length := by
  rw [parseInline]
  split
  · exact ⟨_, _, rfl⟩
  · split
    · rename_i absent
      rw [List.findIdx?_eq_none_iff] at absent
      exact absurd (absent LF (by simp)) (by decide)
    · exact ⟨_, _, rfl⟩

/-- Unless its header is dead, an incomplete frame can be completed. -/
theorem exists_completion {data : Bytes} (incomplete : parse data = .incomplete)
    (alive : ¬DeadHeader data) :
    ∃ more command length, parse (data ++ more) = .complete command length := by
  cases data with
  | nil => exact ⟨[LF], none, 1, rfl⟩
  | cons byte header =>
      by_cases star : byte = 42
      · subst star
        exact exists_completion_of_star incomplete alive
      · rcases parseInline_append_lf (byte :: header) with ⟨command, length, complete⟩
        refine ⟨[LF], command, length, ?_⟩
        rw [parse_of_not_star (by simp) (by simpa using star), complete]

/-- An incomplete frame can be completed, and what can never become a frame is refused,
exactly if the data have no dead header and do not declare an oversized request. -/
theorem incomplete_means_completable_iff (data : Bytes) :
    ((parse data = .incomplete →
          ∃ more command length, parse (data ++ more) = .complete command length) ∧
        ((∀ more command length, parse (data ++ more) ≠ .complete command length) →
          parse data = .failed .error)) ↔
      ¬DeadHeader data ∧ ¬Oversized data := by
  constructor
  · rintro ⟨completable, refused⟩
    constructor
    · intro dead
      rcases completable dead.incomplete with ⟨more, command, length, complete⟩
      exact dead.ne_complete more command length complete
    · intro oversized
      have raised := parse_eq_raised_iff.mpr oversized
      have star : data.head? = some 42 := by
        rcases oversized with ⟨field, value, tail, rfl, -⟩
        rfl
      have error := refused fun more command length => by
        rw [parse_append (by simp [raised]) (Or.inl star), raised]
        simp
      rw [raised] at error
      cases error
  · rintro ⟨alive, moderate⟩
    constructor
    · intro incomplete
      exact exists_completion incomplete alive
    · intro hopeless
      cases outcome : parse data with
      | complete command length =>
          have same := hopeless [] command length
          rw [List.append_nil] at same
          exact absurd outcome same
      | incomplete =>
          rcases exists_completion outcome alive with ⟨more, command, length, complete⟩
          exact absurd complete (hopeless more command length)
      | failed failure =>
          cases failure with
          | error => rfl
          | raised => exact absurd (parse_eq_raised_iff.mp outcome) moderate

/-- A terminated header that is not a number keeps the parser waiting for ever. -/
theorem not_incomplete_means_completable :
    ¬∀ data, parse data = .incomplete →
      ∃ more command length, parse (data ++ more) = .complete command length := by
  intro completable
  have dead : DeadHeader (ascii "*abc\r\n") := by
    refine ⟨ascii "abc\r\n", _, .count _, parseInteger_eq_none_iff.mp rfl, ?_⟩
    rintro ⟨field, value, numeral, -, -, begins⟩
    rcases List.mem_append.mp (begins.subset (show 97 ∈ ascii "abc\r\n" by decide)) with mem | mem
    · exact absurd (numeral.bytes 97 mem) (by decide)
    · exact absurd mem (by decide)
  rcases completable _ dead.incomplete with ⟨more, command, length, complete⟩
  exact dead.ne_complete more command length complete

end RedisCpp.Protocol
