import RedisCpp.Store.AofTorn

/-!
# Replay of an arbitrary file

The file that `replay` reads may contain anything.  Its reader goes from record to record
until it meets something that is none, and every numeral it meets is parsed inside a `try`
block.  What the numerals are used for is not: the number of arguments goes to `reserve` as a
`size_t`, and the length of an argument to `resize`.  No length that `stoll` returns is too
large for a string, but a negative `int` is too large for a vector.

The progress of the reader is described on the bytes alone (`Advance`), without the state
bits of the stream: behind a line that the end of the file cuts off there is nothing more to
read.  The replay returns normally if and only if no record that begins where the reader gets
to has a negative number of arguments.
-/

namespace RedisCpp.Store

/-! ## Lines of a file -/

/-- The bytes up to the first line feed, or to the end. -/
def firstLine (bytes : Bytes) : Bytes :=
  bytes.takeWhile (· != LF)

/-- The bytes behind the first line feed. -/
def afterLine (bytes : Bytes) : Bytes :=
  (bytes.dropWhile (· != LF)).tail

theorem length_afterLine_lt {bytes : Bytes} (nonempty : bytes ≠ []) :
    (afterLine bytes).length < bytes.length := by
  have suffix := (@List.dropWhile_suffix _ bytes (· != LF)).length_le
  have positive := List.length_pos_iff.mpr nonempty
  rw [afterLine, List.length_tail]
  omega

theorem length_afterLine_le (bytes : Bytes) : (afterLine bytes).length ≤ bytes.length := by
  have suffix := (@List.dropWhile_suffix _ bytes (· != LF)).length_le
  rw [afterLine, List.length_tail]
  omega

namespace IfStream

variable {stream : IfStream}

/-- The bits of the stream are those of the bytes that are left. -/
def Sound (stream : IfStream) : Prop :=
  stream.good = true ∨ stream.rest = []

theorem Sound.good_of_ne (sound : stream.Sound) (nonempty : stream.rest ≠ []) :
    stream.good = true :=
  sound.resolve_right nonempty

/-- A line can be read where there are bytes; the end of the file is noticed if it has no line
end. -/
theorem getline_of_ne (sound : stream.Sound) (nonempty : stream.rest ≠ []) :
    ∃ after, stream.getline = (some (firstLine stream.rest), after) ∧
      after.rest = afterLine stream.rest ∧ after.Sound ∧
      (after.good = true ↔ LF ∈ stream.rest) := by
  have good := sound.good_of_ne nonempty
  rw [getline, if_pos good]
  cases found : stream.rest.dropWhile (· != LF) with
  | nil =>
      have whole : firstLine stream.rest = stream.rest := by
        have parts := @List.takeWhile_append_dropWhile _ (· != LF) stream.rest
        rw [found, List.append_nil] at parts
        exact parts
      have missing : LF ∉ stream.rest := by
        intro mem
        have passed := List.dropWhile_eq_nil_iff.mp found LF mem
        simp at passed
      refine ⟨{ stream with rest := [], eofbit := true }, ?_, ?_, Or.inr rfl, ?_⟩
      · simp [whole, nonempty]
      · simp [afterLine, found]
      · simp [IfStream.good, missing]
  | cons byte rest =>
      have mem : byte ∈ stream.rest :=
        (List.dropWhile_suffix _).subset (found ▸ List.mem_cons_self)
      have stopped : byte = LF := by
        have head := List.head?_dropWhile_not (· != LF) stream.rest
        simpa [found] using head
      refine ⟨{ stream with rest := rest }, rfl, ?_, Or.inl good, ?_⟩
      · simp [afterLine, found]
      · rw [← stopped]
        exact ⟨fun _ => mem, fun _ => good⟩

/-- The rest of the line is skipped, whether there is one or not. -/
theorem getline_rest (sound : stream.Sound) :
    stream.getline.2.rest = afterLine stream.rest ∧ stream.getline.2.Sound := by
  by_cases atEnd : stream.rest = []
  · have none := (getline_of_rest_nil atEnd).2
    exact ⟨by rw [none, atEnd]; rfl, Or.inr none⟩
  · rcases getline_of_ne sound atEnd with ⟨after, read, rest, sound, -⟩
    rw [read]
    exact ⟨rest, sound⟩

theorem peekEof_of_ne (sound : stream.Sound) (nonempty : stream.rest ≠ []) :
    stream.peekEof = false := by
  simp [peekEof, sound.good_of_ne nonempty, nonempty]

theorem read_of_le {count : ℕ} (good : stream.good = true) (present : count ≤ stream.rest.length) :
    stream.read count =
      (some (stream.rest.take count), { stream with rest := stream.rest.drop count }) := by
  rw [read, if_pos good, if_pos present]

theorem read_of_not_le {count : ℕ}
    (missing : ¬(stream.good = true ∧ count ≤ stream.rest.length)) :
    ∃ after, stream.read count = (none, after) := by
  rw [read]
  split
  · rename_i good
    exact ⟨_, if_neg fun present => missing ⟨good, present⟩⟩
  · exact ⟨_, rfl⟩

end IfStream

/-! ## Arguments -/

/-- What `read_bulk` accepts: the argument and the bytes left behind it. -/
inductive Item (bytes : Bytes) : Bytes → Bytes → Prop where
  | null {digits : Bytes} {len : ℤ} (header : stripCr (firstLine bytes) = 36 :: digits)
      (parsed : stoll digits = some len) (negative : len < 0) : Item bytes [] (afterLine bytes)
  | payload {digits : Bytes} {len : ℕ} (header : stripCr (firstLine bytes) = 36 :: digits)
      (parsed : stoll digits = some (len : ℤ)) (terminated : LF ∈ bytes)
      (present : len ≤ (afterLine bytes).length) :
      Item bytes ((afterLine bytes).take len) (afterLine ((afterLine bytes).drop len))

/-- Several arguments in a row. -/
inductive Items : Bytes → List Bytes → Bytes → Prop where
  | nil (bytes : Bytes) : Items bytes [] bytes
  | cons {bytes next rest arg : Bytes} {args : List Bytes} (item : Item bytes arg next)
      (items : Items next args rest) : Items bytes (arg :: args) rest

theorem length_item_le {bytes arg rest : Bytes} (item : Item bytes arg rest) :
    rest.length ≤ bytes.length := by
  have first := length_afterLine_le bytes
  cases item with
  | null => exact first
  | @payload digits len =>
      have second := length_afterLine_le ((afterLine bytes).drop len)
      rw [List.length_drop] at second
      omega

theorem length_items_le {bytes rest : Bytes} {args : List Bytes} (items : Items bytes args rest) :
    rest.length ≤ bytes.length := by
  induction items with
  | nil => exact le_refl _
  | cons item _ inductionHypothesis => exact inductionHypothesis.trans (length_item_le item)

theorem ne_nil_of_header {bytes digits : Bytes} {byte : UInt8}
    (header : stripCr (firstLine bytes) = byte :: digits) : bytes ≠ [] := by
  rintro rfl
  cases header

section Reading

variable {stream after : IfStream} {arg rest : Bytes}

/-- `read_bulk` accepts every argument. -/
theorem readBulk_item (sound : stream.Sound) (item : Item stream.rest arg rest) :
    ∃ after, readBulk stream = .ok arg after ∧ after.rest = rest ∧ after.Sound := by
  cases item with
  | null header parsed negative =>
      rcases IfStream.getline_of_ne sound (ne_nil_of_header header) with
        ⟨next, read, nextRest, nextSound, -⟩
      refine ⟨next, ?_, nextRest, nextSound⟩
      simp only [readBulk, read, header, parsed, negative, if_true]
  | @payload digits len header parsed terminated present =>
      have fits := stoll_toNat_le parsed
      rw [Int.toNat_natCast] at fits
      rcases IfStream.getline_of_ne sound (ne_nil_of_header header) with
        ⟨next, read, nextRest, -, good⟩
      rw [← nextRest] at present ⊢
      have took := IfStream.read_of_le (good.mpr terminated) present
      have skipped := @IfStream.getline_rest { next with rest := next.rest.drop len }
        (Or.inl (good.mpr terminated))
      refine ⟨_, ?_, skipped⟩
      simp only [readBulk, read, header, parsed, Int.toNat_natCast, not_lt.mpr fits, if_false,
        not_lt.mpr (Int.natCast_nonneg len), took]

/-- What `read_bulk` accepts is an argument, and it raises no exception. -/
theorem readBulk_cases (sound : stream.Sound) :
    (∃ arg after, readBulk stream = .ok arg after ∧ Item stream.rest arg after.rest ∧
        after.Sound) ∨ readBulk stream = .failed := by
  by_cases atEnd : stream.rest = []
  · exact Or.inr (readBulk_of_rest_nil atEnd)
  rcases IfStream.getline_of_ne sound atEnd with ⟨next, read, nextRest, nextSound, good⟩
  by_cases dollar : ∃ digits, stripCr (firstLine stream.rest) = 36 :: digits
  · rcases dollar with ⟨digits, header⟩
    simp only [readBulk, read, header]
    cases parsed : stoll digits with
    | none => exact Or.inr rfl
    | some len =>
        by_cases negative : len < 0
        · left
          refine ⟨[], next, by simp only [negative, if_true], ?_, nextSound⟩
          rw [nextRest]
          exact .null header parsed negative
        · rcases Int.eq_ofNat_of_zero_le (not_lt.mp negative) with ⟨count, rfl⟩
          have fits := stoll_toNat_le parsed
          rw [Int.toNat_natCast] at fits
          simp only [negative, if_false, Int.toNat_natCast, not_lt.mpr fits]
          by_cases whole : next.good = true ∧ count ≤ next.rest.length
          · left
            have took := IfStream.read_of_le whole.1 whole.2
            have skipped := @IfStream.getline_rest { next with rest := next.rest.drop count }
              (Or.inl whole.1)
            refine ⟨next.rest.take count, _, by simp only [took], ?_, skipped.2⟩
            rw [skipped.1, nextRest]
            rw [nextRest] at whole
            exact .payload header parsed (good.mp whole.1) whole.2
          · right
            rcases IfStream.read_of_not_le whole with ⟨failed, took⟩
            simp only [took]
  · right
    simp only [readBulk, read]
    split
    · rename_i digits header
      exact absurd ⟨digits, header⟩ dollar
    · rfl

/-- The loop over the arguments accepts what consists of arguments. -/
theorem readArgs_items {bytes : Bytes} {args : List Bytes} (items : Items bytes args rest)
    (sound : stream.Sound) (here : stream.rest = bytes) :
    ∃ after, readArgs args.length stream = .ok args after ∧ after.rest = rest ∧ after.Sound := by
  induction items generalizing stream with
  | nil bytes => exact ⟨stream, rfl, here, sound⟩
  | cons item items inductionHypothesis =>
      subst here
      rcases readBulk_item sound item with ⟨next, first, nextRest, nextSound⟩
      rcases inductionHypothesis nextSound nextRest with ⟨after, others, afterRest, afterSound⟩
      refine ⟨after, ?_, afterRest, afterSound⟩
      simp only [List.length_cons, readArgs, first, others]

/-- What the loop accepts consists of arguments, and it raises no exception. -/
theorem readArgs_cases (sound : stream.Sound) (count : ℕ) :
    (∃ args after, readArgs count stream = .ok args after ∧ args.length = count ∧
        Items stream.rest args after.rest ∧ after.Sound) ∨ readArgs count stream = .failed := by
  induction count generalizing stream with
  | zero => exact Or.inl ⟨[], stream, rfl, rfl, .nil _, sound⟩
  | succ count inductionHypothesis =>
      rw [readArgs]
      rcases readBulk_cases sound with ⟨arg, next, first, item, nextSound⟩ | first
      · simp only [first]
        rcases inductionHypothesis nextSound with
          ⟨args, after, others, length_eq, items, afterSound⟩ | others
        · left
          exact ⟨arg :: args, after, by simp only [others], by rw [List.length_cons, length_eq],
            .cons item items, afterSound⟩
        · simp only [others, reduceCtorEq, false_and, exists_false, or_true]
      · simp only [first, reduceCtorEq, false_and, exists_false, or_true]

end Reading

/-! ## Records -/

/-- What the loop of `replay` passes over in one iteration: an empty line, or a record with the
callback it stands for. -/
inductive Advance (bytes : Bytes) : Option Record → Bytes → Prop where
  | blank (nonempty : bytes ≠ []) (empty : stripCr (firstLine bytes) = []) :
      Advance bytes none (afterLine bytes)
  | record {digits rest : Bytes} {args : List Bytes}
      (header : stripCr (firstLine bytes) = 42 :: digits)
      (counted : stoi digits = some (args.length : ℤ)) (some : args ≠ [])
      (items : Items (afterLine bytes) args rest) : Advance bytes (dispatchRecord args) rest

/-- A record asks for more arguments than a vector can hold: their number is negative. -/
def Oversized (bytes : Bytes) : Prop :=
  ∃ digits count, stripCr (firstLine bytes) = 42 :: digits ∧ stoi digits = some count ∧ count < 0

/-- How far the loop gets in a file, and with which callbacks. -/
inductive Reaches (contents : Bytes) : List Record → Bytes → Prop where
  | start : Reaches contents [] contents
  | next {calls : List Record} {call : Option Record} {bytes rest : Bytes}
      (reaches : Reaches contents calls bytes) (advance : Advance bytes call rest) :
      Reaches contents (calls ++ call.toList) rest

theorem Advance.length_lt {bytes rest : Bytes} {call : Option Record}
    (advance : Advance bytes call rest) : rest.length < bytes.length := by
  cases advance with
  | blank nonempty => exact length_afterLine_lt nonempty
  | record header counted some items =>
      exact (length_items_le items).trans_lt (length_afterLine_lt (ne_nil_of_header header))

theorem Reaches.cons {bytes rest final : Bytes} {call : Option Record} {calls : List Record}
    (advance : Advance bytes call rest) (reaches : Reaches rest calls final) :
    Reaches bytes (call.toList ++ calls) final := by
  induction reaches with
  | start =>
      rw [List.append_nil]
      exact Reaches.start.next advance
  | next _ last inductionHypothesis =>
      rw [← List.append_assoc]
      exact inductionHypothesis.next last

/-- An `int` is too large for `reserve` exactly when it is negative. -/
theorem castSize_gt_iff {digits : Bytes} {count : ℤ} (parsed : stoi digits = some count) :
    maxVectorSize < castSize count ↔ count < 0 := by
  rw [stoi, Option.filter_eq_some_iff, Bool.and_eq_true, decide_eq_true_eq, decide_eq_true_eq]
    at parsed
  rcases parsed with ⟨-, lower, upper⟩
  simp only [maxVectorSize, castSize]
  omega

/-- What an iteration prepends to the outcome of the rest of the loop. -/
def ReplayOutcome.prepend (call : Option Record) (outcome : ReplayOutcome) : ReplayOutcome :=
  ⟨call.toList ++ outcome.calls, outcome.status⟩

section Loop

variable {stream : IfStream} {rest : Bytes}

/-- The loop goes on where it can advance. -/
theorem replayLoop_advance {call : Option Record} (sound : stream.Sound)
    (advance : Advance stream.rest call rest) :
    ∃ after, after.rest = rest ∧ after.Sound ∧ ∀ fuel count,
      replayLoop (fuel + 1) stream count =
        (replayLoop fuel after (count + call.toList.length)).prepend call := by
  have nonempty : stream.rest ≠ [] := by
    intro atEnd
    have shorter := advance.length_lt
    simp [atEnd] at shorter
  have goesOn := IfStream.peekEof_of_ne sound nonempty
  rcases IfStream.getline_of_ne sound nonempty with ⟨next, read, nextRest, nextSound, -⟩
  cases advance with
  | blank _ empty =>
      refine ⟨next, nextRest, nextSound, ?_⟩
      intro fuel count
      simp only [replayLoop, goesOn, read, empty, Bool.false_eq_true, if_false,
        ReplayOutcome.prepend, Option.toList_none, List.nil_append, List.length_nil,
        Nat.cast_zero, Int.add_zero]
  | @record digits rest args header counted some items =>
      rcases readArgs_items items nextSound nextRest with ⟨after, taken, afterRest, afterSound⟩
      refine ⟨after, afterRest, afterSound, ?_⟩
      intro fuel count
      have small : ¬maxVectorSize < castSize (args.length : ℤ) := by
        rw [castSize_gt_iff counted]
        omega
      rcases List.exists_cons_of_ne_nil some with ⟨cmd, others, rfl⟩
      simp only [replayLoop, goesOn, read, header, counted, Bool.false_eq_true, if_false, small,
        Int.toNat_natCast, taken]
      cases dispatchRecord (cmd :: others) with
      | none => simp [ReplayOutcome.prepend]
      | some call => simp [ReplayOutcome.prepend]

theorem replayLoop_oversized (sound : stream.Sound) (oversized : Oversized stream.rest)
    (fuel : ℕ) (count : ℤ) : replayLoop (fuel + 1) stream count = ⟨[], .raised⟩ := by
  rcases oversized with ⟨digits, nargs, header, parsed, negative⟩
  have goesOn := IfStream.peekEof_of_ne sound (ne_nil_of_header header)
  rcases IfStream.getline_of_ne sound (ne_nil_of_header header) with ⟨next, read, -⟩
  simp only [replayLoop, goesOn, read, header, parsed, castSize_gt_iff parsed, Bool.false_eq_true,
    if_false]
  rw [if_pos negative]

/-- The loop ends quietly where there is no further record. -/
theorem replayLoop_stops (sound : stream.Sound)
    (stuck : ∀ call rest, ¬Advance stream.rest call rest) (moderate : ¬Oversized stream.rest)
    (fuel : ℕ) (count : ℤ) : replayLoop (fuel + 1) stream count = ⟨[], .returned count⟩ := by
  rw [replayLoop]
  by_cases atEnd : stream.rest = []
  · rw [IfStream.peekEof_of_rest_nil atEnd, if_pos rfl]
  rcases IfStream.getline_of_ne sound atEnd with ⟨next, read, nextRest, nextSound, -⟩
  rw [IfStream.peekEof_of_ne sound atEnd, if_neg Bool.false_ne_true, read]
  simp only
  cases line : stripCr (firstLine stream.rest) with
  | nil => exact absurd (.blank atEnd line) (stuck _ _)
  | cons byte digits =>
      by_cases star : byte = 42
      · subst star
        simp only
        cases parsed : stoi digits with
        | none => rfl
        | some nargs =>
            have nonneg : ¬nargs < 0 := fun negative =>
              moderate ⟨digits, nargs, line, parsed, negative⟩
            simp only [castSize_gt_iff parsed, nonneg, if_false]
            rcases readArgs_cases nextSound nargs.toNat with
              ⟨args, after, taken, length_eq, items, -⟩ | taken
            · cases args with
              | nil => simp only [taken]
              | cons cmd others =>
                  rw [nextRest] at items
                  have counted : stoi digits = some (((cmd :: others).length : ℕ) : ℤ) := by
                    rw [parsed, length_eq, Int.toNat_of_nonneg (not_lt.mp nonneg)]
                  exact absurd (.record line counted (by simp) items) (stuck _ _)
            · simp only [taken]
      · split
        · rename_i empty
          cases empty
        · rename_i other same
          cases same
          exact absurd rfl star
        · rfl

/-- The loop passes over everything up to where it can get. -/
theorem replayLoop_reaches {contents : Bytes} {calls : List Record}
    (reaches : Reaches contents calls rest) (sound : stream.Sound) (here : stream.rest = contents)
    {fuel : ℕ} (enough : contents.length < fuel) (count : ℤ) :
    ∃ after fuel', after.rest = rest ∧ after.Sound ∧ rest.length < fuel' ∧
      replayLoop fuel stream count =
        ⟨calls ++ (replayLoop fuel' after (count + calls.length)).calls,
          (replayLoop fuel' after (count + calls.length)).status⟩ := by
  induction reaches with
  | start => exact ⟨stream, fuel, here, sound, enough, by simp⟩
  | @next calls call bytes rest reaches advance inductionHypothesis =>
      rcases inductionHypothesis with ⟨before, fuel', beforeRest, beforeSound, enough', replayed⟩
      subst beforeRest
      have shorter := advance.length_lt
      rcases Nat.exists_eq_succ_of_ne_zero (by omega : fuel' ≠ 0) with ⟨fuel', rfl⟩
      rcases replayLoop_advance beforeSound advance with ⟨after, afterRest, afterSound, iterate⟩
      refine ⟨after, fuel', afterRest, afterSound, by omega, ?_⟩
      rw [replayed, Nat.succ_eq_add_one, iterate]
      simp only [ReplayOutcome.prepend, List.append_assoc, List.length_append, Nat.cast_add,
        Int.add_assoc]

/-- Where the loop ends, and how. -/
theorem replayLoop_ends (sound : stream.Sound) {fuel : ℕ} (enough : stream.rest.length < fuel)
    (count : ℤ) :
    ∃ calls rest, Reaches stream.rest calls rest ∧
      (Oversized rest ∧ replayLoop fuel stream count = ⟨calls, .raised⟩ ∨
        (∀ call next, ¬Advance rest call next) ∧
          replayLoop fuel stream count = ⟨calls, .returned (count + calls.length)⟩) := by
  induction fuel generalizing stream count with
  | zero => omega
  | succ fuel inductionHypothesis =>
      by_cases oversized : Oversized stream.rest
      · exact ⟨[], stream.rest, .start, Or.inl ⟨oversized,
          replayLoop_oversized sound oversized fuel count⟩⟩
      by_cases advances : ∃ call rest, Advance stream.rest call rest
      · rcases advances with ⟨call, rest, advance⟩
        have shorter := advance.length_lt
        rcases replayLoop_advance sound advance with ⟨after, rfl, afterSound, iterate⟩
        rcases inductionHypothesis afterSound (by omega) (count + call.toList.length) with
          ⟨calls, final, reaches, ends⟩
        refine ⟨call.toList ++ calls, final, .cons advance reaches, ?_⟩
        rw [iterate]
        rcases ends with ⟨oversized, raised⟩ | ⟨stuck, returned⟩
        · rw [raised]
          exact Or.inl ⟨oversized, rfl⟩
        · rw [returned]
          refine Or.inr ⟨stuck, ?_⟩
          simp only [ReplayOutcome.prepend, List.length_append, Nat.cast_add, Int.add_assoc]
      · have stuck : ∀ call rest, ¬Advance stream.rest call rest :=
          fun call rest advance => advances ⟨call, rest, advance⟩
        refine ⟨[], stream.rest, .start, Or.inr ⟨stuck, ?_⟩⟩
        rw [replayLoop_stops sound stuck oversized, List.length_nil, Nat.cast_zero, Int.add_zero]

end Loop

/-- Whatever a file contains, `replay` returns the number of callbacks it has made, after all
the records in front of the first place where there is none, if and only if it gets to no
record with a negative number of arguments.  It ends in any case. -/
theorem replay_survives_iff (contents : Bytes) :
    (((replay contents).status = .returned (replay contents).calls.length ∧
        ∃ rest, Reaches contents (replay contents).calls rest ∧
          ∀ call next, ¬Advance rest call next) ↔
      ∀ calls rest, Reaches contents calls rest → ¬Oversized rest) ∧
      (replay contents).status ≠ .diverged := by
  have sound : IfStream.Sound { rest := contents } := Or.inl rfl
  have enough : contents.length < contents.length + 1 := Nat.lt_succ_self _
  have ended := replayLoop_ends sound enough 0
  rw [← replay] at ended
  rcases ended with ⟨calls, rest, reaches, ends⟩
  refine ⟨⟨?_, ?_⟩, ?_⟩
  · rintro ⟨returned, -⟩ others final reached oversized
    rcases replayLoop_reaches reached sound rfl enough 0 with
      ⟨after, fuel, rfl, afterSound, short, replayed⟩
    rcases Nat.exists_eq_succ_of_ne_zero (by omega : fuel ≠ 0) with ⟨fuel, rfl⟩
    rw [replayLoop_oversized afterSound oversized, ← replay] at replayed
    rw [replayed] at returned
    cases returned
  · intro moderate
    rcases ends with ⟨oversized, -⟩ | ⟨stuck, returned⟩
    · exact absurd oversized (moderate calls rest reaches)
    · rw [returned, Int.zero_add]
      exact ⟨rfl, rest, reaches, stuck⟩
  · rcases ends with ⟨-, raised⟩ | ⟨-, returned⟩
    · simp [raised]
    · simp [returned]

/-- A negative number of arguments ends the program. -/
theorem not_replay_survives :
    ¬∀ contents, (replay contents).status = .returned (replay contents).calls.length := by
  intro survives
  exact absurd (survives (ascii "*-1\r\n")) (by decide)

end RedisCpp.Store
