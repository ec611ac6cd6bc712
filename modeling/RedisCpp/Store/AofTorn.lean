import RedisCpp.Store.AofCodec

/-!
# Appending to a torn log

`AofWriter` opens its file in append mode and `main` replays that file without
truncating it.  After a crash the new records therefore follow whatever bytes the
crash left behind.  This file determines when that is harmless: exactly when the
crash happened to cut the log between two records.

For a cut inside a record the proof appends one short record whose callback the
torn record cannot produce, and shows that the replay never invokes it.  The torn
record swallows at least the asterisk that opens the appended one, and without an
asterisk the reader finds no further record.
-/

namespace RedisCpp.Store

/-! ## What the reader consumes -/

namespace IfStream

theorem dropWhile_cons_suffix {bytes rest : Bytes} {byte : UInt8}
    (found : bytes.dropWhile (· != LF) = byte :: rest) :
    rest <:+ bytes ∧ rest.length < bytes.length := by
  have suffix := @List.dropWhile_suffix _ bytes (· != LF)
  rw [found] at suffix
  have length_le := suffix.length_le
  rw [List.length_cons] at length_le
  exact ⟨(List.suffix_cons byte rest).trans suffix, by omega⟩

theorem getline_suffix (stream : IfStream) : stream.getline.2.rest <:+ stream.rest := by
  rw [getline]
  split
  · split
    · rename_i found
      exact (dropWhile_cons_suffix found).1
    · split <;> exact List.nil_suffix
  · exact List.suffix_refl _

theorem getline_some_length {stream next : IfStream} {line : Bytes}
    (read : stream.getline = (some line, next)) : next.rest.length < stream.rest.length := by
  rw [getline] at read
  split at read
  · split at read
    · rename_i found
      have shorter := (dropWhile_cons_suffix found).2
      cases read
      exact shorter
    · split at read
      · cases read
      · rename_i nonempty
        cases read
        simpa [List.length_pos_iff] using nonempty
  · cases read

theorem getline_line_subset {stream next : IfStream} {line : Bytes}
    (read : stream.getline = (some line, next)) : line ⊆ stream.rest := by
  rw [getline] at read
  split at read
  · split at read
    · cases read
      exact (List.takeWhile_sublist _).subset
    · split at read
      · cases read
      · cases read
        exact List.Subset.refl _
  · cases read

theorem read_suffix (stream : IfStream) (count : ℕ) :
    (stream.read count).2.rest <:+ stream.rest := by
  rw [read]
  split
  · split
    · exact List.drop_suffix _ _
    · exact List.nil_suffix
  · exact List.suffix_refl _

end IfStream

theorem readBulk_suffix {stream next : IfStream} {arg : Bytes}
    (read : readBulk stream = .ok arg next) : next.rest <:+ stream.rest := by
  rw [readBulk] at read
  have first := stream.getline_suffix
  split at read
  · cases read
  · rename_i line after got
    rw [got] at first
    split at read
    · split at read
      · cases read
      · rename_i len _
        split at read
        · cases read
          exact first
        · split at read
          · cases read
          · have payload := after.read_suffix len.toNat
            split at read
            · cases read
            · rename_i out rest took
              rw [took] at payload
              cases read
              exact (rest.getline_suffix.trans payload).trans first
    · cases read

theorem readArgs_suffix {remaining : ℕ} {stream next : IfStream} {args : List Bytes}
    (read : readArgs remaining stream = .ok args next) : next.rest <:+ stream.rest := by
  induction remaining generalizing stream args with
  | zero =>
      cases read
      exact List.suffix_refl _
  | succ remaining ih =>
      rw [readArgs] at read
      split at read
      · cases read
      · cases read
      · rename_i arg after got
        split at read
        · cases read
        · cases read
        · rename_i tail final gotTail
          cases read
          exact (ih gotTail).trans (readBulk_suffix got)

/-- More fuel than there are bytes never runs out, and the number of records
already replayed has no influence on the callbacks. -/
theorem replayLoop_calls_eq {stream : IfStream} {fuel fuel' : ℕ}
    (enough : stream.rest.length < fuel) (enough' : stream.rest.length < fuel')
    (count count' : ℤ) :
    (replayLoop fuel stream count).calls = (replayLoop fuel' stream count').calls := by
  induction fuel generalizing stream fuel' count count' with
  | zero => omega
  | succ fuel ih =>
      rcases Nat.exists_eq_succ_of_ne_zero (by omega : fuel' ≠ 0) with ⟨fuel', rfl⟩
      simp only [replayLoop]
      by_cases atEnd : stream.peekEof = true
      · simp [atEnd]
      · simp only [atEnd, Bool.false_eq_true, if_false]
        cases got : stream.getline with
        | mk line next =>
            cases line with
            | none => rfl
            | some line =>
                have shorter := IfStream.getline_some_length got
                simp only
                split
                · exact ih (by omega) (by omega) count count'
                · split
                  · rfl
                  · split
                    · rfl
                    · split
                      · rfl
                      · rfl
                      · rfl
                      · rename_i args after _ readAll
                        have suffix := (readArgs_suffix readAll).length_le
                        split
                        · exact ih (by omega) (by omega) count count'
                        · simp only [List.cons.injEq, true_and]
                          exact ih (by omega) (by omega) (count + 1) (count' + 1)
                · rfl

/-- Without an asterisk in the rest of the file there is no further callback. -/
theorem replayLoop_calls_of_no_star {stream : IfStream} (noStar : 42 ∉ stream.rest) (fuel : ℕ)
    (count : ℤ) : (replayLoop fuel stream count).calls = [] := by
  induction fuel generalizing stream count with
  | zero => rfl
  | succ fuel ih =>
      rw [replayLoop]
      split
      · rfl
      · split
        · rfl
        · rename_i line next got
          have lineSubset := IfStream.getline_line_subset got
          have rest := stream.getline_suffix
          rw [got] at rest
          split
          · exact ih (fun mem => noStar (rest.subset mem)) count
          · rename_i digits stripped
            exfalso
            apply noStar
            apply lineSubset
            have mem : (42 : UInt8) ∈ stripCr line := by simp [stripped]
            rw [stripCr] at mem
            split at mem
            · exact (List.dropLast_sublist _).subset mem
            · exact mem
          · rfl

/-! ## What a torn record swallows -/

/-- A line that reaches past an asterisk takes it along. -/
theorem getline_past_star {torn tail : Bytes} (noLf : LF ∉ torn) (noStar : 42 ∉ tail) :
    42 ∉ (IfStream.getline { rest := torn ++ 42 :: tail }).2.rest := by
  have before : ∀ byte ∈ torn, (byte != LF) = true := by
    intro byte mem
    simp only [bne_iff_ne, ne_eq]
    rintro rfl
    exact noLf mem
  have drop_eq : (torn ++ 42 :: tail).dropWhile (· != LF) = tail.dropWhile (· != LF) := by
    rw [List.dropWhile_append_of_pos before, List.dropWhile_cons]
    rfl
  simp only [IfStream.getline, IfStream.good, Bool.not_false, Bool.and_self, if_true, drop_eq]
  split
  · rename_i found
    intro mem
    exact noStar ((IfStream.dropWhile_cons_suffix found).1.subset mem)
  · split <;> simp

/-- If the header is torn, the reader is past the star once it has read a line. -/
theorem readBulk_past_star_of_header {text tail : Bytes} (noStar : 42 ∉ tail) {kept : ℕ}
    (header : kept ≤ (bulkHeader text).length + 1) {arg : Bytes} {stream : IfStream}
    (read : readBulk { rest := (bulk text).take kept ++ 42 :: tail } = .ok arg stream) :
    42 ∉ stream.rest := by
  have shape : (bulk text).take kept = (bulkHeader text ++ [CR]).take kept := by
    have split : bulk text = (bulkHeader text ++ [CR]) ++ (LF :: (text ++ crlf)) := by
      rw [bulk_eq]
      simp [crlf]
    rw [split, List.take_append_of_le_length (by simp; omega)]
  have noLf : LF ∉ (bulk text).take kept := by
    rw [shape]
    intro mem
    rcases List.mem_append.mp (List.mem_of_mem_take mem) with line | last
    · exact not_mem_bulkHeader lf_not_digit (by decide) text line
    · exact absurd (List.mem_singleton.mp last) (by decide)
  have first := getline_past_star noLf noStar
  rw [readBulk] at read
  split at read
  · cases read
  · rename_i line after got
    rw [got] at first
    split at read
    · split at read
      · cases read
      · rename_i len _
        split at read
        · cases read
          exact first
        · split at read
          · cases read
          · have payload := after.read_suffix len.toNat
            split at read
            · cases read
            · rename_i out rest took
              rw [took] at payload
              cases read
              exact fun mem => first ((rest.getline_suffix.trans payload).subset mem)
    · cases read

/-- If the payload is torn, reading as many bytes as were announced and the rest of the
line goes past the star. -/
theorem payload_past_star {text tail : Bytes} (noStar : 42 ∉ tail) {left : ℕ}
    (torn : left < text.length + 2) :
    42 ∉ (IfStream.getline
      { rest := ((text ++ crlf).take left ++ 42 :: tail).drop text.length }).2.rest := by
  by_cases payload : left < text.length
  · intro mem
    apply noStar
    have dropped := (IfStream.getline_suffix _).subset mem
    rw [List.take_append_of_le_length (by omega), List.drop_append,
      List.drop_eq_nil_of_le (by simp), List.nil_append] at dropped
    rcases Nat.exists_eq_succ_of_ne_zero
      (show text.length - (text.take left).length ≠ 0 by simp; omega) with ⟨skipped, skipped_eq⟩
    rw [skipped_eq, Nat.succ_eq_add_one, List.drop_succ_cons] at dropped
    exact List.mem_of_mem_drop dropped
  · have dropped : ((text ++ crlf).take left ++ 42 :: tail).drop text.length =
        crlf.take (left - text.length) ++ 42 :: tail := by
      rw [List.take_append, List.take_of_length_le (by omega), List.append_assoc, List.drop_left]
    rw [dropped]
    apply getline_past_star _ noStar
    intro mem
    have missing : left - text.length < 2 := by omega
    have onlyCr : crlf.take (left - text.length) ⊆ [CR] := by
      rcases Nat.lt_succ_iff_lt_or_eq.mp missing with none | one
      · rw [show left - text.length = 0 by omega]
        simp
      · rw [one]
        simp [crlf]
    exact absurd (List.mem_singleton.mp (onlyCr mem)) (by decide)

theorem readBulk_past_star {text tail : Bytes} (fits : text.length ≤ maxStringSize)
    (noStar : 42 ∉ tail) {kept : ℕ} (cut : kept < (bulk text).length) {arg : Bytes}
    {stream : IfStream}
    (read : readBulk { rest := (bulk text).take kept ++ 42 :: tail } = .ok arg stream) :
    42 ∉ stream.rest := by
  rw [length_bulk] at cut
  by_cases header : kept ≤ (bulkHeader text).length + 1
  · exact readBulk_past_star_of_header noStar header read
  · have shape : (bulk text).take kept ++ 42 :: tail = bulkHeader text ++ crlf ++
        ((text ++ crlf).take (kept - ((bulkHeader text).length + 2)) ++ 42 :: tail) := by
      rw [bulk_eq, List.take_append]
      simp [crlf, List.take_of_length_le (show (bulkHeader text ++ [CR, LF]).length ≤ kept by
        simp; omega)]
    rw [shape, readBulk_of_header fits] at read
    split at read
    · cases read
      exact payload_past_star noStar (by omega)
    · cases read

theorem readArgs_past_star {args : List Bytes} {tail : Bytes}
    (fits : ∀ arg ∈ args, arg.length ≤ maxStringSize) (noStar : 42 ∉ tail) {kept : ℕ}
    (cut : kept < (args.flatMap bulk).length) {found : List Bytes} {stream : IfStream}
    (read : readArgs args.length { rest := (args.flatMap bulk).take kept ++ 42 :: tail } =
      .ok found stream) : 42 ∉ stream.rest := by
  induction args generalizing kept found with
  | nil => simp at cut
  | cons arg args ih =>
      have argFits := fits arg (by simp)
      simp only [List.flatMap_cons, List.length_append, List.length_cons] at cut read
      by_cases inHead : kept < (bulk arg).length
      · rw [List.take_append_of_le_length (by omega), readArgs] at read
        split at read
        · cases read
        · cases read
        · rename_i first after got
          have swallowed := readBulk_past_star argFits noStar inHead got
          split at read
          · cases read
          · cases read
          · rename_i rest final gotRest
            cases read
            exact fun mem => swallowed ((readArgs_suffix gotRest).subset mem)
      · rw [List.take_append, List.take_of_length_le (by omega), List.append_assoc, readArgs,
          readBulk_bulk_append argFits] at read
        simp only at read
        split at read
        · cases read
        · cases read
        · rename_i rest final gotRest
          cases read
          exact ih (fun next mem => fits next (by simp [mem])) (by omega) gotRest

namespace Record

/-- The command name of a record. -/
def name : Record → Bytes
  | .set .. | .setEx .. => ascii "SET"
  | .del .. => ascii "DEL"
  | .expire .. => ascii "PEXPIREAT"

/-- A short record under another command name, to be appended after a torn one. -/
def probe : Record → Record
  | .del .. => .set [] []
  | .set .. | .setEx .. | .expire .. => .del []

theorem probe_fits (record : Record) : record.probe.Fits := by
  cases record <;> simp [probe, Fits]

theorem probe_bytes (record : Record) :
    ∃ tail, record.probe.bytes = 42 :: tail ∧ 42 ∉ tail := by
  cases record <;> exact ⟨_, rfl, by decide⟩

theorem probe_name (record : Record) : record.probe.name ≠ record.name := by
  cases record <;> simp only [probe, name] <;> decide

theorem args_eq_name_cons (record : Record) : record.args = record.name :: record.args.tail := by
  cases record <;> rfl

end Record

theorem name_of_dispatchRecord {cmd : Bytes} {args : List Bytes} {call : Record}
    (dispatched : dispatchRecord (cmd :: args) = some call) : call.name = cmd := by
  rw [dispatchRecord.eq_def] at dispatched
  split at dispatched
  · rename_i head key value shape
    cases shape
    split at dispatched
    · rename_i isSet
      cases dispatched
      exact isSet.symm
    · split at dispatched
      · rename_i isExpire
        split at dispatched
        · cases dispatched
          exact isExpire.symm
        · cases dispatched
      · cases dispatched
  · rename_i head key value option deadline shape
    cases shape
    split at dispatched
    · rename_i isSetEx
      split at dispatched
      · cases dispatched
        exact isSetEx.1.symm
      · cases dispatched
    · cases dispatched
  · rename_i head key shape
    cases shape
    split at dispatched
    · rename_i isDel
      cases dispatched
      exact isDel.symm
    · cases dispatched
  · cases dispatched

/-- The array header and the command name of a record, as bytes. -/
def leadBytes (record : Record) : Bytes :=
  arrayHeader record.args.length ++ bulk record.name

theorem bytes_eq_leadBytes (record : Record) :
    record.bytes = leadBytes record ++ record.args.tail.flatMap bulk := by
  rw [record.bytes_eq, leadBytes]
  conv_lhs => rw [record.args_eq_name_cons]
  simp only [List.flatMap_cons, List.append_assoc, List.length_cons, List.length_tail]
  rw [Nat.sub_add_cancel (by have := record.args_length; omega)]

/-- A cut inside the array header or the command name: finitely many files. -/
theorem probe_not_mem_of_torn_lead (record : Record) {kept : ℕ} (positive : 0 < kept)
    (cut : kept < (leadBytes record).length) :
    record.probe ∉ (replay ((leadBytes record).take kept ++ record.probe.bytes)).calls := by
  have short : ∀ kept < (leadBytes record).length, 0 < kept →
      record.probe ∉ (replay ((leadBytes record).take kept ++ record.probe.bytes)).calls := by
    cases record with
    | set key value =>
        change ∀ kept < (leadBytes (.set [] [])).length, 0 < kept → Record.del [] ∉
          (replay ((leadBytes (.set [] [])).take kept ++ (Record.del []).bytes)).calls
        decide +kernel
    | setEx key value expireAtMs =>
        change ∀ kept < (leadBytes (.setEx [] [] 0)).length, 0 < kept → Record.del [] ∉
          (replay ((leadBytes (.setEx [] [] 0)).take kept ++ (Record.del []).bytes)).calls
        decide +kernel
    | del key =>
        change ∀ kept < (leadBytes (.del [])).length, 0 < kept → Record.set [] [] ∉
          (replay ((leadBytes (.del [])).take kept ++ (Record.set [] []).bytes)).calls
        decide +kernel
    | expire key expireAtMs =>
        change ∀ kept < (leadBytes (.expire [] 0)).length, 0 < kept → Record.del [] ∉
          (replay ((leadBytes (.expire [] 0)).take kept ++ (Record.del []).bytes)).calls
        decide +kernel
  exact short kept cut positive

/-- A record torn at any byte hides the probe appended after it. -/
theorem probe_not_mem_of_torn {record : Record} (fits : record.Fits) {kept : ℕ}
    (positive : 0 < kept) (cut : kept < record.bytes.length) :
    record.probe ∉ (replay (record.bytes.take kept ++ record.probe.bytes)).calls := by
  by_cases lead : kept < (leadBytes record).length
  · rw [bytes_eq_leadBytes, List.take_append_of_le_length (by omega)]
    exact probe_not_mem_of_torn_lead record positive lead
  · rcases record.probe_bytes with ⟨tail, probe_eq, noStar⟩
    have argsFit := Record.args_fit fits
    rw [record.args_eq_name_cons] at argsFit
    have tailFit : ∀ arg ∈ record.args.tail, arg.length ≤ maxStringSize :=
      fun arg mem => argsFit arg (by simp [mem])
    have nameFits : record.name.length ≤ maxStringSize := argsFit _ (by simp)
    have upper := record.args_length.2
    have nargs : record.args.length = record.args.tail.length + 1 := by
      have := record.args_length
      rw [List.length_tail]
      omega
    have shape : record.bytes.take kept ++ record.probe.bytes =
        arrayHeader record.args.length ++ (bulk record.name ++
          ((record.args.tail.flatMap bulk).take (kept - (leadBytes record).length) ++
            42 :: tail)) := by
      rw [bytes_eq_leadBytes, List.take_append, List.take_of_length_le (by omega), probe_eq,
        leadBytes]
      simp only [List.append_assoc]
    have inTail : kept - (leadBytes record).length < (record.args.tail.flatMap bulk).length := by
      rw [bytes_eq_leadBytes, List.length_append] at cut
      omega
    rw [replay, shape, replayLoop_arrayHeader upper, nargs, readArgs,
      readBulk_bulk_append nameFits]
    simp only
    cases read : readArgs record.args.tail.length (IfStream.mk
        ((record.args.tail.flatMap bulk).take (kept - (leadBytes record).length) ++ 42 :: tail)
        false false) with
    | failed => simp
    | raised => simp
    | ok args stream =>
        have swallowed := readArgs_past_star tailFit noStar inTail read
        simp only
        cases dispatched : dispatchRecord (record.name :: args) with
        | none => simp [replayLoop_calls_of_no_star swallowed]
        | some call =>
            simp only [replayLoop_calls_of_no_star swallowed, List.mem_singleton]
            intro equal
            apply record.probe_name
            rw [equal]
            exact name_of_dispatchRecord dispatched

/-! ## The log as a whole -/

theorem replayLoop_fileBytes_append {records : List Record}
    (fits : ∀ record ∈ records, record.Fits) (rest : Bytes) {fuel : ℕ}
    (enough : (fileBytes records ++ rest).length < fuel) (count : ℤ) :
    (replayLoop fuel { rest := fileBytes records ++ rest } count).calls =
      records ++ (replay rest).calls := by
  induction records generalizing fuel count with
  | nil =>
      rw [fileBytes, List.flatMap_nil, List.nil_append] at enough ⊢
      exact replayLoop_calls_eq enough (Nat.lt_succ_self _) count 0
  | cons record records ih =>
      have bytesPos := length_bytes_pos record
      simp only [fileBytes, List.flatMap_cons, List.append_assoc, List.length_append] at enough ⊢
      rcases Nat.exists_eq_succ_of_ne_zero (by omega : fuel ≠ 0) with ⟨fuel, rfl⟩
      have shorter : (fileBytes records ++ rest).length < fuel := by
        simp only [fileBytes, List.length_append]
        omega
      have tail := ih (fun next mem => fits next (by simp [mem])) shorter (count + 1)
      rw [Nat.succ_eq_add_one, replayLoop_record (fits record (by simp)), List.cons_append]
      simp only [List.cons.injEq, true_and]
      exact tail

theorem replay_fileBytes_append {records : List Record}
    (fits : ∀ record ∈ records, record.Fits) (rest : Bytes) :
    (replay (fileBytes records ++ rest)).calls = records ++ (replay rest).calls := by
  rw [replay]
  exact replayLoop_fileBytes_append fits rest (Nat.lt_succ_self _) 0

/-- Every byte position of a log is a record boundary or lies inside one record. -/
theorem take_fileBytes_cases (records : List Record) (size : ℕ) :
    (∃ kept, (fileBytes records).take size = fileBytes (records.take kept)) ∨
      ∃ before record after, records = before ++ record :: after ∧
        ∃ kept, 0 < kept ∧ kept < record.bytes.length ∧
          (fileBytes records).take size = fileBytes before ++ record.bytes.take kept := by
  induction records generalizing size with
  | nil => exact Or.inl ⟨0, by simp [fileBytes]⟩
  | cons record records ih =>
      have split : fileBytes (record :: records) = record.bytes ++ fileBytes records := by
        simp [fileBytes]
      by_cases start : size = 0
      · exact Or.inl ⟨0, by simp [start, fileBytes]⟩
      by_cases inside : size < record.bytes.length
      · refine Or.inr ⟨[], record, records, rfl, size, by omega, inside, ?_⟩
        rw [split, List.take_append_of_le_length (by omega)]
        rfl
      · have take_eq : (fileBytes (record :: records)).take size =
            record.bytes ++ (fileBytes records).take (size - record.bytes.length) := by
          rw [split, List.take_append, List.take_of_length_le (by omega)]
        rcases ih (size - record.bytes.length) with
          ⟨kept, boundary⟩ | ⟨before, torn, after, rfl, kept, positive, cut, boundary⟩
        · refine Or.inl ⟨kept + 1, ?_⟩
          rw [take_eq, boundary]
          simp [fileBytes]
        · refine Or.inr ⟨record :: before, torn, after, rfl, kept, positive, cut, ?_⟩
          rw [take_eq, boundary]
          simp [fileBytes]

/-- Appending to the log left by a crash loses nothing, whatever is appended, if
and only if the crash cut the log between two records. -/
theorem replay_torn_append_iff {records : List Record} (fits : ∀ record ∈ records, record.Fits)
    {size : ℕ} (proper : size < (fileBytes records).length) :
    (∀ appended : List Record, (∀ record ∈ appended, record.Fits) →
      (replay ((fileBytes records).take size ++ fileBytes appended)).calls =
        (replay ((fileBytes records).take size)).calls ++ appended) ↔
    ∃ kept < records.length, size = (fileBytes (records.take kept)).length := by
  constructor
  · intro safe
    rcases take_fileBytes_cases records size with
      ⟨kept, boundary⟩ | ⟨before, record, after, rfl, kept, positive, cut, boundary⟩
    · have length_eq := congrArg List.length boundary
      rw [List.length_take, Nat.min_eq_left (by omega)] at length_eq
      refine ⟨kept, ?_, length_eq⟩
      by_contra all
      rw [List.take_of_length_le (by omega)] at length_eq
      omega
    · exfalso
      have beforeFits : ∀ next ∈ before, next.Fits := fun next mem => fits next (by simp [mem])
      have recordFits : record.Fits := fits record (by simp)
      have lost := probe_not_mem_of_torn recordFits positive cut
      have kept_all := safe [record.probe] (by simpa using record.probe_fits)
      have probeFile : fileBytes [record.probe] = record.probe.bytes := by simp [fileBytes]
      rw [boundary, probeFile, List.append_assoc, replay_fileBytes_append beforeFits,
        replay_fileBytes_append beforeFits, List.append_assoc, List.append_cancel_left_eq]
        at kept_all
      apply lost
      rw [kept_all]
      simp
  · rintro ⟨kept, -, rfl⟩ appended appendedFits
    have keptFits : ∀ record ∈ records.take kept, record.Fits :=
      fun record mem => fits record (List.mem_of_mem_take mem)
    have boundary : (fileBytes records).take (fileBytes (records.take kept)).length =
        fileBytes (records.take kept) := by
      have split := fileBytes_append (records.take kept) (records.drop kept)
      rw [List.take_append_drop] at split
      rw [split, List.take_left]
    rw [boundary, replay_fileBytes_append keptFits, replay_fileBytes appendedFits,
      replay_fileBytes keptFits]

theorem replay_torn_append_iff_two_dels :
    let records := [Record.del (ascii "a"), Record.del (ascii "b")]
    (∀ record ∈ records, record.Fits) ∧ 20 < (fileBytes records).length ∧
      ∃ kept < records.length, 20 = (fileBytes (records.take kept)).length := by
  intro records
  have fits : ∀ record ∈ records, record.Fits := by
    simp only [records, List.mem_cons, List.not_mem_nil, or_false]
    rintro record (rfl | rfl)
    · exact (by decide : (ascii "a").length ≤ maxStringSize)
    · exact (by decide : (ascii "b").length ≤ maxStringSize)
  refine ⟨fits, by decide, ?_⟩
  apply (@replay_torn_append_iff records fits 20 (by decide)).mp
  intro appended appendedFits
  have boundary : (fileBytes records).take 20 = fileBytes [Record.del (ascii "a")] := by decide
  have oneFits : ∀ record ∈ [Record.del (ascii "a")], record.Fits :=
    fun record mem => fits record (by simp [records, List.mem_singleton.mp mem])
  rw [boundary, replay_fileBytes_append oneFits, replay_fileBytes appendedFits,
    replay_fileBytes oneFits]

/-- One byte of a torn deletion is enough to lose the next acknowledged record. -/
theorem not_replay_torn_append :
    ¬∀ (records : List Record) (size : ℕ) (appended : List Record),
      (∀ record ∈ records, record.Fits) → size < (fileBytes records).length →
      (∀ record ∈ appended, record.Fits) →
      (replay ((fileBytes records).take size ++ fileBytes appended)).calls =
        (replay ((fileBytes records).take size)).calls ++ appended := by
  intro safe
  have fits : ∀ record ∈ [Record.del (ascii "k")], record.Fits := by
    intro record mem
    rw [List.mem_singleton.mp mem]
    exact (by decide : (ascii "k").length ≤ maxStringSize)
  have lost := safe [.del (ascii "k")] 1 [.del (ascii "k")] fits (by decide) fits
  exact absurd lost (by decide +kernel)

end RedisCpp.Store
