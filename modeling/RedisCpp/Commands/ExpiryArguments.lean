import RedisCpp.Commands.CommandDispatcher
import RedisCpp.Store.LogSemantics
import RedisCpp.Store.Reference

/-!
# Expiry arguments

`SET` with `EX` or `PX` and `EXPIRE` read their last argument with `std::from_chars`, check
that the number is positive and hand seconds to the store.  The same three steps are
written three times in the source; here they are one lemma about `dispatch`, from which the
results about all three commands follow.

The number may be followed by other bytes, because the end pointer is not looked at.
Milliseconds are rounded down to whole seconds, but to one second at least.  The deadline
is computed without a check for overflow.
-/

namespace RedisCpp.Commands

open Protocol Store

/-! ## Accepted arguments -/

/-- A decimal integer numeral without a sign whose value is positive and fits `int64_t`. -/
def PositiveNumeral (argument : Bytes) : Prop :=
  argument ≠ [] ∧ (∀ byte ∈ argument, Decimal.isDigit byte = true) ∧
    0 < Decimal.value argument ∧ (Decimal.value argument : ℤ) ≤ int64Max

/-- A positive numeral with something else behind it. -/
def TrailingBytes (argument : Bytes) : Prop :=
  ∃ digits rest, argument = digits ++ rest ∧ PositiveNumeral digits ∧ rest ≠ [] ∧
    ∀ byte, rest.head? = some byte → Decimal.isDigit byte = false

/-- What the commands make of an argument: a positive number at its front. -/
def Accepts (argument : Bytes) (number : ℤ) : Prop :=
  ∃ rest, fromChars argument = some (number, rest) ∧ 0 < number

theorem fromChars_positive_iff {text rest : Bytes} {number : ℤ} (positive : 0 < number) :
    fromChars text = some (number, rest) ↔
      ∃ digits, text = digits ++ rest ∧ digits ≠ [] ∧
        (∀ byte ∈ digits, Decimal.isDigit byte = true) ∧
        (∀ byte, rest.head? = some byte → Decimal.isDigit byte = false) ∧
        number = Decimal.value digits ∧ number ≤ int64Max := by
  constructor
  · intro read
    unfold fromChars at read
    rcases Option.filter_eq_some_iff.mp read with ⟨parsed, range⟩
    simp only [Bool.and_eq_true, decide_eq_true_eq] at range
    split at parsed
    · rcases Option.map_eq_some_iff.mp parsed with ⟨⟨magnitude, tail⟩, -, equal⟩
      simp only [Prod.mk.injEq] at equal
      omega
    · rcases Option.map_eq_some_iff.mp parsed with ⟨⟨magnitude, tail⟩, found, equal⟩
      simp only [Prod.mk.injEq] at equal
      rcases equal with ⟨rfl, rfl⟩
      rcases Decimal.read_eq_some_iff.mp found with
        ⟨digits, parts, nonempty, allDigits, stops, rfl⟩
      exact ⟨digits, parts, nonempty, allDigits, stops, rfl, range.2⟩
  · rintro ⟨digits, rfl, nonempty, allDigits, stops, rfl, fits⟩
    have found : Decimal.read (digits ++ rest) = some (Decimal.value digits, rest) :=
      Decimal.read_eq_some_iff.mpr ⟨digits, rfl, nonempty, allDigits, stops, rfl⟩
    have lower : int64Min ≤ (Decimal.value digits : ℤ) := by
      simp only [int64Min]
      omega
    cases digits with
    | nil => exact absurd rfl nonempty
    | cons digit digits =>
        have notMinus : digit ≠ 45 := ne_of_isDigit (allDigits digit (by simp)) (by decide)
        unfold fromChars
        simp only
        split
        · rename_i tail equal
          exact absurd (List.cons.inj equal).1 notMinus
        · rw [List.cons_append] at found
          simp [found, Option.filter, lower, fits]

/-- A number is accepted from a positive numeral, whatever stands behind it. -/
theorem exists_accepts_iff {argument : Bytes} :
    (∃ number, Accepts argument number) ↔ PositiveNumeral argument ∨ TrailingBytes argument := by
  constructor
  · rintro ⟨number, rest, read, positive⟩
    rcases (fromChars_positive_iff positive).mp read with
      ⟨digits, rfl, nonempty, allDigits, stops, rfl, fits⟩
    have numeral : PositiveNumeral digits := ⟨nonempty, allDigits, by omega, fits⟩
    cases rest with
    | nil =>
        left
        rw [List.append_nil]
        exact numeral
    | cons byte rest => exact Or.inr ⟨digits, _, rfl, numeral, List.cons_ne_nil _ _, stops⟩
  · rintro (⟨nonempty, allDigits, positive, fits⟩ |
      ⟨digits, rest, rfl, ⟨nonempty, allDigits, positive, fits⟩, -, stops⟩)
    · exact ⟨_, [], (fromChars_positive_iff (by omega)).mpr
        ⟨argument, by simp, nonempty, allDigits, by simp, rfl, fits⟩, by omega⟩
    · exact ⟨_, rest, (fromChars_positive_iff (by omega)).mpr
        ⟨digits, rfl, nonempty, allDigits, stops, rfl, fits⟩, by omega⟩

theorem PositiveNumeral.not_trailingBytes {argument : Bytes}
    (numeral : PositiveNumeral argument) : ¬TrailingBytes argument := by
  rintro ⟨digits, rest, rfl, -, nonempty, stops⟩
  cases rest with
  | nil => exact nonempty rfl
  | cons byte rest =>
      have digit := numeral.2.1 byte (by simp)
      rw [stops byte rfl] at digit
      cases digit

/-! ## The three commands -/

/-- A command with an expiry argument, without that argument. -/
inductive ExpiryCommand where
  | ex (key value : Bytes)
  | px (key value : Bytes)
  | expire (key : Bytes)

namespace ExpiryCommand

/-- The argument vectors of a command.  The option may be written in any letter case. -/
inductive Vector : ExpiryCommand → Bytes → List Bytes → Prop where
  | ex {key value option argument : Bytes} (upper : toUpper option = ascii "EX") :
      Vector (.ex key value) argument [ascii "SET", key, value, option, argument]
  | px {key value option argument : Bytes} (upper : toUpper option = ascii "PX") :
      Vector (.px key value) argument [ascii "SET", key, value, option, argument]
  | expire {key argument : Bytes} :
      Vector (.expire key) argument [ascii "EXPIRE", key, argument]

/-- The key that gets a deadline. -/
def key : ExpiryCommand → Bytes
  | .ex key _ | .px key _ | .expire key => key

/-- The seconds that a command makes of an accepted number. -/
def seconds : ExpiryCommand → ℤ → ℤ
  | .px _ _, ms => max 1 (ms.tdiv 1000)
  | .ex _ _, secs | .expire _, secs => secs

/-- The answer to an argument that is not accepted. -/
def refusal : ExpiryCommand → Bytes
  | .ex _ _ | .px _ _ => error (ascii "invalid expire time in 'set' command")
  | .expire _ => error (ascii "value is not an integer or out of range")

/-- What a command does with its seconds. -/
def perform (command : ExpiryCommand) (store : KvStore) (secs now later : ℤ) :
    Bytes × KvStore :=
  match command with
  | .ex key value | .px key value => setReply (store.setEx key value secs now)
  | .expire key => Prod.map (fun success => integer (if success then 1 else 0)) id
      (store.expire key secs now later)

/-- The record that a command logs. -/
def record (command : ExpiryCommand) (expireAtMs : ℤ) : Record :=
  match command with
  | .ex key value | .px key value => .setEx key value expireAtMs
  | .expire key => .expire key expireAtMs

variable {command : ExpiryCommand} {argument : Bytes} {args : List Bytes} {store : KvStore}
  {number secs now later : ℤ}

/-- The three commands treat their argument in the same way. -/
theorem dispatch_eq (vector : command.Vector argument args) (store : KvStore) (now later : ℤ) :
    dispatch args store now later =
      match fromChars argument with
      | none => (command.refusal, store)
      | some (number, _) =>
          if number ≤ 0 then (command.refusal, store)
          else command.perform store (command.seconds number) now later := by
  have setFound : findCommand (ascii "SET") = some setCommand := rfl
  have expireFound : findCommand (ascii "EXPIRE") = some expireCommand := rfl
  cases vector with
  | @ex key value option argument upper =>
      have counted : wrap32 [ascii "SET", key, value, option, argument].length = 5 :=
        wrap32_of_lt (by simp)
      simp only [dispatch, setFound, counted]
      simp only [setCommand, arg, List.getD_cons_succ, List.getD_cons_zero, upper]
      rfl
  | @px key value option argument upper =>
      have counted : wrap32 [ascii "SET", key, value, option, argument].length = 5 :=
        wrap32_of_lt (by simp)
      have notEx : ascii "PX" ≠ ascii "EX" := by decide
      simp only [dispatch, setFound, counted]
      simp only [setCommand, arg, List.getD_cons_succ, List.getD_cons_zero, upper, notEx, if_false]
      rfl
  | @expire key argument =>
      have counted : wrap32 [ascii "EXPIRE", key, argument].length = 3 :=
        wrap32_of_lt (by simp)
      simp only [dispatch, expireFound, counted]
      rfl

theorem dispatch_accepted (vector : command.Vector argument args)
    (accepts : Accepts argument number) (store : KvStore) (now later : ℤ) :
    dispatch args store now later =
      command.perform store (command.seconds number) now later := by
  rcases accepts with ⟨rest, read, positive⟩
  rw [dispatch_eq vector, read]
  simp only
  rw [if_neg (by omega)]

theorem dispatch_refused (vector : command.Vector argument args)
    (refused : ¬∃ number, Accepts argument number) (store : KvStore) (now later : ℤ) :
    dispatch args store now later = (command.refusal, store) := by
  rw [dispatch_eq vector]
  cases read : fromChars argument with
  | none => rfl
  | some found =>
      rcases found with ⟨number, rest⟩
      simp only
      rw [if_pos]
      by_contra positive
      exact refused ⟨number, rest, read, by omega⟩

theorem seconds_pos (command : ExpiryCommand) (positive : 0 < number) :
    0 < command.seconds number := by
  cases command with
  | ex | expire => exact positive
  | px =>
      simp only [seconds]
      omega

theorem head_refusal (command : ExpiryCommand) : command.refusal.head? = some 45 := by
  cases command with
  | ex | px | expire => rfl

/-- An accepted number is not answered with an error. -/
theorem head_perform (positive : 0 < secs) :
    (command.perform store secs now later).1.head? ≠ some 45 := by
  cases command with
  | ex key value | px key value =>
      simp only [perform, KvStore.setEx, if_neg (show ¬secs ≤ 0 by omega)]
      exact (by decide : (simpleString (ascii "OK")).head? ≠ some 45)
  | expire key =>
      simp only [perform]
      exact (by decide : some (58 : UInt8) ≠ some 45)

end ExpiryCommand

/-! ## Validation -/

/-- The commands with an expiry argument are answered with an error and without any effect
for every argument but a positive numeral, if and only if the argument is not a positive
numeral with other bytes behind it. -/
theorem expiry_checked_iff {command : ExpiryCommand} {argument : Bytes} {args : List Bytes}
    (vector : command.Vector argument args) (store : KvStore) (now later : ℤ) :
    (((dispatch args store now later).1.head? ≠ some 45 ↔ PositiveNumeral argument) ∧
      (¬PositiveNumeral argument → (dispatch args store now later).1.head? = some 45 ∧
        (dispatch args store now later).2 = store)) ↔
      ¬TrailingBytes argument := by
  have passes_iff : (dispatch args store now later).1.head? ≠ some 45 ↔
      ∃ number, Accepts argument number := by
    constructor
    · intro passes
      by_contra refused
      rw [ExpiryCommand.dispatch_refused vector refused] at passes
      exact passes command.head_refusal
    · rintro ⟨number, accepts⟩
      rw [ExpiryCommand.dispatch_accepted vector accepts]
      rcases accepts with ⟨rest, -, positive⟩
      exact ExpiryCommand.head_perform (command.seconds_pos positive)
  rw [passes_iff, exists_accepts_iff]
  constructor
  · rintro ⟨exact, -⟩ trailing
    exact (exact.mp (Or.inr trailing)).not_trailingBytes trailing
  · intro noTrailing
    refine ⟨⟨fun either => either.resolve_right noTrailing, Or.inl⟩, ?_⟩
    intro notNumeral
    have refused : ¬∃ number, Accepts argument number := by
      rw [exists_accepts_iff]
      rintro (numeral | trailing)
      · exact notNumeral numeral
      · exact noTrailing trailing
    rw [ExpiryCommand.dispatch_refused vector refused]
    exact ⟨command.head_refusal, rfl⟩

theorem not_trailingBytes_abc : ¬TrailingBytes (ascii "abc") := by
  rintro ⟨digits, rest, parts, ⟨nonempty, allDigits, -⟩, -⟩
  cases digits with
  | nil => exact nonempty rfl
  | cons digit digits =>
      have first : digit = 97 := (List.cons.inj parts).1.symm
      have isDigit := allDigits digit (by simp)
      rw [first] at isDigit
      exact absurd isDigit (by decide)

/-- No number at all. -/
theorem expiry_checked_iff_abc :
    (dispatch [ascii "EXPIRE", ascii "k", ascii "abc"]
      (KvStore.empty KvStore.defaultShards none true) 0 0).1.head? = some 45 := by
  have checked := (expiry_checked_iff (@ExpiryCommand.Vector.expire (ascii "k") (ascii "abc"))
    (KvStore.empty KvStore.defaultShards none true) 0 0).mpr not_trailingBytes_abc
  exact (checked.2 (fun numeral => absurd (numeral.2.1 97 (by decide)) (by decide))).1

/-- `SET k v EX 10abc` is accepted. -/
theorem not_expiry_checked :
    ¬∀ (command : ExpiryCommand) (argument : Bytes) (args : List Bytes) (store : KvStore)
        (now later : ℤ), command.Vector argument args →
        ((dispatch args store now later).1.head? ≠ some 45 ↔ PositiveNumeral argument) := by
  intro checked
  have exact := checked (.ex (ascii "k") (ascii "v")) (ascii "10abc")
    [ascii "SET", ascii "k", ascii "v", ascii "ex", ascii "10abc"]
    (KvStore.empty KvStore.defaultShards none true) 0 0 (.ex (by decide))
  have numeral := exact.mp (by decide)
  exact absurd (numeral.2.1 97 (by decide)) (by decide)

/-! ## Deadlines -/

namespace ExpiryCommand

variable {command : ExpiryCommand} {store : KvStore} {secs now later : ℤ}

/-- The key is there and has not expired, where the command needs that. -/
def Finds (command : ExpiryCommand) (store : KvStore) (now : ℤ) : Prop :=
  match command with
  | .ex _ _ | .px _ _ => True
  | .expire key => ∃ entry, store.find key = some entry ∧ entry.live now = true

/-- The answer to a command that has set a deadline. -/
def success : ExpiryCommand → Bytes
  | .ex _ _ | .px _ _ => simpleString (ascii "OK")
  | .expire _ => integer 1

/-- A command that is carried out answers, stores and logs one deadline. -/
theorem perform_effect (positive : 0 < secs) (finds : command.Finds store later) :
    (command.perform store secs now later).1 = command.success ∧
      (∃ entry, (command.perform store secs now later).2.find command.key = some entry ∧
        entry.expireAtMs = KvStore.deadlineAt now secs) ∧
      ∀ writer, store.aof = some writer →
        (command.perform store secs now later).2.records =
          store.records ++ [command.record (KvStore.deadlineAt now secs)] := by
  have accepted : ¬secs ≤ 0 := by omega
  cases command with
  | ex key value | px key value =>
      simp only [perform, KvStore.setEx, accepted, if_false, KvStore.setAbsolute, setReply, if_true]
      refine ⟨rfl, ⟨⟨value, KvStore.deadlineAt now secs⟩, ?_, rfl⟩, ?_⟩
      · simp only [ExpiryCommand.key, KvStore.setInternal]
        split
        · simp
        · simp
      · intro writer attached
        simp only [record, KvStore.setInternal]
        split
        · simp [KvStore.records, attached, AofWriter.writeResp]
        · simp [KvStore.records, attached, AofWriter.writeResp]
  | expire key =>
      rcases finds with ⟨entry, present, alive⟩
      simp only [perform, KvStore.expire, accepted, if_false, KvStore.expireAt,
        KvStore.assignDeadline, present, Entry.expired_eq_not_live, alive, Bool.not_true,
        Bool.false_eq_true]
      refine ⟨rfl, ⟨⟨entry.value, KvStore.deadlineAt now secs⟩, by simp [ExpiryCommand.key], rfl⟩,
        ?_⟩
      intro writer attached
      simp [record, KvStore.records, attached, AofWriter.writeResp]

/-- The command has succeeded with an exact deadline: nothing has overflowed, the deadline is
stored and logged as it is, and the key is live until then. -/
structure Exact (command : ExpiryCommand) (store : KvStore) (secs now : ℤ)
    (outcome : Bytes × KvStore) : Prop where
  reply : outcome.1 = command.success
  product : InInt64 (1000 * secs)
  sum : InInt64 (exactDeadline now secs)
  stored : ∃ entry, outcome.2.find command.key = some entry ∧
    entry.expireAtMs = exactDeadline now secs ∧
    ∀ time, time < exactDeadline now secs → entry.live time = true
  logged : ∀ writer, store.aof = some writer →
    outcome.2.records = store.records ++ [command.record (exactDeadline now secs)]

theorem perform_exact (positive : 0 < secs) (nonneg : 0 ≤ now) (finds : command.Finds store later)
    (fits : exactDeadline now secs ≤ int64Max) :
    command.Exact store secs now (command.perform store secs now later) := by
  rcases @perform_effect command store secs now later positive finds with
    ⟨reply, ⟨entry, present, deadline⟩, logged⟩
  have exact := deadlineAt_eq (by simp only [exactDeadline]; omega) fits
  rw [exact] at deadline logged
  simp only [exactDeadline, int64Max] at fits
  refine ⟨reply, ?_, ?_, ⟨entry, present, deadline, ?_⟩, logged⟩
  · simp only [InInt64, int64Min, int64Max]
    omega
  · simp only [InInt64, int64Min, int64Max, exactDeadline]
    omega
  · intro time before
    simp [Entry.live, deadline, before]

end ExpiryCommand

/-- A command with an accepted expiry argument on a new or live key succeeds with an exact
deadline, or fails without any effect, if and only if the exact deadline fits `int64_t`. -/
theorem deadline_exact_iff {command : ExpiryCommand} {argument : Bytes} {args : List Bytes}
    {number now later : ℤ} {store : KvStore} (vector : command.Vector argument args)
    (accepts : Accepts argument number) (nonneg : 0 ≤ now) (finds : command.Finds store later) :
    (command.Exact store (command.seconds number) now (dispatch args store now later) ∨
        (dispatch args store now later).1.head? = some 45 ∧
          (dispatch args store now later).2 = store) ↔
      exactDeadline now (command.seconds number) ≤ int64Max := by
  have positive : 0 < command.seconds number := by
    rcases accepts with ⟨rest, -, positive⟩
    exact command.seconds_pos positive
  rw [ExpiryCommand.dispatch_accepted vector accepts]
  constructor
  · rintro (exact | ⟨refused, -⟩)
    · exact exact.sum.2
    · exact absurd refused (ExpiryCommand.head_perform positive)
  · intro fits
    exact Or.inl (ExpiryCommand.perform_exact positive nonneg finds fits)

theorem accepts_hundred : Accepts (ascii "100") 100 :=
  ⟨[], rfl, by decide⟩

/-- A hundred seconds. -/
theorem deadline_exact_iff_hundred :
    (ExpiryCommand.ex (ascii "k") (ascii "v")).Exact
        (KvStore.empty KvStore.defaultShards none true) 100 5
        (dispatch [ascii "SET", ascii "k", ascii "v", ascii "EX", ascii "100"]
          (KvStore.empty KvStore.defaultShards none true) 5 5) := by
  have vector : ExpiryCommand.Vector (.ex (ascii "k") (ascii "v")) (ascii "100")
      [ascii "SET", ascii "k", ascii "v", ascii "EX", ascii "100"] := .ex (by decide)
  have either := (@deadline_exact_iff _ _ _ 100 5 5
    (KvStore.empty KvStore.defaultShards none true) vector accepts_hundred (by decide)
    trivial).mpr (by decide)
  exact either.resolve_right fun failed => absurd failed.1 (by decide)

/-- The largest number of seconds is accepted, and its deadline overflows. -/
theorem not_deadline_exact :
    ¬∀ (command : ExpiryCommand) (argument : Bytes) (args : List Bytes) (number now later : ℤ)
        (store : KvStore), command.Vector argument args → Accepts argument number → 0 ≤ now →
        now ≤ 2 ^ 62 → command.Finds store later →
        command.Exact store (command.seconds number) now (dispatch args store now later) ∨
          (dispatch args store now later).1.head? = some 45 ∧
            (dispatch args store now later).2 = store := by
  intro exact
  have accepts : Accepts (ascii "9223372036854775807") 9223372036854775807 :=
    ⟨[], by decide, by decide⟩
  rcases exact (.ex (ascii "k") (ascii "v")) _
    [ascii "SET", ascii "k", ascii "v", ascii "EX", ascii "9223372036854775807"] _ 0 0
    (KvStore.empty KvStore.defaultShards none true) (.ex (by decide)) accepts (by decide)
    (by decide) trivial with succeeded | ⟨failed, -⟩
  · exact absurd succeeded.product (by decide)
  · exact absurd failed (by decide)

/-! ## Milliseconds -/

theorem bulkString_ne_nilBulk (text : Bytes) : bulkString text ≠ nilBulk := by
  intro equal
  rcases exists_digit_cons_print text.length with ⟨digit, tail, shape, isDigit⟩
  have second := congrArg (fun reply => reply[1]?) equal
  simp only [bulkString, shape, List.cons_append, List.getElem?_cons_succ,
    List.getElem?_cons_zero] at second
  have minus : digit = 45 := Option.some.inj second
  rw [minus] at isDigit
  exact absurd isDigit (by decide)

/-- `GET` finds a stored value exactly while it is live. -/
theorem dispatch_get {store : KvStore} {key : Bytes} {entry : Entry}
    (present : store.find key = some entry) (time again : ℤ) :
    (dispatch [ascii "GET", key] store time again).1 =
      if entry.live time then bulkString entry.value else nilBulk := by
  have found : findCommand (ascii "GET") = some getCommand := rfl
  have counted : wrap32 [ascii "GET", key].length = 2 := wrap32_of_lt (by simp)
  simp only [dispatch, found, counted]
  by_cases alive : entry.live time = true
  · simp [getCommand, arg, KvStore.get, KvStore.getShared, present, alive]
  · simp [getCommand, arg, KvStore.get, KvStore.getShared, present, alive]

theorem dispatch_get_eq_bulkString_iff {store : KvStore} {key : Bytes} {entry : Entry}
    (present : store.find key = some entry) (time again : ℤ) :
    (dispatch [ascii "GET", key] store time again).1 = bulkString entry.value ↔
      entry.live time = true := by
  rw [dispatch_get present]
  split
  · rename_i alive
    exact ⟨fun _ => alive, fun _ => rfl⟩
  · rename_i expired
    exact ⟨fun equal => absurd equal.symm (bulkString_ne_nilBulk _), fun alive =>
      absurd alive expired⟩

/-- What `SET` with `PX` stores. -/
theorem find_px {key value option argument : Bytes} {ms now later : ℤ} {store : KvStore}
    (upper : toUpper option = ascii "PX") (accepts : Accepts argument ms)
    (fits : InInt64 (exactDeadline now (max 1 (ms.tdiv 1000)))) :
    (dispatch [ascii "SET", key, value, option, argument] store now later).2.find key =
      some ⟨value, exactDeadline now (max 1 (ms.tdiv 1000))⟩ := by
  have accepted : ¬max 1 (ms.tdiv 1000) ≤ 0 := by omega
  rw [ExpiryCommand.dispatch_accepted (.px upper) accepts]
  simp only [ExpiryCommand.perform, ExpiryCommand.seconds, KvStore.setEx, accepted, if_false,
    KvStore.setAbsolute, setReply, KvStore.setInternal, deadlineAt_eq_of_inInt64 fits]
  split
  · simp
  · simp

/-- The calls that do not write a key: those that only read, background expiry, and the
writes of other keys. -/
def Spares (key : Bytes) : Op → Prop
  | .set other _ | .setEx other _ _ | .setAbsolute other _ _ | .del other | .expire other _
  | .expireAt other _ | .persist other => key ≠ other
  | .get _ | .ttl _ | .count | .onTtlExpired _ => True

section Spared

variable {store : KvStore} {key : Bytes} {entry : Entry}

theorem find_expireAt_of_ne {other : Bytes} (different : key ≠ other) (expireAtMs : ℤ) {now : ℤ}
    (present : store.find key = some entry) (alive : entry.live now = true) :
    (store.expireAt other expireAtMs now).2.find key = some entry := by
  have assigned : (store.expireAt other expireAtMs now).2.find =
      (store.assignDeadline other expireAtMs now).2.find := by
    simp only [KvStore.expireAt]
    split
    · rename_i outcome
      rw [outcome]
    · rename_i outcome
      rw [outcome]
      rfl
  rw [assigned]
  rcases store.assignDeadline_cases other expireAtMs now with ⟨-, drops, -⟩ | ⟨-, applied, -⟩
  · exact drops.find_eq present alive
  · rw [applied, Record.apply, Record.key, Function.update_of_ne different, present]

theorem find_persist_of_ne {other : Bytes} (different : key ≠ other) {now : ℤ}
    (present : store.find key = some entry) (alive : entry.live now = true) :
    (store.persist other now).2.find key = some entry := by
  have cleared : (store.persist other now).2.find = (store.clearDeadline other now).2.find := by
    simp only [KvStore.persist]
    split
    · rename_i outcome
      rw [outcome]
    · rename_i outcome
      rw [outcome]
      rfl
  rw [cleared]
  rcases store.clearDeadline_cases other now with ⟨-, drops⟩ | ⟨found, -, -, -, applied⟩
  · exact drops.find_eq present alive
  · rw [applied, Record.apply, Record.key, Function.update_of_ne different, present]

/-- A call that spares a key leaves its live entry alone. -/
theorem find_exec_of_spares {call : TimedOp} (spares : Spares key call.op)
    (ordered : call.now ≤ call.later) (present : store.find key = some entry)
    (alive : entry.live call.later = true) : (store.exec call).2.find key = some entry := by
  have aliveNow : entry.live call.now = true := Entry.live_of_le ordered alive
  rcases call with ⟨op, now, later⟩
  cases op with
  | set other value =>
      simp only [KvStore.exec, Prod.map, id_eq, KvStore.find_set]
      rw [Function.update_of_ne spares, present]
  | setEx other value ttlS =>
      simp only [KvStore.exec, Prod.map, id_eq, KvStore.setEx]
      split
      · exact present
      · simp only [KvStore.setAbsolute, KvStore.find_setInternal]
        rw [Function.update_of_ne spares]
        exact present
  | setAbsolute other value expireAtMs =>
      simp only [KvStore.exec, Prod.map, id_eq, KvStore.setAbsolute, KvStore.find_setInternal]
      rw [Function.update_of_ne spares]
      exact present
  | get other =>
      simp only [KvStore.exec, Prod.map, id_eq, KvStore.get]
      split
      · exact present
      · exact present
      · exact (store.addGet.drops_reap other later).find_eq present alive
  | del other =>
      simp only [KvStore.exec, Prod.map, id_eq, KvStore.find_del]
      rw [Function.update_of_ne spares, present]
  | expire other ttlS =>
      simp only [KvStore.exec, Prod.map, id_eq, KvStore.expire]
      split
      · exact present
      · exact find_expireAt_of_ne spares _ present alive
  | expireAt other expireAtMs => exact find_expireAt_of_ne spares _ present aliveNow
  | persist other => exact find_persist_of_ne spares present aliveNow
  | ttl | count => exact present
  | onTtlExpired other => exact (store.drops_reap other now).find_eq present aliveNow

/-- So do all calls of a run, as long as the entry is live. -/
theorem find_run_of_spares {calls : List TimedOp} (spares : ∀ call ∈ calls, Spares key call.op)
    {start time : ℤ} (chronological : Chronological start calls)
    (finished : lastReading start calls ≤ time) (present : store.find key = some entry)
    (alive : entry.live time = true) : (store.run calls).find key = some entry := by
  induction calls generalizing start store with
  | nil => exact present
  | cons call calls inductionHypothesis =>
      rcases chronological with ⟨-, ordered, rest⟩
      have before : call.later ≤ time := (le_lastReading rest).trans finished
      have kept := find_exec_of_spares (spares call (by simp)) ordered present
        (Entry.live_of_le before alive)
      exact inductionHypothesis (fun other mem => spares other (by simp [mem])) rest finished kept

end Spared

/-- After `SET` with `PX`, whatever else happens to other keys, the key is visible for all of
its milliseconds, and for less than a second more, if and only if they are less than a second
or a whole number of seconds.  A negative deadline, before the epoch, never expires. -/
theorem px_never_early_iff {key value option argument : Bytes} {ms now later : ℤ}
    {store : KvStore} (upper : toUpper option = ascii "PX") (accepts : Accepts argument ms)
    (fits : InInt64 (exactDeadline now (max 1 (ms.tdiv 1000)))) :
    ((∀ calls time again, (∀ call ∈ calls, Spares key call.op) → Chronological now calls →
        lastReading now calls ≤ time → time < now + ms →
        (dispatch [ascii "GET", key]
          ((dispatch [ascii "SET", key, value, option, argument] store now later).2.run calls)
          time again).1 = bulkString value) ∧
      ∃ entry,
        (dispatch [ascii "SET", key, value, option, argument] store now later).2.find key =
          some entry ∧ entry.expireAtMs < now + ms + 1000) ↔
      ms < 1000 ∨ 1000 ∣ ms ∨ now + ms / 1000 * 1000 < 0 := by
  rcases accepts with ⟨rest, read, positive⟩
  have present := @find_px key value option argument ms now later store upper
    ⟨rest, read, positive⟩ fits
  have divided : ms.tdiv 1000 = ms / 1000 := Int.tdiv_eq_ediv_of_nonneg (by omega)
  rw [divided, exactDeadline] at present
  constructor
  · rintro ⟨visible, -⟩
    by_contra early
    simp only [not_or, not_lt] at early
    rcases early with ⟨seconds, remainder, nonneg⟩
    -- The deadline itself lies within the milliseconds asked for.
    have atDeadline := visible [] (now + 1000 * (ms / 1000)) 0 (by simp) trivial
      (by simp only [lastReading, List.foldl_nil]; omega) (by omega)
    rw [KvStore.run_nil, dispatch_get_eq_bulkString_iff present] at atDeadline
    simp only [Entry.live, Bool.or_eq_true, decide_eq_true_eq] at atDeadline
    omega
  · intro exact
    constructor
    · intro calls time again spares chronological finished before
      have reached := (le_lastReading chronological).trans finished
      have alive : Entry.live ⟨value, now + 1000 * max 1 (ms / 1000)⟩ time = true := by
        simp only [Entry.live, Bool.or_eq_true, decide_eq_true_eq]
        omega
      have kept := find_run_of_spares spares chronological finished present alive
      exact (dispatch_get_eq_bulkString_iff kept time again).mpr alive
    · refine ⟨_, present, ?_⟩
      simp only
      omega

theorem px_never_early_iff_two_seconds :
    (dispatch [ascii "GET", ascii "k"]
      ((dispatch [ascii "SET", ascii "k", ascii "v", ascii "PX", ascii "2000"]
        (KvStore.empty KvStore.defaultShards none true) 5 5).2.run
          [⟨.set (ascii "other") (ascii "w"), 6, 6⟩]) 2004 2004).1 =
      bulkString (ascii "v") := by
  have accepts : Accepts (ascii "2000") 2000 := ⟨[], by decide, by decide⟩
  have visible := (@px_never_early_iff (ascii "k") (ascii "v") (ascii "PX") _ 2000 5 5
    (KvStore.empty KvStore.defaultShards none true) (by decide) accepts (by decide)).mpr
    (Or.inr (Or.inl (by decide)))
  refine visible.1 [⟨.set (ascii "other") (ascii "w"), 6, 6⟩] 2004 2004 ?_ (by decide) (by decide)
    (by decide)
  intro call mem
  rw [List.mem_singleton.mp mem]
  exact (by decide : ascii "k" ≠ ascii "other")

/-- Of 1500 milliseconds 500 are lost. -/
theorem not_px_never_early :
    ¬∀ (key value option argument : Bytes) (ms now later time again : ℤ) (store : KvStore),
        toUpper option = ascii "PX" → Accepts argument ms →
        InInt64 (exactDeadline now (max 1 (ms.tdiv 1000))) → now ≤ time → time < now + ms →
        (dispatch [ascii "GET", key]
          (dispatch [ascii "SET", key, value, option, argument] store now later).2
          time again).1 = bulkString value := by
  intro visible
  have accepts : Accepts (ascii "1500") 1500 := ⟨[], by decide, by decide⟩
  have found := visible (ascii "k") (ascii "v") (ascii "PX") _ 1500 0 0 1000 1000
    (KvStore.empty KvStore.defaultShards none true) (by decide) accepts (by decide) (by decide)
    (by decide)
  have fits : InInt64 (exactDeadline 0 (max 1 ((1500 : ℤ).tdiv 1000))) := by decide
  have present := @find_px (ascii "k") (ascii "v") (ascii "PX") _ 1500 0 0
    (KvStore.empty KvStore.defaultShards none true) (by decide) accepts fits
  rw [dispatch_get_eq_bulkString_iff present] at found
  exact absurd found (by decide)

end RedisCpp.Commands
