import RedisCpp.Lib.Decimal
import Mathlib.Data.Int.Basic
import Mathlib.Tactic.NormNum

/-!
# Bytes and numbers of the C++ standard library

A `std::string` is a list of bytes.  This file fixes the few pieces of the
standard library the server relies on: the `int64_t` range, `std::to_string`,
`std::stoi`, `std::stoll`, `std::from_chars` and `std::toupper` in the `"C"`
locale, each with the behaviour the C++ standard gives it.  A throwing
conversion returns `none`.
-/

namespace RedisCpp

/-- The contents of a `std::string` or a `std::string_view`. -/
abbrev Bytes := List UInt8

/-- The bytes of a string literal of the source. -/
def ascii (text : String) : Bytes :=
  text.toList.map Char.toUInt8

/-- Carriage return. -/
def CR : UInt8 := 13

/-- Line feed. -/
def LF : UInt8 := 10

/-- The line end of RESP. -/
def crlf : Bytes := [CR, LF]

/-- `std::string::max_size()` of libstdc++ on a 64-bit target, since C++20. -/
def maxStringSize : ℕ := 2 ^ 63 - 1

/-- `std::vector<std::string>::max_size()` of libstdc++ on a 64-bit target. -/
def maxVectorSize : ℕ := (2 ^ 63 - 1) / 32

/-- `std::string_view::max_size()` of libstdc++ on a 64-bit target. -/
def maxViewSize : ℕ := (2 ^ 64 - 17) / 4

def int64Min : ℤ := -2 ^ 63

def int64Max : ℤ := 2 ^ 63 - 1

/-- The values of `int64_t`. -/
def InInt64 (number : ℤ) : Prop :=
  int64Min ≤ number ∧ number ≤ int64Max

instance (number : ℤ) : Decidable (InInt64 number) := by
  unfold InInt64
  infer_instance

/-- Two's complement reduction of an arithmetic result to `int64_t`. -/
def wrap64 (number : ℤ) : ℤ :=
  number.bmod (2 ^ 64)

/-- Two's complement reduction to `int`. -/
def wrap32 (number : ℤ) : ℤ :=
  number.bmod (2 ^ 32)

/-- The value of a sum of type `size_t`. -/
def wrapSize (number : ℕ) : ℕ :=
  number % 2 ^ 64

theorem wrap64_of_inInt64 {number : ℤ} (fits : InInt64 number) : wrap64 number = number := by
  simp only [InInt64, int64Min, int64Max] at fits
  rw [wrap64]
  apply Int.bmod_eq_of_le <;> omega

theorem wrap32_of_lt {count : ℕ} (small : count < 2 ^ 31) : wrap32 count = count := by
  rw [wrap32]
  apply Int.bmod_eq_of_le <;> omega

theorem wrapSize_of_lt {number : ℕ} (fits : number < 2 ^ 64) : wrapSize number = number :=
  Nat.mod_eq_of_lt fits

/-- `std::isspace` in the `"C"` locale. -/
def isSpace (byte : UInt8) : Bool :=
  byte = 32 || (9 ≤ byte && byte ≤ 13)

/-- `std::toupper` in the `"C"` locale, applied to every byte. -/
def toUpper (text : Bytes) : Bytes :=
  text.map fun byte => if 97 ≤ byte && byte ≤ 122 then byte - 32 else byte

/-- `std::to_string` of a signed integer. -/
def stdToString (number : ℤ) : Bytes :=
  match number with
  | .ofNat magnitude => Decimal.print magnitude
  | .negSucc magnitude => 45 :: Decimal.print (magnitude + 1)

/-- The common part of `std::stoi` and `std::stoll`: leading white space is
skipped, one sign is allowed, and whatever follows the digits is ignored. -/
def strtol (text : Bytes) : Option ℤ :=
  match text.dropWhile isSpace with
  | 45 :: digits => (Decimal.read digits).map fun found => -(found.1 : ℤ)
  | 43 :: digits => (Decimal.read digits).map fun found => (found.1 : ℤ)
  | digits => (Decimal.read digits).map fun found => (found.1 : ℤ)

/-- `std::stoll`; `none` stands for `invalid_argument` and `out_of_range`. -/
def stoll (text : Bytes) : Option ℤ :=
  (strtol text).filter fun number => int64Min ≤ number && number ≤ int64Max

/-- `std::stoi`; `none` stands for `invalid_argument` and `out_of_range`. -/
def stoi (text : Bytes) : Option ℤ :=
  (strtol text).filter fun number => -2 ^ 31 ≤ number && number ≤ 2 ^ 31 - 1

/-- `std::from_chars` for `int64_t`: no white space and no plus sign are
accepted.  The value comes with the bytes from the returned pointer on; `none`
is an error code other than `std::errc{}`. -/
def fromChars (text : Bytes) : Option (ℤ × Bytes) :=
  let parsed : Option (ℤ × Bytes) := match text with
    | 45 :: digits => (Decimal.read digits).map fun found => (-(found.1 : ℤ), found.2)
    | digits => (Decimal.read digits).map fun found => ((found.1 : ℤ), found.2)
  parsed.filter fun found => int64Min ≤ found.1 && found.1 ≤ int64Max

theorem inInt64_of_fromChars {text rest : Bytes} {number : ℤ}
    (parsed : fromChars text = some (number, rest)) : InInt64 number := by
  have inside := (Option.filter_eq_some_iff.mp parsed).2
  rw [Bool.and_eq_true, decide_eq_true_eq, decide_eq_true_eq] at inside
  exact inside

theorem exists_digit_cons_print (number : ℕ) :
    ∃ digit tail, Decimal.print number = digit :: tail ∧ Decimal.isDigit digit = true := by
  cases shape : Decimal.print number with
  | nil => exact absurd shape (Decimal.print_ne_nil number)
  | cons digit tail =>
      have mem : digit ∈ Decimal.print number := by simp [shape]
      exact ⟨digit, tail, rfl, Decimal.isDigit_of_mem_print mem⟩

theorem ne_of_isDigit {digit byte : UInt8} (isDigit : Decimal.isDigit digit = true)
    (notDigit : Decimal.isDigit byte = false) : digit ≠ byte := by
  intro equal
  rw [equal, notDigit] at isDigit
  exact Bool.false_ne_true isDigit

theorem isSpace_of_isDigit {digit : UInt8} (isDigit : Decimal.isDigit digit = true) :
    isSpace digit = false := by
  simp only [Decimal.isDigit, Bool.and_eq_true, decide_eq_true_eq, UInt8.le_iff_toNat_le]
    at isDigit
  have lower : 48 ≤ digit.toNat := isDigit.1
  have notSpace : digit ≠ 32 := by
    rintro rfl
    exact absurd lower (by decide)
  have above : ¬digit ≤ 13 := by
    simp only [UInt8.le_iff_toNat_le]
    change ¬digit.toNat ≤ 13
    omega
  simp [isSpace, notSpace, above]

theorem strtol_print_append (number : ℕ) {rest : Bytes}
    (stops : ∀ byte, rest.head? = some byte → Decimal.isDigit byte = false) :
    strtol (Decimal.print number ++ rest) = some (number : ℤ) := by
  rcases exists_digit_cons_print number with ⟨digit, tail, shape, isDigit⟩
  have readAll := Decimal.read_print_append number rest stops
  rw [shape, List.cons_append] at readAll
  have noSpace : (digit :: (tail ++ rest)).dropWhile isSpace = digit :: (tail ++ rest) := by
    simp [isSpace_of_isDigit isDigit]
  rw [strtol, shape, List.cons_append, noSpace]
  split
  · rename_i digits equal
    exact absurd (List.cons.inj equal).1 (ne_of_isDigit isDigit (by decide))
  · rename_i digits equal
    exact absurd (List.cons.inj equal).1 (ne_of_isDigit isDigit (by decide))
  · rw [readAll]
    rfl

/-- `std::stoll` undoes `std::to_string` in front of a byte that is no digit. -/
theorem stoll_print_append {number : ℕ} (fits : (number : ℤ) ≤ int64Max) (rest : Bytes)
    (stops : ∀ byte, rest.head? = some byte → Decimal.isDigit byte = false) :
    stoll (Decimal.print number ++ rest) = some (number : ℤ) := by
  rw [stoll, strtol_print_append number stops]
  have lower : int64Min ≤ (number : ℤ) := by
    simp only [int64Min]
    omega
  simp [Option.filter, lower, fits]

theorem stdToString_of_nonneg {number : ℤ} (nonneg : 0 ≤ number) :
    stdToString number = Decimal.print number.toNat := by
  cases number with
  | ofNat magnitude => rfl
  | negSucc magnitude => exact absurd nonneg (by omega)

theorem stoll_stdToString {number : ℤ} (nonneg : 0 ≤ number) (fits : number ≤ int64Max) :
    stoll (stdToString number) = some number := by
  have cast : ((number.toNat : ℕ) : ℤ) = number := Int.toNat_of_nonneg nonneg
  rw [stdToString_of_nonneg nonneg]
  have bounded : ((number.toNat : ℕ) : ℤ) ≤ int64Max := by
    rw [cast]
    exact fits
  have parsed := stoll_print_append bounded [] (by simp)
  rw [List.append_nil, cast] at parsed
  exact parsed

/-- Whatever `std::stoll` returns, a string can have that length. -/
theorem stoll_toNat_le {text : Bytes} {number : ℤ} (parsed : stoll text = some number) :
    number.toNat ≤ maxStringSize := by
  have inside := (Option.filter_eq_some_iff.mp parsed).2
  rw [Bool.and_eq_true, decide_eq_true_eq, decide_eq_true_eq] at inside
  have upper := inside.2
  simp only [int64Max] at upper
  simp only [maxStringSize]
  omega

theorem stoi_print_append {number : ℕ} (fits : number < 2 ^ 31) (rest : Bytes)
    (stops : ∀ byte, rest.head? = some byte → Decimal.isDigit byte = false) :
    stoi (Decimal.print number ++ rest) = some (number : ℤ) := by
  rw [stoi, strtol_print_append number stops]
  have lower : -2 ^ 31 ≤ (number : ℤ) := by omega
  have upper : (number : ℤ) ≤ 2 ^ 31 - 1 := by omega
  simp only [Option.filter, lower, upper, decide_true, Bool.and_self, if_true]

end RedisCpp
