import Mathlib.Data.Nat.Basic
import Mathlib.Data.List.TakeWhile

/-!
# Decimal numerals over bytes

Printing a natural number in base ten as ASCII bytes, and reading the longest
run of digits at the head of a byte string.  The two are inverse to each other
as long as the bytes that follow the printed numeral do not start with a digit,
which is the only fact about numerals that a length-prefixed format relies on.
-/

namespace Decimal

/-- The ASCII decimal digits. -/
def isDigit (byte : UInt8) : Bool :=
  48 ≤ byte && byte ≤ 57

/-- The numeral of a natural number, most significant digit first. -/
def print (number : ℕ) : List UInt8 :=
  (Nat.toDigits 10 number).map Char.toUInt8

/-- Positional value of a byte string all of whose bytes are digits. -/
def value (digits : List UInt8) : ℕ :=
  digits.foldl (fun acc digit => 10 * acc + (digit.toNat - 48)) 0

/-- The longest run of digits at the head of a byte string, read as a number,
together with the bytes after it.  There is no number without a digit. -/
def read (bytes : List UInt8) : Option (ℕ × List UInt8) :=
  match bytes.takeWhile isDigit with
  | [] => none
  | digits => some (value digits, bytes.dropWhile isDigit)

theorem isDigit_toUInt8 {char : Char} (digit : char.isDigit = true) :
    isDigit char.toUInt8 = true ∧ char.toUInt8.toNat - 48 = char.toNat - '0'.toNat := by
  simp only [Char.isDigit, Bool.and_eq_true, decide_eq_true_eq] at digit
  rcases digit with ⟨lower, upper⟩
  have bounds : 48 ≤ char.toNat ∧ char.toNat ≤ 57 := ⟨lower, upper⟩
  have toNat_eq : char.toUInt8.toNat = char.toNat := by
    simp only [Char.toUInt8, UInt32.toNat_toUInt8]
    change char.toNat % 256 = char.toNat
    omega
  constructor
  · simp only [isDigit, Bool.and_eq_true, decide_eq_true_eq, UInt8.le_iff_toNat_le, toNat_eq]
    exact bounds
  · rw [toNat_eq]
    rfl

theorem print_ne_nil (number : ℕ) : print number ≠ [] := by
  simp [print, Nat.toDigits_ne_nil]

theorem isDigit_of_mem_print {number : ℕ} {byte : UInt8} (mem : byte ∈ print number) :
    isDigit byte = true := by
  rcases List.mem_map.mp mem with ⟨char, char_mem, rfl⟩
  exact (isDigit_toUInt8 (Nat.isDigit_of_mem_toDigits (by omega) (by omega) char_mem)).1

private theorem foldl_map_toUInt8 (chars : List Char)
    (digits : ∀ char ∈ chars, char.isDigit = true) (acc : ℕ) :
    (chars.map Char.toUInt8).foldl (fun acc digit => 10 * acc + (digit.toNat - 48)) acc =
      Nat.ofDigitChars 10 chars acc := by
  induction chars generalizing acc with
  | nil => simp
  | cons char rest ih =>
      have head := (isDigit_toUInt8 (digits char (by simp))).2
      rw [Nat.ofDigitChars_cons, List.map_cons, List.foldl_cons, head]
      exact ih (fun next next_mem => digits next (by simp [next_mem])) _

@[simp]
theorem value_print (number : ℕ) : value (print number) = number := by
  rw [value, print, foldl_map_toUInt8]
  · simp
  · intro char char_mem
    exact Nat.isDigit_of_mem_toDigits (by omega) (by omega) char_mem

private theorem le_foldl_value (digits : List UInt8) (acc : ℕ) :
    acc ≤ digits.foldl (fun acc digit => 10 * acc + (digit.toNat - 48)) acc := by
  induction digits generalizing acc with
  | nil => exact le_refl _
  | cons digit rest ih =>
      have step : acc ≤ 10 * acc + (digit.toNat - 48) := by omega
      rw [List.foldl_cons]
      exact step.trans (ih _)

/-- A numeral that is cut off stands for a smaller number. -/
theorem value_take_le (digits : List UInt8) (count : ℕ) :
    value (digits.take count) ≤ value digits := by
  calc value (digits.take count)
      ≤ value (digits.take count ++ digits.drop count) := by
        rw [value, value, List.foldl_append]
        exact le_foldl_value _ _
    _ = value digits := by rw [List.take_append_drop]

/-- What is read is the longest run of digits at the head. -/
theorem read_eq_some_iff {bytes rest : List UInt8} {number : ℕ} :
    read bytes = some (number, rest) ↔
      ∃ digits, bytes = digits ++ rest ∧ digits ≠ [] ∧ (∀ byte ∈ digits, isDigit byte = true) ∧
        (∀ byte, rest.head? = some byte → isDigit byte = false) ∧ number = value digits := by
  constructor
  · intro found
    have parts := (List.takeWhile_append_dropWhile (p := isDigit) (l := bytes)).symm
    rw [read] at found
    split at found
    · cases found
    · rename_i nonempty
      simp only [Option.some.injEq, Prod.mk.injEq] at found
      rcases found with ⟨rfl, rfl⟩
      refine ⟨bytes.takeWhile isDigit, parts, nonempty, ?_, ?_, rfl⟩
      · intro byte mem
        exact List.mem_takeWhile_imp mem
      · intro byte first
        have stops := List.head?_dropWhile_not isDigit bytes
        simpa only [first] using stops
  · rintro ⟨digits, rfl, nonempty, allDigits, stops, rfl⟩
    have rest_take : rest.takeWhile isDigit = [] := by
      cases rest with
      | nil => rfl
      | cons byte tail => simp [stops byte rfl]
    have rest_drop : rest.dropWhile isDigit = rest := by
      cases rest with
      | nil => rfl
      | cons byte tail => simp [stops byte rfl]
    rw [read, List.takeWhile_append_of_pos allDigits, rest_take, List.append_nil,
      List.dropWhile_append_of_pos allDigits, rest_drop]
    cases digits with
    | nil => exact absurd rfl nonempty
    | cons digit digits => rfl

/-- Reading undoes printing in front of any bytes that do not start with a digit. -/
theorem read_print_append (number : ℕ) (rest : List UInt8)
    (stops : ∀ byte, rest.head? = some byte → isDigit byte = false) :
    read (print number ++ rest) = some (number, rest) :=
  read_eq_some_iff.mpr ⟨print number, rfl, print_ne_nil number,
    fun _ mem => isDigit_of_mem_print mem, stops, (value_print number).symm⟩

/-- A byte string of digits is read as a whole. -/
theorem read_of_digits {bytes rest : List UInt8} {number : ℕ}
    (digits : ∀ byte ∈ bytes, isDigit byte = true) (found : read bytes = some (number, rest)) :
    number = value bytes := by
  rcases read_eq_some_iff.mp found with ⟨front, rfl, -, -, stops, rfl⟩
  cases rest with
  | nil => rw [List.append_nil]
  | cons byte tail =>
      have digit := digits byte (by simp)
      rw [stops byte rfl] at digit
      exact Bool.noConfusion digit

@[simp]
theorem read_print (number : ℕ) : read (print number) = some (number, []) := by
  simpa using read_print_append number [] (by simp)

end Decimal
