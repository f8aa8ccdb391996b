import SystemProgramming.Lib.Decimal
import Mathlib.Algebra.Ring.Int.Defs

/-! # Conversions of formatted input

A conversion takes what it accepts from the front of a text and leaves the rest, or has no result. Numbers
and words skip blanks in front of them. A text that goes on with a byte no number can contain is converted
like the text in front of that byte.
-/

namespace SystemProgramming.Lib

/-- `isspace` in the C locale. -/
def isBlank (byte : UInt8) : Bool := byte == 32 || (9 ≤ byte && byte ≤ 13)

/-- A blank in the format. -/
def skipBlank (text : List UInt8) : List UInt8 := text.dropWhile isBlank

/-- The number at the front of a text behind its sign; one out of range becomes the nearest `long`. -/
def takeNumber (negative : Bool) (text : List UInt8) : Option (ℤ × List UInt8) :=
  let number := text.takeWhile isDigit
  if number = [] then none
  else
    let value : ℤ := if negative then -ofDigits number else ofDigits number
    some (max (-2 ^ 63) (min value (2 ^ 63 - 1)), text.drop number.length)

/-- `%ld`. -/
def scanLong (text : List UInt8) : Option (ℤ × List UInt8) :=
  let text := skipBlank text
  if text.head? = some 45 then takeNumber true text.tail
  else if text.head? = some 43 then takeNumber false text.tail
  else takeNumber false text

/-- `atoi`: `strtol` cut to an `int`, and 0 without a number. -/
def atoi (text : List UInt8) : BitVec 32 := BitVec.ofInt 32 ((scanLong text).elim 0 Prod.fst)

/-- `%s`: everything up to the next blank. -/
def scanWord (text : List UInt8) : Option (List UInt8 × List UInt8) :=
  let text := skipBlank text
  let word := text.takeWhile fun byte => !isBlank byte
  if word = [] then none else some (word, text.drop word.length)

/-- `%c`: the next byte, a blank or not. -/
def scanChar : List UInt8 → Option (UInt8 × List UInt8)
  | [] => none
  | byte :: rest => some (byte, rest)

/-- `%[^\n]`. -/
def scanLine (text : List UInt8) : Option (List UInt8 × List UInt8) :=
  let line := text.takeWhile fun byte => byte != 10
  if line = [] then none else some (line, text.drop line.length)

section

variable {text word rest : List UInt8} {byte : UInt8}

@[simp] theorem skipBlank_cons_of_blank (blank : isBlank byte = true) :
    skipBlank (byte :: rest) = skipBlank rest := by
  rw [skipBlank, List.dropWhile_cons_of_pos blank]
  rfl

theorem skipBlank_cons_of_not (solid : isBlank byte = false) :
    skipBlank (byte :: rest) = byte :: rest := by
  rw [skipBlank, List.dropWhile_cons_of_neg (by simp [solid])]

/-- A byte that is not a blank ends the blanks. -/
theorem skipBlank_append_cons (solid : isBlank byte = false) (text : List UInt8) :
    skipBlank (text ++ byte :: rest) = skipBlank text ++ byte :: rest := by
  induction text with
  | nil => exact skipBlank_cons_of_not solid
  | cons first text ih =>
    cases blank : isBlank first with
    | true => rw [List.cons_append, skipBlank_cons_of_blank blank, skipBlank_cons_of_blank blank, ih]
    | false => rw [List.cons_append, skipBlank_cons_of_not blank, skipBlank_cons_of_not blank,
        List.cons_append]

theorem scanLong_cons_of_blank (blank : isBlank byte = true) :
    scanLong (byte :: rest) = scanLong rest := by
  rw [scanLong, scanLong, skipBlank_cons_of_blank blank]

theorem takeNumber_digits (negative : Bool) {n : ℕ} (small : n < 2 ^ 63)
    (ends : ∀ byte ∈ rest.head?, isDigit byte = false) :
    takeNumber negative (digits n ++ rest) = some (if negative then -(n : ℤ) else n, rest) := by
  rw [takeNumber, takeWhile_digits n ends]
  simp only [digits_ne_nil, if_false, List.drop_left, ofDigits_digits]
  congr 2
  split_ifs <;> omega

/-- A number ends at a byte that is not a digit. -/
theorem takeNumber_append_cons (stop : isDigit byte = false) (negative : Bool) (text : List UInt8) :
    takeNumber negative (text ++ byte :: rest) =
      (takeNumber negative text).map fun taken => (taken.1, taken.2 ++ byte :: rest) := by
  have same : (text ++ byte :: rest).takeWhile isDigit = text.takeWhile isDigit := by
    rw [List.takeWhile_append]
    split_ifs with whole
    · rw [List.takeWhile_cons_of_neg (by simp [stop]), List.append_nil,
        (List.takeWhile_prefix _).eq_of_length whole]
    · rfl
  rw [takeNumber, takeNumber, same]
  dsimp only
  split_ifs
  · rfl
  all_goals
    rw [Option.map_some, List.drop_append_of_le_length (List.takeWhile_prefix _).length_le]

theorem digit_plain (digit : isDigit byte = true) : isBlank byte = false ∧ byte ≠ 45 ∧ byte ≠ 43 := by
  simp only [isDigit, Bool.and_eq_true, decide_eq_true_eq, UInt8.le_iff_toNat_le] at digit
  change 48 ≤ byte.toNat ∧ byte.toNat ≤ 57 at digit
  have apart (other : UInt8) (below : other.toNat < 48) : byte ≠ other := by
    rintro rfl
    omega
  refine ⟨?_, apart 45 (by decide), apart 43 (by decide)⟩
  have above : ¬ byte ≤ 13 := by
    rw [UInt8.le_iff_toNat_le]
    change ¬ byte.toNat ≤ 13
    omega
  simp [isBlank, apart 32 (by decide), above]

/-- A printed number reads back. -/
theorem scanLong_signedDigits {value : ℤ} (low : -2 ^ 63 < value) (high : value < 2 ^ 63)
    (ends : ∀ byte ∈ rest.head?, isDigit byte = false) :
    scanLong (signedDigits value ++ rest) = some (value, rest) := by
  rw [signedDigits]
  split_ifs with negative
  · rw [scanLong, List.cons_append, skipBlank_cons_of_not (by decide)]
    simp only [List.head?_cons, if_true, List.tail_cons]
    rw [takeNumber_digits true (by omega) ends, if_pos rfl]
    congr 2
    omega
  · obtain ⟨byte, more, split⟩ := List.exists_cons_of_ne_nil (digits_ne_nil value.natAbs)
    obtain ⟨solid, minus, plus⟩ := digit_plain (isDigit_of_mem_digits (split ▸ List.mem_cons_self ..))
    have front : (digits value.natAbs ++ rest).head? = some byte := by rw [split]; rfl
    have unskipped : skipBlank (digits value.natAbs ++ rest) = digits value.natAbs ++ rest := by
      rw [split, List.cons_append, skipBlank_cons_of_not solid]
    rw [scanLong, unskipped]
    simp only [front, Option.some.injEq, minus, plus, if_false]
    rw [takeNumber_digits false (by omega) ends, if_neg (by decide)]
    congr 2
    omega

theorem scanWord_cons_of_blank (blank : isBlank byte = true) :
    scanWord (byte :: rest) = scanWord rest := by
  rw [scanWord, scanWord, skipBlank_cons_of_blank blank]

/-- A word in front of a blank. -/
theorem scanWord_append (nonempty : word ≠ []) (solid : ∀ byte ∈ word, isBlank byte = false)
    (blank : isBlank byte = true) :
    scanWord (word ++ byte :: rest) = some (word, byte :: rest) := by
  obtain ⟨first, more, rfl⟩ := List.exists_cons_of_ne_nil nonempty
  have unskipped : skipBlank (first :: more ++ byte :: rest) = first :: more ++ byte :: rest :=
    skipBlank_cons_of_not (solid first (List.mem_cons_self ..))
  have taken : (first :: more ++ byte :: rest).takeWhile (fun byte => !isBlank byte) = first :: more := by
    rw [List.takeWhile_append_of_pos (by simpa using solid), List.takeWhile_cons_of_neg (by simp [blank]),
      List.append_nil]
  rw [scanWord, unskipped]
  simp only [taken, reduceCtorEq, if_false, List.drop_left]

theorem scanWord_replicate (count : ℕ) (text : List UInt8) :
    scanWord (List.replicate count 32 ++ text) = scanWord text := by
  induction count with
  | zero => rfl
  | succ count ih => rw [List.replicate_succ, List.cons_append, scanWord_cons_of_blank rfl, ih]

theorem isBlank_of_mem_signedDigits {value : ℤ} :
    ∀ byte ∈ signedDigits value, isBlank byte = false := by
  intro byte inside
  rw [signedDigits] at inside
  split_ifs at inside
  · rcases List.mem_cons.mp inside with rfl | digit
    · rfl
    · exact (digit_plain (isDigit_of_mem_digits digit)).1
  · exact (digit_plain (isDigit_of_mem_digits inside)).1

/-- A byte that no number contains ends the text for `%ld`. -/
theorem scanLong_append_cons (solid : isBlank byte = false) (stop : isDigit byte = false)
    (minus : byte ≠ 45) (plus : byte ≠ 43) (text : List UInt8) :
    scanLong (text ++ byte :: rest) =
      (scanLong text).map fun taken => (taken.1, taken.2 ++ byte :: rest) := by
  rw [scanLong, scanLong, skipBlank_append_cons solid]
  cases begins : skipBlank text with
  | nil =>
    simp only [List.nil_append, List.head?_cons, Option.some.injEq, minus, plus, if_false, List.head?_nil,
      reduceCtorEq]
    exact takeNumber_append_cons stop false []
  | cons first more =>
    simp only [List.cons_append, List.head?_cons, List.tail_cons, Option.some.injEq]
    by_cases negative : first = 45
    · rw [if_pos negative, if_pos negative]
      exact takeNumber_append_cons stop true more
    · rw [if_neg negative, if_neg negative]
      by_cases positive : first = 43
      · rw [if_pos positive, if_pos positive]
        exact takeNumber_append_cons stop false more
      · rw [if_neg positive, if_neg positive]
        exact takeNumber_append_cons stop false (first :: more)

end

end SystemProgramming.Lib
