import Mathlib.Tactic.Common
import Mathlib.Algebra.Group.Nat.Defs
import Mathlib.Data.List.Basic
import Mathlib.Data.List.TakeWhile

/-! # Decimal numbers as bytes

A number is printed as its decimal digits, a negative one behind a minus sign. What is printed reads back,
whatever follows it, if that does not begin with another digit.
-/

namespace SystemProgramming.Lib

def isDigit (byte : UInt8) : Bool := 48 ≤ byte && byte ≤ 57

/-- The digits of a natural number. -/
def digits (n : ℕ) : List UInt8 := (Nat.toDigits 10 n).map fun c => UInt8.ofNat c.toNat

/-- The number that a list of digits stands for. -/
def ofDigits (text : List UInt8) : ℕ := text.foldl (fun n byte => 10 * n + (byte.toNat - 48)) 0

def signedDigits (value : ℤ) : List UInt8 :=
  if value < 0 then 45 :: digits value.natAbs else digits value.natAbs

section

variable {text rest : List UInt8} {n : ℕ}

theorem digits_ne_nil (n : ℕ) : digits n ≠ [] := by simp [digits]

theorem toNat_of_mem_toDigits {c : Char} (listed : c ∈ Nat.toDigits 10 n) :
    48 ≤ c.toNat ∧ c.toNat ≤ 57 ∧ (UInt8.ofNat c.toNat).toNat = c.toNat := by
  have digit := Nat.isDigit_of_mem_toDigits (by decide) (by decide) listed
  simp only [Char.isDigit, Bool.and_eq_true, decide_eq_true_eq, ge_iff_le, UInt32.le_iff_toNat_le]
    at digit
  change 48 ≤ c.toNat ∧ c.toNat ≤ 57 at digit
  refine ⟨digit.1, digit.2, ?_⟩
  rw [UInt8.toNat_ofNat']
  omega

theorem isDigit_of_mem_digits {byte : UInt8} (inside : byte ∈ digits n) : isDigit byte = true := by
  obtain ⟨c, listed, rfl⟩ := List.mem_map.mp inside
  obtain ⟨low, high, same⟩ := toNat_of_mem_toDigits listed
  simp only [isDigit, Bool.and_eq_true, decide_eq_true_eq, UInt8.le_iff_toNat_le, same]
  exact ⟨low, high⟩

theorem ofDigits_digits (n : ℕ) : ofDigits (digits n) = n := by
  have step (chars : List Char) (inside : ∀ c ∈ chars, c ∈ Nat.toDigits 10 n) (init : ℕ) :
      (chars.map fun c => UInt8.ofNat c.toNat).foldl (fun n byte => 10 * n + (byte.toNat - 48)) init =
        Nat.ofDigitChars 10 chars init := by
    induction chars generalizing init with
    | nil => simp
    | cons c chars ih =>
      rw [List.forall_mem_cons] at inside
      rw [List.map_cons, List.foldl_cons, ih inside.2, Nat.ofDigitChars_cons,
        (toNat_of_mem_toDigits inside.1).2.2]
      rfl
  rw [ofDigits, digits, step _ (fun _ inside => inside)]
  exact Nat.ofDigitChars_ten_toDigits

theorem digits_length_le {k : ℕ} (positive : 0 < k) (small : n < 10 ^ k) : (digits n).length ≤ k := by
  rw [digits, List.length_map]
  exact (Nat.length_toDigits_le_iff (by decide) positive).mpr small

/-- The digits end where the rest begins. -/
theorem takeWhile_digits (n : ℕ) (ends : ∀ byte ∈ rest.head?, isDigit byte = false) :
    (digits n ++ rest).takeWhile isDigit = digits n := by
  rw [List.takeWhile_append_of_pos fun byte inside => isDigit_of_mem_digits inside]
  cases rest with
  | nil => simp
  | cons byte rest =>
    have other := ends byte rfl
    rw [List.takeWhile_cons_of_neg (by simp [other]), List.append_nil]

theorem minus_not_mem_digits (n : ℕ) : 45 ∉ digits n :=
  fun inside => absurd (isDigit_of_mem_digits inside) (by decide)

theorem signedDigits_ne_nil (value : ℤ) : signedDigits value ≠ [] := by
  rw [signedDigits]
  split_ifs
  · exact List.cons_ne_nil _ _
  · exact digits_ne_nil _

theorem signedDigits_injective {first second : ℤ} (same : signedDigits first = signedDigits second) :
    first = second := by
  have abs {m n : ℕ} (equal : digits m = digits n) : m = n := by
    rw [← ofDigits_digits m, equal, ofDigits_digits]
  rw [signedDigits, signedDigits] at same
  split_ifs at same with left right right
  · have equal := abs (List.cons.inj same).2
    omega
  · exact absurd (same ▸ List.mem_cons_self ..) (minus_not_mem_digits _)
  · exact absurd (same ▸ List.mem_cons_self ..) (minus_not_mem_digits _)
  · have equal := abs same
    omega

end

end SystemProgramming.Lib
