import Mathlib.Data.Nat.Digits.Defs
import Mathlib.Tactic.Linarith
import Mathlib.Tactic.Ring

/-! # Little-endian integers in memory

Bytes read as an unsigned or a two's complement integer, least significant byte first. The sign of
a wide integer is the sign of its upper part, whatever the lower part holds.
-/

namespace SystemProgramming.Lib

/-- The unsigned integer in some bytes. -/
def unsigned (bytes : List UInt8) : ℕ := Nat.ofDigits 256 (bytes.map UInt8.toNat)

/-- The two's complement integer in some bytes. -/
def signed (bytes : List UInt8) : ℤ :=
  if 2 * unsigned bytes < 256 ^ bytes.length then unsigned bytes
  else unsigned bytes - 256 ^ bytes.length

/-- The lowest `size` bytes of an integer. -/
def encode (size : ℕ) (value : ℕ) : List UInt8 :=
  (List.range size).map fun i => UInt8.ofNat (value / 256 ^ i)

theorem unsigned_append (lower upper : List UInt8) :
    unsigned (lower ++ upper) = unsigned lower + 256 ^ lower.length * unsigned upper := by
  rw [unsigned, List.map_append, Nat.ofDigits_append, List.length_map]
  rfl

theorem unsigned_cons (b : UInt8) (bytes : List UInt8) :
    unsigned (b :: bytes) = b.toNat + 256 * unsigned bytes := by
  rw [unsigned, List.map_cons, Nat.ofDigits_cons]
  rfl

theorem unsigned_lt (bytes : List UInt8) : unsigned bytes < 256 ^ bytes.length := by
  have digits : ∀ d ∈ bytes.map UInt8.toNat, d < 256 := by
    intro d member
    obtain ⟨b, -, rfl⟩ := List.mem_map.mp member
    exact b.toNat_lt
  rw [unsigned, ← List.length_map (f := UInt8.toNat)]
  exact Nat.ofDigits_lt_base_pow_length (by decide) digits

theorem unsigned_eq_zero_iff (bytes : List UInt8) : unsigned bytes = 0 ↔ ∀ b ∈ bytes, b = 0 := by
  induction bytes with
  | nil => simp [unsigned]
  | cons b bytes ih =>
    have zero : b.toNat = 0 ↔ b = 0 := by rw [← UInt8.toNat_inj]; rfl
    rw [unsigned_cons, List.forall_mem_cons, ← ih, ← zero]
    omega

@[simp] theorem length_encode (size value : ℕ) : (encode size value).length = size := by
  simp [encode]

theorem unsigned_encode (size value : ℕ) : unsigned (encode size value) = value % 256 ^ size := by
  induction size with
  | zero => simp [encode, unsigned, Nat.mod_one]
  | succ size ih =>
    have last : encode (size + 1) value = encode size value ++ [UInt8.ofNat (value / 256 ^ size)] := by
      simp [encode, List.range_succ]
    rw [last, unsigned_append, ih, length_encode, Nat.mod_pow_succ]
    simp [unsigned]

/-- The lower part of a wide integer only adds to it. -/
theorem signed_append (lower upper : List UInt8) (nonempty : upper ≠ []) :
    signed (lower ++ upper) = unsigned lower + 256 ^ lower.length * signed upper := by
  obtain ⟨half, even⟩ : ∃ half, 256 ^ upper.length = 2 * half := by
    obtain ⟨b, bytes, rfl⟩ := List.exists_cons_of_ne_nil nonempty
    exact ⟨128 * 256 ^ bytes.length, by rw [List.length_cons, pow_succ]; ring⟩
  have bound := unsigned_lt lower
  have sign : 2 * unsigned (lower ++ upper) < 256 ^ (lower ++ upper).length ↔
      2 * unsigned upper < 256 ^ upper.length := by
    rw [unsigned_append, List.length_append, pow_add, even]
    generalize 256 ^ lower.length = base at bound
    constructor
    · intro less
      by_contra large
      have : base * half ≤ base * unsigned upper := Nat.mul_le_mul_left _ (by omega)
      have : base * (2 * half) = 2 * (base * half) := by ring
      omega
    · intro less
      have : base * (unsigned upper + 1) ≤ base * half := Nat.mul_le_mul_left _ (by omega)
      have : base * (2 * half) = 2 * (base * half) := by ring
      rw [Nat.mul_add] at *
      omega
  unfold signed
  split_ifs with wide narrow narrow
  · rw [unsigned_append]; push_cast; rfl
  · exact absurd (sign.mp wide) narrow
  · exact absurd (sign.mpr narrow) wide
  · rw [unsigned_append, List.length_append]; push_cast; ring

theorem signed_eq_zero_iff (bytes : List UInt8) : signed bytes = 0 ↔ unsigned bytes = 0 := by
  have bound : (unsigned bytes : ℤ) < 256 ^ bytes.length := by exact_mod_cast unsigned_lt bytes
  have base : (0 : ℕ) < 256 ^ bytes.length := by positivity
  unfold signed
  split_ifs <;> omega

/-- A wide integer is negative exactly when its upper part is. -/
theorem signed_append_nonneg_iff (lower upper : List UInt8) (nonempty : upper ≠ []) :
    0 ≤ signed (lower ++ upper) ↔ 0 ≤ signed upper := by
  have bound : (unsigned lower : ℤ) < 256 ^ lower.length := by exact_mod_cast unsigned_lt lower
  have base : (0 : ℤ) < 256 ^ lower.length := by positivity
  rw [signed_append lower upper nonempty]
  constructor
  · intro nonneg
    by_contra negative
    have : (256 ^ lower.length : ℤ) * signed upper ≤ 256 ^ lower.length * (-1) :=
      mul_le_mul_of_nonneg_left (by omega) base.le
    omega
  · intro nonneg
    have := mul_nonneg base.le nonneg
    omega

/-- The sign is that of the last byte. -/
theorem signed_nonneg_iff (lower : List UInt8) (top : UInt8) :
    0 ≤ signed (lower ++ [top]) ↔ top < 128 := by
  have small := top.toNat_lt
  rw [signed_append_nonneg_iff _ _ (List.cons_ne_nil _ _), UInt8.lt_iff_toNat_lt]
  simp only [signed, unsigned, List.map_cons, List.map_nil, Nat.ofDigits_singleton,
    List.length_singleton, UInt8.reduceToNat]
  split_ifs <;> omega

end SystemProgramming.Lib
