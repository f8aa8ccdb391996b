import Mathlib.Data.BitVec
import Mathlib.Data.Set.BooleanAlgebra
import Mathlib.Data.Set.Disjoint
import Mathlib.Order.CompletePartialOrder
import Mathlib.Tactic.Common

/-! # Arcs of machine words

The numbers a counter of fixed width runs through form an arc of the circle of words. Two arcs are
disjoint exactly if the second starts after the first has ended and ends before the first starts
again.
-/

namespace SystemProgramming.Lib

variable {w : ℕ}

/-- The `length` words from `start` on, around the end of the range. -/
def arc (start : BitVec w) (length : ℕ) : Set (BitVec w) :=
  {n | ∃ k < length, n = start + BitVec.ofNat w k}

theorem mem_arc_iff {start n : BitVec w} {length : ℕ} (fits : length ≤ 2 ^ w) :
    n ∈ arc start length ↔ (n - start).toNat < length := by
  constructor
  · rintro ⟨k, below, rfl⟩
    rw [BitVec.add_comm, BitVec.add_sub_cancel, BitVec.toNat_ofNat, Nat.mod_eq_of_lt (by omega)]
    exact below
  · intro below
    refine ⟨(n - start).toNat, below, ?_⟩
    rw [BitVec.ofNat_toNat, BitVec.setWidth_eq, BitVec.add_comm, BitVec.sub_add_cancel]

theorem start_mem_arc {start : BitVec w} {length : ℕ} (nonempty : 0 < length) :
    start ∈ arc start length := ⟨0, nonempty, by simp⟩

theorem arc_disjoint_iff {first second : BitVec w} {length length' : ℕ} (nonempty : 0 < length)
    (nonempty' : 0 < length') (fits : length ≤ 2 ^ w) (fits' : length' ≤ 2 ^ w) :
    Disjoint (arc first length) (arc second length') ↔
      length ≤ (second - first).toNat ∧ (second - first).toNat + length' ≤ 2 ^ w := by
  have bound := (second - first).isLt
  constructor
  · intro apart
    have behind : length ≤ (second - first).toNat := by
      by_contra overlap
      have both := (mem_arc_iff fits).mpr (Nat.lt_of_not_le overlap)
      exact Set.disjoint_left.mp apart both (start_mem_arc nonempty')
    refine ⟨behind, ?_⟩
    by_contra overlap
    have back : (first - second).toNat = 2 ^ w - (second - first).toNat := by
      rw [← neg_sub, BitVec.toNat_neg, Nat.mod_eq_of_lt (by omega)]
    have both : first ∈ arc second length' := (mem_arc_iff fits').mpr (by omega)
    exact Set.disjoint_left.mp apart (start_mem_arc nonempty) both
  · rintro ⟨behind, before⟩
    rw [Set.disjoint_left]
    intro n left right
    rw [mem_arc_iff fits] at left
    rw [mem_arc_iff fits'] at right
    have split : n - first = n - second + (second - first) :=
      (sub_add_sub_cancel n second first).symm
    rw [split, BitVec.toNat_add, Nat.mod_eq_of_lt (by omega)] at left
    omega

end SystemProgramming.Lib
