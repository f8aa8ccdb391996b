import SystemProgramming.Lib.Fuel
import Mathlib.Logic.Function.Basic

/-! # Arrays that end with a null pointer

Such an array holds the list of the pointers in front of its first null pointer; what lies behind that
is unknown. The loops here look for an item, and remove one by moving what follows it.
-/

namespace SystemProgramming.Lib

variable {α : Type*}

/-- The array holds the list. -/
def Terminated (cells : ℕ → Option α) (items : List α) : Prop :=
  ∀ i ≤ items.length, cells i = items[i]?

/-- The first index from `i` on with a null pointer or an item that stops the loop. -/
def seek (stop : α → Bool) (cells : ℕ → Option α) : ℕ → ℕ → Option ℕ
  | 0, _ => none
  | fuel + 1, i =>
    match cells i with
    | none => some i
    | some item => if stop item then some i else seek stop cells fuel (i + 1)

/-- Move the next `count` pointers from index `k` on down by `gap`. -/
def shift (gap : ℕ) : (ℕ → Option α) → ℕ → ℕ → ℕ → Option α
  | cells, _, 0 => cells
  | cells, k, count + 1 => shift gap (Function.update cells k (cells (k + gap))) (k + 1) count

section

variable {cells : ℕ → Option α} {items before after : List α}

theorem terminated_getElem? (items : List α) : Terminated (fun i => items[i]?) items := fun _ _ => rfl

theorem Terminated.get {item : α} (holds : Terminated cells (before ++ item :: after)) :
    cells before.length = some item := by
  rw [holds _ (by simp)]
  simp

theorem Terminated.end (holds : Terminated cells items) : cells items.length = none := by
  rw [holds _ (Nat.le_refl _)]
  simp

theorem Terminated.length_le {other : List α} (holds : Terminated cells items)
    (also : Terminated cells other) : items.length ≤ other.length := by
  by_contra longer
  have inside := holds other.length (by omega)
  rw [also.end, List.getElem?_eq_getElem (by omega)] at inside
  cases inside

/-- An array holds one list only. -/
theorem Terminated.unique {other : List α} (holds : Terminated cells items)
    (also : Terminated cells other) : items = other := by
  have same := Nat.le_antisymm (holds.length_le also) (also.length_le holds)
  apply List.ext_getElem?
  intro i
  by_cases inside : i ≤ items.length
  · rw [← holds i inside, ← also i (same ▸ inside)]
  · rw [List.getElem?_eq_none (by omega), List.getElem?_eq_none (by omega)]

theorem Terminated.converges_seek (holds : Terminated cells items) (stop : α → Bool) {i : ℕ}
    (inside : i ≤ items.length) :
    Converges (fun fuel => seek stop cells fuel i) (i + (items.drop i).findIdx stop) := by
  induction rest : items.drop i generalizing i with
  | nil =>
    have last : i = items.length := Nat.le_antisymm inside (List.drop_eq_nil_iff.mp rest)
    refine .of_succ (g := fun _ => some i) (fun fuel => ?_) (.of_forall fun _ => rfl)
    rw [seek, last, holds.end]
  | cons item later ih =>
    have more : i < items.length := by
      by_contra last
      rw [List.drop_eq_nil_of_le (Nat.le_of_not_lt last)] at rest
      cases rest
    have here : cells i = some item := by
      rw [holds i inside, ← List.head?_drop, rest, List.head?_cons]
    cases stops : stop item with
    | true =>
      refine .of_succ (g := fun _ => some i) (fun fuel => ?_) (.of_forall fun _ => ?_)
      · simp only [seek, here, stops, if_true]
      · rw [List.findIdx_cons, stops, cond_true, Nat.add_zero]
    | false =>
      have tail : items.drop (i + 1) = later := by rw [← List.tail_drop, rest, List.tail_cons]
      refine .of_succ (g := fun fuel => seek stop cells fuel (i + 1)) (fun fuel => ?_) ?_
      · simp only [seek, here, stops, Bool.false_eq_true, if_false]
      · rw [List.findIdx_cons, stops, cond_false, ← Nat.add_assoc, Nat.add_right_comm]
        exact ih more tail

theorem shift_apply (gap : ℕ) (cells : ℕ → Option α) (k count i : ℕ) :
    shift gap cells k count i = if k ≤ i ∧ i < k + count then cells (i + gap) else cells i := by
  induction count generalizing cells k with
  | zero => rw [shift, if_neg (by omega)]
  | succ count ih =>
    rw [shift, ih]
    by_cases first : i = k
    · rw [if_neg (by omega), if_pos (by omega), first, Function.update_self]
    · rw [Function.update_of_ne first]
      by_cases moved : k + 1 ≤ i ∧ i < k + 1 + count
      · rw [if_pos moved, if_pos (by omega), Function.update_of_ne (by omega)]
      · rw [if_neg moved, if_neg (by omega)]

/-- Moving all that follows some items, the null pointer included, removes them. -/
theorem Terminated.shift {removed : List α} (holds : Terminated cells (before ++ removed ++ after)) :
    Terminated (shift removed.length cells before.length (after.length + 1)) (before ++ after) := by
  intro i inside
  rw [List.length_append] at inside
  rw [shift_apply]
  split_ifs with moved
  · rw [holds _ (by simp only [List.length_append]; omega), List.append_assoc,
      List.getElem?_append_right (by omega), List.getElem?_append_right (by omega),
      List.getElem?_append_right moved.1]
    congr 1
    omega
  · rw [holds _ (by simp only [List.length_append]; omega), List.append_assoc,
      List.getElem?_append_left (by omega), List.getElem?_append_left (by omega)]

/-- A null pointer in place of the last item. -/
theorem Terminated.dropLast (holds : Terminated cells items) :
    Terminated (Function.update cells (items.length - 1) none) items.dropLast := by
  intro i inside
  rw [List.length_dropLast] at inside
  by_cases last : i = items.length - 1
  · rw [last, Function.update_self, List.getElem?_eq_none (by simp)]
  · rw [Function.update_of_ne last, holds i (by omega), List.getElem?_dropLast, if_pos (by omega)]

end

end SystemProgramming.Lib
