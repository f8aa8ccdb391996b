import Mathlib.Tactic.Common
import Mathlib.Data.List.Basic
import Mathlib.Order.Lattice

/-! # Records of a sequence

The elements of a list that exceed everything before them and a bound. They are what a loop sees that
compares every element with the greatest so far.
-/

namespace SystemProgramming.Lib

variable {α : Type*} [LinearOrder α]

def records (bound : α) : List α → List α
  | [] => []
  | x :: xs => if bound < x then x :: records x xs else records bound xs

/-- An element is a record when it comes first after smaller ones. -/
theorem mem_records {bound x : α} {xs : List α} :
    x ∈ records bound xs ↔ bound < x ∧ x ∈ xs ∧ ∀ y ∈ xs.takeWhile (· ≠ x), y < x := by
  induction xs generalizing bound with
  | nil => exact iff_of_false List.not_mem_nil fun found => List.not_mem_nil found.2.1
  | cons a xs ih =>
    rw [records, List.takeWhile_cons, List.mem_cons]
    split_ifs with greater other other
    · rw [List.mem_cons, ih, List.forall_mem_cons]
      have apart : x ≠ a := by simpa using Ne.symm (by simpa using other)
      constructor
      · rintro (same | ⟨above, inside, first⟩)
        · exact absurd same apart
        · exact ⟨greater.trans above, .inr inside, above, first⟩
      · rintro ⟨-, inside, above, first⟩
        exact .inr ⟨above, inside.resolve_left apart, first⟩
    · obtain rfl : a = x := by simpa using other
      rw [List.mem_cons]
      exact iff_of_true (.inl rfl) ⟨greater, .inl rfl, fun y impossible => by simp at impossible⟩
    · rw [ih, List.forall_mem_cons]
      have apart : x ≠ a := by simpa using Ne.symm (by simpa using other)
      constructor
      · rintro ⟨above, inside, first⟩
        exact ⟨above, .inr inside, (not_lt.mp greater).trans_lt above, first⟩
      · rintro ⟨above, inside, -, first⟩
        exact ⟨above, inside.resolve_left apart, first⟩
    · obtain rfl : a = x := by simpa using other
      rw [ih]
      exact iff_of_false (fun found => greater found.1) fun found => greater found.1

theorem records_pairwise (bound : α) (xs : List α) : (records bound xs).Pairwise (· < ·) := by
  induction xs generalizing bound with
  | nil => exact .nil
  | cons a xs ih =>
    rw [records]
    split_ifs
    · exact .cons (fun x member => (mem_records.mp member).1) (ih a)
    · exact ih bound

theorem records_nodup (bound : α) (xs : List α) : (records bound xs).Nodup :=
  (records_pairwise bound xs).imp fun less => less.ne

theorem le_foldl_max (bound : α) (xs : List α) : bound ≤ xs.foldl max bound := by
  induction xs generalizing bound with
  | nil => exact le_rfl
  | cons a xs ih => exact (le_max_left bound a).trans (ih _)

/-- The next element is a record when it exceeds the greatest so far. -/
theorem records_concat (bound x : α) (xs : List α) :
    records bound (xs ++ [x]) = records bound xs ++ if xs.foldl max bound < x then [x] else [] := by
  induction xs generalizing bound with
  | nil => rfl
  | cons a xs ih =>
    rw [List.cons_append, List.foldl_cons]
    by_cases greater : bound < a
    · rw [max_eq_right greater.le]
      simp only [records, if_pos greater, ih, List.cons_append]
    · rw [max_eq_left (not_lt.mp greater)]
      simp only [records, if_neg greater, ih]

end SystemProgramming.Lib
