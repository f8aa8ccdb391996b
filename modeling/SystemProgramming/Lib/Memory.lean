import Mathlib.Tactic.Common
import Mathlib.Data.List.Basic

/-! # A stretch of memory

The bytes from the start of an object on, without an end, so that copies that run past the object
read and write what lies behind it. Loads split at any offset, a load reads back a store, and a
store elsewhere does not matter.
-/

namespace SystemProgramming.Lib

abbrev Memory := ℕ → UInt8

namespace Memory

/-- The `size` bytes from `offset` on. -/
def load (m : Memory) (offset size : ℕ) : List UInt8 :=
  (List.range size).map fun i => m (offset + i)

/-- Overwrite the bytes from `offset` on. -/
def store (m : Memory) (offset : ℕ) (bytes : List UInt8) : Memory := fun i =>
  if i < offset then m i else (bytes[i - offset]?).getD (m i)

variable (m : Memory) (offset : ℕ) (bytes : List UInt8)

@[simp] theorem length_load (size : ℕ) : (m.load offset size).length = size := by
  simp [load]

theorem load_add (first second : ℕ) :
    m.load offset (first + second) = m.load offset first ++ m.load (offset + first) second := by
  simp only [load, List.range_add, List.map_append, List.map_map]
  refine congrArg _ (List.map_congr_left fun i _ => ?_)
  rw [Function.comp_apply, Nat.add_assoc]

theorem load_congr {m' : Memory} {size : ℕ} (same : ∀ i < size, m (offset + i) = m' (offset + i)) :
    m.load offset size = m'.load offset size :=
  List.map_congr_left fun i inside => same i (List.mem_range.mp inside)

theorem store_below {i : ℕ} (below : i < offset) : m.store offset bytes i = m i := if_pos below

theorem store_above {i : ℕ} (above : offset + bytes.length ≤ i) : m.store offset bytes i = m i := by
  rw [store, if_neg (by omega), List.getElem?_eq_none (by omega), Option.getD_none]

theorem store_inside {i : ℕ} (inside : i < bytes.length) :
    m.store offset bytes (offset + i) = bytes[i] := by
  rw [store, if_neg (by omega), Nat.add_sub_cancel_left, List.getElem?_eq_getElem inside,
    Option.getD_some]

/-- A load reads back the store. -/
theorem load_store : (m.store offset bytes).load offset bytes.length = bytes := by
  apply List.ext_getElem (length_load ..)
  intro i _ inside
  simpa only [load, List.getElem_map, List.getElem_range] using store_inside m offset bytes inside

/-- A store behind or before the loaded bytes does not matter. -/
theorem load_store_of_disjoint {start size : ℕ}
    (apart : start + size ≤ offset ∨ offset + bytes.length ≤ start) :
    (m.store offset bytes).load start size = m.load start size := by
  apply load_congr _ _
  intro i inside
  rcases apart with below | above
  · exact store_below _ _ _ (by omega)
  · exact store_above _ _ _ (by omega)

/-- Two adjacent loads copied to the same places restore the bytes loaded. -/
theorem store_loads (other : Memory) (first second : ℕ) {i : ℕ} (inside : i < first + second) :
    (other.store 0 (m.load 0 first)).store first (m.load first second) i = m i := by
  by_cases below : i < first
  · rw [store_below _ _ _ below]
    have copied := other.store_inside 0 (m.load 0 first) (i := i) (by simpa using below)
    rw [Nat.zero_add] at copied
    simpa [load] using copied
  · obtain ⟨k, rfl⟩ := Nat.exists_eq_add_of_le (Nat.not_lt.mp below)
    have copied := (other.store 0 (m.load 0 first)).store_inside first (m.load first second)
      (i := k) (by rw [length_load]; omega)
    simpa [load] using copied

end Memory

end SystemProgramming.Lib
