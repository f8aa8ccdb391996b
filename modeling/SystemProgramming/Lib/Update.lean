import Mathlib.Algebra.GroupWithZero.Nat
import Mathlib.Tactic.Common
import Mathlib.Data.List.Basic
import Mathlib.Logic.Function.Basic

/-! # Updates at one place

Parties of a system are numbered by their position in a list: one of them moves by `List.set`, a new
one is appended. Objects are found by their address in a partial function. These are the case splits
and sums that go with such updates.
-/

namespace SystemProgramming.Lib

variable {α : Type*} {l : List α} {i k : ℕ} {old new a : α}

theorem getElem?_set_cases (there : (l.set i new)[k]? = some a) :
    k = i ∧ a = new ∨ k ≠ i ∧ l[k]? = some a := by
  rw [List.getElem?_set] at there
  split_ifs at there with hit
  · exact .inl ⟨hit.symm, (Option.some.inj there).symm⟩
  · exact .inr ⟨fun same => hit same.symm, there⟩

theorem getElem?_append_cases (there : (l ++ [new])[k]? = some a) :
    k = l.length ∧ a = new ∨ k < l.length ∧ l[k]? = some a := by
  rw [List.getElem?_append] at there
  split_ifs at there with inside
  · exact .inr ⟨inside, there⟩
  · have short := (List.getElem?_eq_some_iff.mp there).1
    rw [List.length_singleton] at short
    obtain rfl : k = l.length := by omega
    rw [Nat.sub_self] at there
    exact .inl ⟨rfl, (Option.some.inj there).symm⟩

theorem lt_length_of_getElem? (here : l[i]? = some a) : i < l.length :=
  (List.getElem?_eq_some_iff.mp here).1

theorem getElem?_append_of_some (here : l[i]? = some a) : (l ++ [new])[i]? = some a :=
  (List.getElem?_append_left (lt_length_of_getElem? here)).trans here

/-- A field that an update keeps is still the same at every position. -/
theorem getElem?_set_of_some {β : Type*} {field : α → β} (here : l[i]? = some old)
    (kept : field new = field old) (there : l[k]? = some a) :
    ∃ b, (l.set i new)[k]? = some b ∧ field b = field a := by
  rw [List.getElem?_set]
  split_ifs with hit inside
  · subst hit
    obtain rfl : old = a := Option.some.inj (here.symm.trans there)
    exact ⟨new, rfl, kept⟩
  · exact absurd (lt_length_of_getElem? here) inside
  · exact ⟨a, there, rfl⟩

theorem update_eq_some {β : Type*} [DecidableEq α] {f : α → Option β} {here there : α} {v : Option β}
    {b : β} : Function.update f here v there = some b ↔
      there = here ∧ v = some b ∨ there ≠ here ∧ f there = some b := by
  rw [Function.update_apply]
  split_ifs with same
  · exact ⟨fun found => .inl ⟨same, found⟩, fun found => found.elim And.right fun h => absurd same h.1⟩
  · exact ⟨fun found => .inr ⟨same, found⟩, fun found => found.elim (fun h => absurd h.1 same) And.right⟩

theorem update_none_eq_some {β : Type*} [DecidableEq α] {f : α → Option β} {here there : α} {b : β} :
    Function.update f here none there = some b ↔ there ≠ here ∧ f there = some b := by
  rw [update_eq_some]
  exact or_iff_right fun ⟨_, absent⟩ => nomatch absent

/-- Replacing one element changes a sum by the difference. -/
theorem sum_map_set (weight : α → ℕ) (here : l[i]? = some old) (new : α) :
    ((l.set i new).map weight).sum + weight old = (l.map weight).sum + weight new := by
  induction l generalizing i with
  | nil => nomatch here
  | cons head l ih =>
    cases i with
    | zero =>
      obtain rfl : head = old := Option.some.inj here
      simp only [List.set_cons_zero, List.map_cons, List.sum_cons]
      omega
    | succ i =>
      have tail := ih (i := i) here
      simp only [List.set_cons_succ, List.map_cons, List.sum_cons]
      omega

/-- The property holds of all entries but the one at `i`. -/
def EveryOther (P : α → Prop) (l : List α) (i : ℕ) : Prop :=
  ∀ (k : ℕ) (a : α), k ≠ i → l[k]? = some a → P a

section

variable {P : α → Prop}

instance [DecidablePred P] : Decidable (EveryOther P l i) :=
  decidable_of_iff (∀ k < l.length, k ≠ i → ∀ a ∈ l[k]?, P a)
    ⟨fun all k a different there => all k (lt_length_of_getElem? there) different a there,
      fun others k _ different a there => others k a different there⟩

theorem getElem?_set_here (here : l[i]? = some old) : (l.set i new)[i]? = some new :=
  List.getElem?_set_self (lt_length_of_getElem? here)

theorem EveryOther.of_forall (all : ∀ a ∈ l, P a) (i : ℕ) : EveryOther P l i :=
  fun _ _ _ there => all _ (List.mem_of_getElem? there)

theorem EveryOther.concat (all : ∀ a ∈ l, P a) (new : α) : EveryOther P (l ++ [new]) l.length := by
  intro k a different there
  rcases getElem?_append_cases there with ⟨same, -⟩ | ⟨-, there⟩
  · exact absurd same different
  · exact all a (List.mem_of_getElem? there)

theorem EveryOther.set (others : EveryOther P l i) (new : α) : EveryOther P (l.set i new) i := by
  intro k a different there
  rw [List.getElem?_set_ne (Ne.symm different)] at there
  exact others k a different there

theorem EveryOther.forall (others : EveryOther P l i) (here : l[i]? = some old) (holds : P old) :
    ∀ a ∈ l, P a := by
  intro a member
  obtain ⟨k, there⟩ := List.mem_iff_getElem?.mp member
  by_cases same : k = i
  · subst same
    cases here.symm.trans there
    exact holds
  · exact others k a same there

theorem EveryOther.forall_set (others : EveryOther P l i) (here : l[i]? = some old)
    (holds : P new) : ∀ a ∈ l.set i new, P a :=
  (others.set new).forall (getElem?_set_here here) holds

/-- An entry without the property is the exceptional one. -/
theorem EveryOther.eq_of_not (others : EveryOther P l i) (there : l[k]? = some a) (fails : ¬ P a) :
    k = i := by
  by_contra different
  exact fails (others k a different there)

end

/-- Of elements with keys of their own one is found by its key. -/
theorem filter_eq_of_nodup_map {β : Type*} [DecidableEq β] {f : α → β} (nodup : (l.map f).Nodup) (member : a ∈ l) :
    (l.filter fun b => f b = f a) = [a] := by
  induction l with
  | nil => cases member
  | cons head rest ih =>
    obtain ⟨fresh, nodup⟩ := List.nodup_cons.mp nodup
    rcases List.mem_cons.mp member with rfl | member
    · have others : (rest.filter fun b => f b = f a) = [] := by
        rw [List.filter_eq_nil_iff]
        intro b later same
        exact fresh (List.mem_map.mpr ⟨b, later, of_decide_eq_true same⟩)
      rw [List.filter_cons_of_pos (by simp), others]
    · have other : f head ≠ f a := by
        intro same
        exact fresh (same ▸ List.mem_map_of_mem member)
      rw [List.filter_cons_of_neg (by simpa using other), ih nodup member]

end SystemProgramming.Lib
