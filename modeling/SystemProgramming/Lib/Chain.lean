import SystemProgramming.Lib.Fuel
import Mathlib.Logic.Function.Basic
import Mathlib.Data.List.Basic

/-! # Chains of links

A table that stores for each entry the link to the next one holds a linked list. `Chain next a? l`
says that following `next` from the link `a?` visits exactly the entries of `l` and then ends, so
a link that leads into a cycle has no chain. Overwriting one link appends to a chain, leaves the
chains that do not pass through it alone, and skipping entries restricts a chain to a predicate.
-/

namespace SystemProgramming.Lib

variable {α : Type*}

/-- Each entry of a list, with whether another one follows. -/
def withLater : List α → List (α × Bool)
  | [] => []
  | a :: l => (a, !l.isEmpty) :: withLater l

theorem map_fst_withLater (l : List α) : (withLater l).map Prod.fst = l := by
  induction l with
  | nil => rfl
  | cons a l ih => rw [withLater, List.map_cons, ih]

/-- The entries visited from a link, in order. -/
inductive Chain (next : α → Option α) : Option α → List α → Prop
  | nil : Chain next none []
  | cons {a : α} {l : List α} : Chain next (next a) l → Chain next (some a) (a :: l)

namespace Chain

variable {next other : α → Option α} {a : α} {a? : Option α} {l : List α}

theorem unique {l' : List α} (left : Chain next a? l) (right : Chain next a? l') : l = l' := by
  induction left generalizing l' with
  | nil => cases right; rfl
  | cons _ ih => cases right with | cons tail => rw [ih tail]

theorem head_eq (chain : Chain next a? l) : a? = l.head? := by
  cases chain <;> rfl

theorem nil_iff : Chain next none l ↔ l = [] := by
  constructor
  · intro chain; cases chain; rfl
  · rintro rfl; exact .nil

theorem some_iff : Chain next (some a) l ↔ ∃ rest, l = a :: rest ∧ Chain next (next a) rest := by
  constructor
  · intro chain
    cases chain with | cons tail => exact ⟨_, rfl, tail⟩
  · rintro ⟨rest, rfl, tail⟩
    exact .cons tail

theorem isSome_iff (chain : Chain next a? l) : a?.isSome = !l.isEmpty := by
  cases chain <;> rfl

/-- The link of an entry says whether another one follows. -/
theorem isSome_of_mem_withLater (chain : Chain next a? l) :
    ∀ entry ∈ withLater l, entry.1 ∈ l ∧ (next entry.1).isSome = entry.2 := by
  induction chain with
  | nil => exact fun entry inside => by cases inside
  | @cons a l tail ih =>
    intro entry inside
    rcases List.mem_cons.mp inside with rfl | further
    · exact ⟨List.mem_cons_self .., tail.isSome_iff⟩
    · exact ⟨List.mem_cons_of_mem _ (ih entry further).1, (ih entry further).2⟩

/-- Links outside the visited entries do not matter. -/
theorem congr (chain : Chain next a? l) (same : ∀ x ∈ l, other x = next x) : Chain other a? l := by
  induction chain with
  | nil => exact .nil
  | @cons a l tail ih =>
    rw [List.forall_mem_cons] at same
    exact .cons (same.1 ▸ ih same.2)

/-- The rest of a chain, from any entry on, is the chain of that entry's link. -/
theorem suffix {before after : List α} (chain : Chain next a? (before ++ a :: after)) :
    Chain next (next a) after := by
  induction before generalizing a? with
  | nil => cases chain with | cons tail => exact tail
  | cons b before ih => cases chain with | cons tail => exact ih tail

/-- A chain never returns to an entry: it would not end. -/
theorem nodup (chain : Chain next a? l) : l.Nodup := by
  induction chain with
  | nil => exact List.nodup_nil
  | @cons a l tail ih =>
    refine List.nodup_cons.mpr ⟨fun member => ?_, ih⟩
    obtain ⟨before, after, rfl⟩ := List.append_of_mem member
    -- the chain behind the second visit is the whole tail again
    have again := congrArg List.length (tail.unique (tail.suffix))
    simp only [List.length_append, List.length_cons] at again
    omega

/-- Overwriting the link of the last entry, or of an entry outside, extends the chain. -/
theorem snoc [DecidableEq α] {last new : α} {before : List α}
    (chain : Chain next a? (before ++ [last])) (outside : new ∉ before ++ [last])
    (free : next new = none) :
    Chain (Function.update next last (some new)) a? (before ++ [last] ++ [new]) := by
  have apart : new ≠ last := by
    rintro rfl
    exact outside (List.mem_append_right _ (List.mem_singleton_self _))
  clear outside
  induction before generalizing a? with
  | nil =>
    obtain rfl := chain.head_eq
    refine .cons ?_
    rw [Function.update_self]
    refine .cons ?_
    rw [Function.update_of_ne apart, free]
    exact .nil
  | cons b before ih =>
    have distinct : b ≠ last := by
      rintro rfl
      exact (List.nodup_cons.mp chain.nodup).1 (List.mem_append_right _ (List.mem_singleton_self _))
    cases chain with
    | cons tail =>
      refine .cons ?_
      rw [Function.update_of_ne distinct]
      exact ih tail

/-- Links that only jump ahead within the chain still lead to its end. -/
theorem exists_of_ahead (chain : Chain next a? l)
    (ahead : ∀ x rest, Chain next (next x) rest → ∀ y, other x = some y → y ∈ rest) :
    ∃ l', Chain other a? l' := by
  induction size : l.length using Nat.strongRecOn generalizing a? l with
  | _ size ih =>
    cases chain with
    | nil => exact ⟨[], .nil⟩
    | @cons a rest tail =>
      obtain ⟨l', further⟩ : ∃ l', Chain other (other a) l' := by
        cases link : other a with
        | none => exact ⟨[], .nil⟩
        | some y =>
          obtain ⟨before, after, rfl⟩ := List.append_of_mem (ahead a rest tail y link)
          refine ih (y :: after).length ?_ (.cons tail.suffix) rfl
          simp only [List.length_cons, List.length_append] at size ⊢
          omega
      exact ⟨a :: l', .cons further⟩

/-- If every entry that satisfies `p` links to the next one that does, the chain restricted to `p`
is a chain. -/
theorem filter {p : α → Bool} (chain : Chain next a? l)
    (skips : ∀ x rest, p x = true → Chain next (next x) rest → other x = (rest.filter p).head?) :
    Chain other (l.filter p).head? (l.filter p) := by
  induction chain with
  | nil => exact .nil
  | @cons a l tail ih =>
    by_cases kept : p a = true
    · rw [List.filter_cons_of_pos kept, List.head?_cons]
      exact .cons (skips a l kept tail ▸ ih)
    · rw [List.filter_cons_of_neg kept]
      exact ih

end Chain

end SystemProgramming.Lib
