import Mathlib.Tactic.Common
import Mathlib.Data.List.Nodup
import Mathlib.Data.Fintype.Card

/-! # Forests given by parent links

A partial parent function without cycles is a forest. Depth is the number of steps up to the root
of a subtree, `preorder` lists a subtree down to a depth with the children of each entry in a given
order, and a predicate that is closed upwards may be filtered out of the traversal or out of the
lists of children alike. On a finite type an entry that is not below a cycle is accessible in both directions
of the links.
-/

namespace SystemProgramming.Lib

variable {α : Type*}

/-- The entry `k` steps above. -/
def climb (parent : α → Option α) : ℕ → α → Option α
  | 0, x => some x
  | k + 1, x => (parent x).bind (climb parent k)

/-- `a` is one or more steps above `x`. -/
def Ancestor (parent : α → Option α) (a x : α) : Prop := ∃ k, climb parent (k + 1) x = some a

def Acyclic (parent : α → Option α) : Prop := ∀ x, ¬ Ancestor parent x x

/-- The subtree of an entry, cut below `depth` levels, each entry before its children. -/
def preorder (children : α → List α) : ℕ → α → List α
  | 0, _ => []
  | depth + 1, x => x :: (children x).flatMap (preorder children depth)

section

variable {parent : α → Option α} {x y a b : α}

theorem climb_succ (k : ℕ) (x : α) :
    climb parent (k + 1) x = (parent x).bind (climb parent k) := rfl

theorem climb_add (j k : ℕ) (x : α) :
    climb parent (j + k) x = (climb parent j x).bind (climb parent k) := by
  induction j generalizing x with
  | zero => simp [climb]
  | succ j ih =>
    rw [Nat.add_right_comm, climb_succ, climb_succ, Option.bind_assoc]
    exact congrArg _ (funext ih)

theorem Ancestor.of_parent (link : parent x = some a) : Ancestor parent a x :=
  ⟨0, by simp [climb, link]⟩

theorem Ancestor.trans (upper : Ancestor parent a b) (lower : Ancestor parent b x) :
    Ancestor parent a x := by
  obtain ⟨j, upper⟩ := upper
  obtain ⟨k, lower⟩ := lower
  refine ⟨k + 1 + j, ?_⟩
  rw [Nat.add_assoc (k + 1), climb_add, lower, Option.bind_some, upper]

/-- The first step up either reaches the ancestor or stays below it. -/
theorem ancestor_iff_parent :
    Ancestor parent a x ↔ ∃ p, parent x = some p ∧ (p = a ∨ Ancestor parent a p) := by
  constructor
  · rintro ⟨k, above⟩
    obtain ⟨p, link, rest⟩ := Option.bind_eq_some_iff.mp above
    refine ⟨p, link, ?_⟩
    cases k with
    | zero => exact .inl (Option.some.inj rest)
    | succ k => exact .inr ⟨k, rest⟩
  · rintro ⟨p, link, rfl | above⟩
    · exact .of_parent link
    · exact above.trans (.of_parent link)

/-- The last step up comes from a child of the ancestor. -/
theorem ancestor_iff_child :
    Ancestor parent a x ↔ ∃ c, parent c = some a ∧ (c = x ∨ Ancestor parent c x) := by
  constructor
  · rintro ⟨k, above⟩
    rw [climb_add] at above
    obtain ⟨c, below, last⟩ := Option.bind_eq_some_iff.mp above
    obtain ⟨p, link, same⟩ := Option.bind_eq_some_iff.mp last
    obtain rfl : p = a := Option.some.inj same
    refine ⟨c, link, ?_⟩
    cases k with
    | zero => exact .inl (Option.some.inj below).symm
    | succ k => exact .inr ⟨k, below⟩
  · rintro ⟨c, link, rfl | above⟩
    · exact .of_parent link
    · exact (Ancestor.of_parent link).trans above

/-- Links that lead to smaller ranks have no cycle. -/
theorem acyclic_of_rank (rank : α → ℕ) (up : ∀ c p, parent c = some p → rank p < rank c) :
    Acyclic parent := by
  have below (k : ℕ) (x a : α) (above : climb parent (k + 1) x = some a) : rank a < rank x := by
    induction k generalizing x with
    | zero =>
      obtain ⟨p, link, same⟩ := Option.bind_eq_some_iff.mp above
      obtain rfl : p = a := Option.some.inj same
      exact up x p link
    | succ k ih =>
      obtain ⟨p, link, rest⟩ := Option.bind_eq_some_iff.mp above
      exact (ih p rest).trans (up x p link)
  rintro x ⟨k, above⟩
  exact Nat.lt_irrefl _ (below k x x above)

/-- Two entries above the same one lie on one path. -/
theorem ancestor_of_climb {j k : ℕ} (first : climb parent j x = some a)
    (second : climb parent k x = some b) (less : j < k) : Ancestor parent b a := by
  obtain ⟨d, rfl⟩ := Nat.exists_eq_add_of_lt less
  rw [Nat.add_assoc, climb_add, first, Option.bind_some] at second
  exact ⟨d, second⟩

/-- Neither `x` nor anything above it lies on a cycle. -/
def Grounded (parent : α → Option α) (x : α) : Prop :=
  ∀ a, a = x ∨ Ancestor parent a x → ¬ Ancestor parent a a

theorem Acyclic.grounded (acyclic : Acyclic parent) (x : α) : Grounded parent x :=
  fun a _ => acyclic a

/-- What is not grounded has a parent, and the parent is not grounded either. -/
theorem exists_parent_of_not_grounded (stuck : ¬ Grounded parent x) :
    ∃ p, parent x = some p ∧ ¬ Grounded parent p := by
  obtain ⟨a, above, cycle⟩ : ∃ a, (a = x ∨ Ancestor parent a x) ∧ Ancestor parent a a := by
    by_contra none
    exact stuck fun a above cycle => none ⟨a, above, cycle⟩
  have further : ∃ p, parent x = some p ∧ (p = a ∨ Ancestor parent a p) := by
    rcases above with rfl | above
    · exact ancestor_iff_parent.mp cycle
    · exact ancestor_iff_parent.mp above
  obtain ⟨p, link, reached⟩ := further
  exact ⟨p, link, fun grounded => grounded a (reached.imp_left Eq.symm) cycle⟩

/-- An entry on no cycle is above no cycle: each entry has one path upwards. -/
theorem not_cycle_of_above (free : ¬ Ancestor parent x x) (above : Ancestor parent x y) :
    ¬ Ancestor parent y y := by
  rintro ⟨k, cycle⟩
  obtain ⟨j, path⟩ := above
  have around (n : ℕ) : climb parent (n * (k + 1)) y = some y := by
    induction n with
    | zero => rw [Nat.zero_mul, climb]
    | succ n ih => rw [Nat.succ_mul, climb_add, ih, Option.bind_some, cycle]
  have further : j + 1 < (j + 2) * (k + 1) := by
    calc j + 1 < j + 2 := Nat.lt_succ_self _
      _ ≤ (j + 2) * (k + 1) := Nat.le_mul_of_pos_right _ (Nat.succ_pos _)
  exact free (Ancestor.trans ⟨j, path⟩ (ancestor_of_climb path (around _) further))

/-- On a finite type a transitive relation is well-founded below a set it does not leave downwards and on
which it is irreflexive. -/
theorem acc_of_irrefl_on [Finite α] {r : α → α → Prop} (trans : ∀ a b c, r a b → r b c → r a c)
    {S : α → Prop} (closed : ∀ a b, r a b → S b → S a) (irrefl : ∀ a, S a → ¬ r a a) (inside : S x) :
    Acc r x := by
  have : IsTrans α (fun a b => r a b ∧ S b) :=
    ⟨fun a b c first second => ⟨trans a b c first.1 second.1, second.2⟩⟩
  have : Std.Irrefl (fun a b => r a b ∧ S b) := ⟨fun a self => irrefl a self.2 self.1⟩
  induction x using (Finite.wellFounded_of_trans_of_irrefl fun a b => r a b ∧ S b).induction with
  | _ x ih => exact .intro x fun a less => ih a ⟨less, inside⟩ (closed a x less inside)

theorem Grounded.acc_ancestor [Finite α] (grounded : Grounded parent x) :
    Acc (Ancestor parent) x := by
  refine acc_of_irrefl_on (S := fun a => a = x ∨ Ancestor parent a x)
    (fun _ _ _ upper lower => upper.trans lower) ?_ grounded (.inl rfl)
  rintro a b above (rfl | further)
  · exact .inr above
  · exact .inr (above.trans further)

theorem Grounded.acc_descendant [Finite α] (grounded : Grounded parent x) :
    Acc (fun y a => Ancestor parent a y) x := by
  refine acc_of_irrefl_on (S := fun y => y = x ∨ Ancestor parent x y)
    (fun _ _ _ lower upper => upper.trans lower) ?_ ?_ (.inl rfl)
  · rintro y z below (rfl | further)
    · exact .inr below
    · exact .inr (further.trans below)
  · rintro y (rfl | below)
    · exact grounded y (.inl rfl)
    · exact not_cycle_of_above (grounded x (.inl rfl)) below

end

section

variable {parent : α → Option α} {children : α → List α} {x y : α}

/-- The traversal visits exactly the entries fewer than `depth` steps below. -/
theorem mem_preorder (links : ∀ c p, c ∈ children p ↔ parent c = some p) {depth : ℕ} :
    y ∈ preorder children depth x ↔ ∃ k < depth, climb parent k y = some x := by
  induction depth generalizing x with
  | zero => simp [preorder]
  | succ depth ih =>
    simp only [preorder, List.mem_cons, List.mem_flatMap, ih, links]
    constructor
    · rintro (rfl | ⟨c, link, k, bound, path⟩)
      · exact ⟨0, by omega, rfl⟩
      · exact ⟨k + 1, by omega, by rw [climb_add, path, Option.bind_some]; simp [climb, link]⟩
    · rintro ⟨k, bound, path⟩
      cases k with
      | zero => exact .inl (Option.some.inj path)
      | succ k =>
        rw [climb_add] at path
        obtain ⟨c, below, last⟩ := Option.bind_eq_some_iff.mp path
        refine .inr ⟨c, ?_, k, by omega, below⟩
        simpa [climb] using last

/-- No entry is visited twice. -/
theorem preorder_nodup (links : ∀ c p, c ∈ children p ↔ parent c = some p)
    (distinct : ∀ p, (children p).Nodup) (acyclic : Acyclic parent) (depth : ℕ) (x : α) :
    (preorder children depth x).Nodup := by
  induction depth generalizing x with
  | zero => exact List.nodup_nil
  | succ depth ih =>
    refine List.nodup_cons.mpr ⟨?_, List.nodup_flatMap.mpr ⟨fun c _ => ih c, ?_⟩⟩
    · intro again
      obtain ⟨c, child, visited⟩ := List.mem_flatMap.mp again
      obtain ⟨k, -, path⟩ := (mem_preorder links).mp visited
      refine acyclic x ⟨k, ?_⟩
      rw [climb_add, path, Option.bind_some]
      simp [climb, (links c x).mp child]
    · apply (distinct x).imp_of_mem
      intro c d inC inD different y visitedC visitedD
      obtain ⟨j, -, pathC⟩ := (mem_preorder links).mp visitedC
      obtain ⟨k, -, pathD⟩ := (mem_preorder links).mp visitedD
      -- the deeper of the two sisters would have their parent below it
      have linkC := (links c x).mp inC
      have linkD := (links d x).mp inD
      rcases Nat.lt_trichotomy j k with less | rfl | less
      · obtain ⟨p, link, same | above⟩ := ancestor_iff_parent.mp (ancestor_of_climb pathC pathD less)
        all_goals obtain rfl : x = p := Option.some.inj (linkC.symm.trans link)
        · exact acyclic x (.of_parent (same ▸ linkD))
        · exact acyclic x ((Ancestor.of_parent linkD).trans above)
      · exact different (Option.some.inj (pathC.symm.trans pathD))
      · obtain ⟨p, link, same | above⟩ := ancestor_iff_parent.mp (ancestor_of_climb pathD pathC less)
        all_goals obtain rfl : x = p := Option.some.inj (linkD.symm.trans link)
        · exact acyclic x (.of_parent (same ▸ linkC))
        · exact acyclic x ((Ancestor.of_parent linkC).trans above)

/-- A predicate that holds of every parent of an entry it holds of may be applied to the lists of
children instead of the traversal. -/
theorem filter_preorder (links : ∀ c p, c ∈ children p ↔ parent c = some p) {keep : α → Bool}
    (upward : ∀ c p, parent c = some p → keep c = true → keep p = true) (depth : ℕ) (x : α) :
    (preorder children depth x).filter keep =
      if keep x = true then preorder (fun p => (children p).filter keep) depth x else [] := by
  induction depth generalizing x with
  | zero => simp [preorder]
  | succ depth ih =>
    have below : ((children x).flatMap (preorder children depth)).filter keep =
        ((children x).filter keep).flatMap (preorder (fun p => (children p).filter keep) depth) := by
      rw [List.filter_flatMap]
      induction children x with
      | nil => rfl
      | cons c rest tail =>
        rw [List.flatMap_cons, tail, ih]
        by_cases kept : keep c = true <;> simp [kept]
    by_cases kept : keep x = true
    · simp only [preorder, List.filter_cons_of_pos kept, below, if_pos kept]
    · have none : (children x).filter keep = [] := by
        refine List.filter_eq_nil_iff.mpr fun c child keeps => kept ?_
        exact upward c x ((links c x).mp child) keeps
      simp only [preorder, List.filter_cons_of_neg kept, below, none, List.flatMap_nil, if_neg kept]

end

/-- The traversal under other names. -/
theorem preorder_map {β : Type*} {f : α → β} {children : α → List α} {renamed : β → List β}
    (names : ∀ x, renamed (f x) = (children x).map f) (depth : ℕ) (x : α) :
    preorder renamed depth (f x) = (preorder children depth x).map f := by
  induction depth generalizing x with
  | zero => rfl
  | succ depth ih =>
    rw [preorder, preorder, List.map_cons, names, List.flatMap_map, List.map_flatMap]
    exact congrArg (fun below => f x :: (children x).flatMap below) (funext ih)

end SystemProgramming.Lib
