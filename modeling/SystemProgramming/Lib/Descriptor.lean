import Mathlib.Tactic.Common
import Mathlib.Data.List.Basic

/-! # Descriptor tables

The open descriptors of a process, as a finite partial function from numbers to what they refer to.
New descriptors are the lowest free ones, so a table has to know where it ends. Every operation is
described by what it leaves under each number.
-/

namespace SystemProgramming.Lib

variable {δ : Type*}

structure FdTable (δ : Type*) where
  get : ℕ → Option δ
  bound : ℕ
  closed : ∀ fd, bound ≤ fd → get fd = none

namespace FdTable

/-- Close a descriptor or let it refer to something. -/
def set (t : FdTable δ) (fd : ℕ) (target : Option δ) : FdTable δ where
  get i := if i = fd then target else t.get i
  bound := max t.bound (fd + 1)
  closed i above := by
    rw [if_neg (by omega)]
    exact t.closed i (by omega)

def lowest (t : FdTable δ) : ℕ :=
  ((List.range t.bound).find? fun fd => (t.get fd).isNone).getD t.bound

/-- `open` and its like. -/
def install (t : FdTable δ) (target : δ) : FdTable δ := t.set t.lowest (some target)

def close (t : FdTable δ) (fd : ℕ) : FdTable δ := t.set fd none

/-- A closed source is an error that changes nothing. -/
def dup2 (t : FdTable δ) (source fd : ℕ) : FdTable δ :=
  match t.get source with
  | none => t
  | some target => t.set fd (some target)

/-- The two ends of a new pipe, the reading one first. -/
def pipe (t : FdTable δ) (reader writer : δ) : (ℕ × ℕ) × FdTable δ :=
  ((t.lowest, (t.install reader).lowest), (t.install reader).install writer)

/-- The same descriptors under another description of their targets. -/
def map {γ : Type*} (f : δ → γ) (t : FdTable δ) : FdTable γ where
  get i := (t.get i).map f
  bound := t.bound
  closed i above := by rw [t.closed i above, Option.map_none]

variable (t : FdTable δ)

theorem get_close (fd i : ℕ) : (t.close fd).get i = if i = fd then none else t.get i := rfl

theorem get_dup2 {source : ℕ} {target : δ} (here : t.get source = some target) (fd i : ℕ) :
    (t.dup2 source fd).get i = if i = fd then some target else t.get i := by
  rw [dup2, here]
  rfl

/-- The lowest free descriptor is free, and all below it are open. -/
theorem lowest_spec : t.get t.lowest = none ∧ ∀ i < t.lowest, (t.get i).isSome := by
  rw [lowest]
  cases found : (List.range t.bound).find? fun fd => (t.get fd).isNone with
  | none =>
    refine ⟨t.closed _ (Nat.le_refl _), fun i below => ?_⟩
    simpa [← Option.isSome_iff_ne_none] using List.find?_range_eq_none.mp found i below
  | some fd =>
    obtain ⟨free, -, taken⟩ := List.find?_range_eq_some.mp found
    refine ⟨by simpa using free, fun i below => ?_⟩
    simpa [← Option.isSome_iff_ne_none] using taken i below

theorem get_lowest : t.get t.lowest = none := t.lowest_spec.1

theorem get_install (target : δ) (i : ℕ) :
    (t.install target).get i = if i = t.lowest then some target else t.get i := rfl

/-- The two numbers of a new pipe were free, and nothing else changes. -/
theorem pipe_spec (reader writer : δ) {r w : ℕ} {next : FdTable δ}
    (opened : t.pipe reader writer = ((r, w), next)) :
    t.get r = none ∧ t.get w = none ∧ r ≠ w ∧ r = t.lowest ∧
      ∀ i, next.get i = if i = w then some writer else if i = r then some reader else t.get i := by
  simp only [pipe, Prod.mk.injEq] at opened
  obtain ⟨⟨rfl, rfl⟩, rfl⟩ := opened
  have free := (t.install reader).get_lowest
  have apart : t.lowest ≠ (t.install reader).lowest := by
    intro same
    rw [get_install, if_pos same.symm] at free
    nomatch free
  rw [get_install, if_neg apart.symm] at free
  exact ⟨t.get_lowest, free, apart, rfl, fun i => rfl⟩

end FdTable

end SystemProgramming.Lib
