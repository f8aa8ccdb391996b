import Mathlib.Tactic.Common
import Mathlib.Data.List.Basic

/-! # Loops and recursions under a step bound

A loop or recursion of unknown length is a function of a fuel argument that answers `none` when
the fuel runs out. It converges to a value when every sufficiently large fuel gives that value.
The rules below compose convergence along sequencing, loops over lists and one unfolding, so a
proof about a program never names an explicit bound.
-/

namespace SystemProgramming.Lib

variable {α β : Type*}

/-- Enough fuel yields `a`, and more fuel changes nothing. -/
def Converges (f : ℕ → Option α) (a : α) : Prop :=
  ∃ bound, ∀ fuel, bound ≤ fuel → f fuel = some a

theorem Converges.unique {f : ℕ → Option α} {a b : α} (left : Converges f a)
    (right : Converges f b) : a = b := by
  obtain ⟨first, left⟩ := left
  obtain ⟨second, right⟩ := right
  have atMax := (left (max first second) (Nat.le_max_left ..)).symm.trans
    (right (max first second) (Nat.le_max_right ..))
  exact Option.some.inj atMax

theorem Converges.of_forall {f : ℕ → Option α} {a : α} (value : ∀ fuel, f fuel = some a) :
    Converges f a := ⟨0, fun fuel _ => value fuel⟩

/-- One unfolding of a recursion that spends one unit of fuel. -/
theorem Converges.of_succ {f g : ℕ → Option α} {a : α} (unfold : ∀ fuel, f (fuel + 1) = g fuel)
    (rest : Converges g a) : Converges f a := by
  obtain ⟨bound, value⟩ := rest
  refine ⟨bound + 1, fun fuel enough => ?_⟩
  obtain ⟨less, rfl⟩ : ∃ less, fuel = less + 1 := ⟨fuel - 1, by omega⟩
  rw [unfold]
  exact value less (by omega)

/-- A step that spends one unit of fuel changes nothing about the value. -/
theorem converges_succ_iff {f g : ℕ → Option α} {a : α} (unfold : ∀ fuel, f (fuel + 1) = g fuel) :
    Converges f a ↔ Converges g a := by
  constructor
  · rintro ⟨bound, value⟩
    exact ⟨bound, fun fuel enough => (unfold fuel).symm.trans (value (fuel + 1) (by omega))⟩
  · exact Converges.of_succ unfold

theorem not_converges_of_none {f : ℕ → Option α} {a : α} (none : ∀ fuel, f fuel = none) :
    ¬ Converges f a := by
  rintro ⟨bound, value⟩
  simpa [none] using value bound (Nat.le_refl _)

theorem converges_const_iff {value : Option α} {a : α} : Converges (fun _ => value) a ↔ value = some a := by
  constructor
  · rintro ⟨bound, same⟩
    exact same bound (Nat.le_refl _)
  · rintro rfl
    exact .of_forall fun _ => rfl

/-- Sequencing: the second computation may use the value of the first. -/
theorem Converges.bind {f : ℕ → Option α} {g : α → ℕ → Option β} {a : α} {b : β}
    (first : Converges f a) (second : Converges (g a) b) :
    Converges (fun fuel => (f fuel).bind fun x => g x fuel) b := by
  obtain ⟨bound, first⟩ := first
  obtain ⟨next, second⟩ := second
  refine ⟨max bound next, fun fuel enough => ?_⟩
  dsimp only
  rw [first fuel (Nat.le_trans (Nat.le_max_left ..) enough), Option.bind_some]
  exact second fuel (Nat.le_trans (Nat.le_max_right ..) enough)

theorem Converges.map {f : ℕ → Option α} {a : α} (g : α → β) (value : Converges f a) :
    Converges (fun fuel => (f fuel).map g) (g a) := by
  obtain ⟨bound, value⟩ := value
  exact ⟨bound, fun fuel enough => by simp only [value fuel enough, Option.map_some]⟩

/-- A loop over a list converges when each pass does; `I` holds of the elements already visited
and the state they have produced. -/
theorem Converges.foldlM {body : ℕ → β → α → Option β} (I : List α → β → Prop)
    (pass : ∀ visited x rest state, I visited state → visited ++ x :: rest = items →
      ∃ next, Converges (fun fuel => body fuel state x) next ∧ I (visited ++ [x]) next)
    {state : β} (start : I [] state) :
    ∃ final, Converges (fun fuel => items.foldlM (body fuel) state) final ∧ I items final := by
  suffices general : ∀ rest visited state, visited ++ rest = items → I visited state →
      ∃ final, Converges (fun fuel => rest.foldlM (body fuel) state) final ∧ I items final from
    general items [] state rfl start
  intro rest
  induction rest with
  | nil =>
    intro visited state split holds
    rw [List.append_nil] at split
    exact ⟨state, .of_forall fun _ => rfl, split ▸ holds⟩
  | cons x rest ih =>
    intro visited state split holds
    obtain ⟨next, passed, holds⟩ := pass visited x rest state holds split
    obtain ⟨final, looped, holds⟩ := ih (visited ++ [x]) next (by simpa using split) holds
    exact ⟨final, by simpa only [List.foldlM_cons, Option.bind_eq_bind] using passed.bind looped, holds⟩

/-- What every pass keeps, the loop keeps. -/
theorem foldlM_invariant {body : β → α → Option β} (I : β → Prop)
    (keeps : ∀ state x next, I state → body state x = some next → I next) {items : List α}
    {state final : β} (start : I state) (done : items.foldlM body state = some final) : I final := by
  induction items generalizing state with
  | nil =>
    obtain rfl := Option.some.inj done
    exact start
  | cons x items ih =>
    rw [List.foldlM_cons] at done
    obtain ⟨next, pass, rest⟩ := Option.bind_eq_some_iff.mp done
    exact ih (keeps state x next start pass) rest

/-- A loop has no result if one of its passes has none, in any state the passes before can lead to. -/
theorem foldlM_eq_none {body : β → α → Option β} (I : β → Prop)
    (keeps : ∀ state x next, I state → body state x = some next → I next) {items : List α} {x : α}
    (inside : x ∈ items) (stuck : ∀ state, I state → body state x = none) {state : β} (start : I state) :
    items.foldlM body state = none := by
  induction items generalizing state with
  | nil => cases inside
  | cons y items ih =>
    rw [List.foldlM_cons, Option.bind_eq_bind, Option.bind_eq_none_iff]
    intro next pass
    rcases List.mem_cons.mp inside with rfl | later
    · cases (stuck state start).symm.trans pass
    · exact ih later (keeps state y next start pass)

end SystemProgramming.Lib
