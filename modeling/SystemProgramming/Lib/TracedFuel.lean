import SystemProgramming.Lib.Fuel
import SystemProgramming.Lib.Traced

/-! # Loops that leave a trace, under a step bound

A loop with a fuel argument settles when enough fuel gives its value and nothing bad is recorded with any
fuel. It breaks when enough fuel has it record something bad and end without a value. It stops when it never
has a value and its trace is harmless.
-/

namespace SystemProgramming.Lib

open Traced

variable {ω α β : Type} {P : ω → Prop}

/-- Whatever the fuel, nothing bad is recorded and there is no other value; enough fuel gives the value. -/
structure Settles (P : ω → Prop) (f : ℕ → Traced ω α) (a : α) : Prop where
  always : ∀ fuel, (f fuel).Always P
  only : ∀ fuel b, (f fuel).result = some b → b = a
  converges : Converges (fun fuel => (f fuel).result) a

/-- Enough fuel leads to something bad. -/
def Breaks (P : ω → Prop) (f : ℕ → Traced ω α) : Prop :=
  ∃ bound, ∀ fuel, bound ≤ fuel → ¬ (f fuel).Always P ∧ (f fuel).result = none

/-- Whatever the fuel, nothing bad is recorded and there is no value. -/
def Stops (P : ω → Prop) (f : ℕ → Traced ω α) : Prop := ∀ fuel, (f fuel).Always P ∧ (f fuel).result = none

section

variable {f g : ℕ → Traced ω α} {h : α → ℕ → Traced ω β} {x : Traced ω α} {a : α} {b : β}

theorem Breaks.not_always (broken : Breaks P f) : ¬ ∀ fuel, (f fuel).Always P := by
  obtain ⟨bound, bad⟩ := broken
  intro all
  exact (bad bound (Nat.le_refl bound)).1 (all bound)

theorem Breaks.not_converges (broken : Breaks P f) (a : α) : ¬ Converges (fun fuel => (f fuel).result) a := by
  obtain ⟨bound, bad⟩ := broken
  rintro ⟨enough, value⟩
  have here := (bad (max bound enough) (Nat.le_max_left ..)).2
  cases here.symm.trans (value (max bound enough) (Nat.le_max_right ..))

theorem Stops.not_converges (stopped : Stops P f) (a : α) : ¬ Converges (fun fuel => (f fuel).result) a :=
  not_converges_of_none fun fuel => (stopped fuel).2

/-! ## One part without a loop -/

theorem Settles.const (harmless : x.Always P) (value : x.result = some a) : Settles P (fun _ => x) a where
  always _ := harmless
  only _ _ other := Option.some.inj (other.symm.trans value)
  converges := .of_forall fun _ => value

theorem Settles.pure : Settles P (fun _ => (Pure.pure a : Traced ω α)) a :=
  .const always_pure rfl

theorem Breaks.const (bad : ¬ x.Always P) (none : x.result = none) : Breaks P fun _ => x :=
  ⟨0, fun _ _ => ⟨bad, none⟩⟩

/-! ## One unfolding -/

theorem Settles.of_succ (start : f 0 = Traced.stop) (unfold : ∀ fuel, f (fuel + 1) = g fuel)
    (rest : Settles P g a) : Settles P f a where
  always fuel := by
    cases fuel with
    | zero => rw [start]; exact always_stop
    | succ fuel => rw [unfold]; exact rest.always fuel
  only fuel b value := by
    cases fuel with
    | zero => rw [start] at value; cases value
    | succ fuel => rw [unfold] at value; exact rest.only fuel b value
  converges := .of_succ (fun fuel => congrArg Traced.result (unfold fuel)) rest.converges

theorem Breaks.of_succ (unfold : ∀ fuel, f (fuel + 1) = g fuel) (rest : Breaks P g) : Breaks P f := by
  obtain ⟨bound, bad⟩ := rest
  refine ⟨bound + 1, fun fuel enough => ?_⟩
  obtain ⟨less, rfl⟩ := Nat.exists_eq_add_of_le' (Nat.one_le_of_lt enough)
  rw [unfold]
  exact bad less (Nat.le_of_succ_le_succ enough)

theorem Stops.of_succ (start : f 0 = Traced.stop) (unfold : ∀ fuel, f (fuel + 1) = g fuel)
    (rest : Stops P g) : Stops P f := by
  intro fuel
  cases fuel with
  | zero => rw [start]; exact ⟨always_stop, rfl⟩
  | succ fuel => rw [unfold]; exact rest fuel

/-! ## Sequencing -/

theorem Settles.bind (first : Settles P f a) (second : Settles P (h a) b) :
    Settles P (fun fuel => f fuel >>= fun x => h x fuel) b where
  always fuel := by
    rw [always_bind]
    refine ⟨first.always fuel, fun c value => ?_⟩
    obtain rfl := first.only fuel c value
    exact second.always fuel
  only fuel c value := by
    rw [result_bind] at value
    obtain ⟨d, before, value⟩ := Option.bind_eq_some_iff.mp value
    obtain rfl := first.only fuel d before
    exact second.only fuel c value
  converges := by
    simp only [result_bind]
    exact first.converges.bind (g := fun x fuel => (h x fuel).result) second.converges

theorem Stops.bind_left (first : Stops P f) : Stops P fun fuel => f fuel >>= fun x => h x fuel := by
  intro fuel
  obtain ⟨harmless, none⟩ := first fuel
  rw [always_bind, result_bind, none]
  exact ⟨⟨harmless, nofun⟩, rfl⟩

theorem Stops.bind_right (first : Settles P f a) (second : Stops P (h a)) :
    Stops P fun fuel => f fuel >>= fun x => h x fuel := by
  intro fuel
  rw [always_bind, result_bind]
  cases value : (f fuel).result with
  | none => exact ⟨⟨first.always fuel, nofun⟩, rfl⟩
  | some c =>
    obtain rfl := first.only fuel c value
    refine ⟨⟨first.always fuel, fun d same => ?_⟩, (second fuel).2⟩
    cases same
    exact (second fuel).1

theorem Breaks.bind_left (first : Breaks P f) : Breaks P fun fuel => f fuel >>= fun x => h x fuel := by
  obtain ⟨bound, bad⟩ := first
  refine ⟨bound, fun fuel enough => ?_⟩
  obtain ⟨wrong, none⟩ := bad fuel enough
  rw [always_bind, result_bind, none]
  exact ⟨fun all => wrong all.1, rfl⟩

theorem Breaks.bind_right (first : Settles P f a) (second : Breaks P (h a)) :
    Breaks P fun fuel => f fuel >>= fun x => h x fuel := by
  obtain ⟨enough, value⟩ := first.converges
  obtain ⟨bound, bad⟩ := second
  refine ⟨max enough bound, fun fuel more => ?_⟩
  have here := value fuel (Nat.le_trans (Nat.le_max_left ..) more)
  obtain ⟨wrong, none⟩ := bad fuel (Nat.le_trans (Nat.le_max_right ..) more)
  dsimp only at here
  rw [result_bind_of here, always_bind_of here (first.always fuel)]
  exact ⟨wrong, none⟩

end

end SystemProgramming.Lib
