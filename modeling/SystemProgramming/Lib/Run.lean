import Mathlib.Tactic.Common
import Mathlib.Data.List.Basic

/-! # Runs of event-driven systems

A system is a partial step function: `step s e` is the state after event `e`, or `none` when the
event cannot happen in `s` (the party it belongs to is blocked or has ended). A run is a finite
list of events; every interleaving of several parties is one. Invariants, measures and side
conditions on the steps are transported from one step to whole runs here, once for every system.
-/

namespace SystemProgramming.Lib

variable {σ ε : Type*}

/-- Replay a list of events, failing at the first one that is not enabled. -/
def exec (step : σ → ε → Option σ) : σ → List ε → Option σ
  | s, [] => some s
  | s, e :: es => (step s e).bind fun t => exec step t es

/-- The states some run leads to. -/
def Reachable (step : σ → ε → Option σ) (s t : σ) : Prop :=
  ∃ es, exec step s es = some t

/-- No event is enabled. -/
def Terminal (step : σ → ε → Option σ) (s : σ) : Prop :=
  ∀ e, step s e = none

/-- Every event of the run happens in a state that meets the side condition. -/
def AllSteps (step : σ → ε → Option σ) (cond : σ → ε → Prop) : σ → List ε → Prop
  | _, [] => True
  | s, e :: es => cond s e ∧ ∀ t, step s e = some t → AllSteps step cond t es

/-- The property holds of every state the run passes through. -/
def Throughout (step : σ → ε → Option σ) (P : σ → Prop) : σ → List ε → Prop
  | s, [] => P s
  | s, e :: es => P s ∧ ∀ t, step s e = some t → Throughout step P t es

section

variable {step : σ → ε → Option σ}

@[simp] theorem exec_nil (s : σ) : exec step s [] = some s := rfl

theorem exec_cons_eq_some {s t : σ} {e : ε} {es : List ε} :
    exec step s (e :: es) = some t ↔ ∃ middle, step s e = some middle ∧ exec step middle es = some t :=
  Option.bind_eq_some_iff

theorem exec_append {s t : σ} {first second : List ε} :
    exec step s (first ++ second) = some t ↔
      ∃ middle, exec step s first = some middle ∧ exec step middle second = some t := by
  induction first generalizing s with
  | nil => simp
  | cons e es ih =>
    rw [List.cons_append, exec_cons_eq_some]
    constructor
    · rintro ⟨next, taken, rest⟩
      obtain ⟨middle, left, right⟩ := ih.mp rest
      exact ⟨middle, exec_cons_eq_some.mpr ⟨next, taken, left⟩, right⟩
    · rintro ⟨middle, left, right⟩
      obtain ⟨next, taken, rest⟩ := exec_cons_eq_some.mp left
      exact ⟨next, taken, ih.mpr ⟨middle, rest, right⟩⟩

/-- A side condition that can be tested can be tested along a list of events. -/
instance AllSteps.decidable {cond : σ → ε → Prop} [∀ s e, Decidable (cond s e)] :
    (s : σ) → (es : List ε) → Decidable (AllSteps step cond s es)
  | _, [] => isTrue trivial
  | s, e :: es =>
    match taken : step s e with
    | none => decidable_of_iff (cond s e) (by simp [AllSteps, taken])
    | some t =>
      have : Decidable (AllSteps step cond t es) := AllSteps.decidable t es
      decidable_of_iff (cond s e ∧ AllSteps step cond t es) (by simp [AllSteps, taken])

theorem Reachable.refl (s : σ) : Reachable step s s := ⟨[], rfl⟩

theorem Reachable.of_step {s t : σ} {e : ε} (taken : step s e = some t) : Reachable step s t :=
  ⟨[e], by simp [exec, taken]⟩

theorem Reachable.trans {s middle t : σ} (left : Reachable step s middle)
    (right : Reachable step middle t) : Reachable step s t := by
  obtain ⟨first, left⟩ := left
  obtain ⟨second, right⟩ := right
  exact ⟨first ++ second, exec_append.mpr ⟨middle, left, right⟩⟩

/-- A property every step preserves holds at the end of every run. -/
theorem exec_invariant {I : σ → Prop} (preserved : ∀ s e t, I s → step s e = some t → I t)
    {s t : σ} {es : List ε} (ran : exec step s es = some t) (start : I s) : I t := by
  induction es generalizing s with
  | nil => cases ran; exact start
  | cons e es ih =>
    obtain ⟨middle, taken, rest⟩ := exec_cons_eq_some.mp ran
    exact ih rest (preserved s e middle start taken)

theorem Reachable.invariant {I : σ → Prop} (preserved : ∀ s e t, I s → step s e = some t → I t)
    {s t : σ} (reached : Reachable step s t) (start : I s) : I t := by
  obtain ⟨es, ran⟩ := reached
  exact exec_invariant preserved ran start

/-- An abstraction that follows the steps which are allowed on its level follows every run of such steps. -/
theorem exec_refines_of_allSteps {τ : Type*} {I : σ → Prop} {abstract : σ → τ} {specified : τ → ε → Option τ}
    {cond : τ → ε → Prop} (preserved : ∀ s e t, I s → step s e = some t → I t)
    (follows : ∀ s e t, I s → cond (abstract s) e → step s e = some t →
      specified (abstract s) e = some (abstract t))
    {s t : σ} {es : List ε} (ran : exec step s es = some t) (met : AllSteps specified cond (abstract s) es)
    (start : I s) : exec specified (abstract s) es = some (abstract t) := by
  induction es generalizing s with
  | nil => cases ran; rfl
  | cons e es ih =>
    obtain ⟨middle, taken, rest⟩ := exec_cons_eq_some.mp ran
    have followed := follows s e middle start met.1 taken
    refine exec_cons_eq_some.mpr ⟨abstract middle, followed, ?_⟩
    exact ih rest (met.2 (abstract middle) followed) (preserved s e middle start taken)

/-- Steps that meet a side condition may rely on it to preserve the invariant. -/
theorem exec_invariant_of_allSteps {cond : σ → ε → Prop} {I : σ → Prop}
    (preserved : ∀ s e t, I s → cond s e → step s e = some t → I t)
    {s t : σ} {es : List ε} (ran : exec step s es = some t)
    (met : AllSteps step cond s es) (start : I s) : I t := by
  induction es generalizing s with
  | nil => cases ran; exact start
  | cons e es ih =>
    obtain ⟨middle, taken, rest⟩ := exec_cons_eq_some.mp ran
    exact ih rest (met.2 middle taken) (preserved s e middle start met.1 taken)

/-- A side condition that does not depend on the state can be checked on the events alone. -/
theorem allSteps_of_forall {cond : σ → ε → Prop} {es : List ε} (met : ∀ e ∈ es, ∀ s, cond s e)
    (s : σ) : AllSteps step cond s es := by
  induction es generalizing s with
  | nil => trivial
  | cons e es ih =>
    rw [List.forall_mem_cons] at met
    exact ⟨met.1 s, fun t _ => ih met.2 t⟩

/-- When damage is permanent and done by exactly the steps that violate the side condition, a run
without damage is one that meets it. -/
theorem allSteps_iff_undamaged {cond : σ → ε → Prop} {I damaged : σ → Prop}
    (preserved : ∀ s e t, I s → step s e = some t → I t)
    (stays : ∀ s e t, I s → damaged s → step s e = some t → damaged t)
    (turns : ∀ s e t, I s → ¬ damaged s → step s e = some t → (cond s e ↔ ¬ damaged t))
    {s t : σ} {es : List ε} (ran : exec step s es = some t) (start : I s) (sound : ¬ damaged s) :
    AllSteps step cond s es ↔ ¬ damaged t := by
  induction es generalizing s with
  | nil =>
    cases ran
    exact iff_of_true trivial sound
  | cons e es ih =>
    obtain ⟨middle, taken, rest⟩ := exec_cons_eq_some.mp ran
    have inv := preserved s e middle start taken
    by_cases harm : damaged middle
    · have harmed : damaged t :=
        (exec_invariant (I := fun s => I s ∧ damaged s) (fun s e t both taken =>
          ⟨preserved s e t both.1 taken, stays s e t both.1 both.2 taken⟩) rest ⟨inv, harm⟩).2
      refine iff_of_false (fun met => ?_) (not_not_intro harmed)
      exact (turns s e middle start sound taken).mp met.1 harm
    · rw [← ih rest inv harm]
      refine ⟨fun met => met.2 middle taken, fun met =>
        ⟨(turns s e middle start sound taken).mpr harm, fun other also => ?_⟩⟩
      cases taken.symm.trans also
      exact met

/-- Two conditions on the steps that agree wherever an invariant holds say the same about a list of
events. -/
theorem allSteps_congr {cond cond' : σ → ε → Prop} {I : σ → Prop}
    (same : ∀ s e, I s → (cond s e ↔ cond' s e)) (preserved : ∀ s e t, I s → step s e = some t → I t)
    {s : σ} (es : List ε) (start : I s) : AllSteps step cond s es ↔ AllSteps step cond' s es := by
  induction es generalizing s with
  | nil => exact Iff.rfl
  | cons e es ih =>
    apply and_congr (same s e start)
    apply forall₂_congr
    intro t taken
    exact ih (preserved s e t start taken)

/-- In a run the two conditions need to agree on the events that happen only, and the invariant may
rely on the second one. -/
theorem allSteps_congr_of_run {cond cond' : σ → ε → Prop} {I : σ → Prop}
    (same : ∀ s e t, I s → step s e = some t → (cond s e ↔ cond' s e))
    (preserved : ∀ s e t, I s → cond' s e → step s e = some t → I t)
    {s t : σ} {es : List ε} (ran : exec step s es = some t) (start : I s) :
    AllSteps step cond s es ↔ AllSteps step cond' s es := by
  induction es generalizing s with
  | nil => exact Iff.rfl
  | cons e es ih =>
    obtain ⟨middle, taken, rest⟩ := exec_cons_eq_some.mp ran
    constructor
    · intro met
      have head := (same s e middle start taken).mp met.1
      constructor
      · exact head
      · intro other also
        cases taken.symm.trans also
        exact (ih rest (preserved s e middle start head taken)).mp (met.2 middle taken)
    · intro met
      constructor
      · exact (same s e middle start taken).mpr met.1
      · intro other also
        cases taken.symm.trans also
        exact (ih rest (preserved s e middle start met.1 taken)).mpr (met.2 middle taken)

/-- When, as far as an invariant holds, a step keeps a property exactly if it meets the side condition, a
run has the property throughout exactly if all its steps meet the condition. -/
theorem allSteps_iff_throughout_of_invariant {cond : σ → ε → Prop} {I P : σ → Prop}
    (preserved : ∀ s e t, I s → step s e = some t → I t)
    (turns : ∀ s e t, I s → P s → step s e = some t → (cond s e ↔ P t))
    {s t : σ} {es : List ε} (ran : exec step s es = some t) (inv : I s) (start : P s) :
    AllSteps step cond s es ↔ Throughout step P s es := by
  induction es generalizing s with
  | nil => exact iff_of_true trivial start
  | cons e es ih =>
    obtain ⟨middle, taken, rest⟩ := exec_cons_eq_some.mp ran
    have turn := turns s e middle inv start taken
    have kept := preserved s e middle inv taken
    constructor
    · intro met
      refine ⟨start, fun other also => ?_⟩
      cases taken.symm.trans also
      exact (ih rest kept (turn.mp met.1)).mp (met.2 middle taken)
    · rintro ⟨-, all⟩
      have holds : P middle := by
        cases es with
        | nil => exact all middle taken
        | cons _ _ => exact (all middle taken).1
      refine ⟨turn.mpr holds, fun other also => ?_⟩
      cases taken.symm.trans also
      exact (ih rest kept holds).mpr (all middle taken)

theorem allSteps_iff_throughout {cond : σ → ε → Prop} {P : σ → Prop}
    (turns : ∀ s e t, P s → step s e = some t → (cond s e ↔ P t))
    {s t : σ} {es : List ε} (ran : exec step s es = some t) (start : P s) :
    AllSteps step cond s es ↔ Throughout step P s es :=
  allSteps_iff_throughout_of_invariant (I := fun _ => True) (fun _ _ _ _ _ => trivial)
    (fun s e t _ holds taken => turns s e t holds taken) ran trivial start

theorem Throughout.mono {I P Q : σ → Prop} (preserved : ∀ s e t, I s → step s e = some t → I t)
    (weaker : ∀ s, I s → P s → Q s) {s : σ} {es : List ε} (start : I s) (all : Throughout step P s es) :
    Throughout step Q s es := by
  induction es generalizing s with
  | nil => exact weaker s start all
  | cons e es ih =>
    constructor
    · exact weaker s start all.1
    · intro t taken
      exact ih (preserved s e t start taken) (all.2 t taken)

/-- A quantity that the steps which meet a side condition decrease bounds the length of every run of such
steps. -/
theorem exec_length_le_of_allSteps {cond : σ → ε → Prop} {I : σ → Prop} {μ : σ → ℕ}
    (preserved : ∀ s e t, I s → cond s e → step s e = some t → I t)
    (decreases : ∀ s e t, I s → cond s e → step s e = some t → μ t < μ s)
    {s t : σ} {es : List ε} (ran : exec step s es = some t) (met : AllSteps step cond s es) (start : I s) :
    es.length + μ t ≤ μ s := by
  induction es generalizing s with
  | nil => cases ran; simp
  | cons e es ih =>
    obtain ⟨middle, taken, rest⟩ := exec_cons_eq_some.mp ran
    have tail := ih rest (met.2 middle taken) (preserved s e middle start met.1 taken)
    have head := decreases s e middle start met.1 taken
    simp only [List.length_cons]
    omega

/-- A quantity every step decreases bounds the length of every run, so every run ends. -/
theorem exec_length_le {μ : σ → ℕ} (decreases : ∀ s e t, step s e = some t → μ t < μ s)
    {s t : σ} {es : List ε} (ran : exec step s es = some t) : es.length + μ t ≤ μ s :=
  exec_length_le_of_allSteps (I := fun _ => True) (fun _ _ _ _ _ _ => trivial)
    (fun s e t _ _ taken => decreases s e t taken) ran (allSteps_of_forall (fun _ _ _ => trivial) s) trivial

/-- The same for a quantity that the state bounds without determining it. -/
theorem exec_length_le_of_rank {R : σ → ℕ → Prop}
    (decreases : ∀ s e t n, R s n → step s e = some t → ∃ m < n, R t m) {s t : σ} {es : List ε} {n : ℕ}
    (ran : exec step s es = some t) (start : R s n) : es.length ≤ n := by
  induction es generalizing s n with
  | nil => exact Nat.zero_le n
  | cons e es ih =>
    obtain ⟨middle, taken, rest⟩ := exec_cons_eq_some.mp ran
    obtain ⟨m, less, later⟩ := decreases s e middle n start taken
    have tail := ih rest later
    rw [List.length_cons]
    omega

/-- Where every unfinished state has a step that meets a side condition and decreases a quantity, some run of
such steps finishes. -/
theorem exists_allSteps_of_progress {cond : σ → ε → Prop} {I F : σ → Prop} {μ : σ → ℕ}
    (progress : ∀ s, I s → ¬ F s → ∃ e t, cond s e ∧ step s e = some t ∧ I t ∧ μ t < μ s)
    {s : σ} (start : I s) : ∃ es t, exec step s es = some t ∧ AllSteps step cond s es ∧ I t ∧ F t := by
  induction bound : μ s using Nat.strongRecOn generalizing s with
  | ind n ih =>
    by_cases finished : F s
    · exact ⟨[], s, rfl, trivial, start, finished⟩
    · obtain ⟨e, middle, met, taken, kept, less⟩ := progress s start finished
      obtain ⟨es, t, ran, all, rest⟩ := ih (μ middle) (bound ▸ less) kept rfl
      refine ⟨e :: es, t, exec_cons_eq_some.mpr ⟨middle, taken, ran⟩, ⟨met, fun other same => ?_⟩, rest⟩
      cases taken.symm.trans same
      exact all

/-- Where every unfinished state has a step that decreases a quantity, some run finishes. -/
theorem exists_exec_of_progress {I F : σ → Prop} {μ : σ → ℕ}
    (progress : ∀ s, I s → ¬ F s → ∃ e t, step s e = some t ∧ I t ∧ μ t < μ s)
    {s : σ} (start : I s) : ∃ es t, exec step s es = some t ∧ I t ∧ F t := by
  have along : ∀ s, I s → ¬ F s →
      ∃ e t, (fun _ _ => True : σ → ε → Prop) s e ∧ step s e = some t ∧ I t ∧ μ t < μ s := by
    intro s holds unfinished
    obtain ⟨e, t, taken⟩ := progress s holds unfinished
    exact ⟨e, t, trivial, taken⟩
  obtain ⟨es, t, ran, -, rest⟩ := exists_allSteps_of_progress along start
  exact ⟨es, t, ran, rest⟩

end

end SystemProgramming.Lib
