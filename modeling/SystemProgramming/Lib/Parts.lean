import SystemProgramming.Lib.Run
import Mathlib.Algebra.BigOperators.Group.Finset.Piecewise
import Mathlib.Algebra.Order.BigOperators.Group.Finset

/-! # Systems made of parts that go on by themselves

The parts are systems of their own, one for each index. A view says in which state a part is when the whole
system is in a given one. When each event of the system is one event of one part, and shows no other part a
difference, a run of the system is a run of every part, and the parts share its events among them.
-/

namespace SystemProgramming.Lib

variable {ι σ ε τ φ : Type*} {step : σ → ε → Option σ} {part : ι → τ → φ → Option τ} {I : σ → Prop}
  {View : ι → σ → τ → Prop}

/-- Each event is one event of one part and leaves the others as they are. -/
def Delegates (step : σ → ε → Option σ) (part : ι → τ → φ → Option τ) (I : σ → Prop)
    (View : ι → σ → τ → Prop) : Prop :=
  ∀ s e t, I s → step s e = some t →
    ∃ i, (∀ a, View i s a → ∃ f b, part i a f = some b ∧ View i t b) ∧ ∀ j ≠ i, ∀ a, View j s a → View j t a

/-- A part that can go on keeps the system from being terminal. -/
def Reflects (step : σ → ε → Option σ) (part : ι → τ → φ → Option τ) (I : σ → Prop)
    (View : ι → σ → τ → Prop) : Prop :=
  ∀ i s a f b, I s → View i s a → part i a f = some b → ∃ e t, step s e = some t

theorem Reflects.terminal (reflects : Reflects step part I View) {i : ι} {s : σ} {a : τ} (inv : I s)
    (view : View i s a) (terminal : Terminal step s) : Terminal (part i) a := by
  intro f
  rw [Option.eq_none_iff_forall_ne_some]
  intro b moves
  obtain ⟨e, t, taken⟩ := reflects i s a f b inv view moves
  exact absurd taken (by simp [terminal e])

/-- What one part has come to, it can come to by itself. -/
theorem Delegates.exists_view (delegates : Delegates step part I View)
    (preserved : ∀ s e t, I s → step s e = some t → I t) {s t : σ} (reached : Reachable step s t) (inv : I s)
    {i : ι} {a : τ} (view : View i s a) : ∃ b, Reachable (part i) a b ∧ View i t b := by
  refine (reached.invariant (I := fun s => I s ∧ ∃ b, Reachable (part i) a b ∧ View i s b) ?_
    ⟨inv, a, .refl a, view⟩).2
  rintro s e t ⟨inv, b, alone, view⟩ taken
  refine ⟨preserved s e t inv taken, ?_⟩
  obtain ⟨j, own, others⟩ := delegates s e t inv taken
  by_cases same : i = j
  · subst same
    obtain ⟨f, c, moves, later⟩ := own b view
    exact ⟨c, alone.trans (.of_step moves), later⟩
  · exact ⟨b, alone, others i same b view⟩

/-! ## One part with its own events -/

section

variable {own : τ → φ → Option τ} {shown : ε → Option φ}

/-- A run shows a part the events that are its own, when the others leave the part as it is. -/
theorem exec_filterMap (project : σ → τ) {s t : σ} {es : List ε}
    (moves : ∀ s e t f, step s e = some t → shown e = some f → own (project s) f = some (project t))
    (rests : ∀ s e t, step s e = some t → shown e = none → project t = project s)
    (ran : exec step s es = some t) : exec own (project s) (es.filterMap shown) = some (project t) := by
  induction es generalizing s with
  | nil =>
    cases ran
    rfl
  | cons e es ih =>
    obtain ⟨middle, taken, rest⟩ := exec_cons_eq_some.mp ran
    cases seen : shown e with
    | none => rw [List.filterMap_cons_none seen, ← rests s e middle taken seen, ih rest]
    | some f =>
      rw [List.filterMap_cons_some seen]
      exact exec_cons_eq_some.mpr ⟨project middle, moves s e middle f taken seen, ih rest⟩

end

section

variable [Fintype ι] [DecidableEq ι]

/-- A sum over the parts when one of them is replaced. -/
theorem sum_update (measure : φ → ℕ) (parts : ι → φ) (i : ι) (new : φ) :
    (∑ j, measure (Function.update parts i new j)) + measure (parts i) = (∑ j, measure (parts j)) + measure new := by
  have others : ∑ j ∈ Finset.univ.erase i, measure (Function.update parts i new j) =
      ∑ j ∈ Finset.univ.erase i, measure (parts j) := by
    apply Finset.sum_congr rfl
    intro j outside
    rw [Function.update_of_ne (Finset.ne_of_mem_erase outside)]
  rw [← Finset.add_sum_erase _ _ (Finset.mem_univ i), others, Function.update_self,
    ← Finset.add_sum_erase _ (fun j => measure (parts j)) (Finset.mem_univ i)]
  omega

/-- A run of the system is made of one run of each part. -/
theorem Delegates.exists_runs (delegates : Delegates step part I View)
    (preserved : ∀ s e t, I s → step s e = some t → I t) {s t : σ} {es : List ε}
    (ran : exec step s es = some t) (inv : I s) {a : ι → τ} (views : ∀ i, View i s (a i)) :
    ∃ (runs : ι → List φ) (b : ι → τ),
      (∀ i, exec (part i) (a i) (runs i) = some (b i) ∧ View i t (b i)) ∧
        es.length = ∑ i, (runs i).length := by
  induction es generalizing s a with
  | nil =>
    cases ran
    exact ⟨fun _ => [], a, fun i => ⟨rfl, views i⟩, by simp⟩
  | cons e es ih =>
    obtain ⟨middle, taken, rest⟩ := exec_cons_eq_some.mp ran
    obtain ⟨i, own, others⟩ := delegates s e middle inv taken
    obtain ⟨f, b, moves, view⟩ := own (a i) (views i)
    have later (j : ι) : View j middle (Function.update a i b j) := by
      by_cases same : j = i
      · subst same
        rwa [Function.update_self]
      · rw [Function.update_of_ne same]
        exact others j same _ (views j)
    obtain ⟨runs, ends, all, total⟩ := ih rest (preserved s e middle inv taken) later
    refine ⟨Function.update runs i (f :: runs i), ends, fun j => ⟨?_, (all j).2⟩, ?_⟩
    · have ran := (all j).1
      by_cases same : j = i
      · subst same
        rw [Function.update_self] at ran ⊢
        exact exec_cons_eq_some.mpr ⟨b, moves, ran⟩
      · rwa [Function.update_of_ne same] at ran ⊢
    · have grown := sum_update List.length runs i (f :: runs i)
      rw [List.length_cons] at grown ⊢
      omega

/-- The parts end, so the system does. -/
theorem Delegates.length_le (delegates : Delegates step part I View)
    (preserved : ∀ s e t, I s → step s e = some t → I t) {s t : σ} {es : List ε}
    (ran : exec step s es = some t) (inv : I s) {a : ι → τ} (views : ∀ i, View i s (a i)) {bound : ι → ℕ}
    (bounded : ∀ i fs b, exec (part i) (a i) fs = some b → fs.length ≤ bound i) :
    es.length ≤ ∑ i, bound i := by
  obtain ⟨runs, ends, all, total⟩ := delegates.exists_runs preserved ran inv views
  rw [total]
  exact Finset.sum_le_sum fun i _ => bounded i _ _ (all i).1

end

end SystemProgramming.Lib
