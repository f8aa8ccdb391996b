import SystemProgramming.Lib.Run

/-! # Machines that show something at every event

A machine takes any event in any state, shows something and changes its state. Two machines are compared by
what they show for the same events. To tell them apart it may take idle events behind a list of events, as
many as it takes for a difference of the states to come out.
-/

namespace SystemProgramming.Lib

variable {σ τ ε ο : Type*}

/-- What a machine shows for the events of a list. -/
def outputs (react : σ → ε → ο × σ) : σ → List ε → List ο
  | _, [] => []
  | s, e :: es => (react s e).1 :: outputs react (react s e).2 es

/-- The steps of a machine; every event can happen. -/
def moves (react : σ → ε → ο × σ) (s : σ) (e : ε) : Option σ := some (react s e).2

section

variable {left : σ → ε → ο × σ} {right : τ → ε → ο × τ} {R D : σ → τ → Prop} {cond : σ → ε → Prop}
  {idle : ε} {μ : σ → τ → ℕ} {s : σ} {t : τ}

theorem outputs_cons_eq_iff {e : ε} {es : List ε} :
    outputs left s (e :: es) = outputs right t (e :: es) ↔
      (left s e).1 = (right t e).1 ∧ outputs left (left s e).2 es = outputs right (right t e).2 es := by
  simp only [outputs, List.cons.injEq]

theorem outputs_cons_ne_of_shown {e : ε} (shown : (left s e).1 ≠ (right t e).1) (es : List ε) :
    outputs left s (e :: es) ≠ outputs right t (e :: es) :=
  fun same => shown (outputs_cons_eq_iff.mp same).1

theorem outputs_cons_ne_of_rest {e : ε} {es : List ε}
    (rest : outputs left (left s e).2 es ≠ outputs right (right t e).2 es) :
    outputs left s (e :: es) ≠ outputs right t (e :: es) :=
  fun same => rest (outputs_cons_eq_iff.mp same).2

theorem allSteps_moves_cons {e : ε} {es : List ε} :
    AllSteps (moves left) cond s (e :: es) ↔ cond s e ∧ AllSteps (moves left) cond (left s e).2 es := by
  simp only [AllSteps, moves, Option.some.injEq, forall_eq']

/-- Machines in related states show the same as long as the events meet the side condition. -/
theorem outputs_eq_of_allSteps
    (together : ∀ s t e, R s t → cond s e → (left s e).1 = (right t e).1 ∧ R (left s e).2 (right t e).2)
    {es : List ε} (met : AllSteps (moves left) cond s es) (related : R s t) :
    outputs left s es = outputs right t es := by
  induction es generalizing s t with
  | nil => rfl
  | cons e es ih =>
    rw [allSteps_moves_cons] at met
    obtain ⟨same, next⟩ := together s t e related met.1
    rw [outputs_cons_eq_iff]
    exact ⟨same, ih met.2 next⟩

/-- States in which the machines stay apart, closer to a difference with each idle event. -/
structure Distinguishing (left : σ → ε → ο × σ) (right : τ → ε → ο × τ) (idle : ε) (μ : σ → τ → ℕ)
    (D : σ → τ → Prop) : Prop where
  stays : ∀ s t e, D s t → (left s e).1 ≠ (right t e).1 ∨ D (left s e).2 (right t e).2
  nears : ∀ s t, D s t → (left s idle).1 ≠ (right t idle).1 ∨ μ (left s idle).2 (right t idle).2 < μ s t

/-- Whatever happens next, enough idle events behind it bring the difference out. -/
theorem Distinguishing.exists_outputs_ne (apart : Distinguishing left right idle μ D) (es : List ε)
    (differ : D s t) : ∃ n, outputs left s (es ++ List.replicate n idle) ≠
      outputs right t (es ++ List.replicate n idle) := by
  induction es generalizing s t with
  | nil =>
    induction bound : μ s t using Nat.strongRecOn generalizing s t with
    | ind m ih =>
      by_cases shown : (left s idle).1 = (right t idle).1
      · have next := (apart.stays s t idle differ).resolve_left (not_not_intro shown)
        have less := (apart.nears s t differ).resolve_left (not_not_intro shown)
        obtain ⟨n, ne⟩ := ih _ (bound ▸ less) next rfl
        exact ⟨n + 1, outputs_cons_ne_of_rest ne⟩
      · exact ⟨1, outputs_cons_ne_of_shown shown []⟩
  | cons e es ih =>
    rcases apart.stays s t e differ with shown | next
    · exact ⟨0, outputs_cons_ne_of_shown shown _⟩
    · obtain ⟨n, ne⟩ := ih next
      exact ⟨n, outputs_cons_ne_of_rest ne⟩

/-- When an event that does not meet the side condition sets the machines apart, what they show tells
exactly whether all events met it. -/
theorem forall_outputs_eq_iff (apart : Distinguishing left right idle μ D) (free : ∀ s, cond s idle)
    (together : ∀ s t e, R s t → cond s e → (left s e).1 = (right t e).1 ∧ R (left s e).2 (right t e).2)
    (parts : ∀ s t e, R s t → ¬ cond s e → (left s e).1 ≠ (right t e).1 ∨ D (left s e).2 (right t e).2)
    (es : List ε) (related : R s t) :
    (∀ n, outputs left s (es ++ List.replicate n idle) = outputs right t (es ++ List.replicate n idle)) ↔
      AllSteps (moves left) cond s es := by
  induction es generalizing s t with
  | nil =>
    refine iff_of_true (fun n => ?_) trivial
    apply outputs_eq_of_allSteps together _ related
    apply allSteps_of_forall
    intro e member
    rw [List.nil_append] at member
    exact List.eq_of_mem_replicate member ▸ free
  | cons e es ih =>
    rw [allSteps_moves_cons]
    simp only [List.cons_append, outputs_cons_eq_iff, forall_and, forall_const]
    by_cases met : cond s e
    · obtain ⟨same, next⟩ := together s t e related met
      rw [ih next]
      exact and_congr_left' (iff_of_true same met)
    · refine iff_of_false ?_ (fun all => met all.1)
      rintro ⟨same, rest⟩
      have next := (parts s t e related met).resolve_left (not_not_intro same)
      obtain ⟨n, ne⟩ := apart.exists_outputs_ne es next
      exact ne (rest n)

end

end SystemProgramming.Lib
