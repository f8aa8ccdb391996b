import SystemProgramming.ProcessTree.MarkProcs

/-! # When `MarkProcs` ends

`MakeTree` keeps an entry from being its own parent, but two entries may still be each other's parents, or
more of them form a longer cycle. Above such a cycle the walk over the parents never reaches an entry
without one. The passes before change marks only, so it makes no difference when a pass meets the cycle.
-/

namespace SystemProgramming.ProcessTree

open Lib

variable {NProc : ℕ}

section

variable {P Q R : Table NProc}

theorem Remarked.refl (P : Table NProc) : Remarked P P := fun _ => rfl

theorem Remarked.trans (first : Remarked P Q) (second : Remarked Q R) : Remarked P R := by
  intro i
  rw [second i, first i]

theorem remarked_set (P : Table NProc) (me : Fin NProc) (print selected hidden : Bool) :
    Remarked P (P.set me { P me with print := print, selected := selected, hidden := hidden }) := by
  intro i
  rw [Table.set_apply]
  split_ifs with here
  · rw [here]
  · rfl

theorem remarked_markSubtree (fuel : ℕ) :
    (∀ (P : Table NProc) me Q, markChildren fuel P me = some Q → Remarked P Q) ∧
    ∀ (P : Table NProc) link Q, markSisters fuel P link = some Q → Remarked P Q := by
  induction fuel with
  | zero =>
    refine ⟨fun P me Q done => ?_, fun P link Q done => ?_⟩
    · simp [markChildren] at done
    · simp [markSisters] at done
  | succ fuel ih =>
    obtain ⟨subtree, sisters⟩ := ih
    refine ⟨fun P me Q done => ?_, fun P link Q done => ?_⟩
    · rw [markChildren] at done
      exact (remarked_set P me true (P me).selected (P me).hidden).trans (sisters _ _ _ done)
    · cases link with
      | none =>
        rw [markSisters, Option.some.injEq] at done
        exact done ▸ Remarked.refl P
      | some child =>
        rw [markSisters] at done
        obtain ⟨next, first, rest⟩ := Option.bind_eq_some_iff.mp done
        exact (subtree _ _ _ first).trans (sisters _ _ _ rest)

theorem remarked_markParents (hide : Bool) (fuel : ℕ) {link : Option (Fin NProc)}
    (done : markParents hide fuel P link = some Q) : Remarked P Q := by
  induction fuel generalizing P link with
  | zero => simp [markParents] at done
  | succ fuel ih =>
    cases link with
    | none =>
      rw [markParents, Option.some.injEq] at done
      exact done ▸ Remarked.refl P
    | some parent =>
      rw [markParents] at done
      exact (remarked_set P parent true (P parent).selected ((P parent).hidden || hide)).trans (ih done)

theorem remarked_markProc (o : Options) (fuel : ℕ) {me : Fin NProc}
    (done : markProc o fuel P me = some Q) : Remarked P Q := by
  rw [markProc] at done
  split_ifs at done
  · rw [Option.some.injEq] at done
    exact done ▸ remarked_set P me true (P me).selected (P me).hidden
  · obtain ⟨next, parents, subtree⟩ := Option.bind_eq_some_iff.mp done
    exact ((remarked_set P me (P me).print true (P me).hidden).trans
      (remarked_markParents _ _ parents)).trans ((remarked_markSubtree fuel).1 _ _ _ subtree)
  · rw [Option.some.injEq] at done
    exact done ▸ Remarked.refl P

theorem remarked_markProcs (o : Options) (fuel : ℕ) (done : markProcs o fuel P = some Q) :
    Remarked P Q := by
  apply foldlM_invariant (Remarked P) ?_ (Remarked.refl P) done
  intro R me next marked pass
  exact marked.trans (remarked_markProc o fuel pass)

end

section

variable {parent : Fin NProc → Option (Fin NProc)} {P : Table NProc}

/-- Above a cycle the loop over the parents runs on. -/
theorem markParents_stuck (hide : Bool) (fuel : ℕ) (parents : ∀ i, (P i).parent = parent i)
    {p : Fin NProc} (stuck : ¬ Grounded parent p) : markParents hide fuel P (some p) = none := by
  induction fuel generalizing P p with
  | zero => rfl
  | succ fuel ih =>
    obtain ⟨q, link, further⟩ := exists_parent_of_not_grounded stuck
    have kept := remarked_set P p true (P p).selected ((P p).hidden || hide)
    have next (i : Fin NProc) : (P.set p
        { P p with print := true, hidden := (P p).hidden || hide } i).parent = parent i := by
      rw [kept i]
      exact parents i
    rw [markParents]
    dsimp only
    rw [next, link]
    exact ih next further

theorem markProc_stuck (o : Options) (fuel : ℕ) (parents : ∀ i, (P i).parent = parent i)
    {me : Fin NProc} (all : o.showall = false) (selected : o.selects (P me) = true)
    (stuck : ¬ Grounded parent me) : markProc o fuel P me = none := by
  obtain ⟨q, link, further⟩ := exists_parent_of_not_grounded stuck
  have kept := remarked_set P me (P me).print true (P me).hidden
  have next (i : Fin NProc) :
      (P.set me { P me with selected := true } i).parent = parent i := by
    rw [kept i]
    exact parents i
  rw [markProc, if_neg (by simp [all]), if_pos selected]
  dsimp only
  rw [next, link, markParents_stuck o.Hoption fuel next further, Option.bind_none]

/-- Whatever the passes before have marked, the loop stops at a selected entry above a cycle. -/
theorem markProcs_stuck (o : Options) (fuel : ℕ) (parents : ∀ i, (P i).parent = parent i)
    {me : Fin NProc} (all : o.showall = false) (selected : o.selects (P me) = true)
    (stuck : ¬ Grounded parent me) : markProcs o fuel P = none := by
  apply foldlM_eq_none (Remarked P) ?_ (List.mem_finRange me) ?_ (Remarked.refl P)
  · intro Q i R kept pass
    exact kept.trans (remarked_markProc o fuel pass)
  · intro Q kept
    apply markProc_stuck o fuel ?_ all ?_ stuck
    · intro i
      rw [kept i]
      exact parents i
    · rw [kept me]
      exact selected

end

section

variable {P T : Table NProc}

theorem Linked.selects_eq (linked : Linked P (List.finRange NProc) T) (o : Options) (s : Fin NProc) :
    o.selects (T s) = o.selects (P s) := by
  rw [linked.frame s]
  rfl

/-- With a selected process on a cycle or below one, the loop over the processes has no result. -/
theorem Linked.markProcs_eq_none (linked : Linked P (List.finRange NProc) T) {o : Options}
    (caught : ¬ (o.showall = true ∨ ∀ s, o.selects (P s) = true → Grounded (parentOf P) s)) (fuel : ℕ) :
    markProcs o fuel T = none := by
  push Not at caught
  obtain ⟨all, s, selected, stuck⟩ := caught
  exact markProcs_stuck o fuel linked.grown.parents (by simpa using all)
    ((linked.selects_eq o s).trans selected) stuck

theorem Linked.marks_end_iff (linked : Linked P (List.finRange NProc) T) (o : Options) :
    (∃ Q, Converges (fun fuel => markProcs o fuel T) Q) ↔
      o.showall = true ∨ ∀ s, o.selects (P s) = true → Grounded (parentOf P) s := by
  constructor
  · rintro ⟨Q, ends⟩
    by_contra caught
    exact not_converges_of_none (linked.markProcs_eq_none caught) ends
  · intro free
    obtain ⟨Q, ends, -⟩ := converges_markProcs (mem_childrenOf _) o linked.grown fun s all selected =>
      (free.resolve_left (by simp [all])) s ((linked.selects_eq o s).symm.trans selected)
    exact ⟨Q, ends⟩

end

/-- `MarkProcs` ends exactly when all processes are shown or no selected one is on a cycle of parent links
or below one. -/
theorem markProcs_ends_iff (o : Options) (entries : Fin NProc → Entry) :
    ∃ T, Converges (fun fuel => makeTree fuel (getProcesses entries)) T ∧
      ((∃ Q, Converges (fun fuel => markProcs o fuel T) Q) ↔
        o.showall = true ∨ ∀ s, o.selects (getProcesses entries s) = true →
          Grounded (parentOf (getProcesses entries)) s) := by
  obtain ⟨T, made, linked⟩ := converges_makeTree (unlinked_getProcesses entries)
  exact ⟨T, made, linked.marks_end_iff o⟩

/-- With process 8 selected, which is its own grandparent, the loop has no end. -/
theorem recycledPids_never_marked :
    ∃ T, Converges (fun fuel => makeTree fuel (getProcesses recycledPids)) T ∧
      ¬ ∃ Q, Converges (fun fuel => markProcs { showall := false, ipid := 8 } fuel T) Q := by
  obtain ⟨T, made, linked⟩ := converges_makeTree (unlinked_getProcesses recycledPids)
  refine ⟨T, made, ?_⟩
  rintro ⟨Q, ends⟩
  have cycle : Ancestor (parentOf (getProcesses recycledPids)) 2 2 := ⟨1, by decide⟩
  have stuck : ¬ Grounded (parentOf (getProcesses recycledPids)) 2 :=
    fun grounded => grounded 2 (.inl rfl) cycle
  refine not_converges_of_none (fun fuel => ?_) ends
  refine markProcs_stuck _ fuel linked.grown.parents rfl ?_ stuck
  rw [linked.frame 2]
  rfl

end SystemProgramming.ProcessTree
