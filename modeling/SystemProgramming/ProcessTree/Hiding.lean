import SystemProgramming.ProcessTree.PrintTree

/-! # The rows under `-H`

Everything above a selected process is hidden, and a hidden process gets a row only if it is selected
itself. Where selected processes are nested this hides those between them as well, although they belong to
the subtree of the upper one.
-/

namespace SystemProgramming.ProcessTree

open Lib

variable {NProc : ℕ}

/-- A selected process, or one below it. -/
def InSelectedSubtree (o : Options) (parent : Fin NProc → Option (Fin NProc)) (P : Table NProc)
    (i : Fin NProc) : Prop :=
  ∃ s, o.selects (P s) = true ∧ Below parent s i

/-- A process that is not selected itself, below one that is and above another. -/
def BetweenSelected (o : Options) (parent : Fin NProc → Option (Fin NProc)) (P : Table NProc)
    (i : Fin NProc) : Prop :=
  o.selects (P i) = false ∧ (∃ s, o.selects (P s) = true ∧ Ancestor parent s i) ∧
    ∃ s, o.selects (P s) = true ∧ Ancestor parent i s

/-- Below the root, within the depth limit. -/
def Options.Reaches (o : Options) (parent : Fin NProc → Option (Fin NProc)) (root i : Fin NProc) : Prop :=
  ∃ k < o.maxLdepth, climb parent k i = some root

section

variable {o : Options} {parent : Fin NProc → Option (Fin NProc)} {P : Table NProc}

/-- A kept process that is selected or has nothing selected below it. -/
theorem kept_and_uncovered_iff (filtered : o.showall = false) (i : Fin NProc) :
    Kept o parent P i ∧
        (o.selects (P i) = true ∨ ¬ ∃ s, o.selects (P s) = true ∧ Ancestor parent i s) ↔
      InSelectedSubtree o parent P i ∧ ¬ BetweenSelected o parent P i := by
  cases selected : o.selects (P i) with
  | true =>
    have kept : Kept o parent P i := ⟨i, by simp [Options.counts, selected], .inl rfl⟩
    have inside : InSelectedSubtree o parent P i := ⟨i, selected, .inl rfl⟩
    simp [kept, inside, BetweenSelected, selected]
  | false =>
    constructor
    · rintro ⟨⟨s, counts, place⟩, none | none⟩
      · cases none
      · have chosen : o.selects (P s) = true := by simpa [Options.counts, filtered] using counts
        rcases place with rfl | below | above
        · cases selected.symm.trans chosen
        · exact absurd ⟨s, chosen, below⟩ none
        · exact ⟨⟨s, chosen, .inr above⟩, fun between => none between.2.2⟩
    · rintro ⟨⟨s, chosen, rfl | above⟩, outside⟩
      · cases selected.symm.trans chosen
      · refine ⟨⟨s, by simp [Options.counts, chosen], .inr (.inr above)⟩, .inr fun below => ?_⟩
        exact outside ⟨selected, ⟨s, chosen, above⟩, below⟩

end

/-- Under `-H` the rows are those of the selected subtrees without what lies between selected processes. -/
theorem pstree_hides (o : Options) (entries : Fin NProc → Entry) (root : Fin NProc) {T : Table NProc}
    (made : Converges (fun fuel => makeTree fuel (getProcesses entries)) T) (acyclic : Acyclic T.parents)
    (filtered : o.showall = false) (hides : o.Hoption = true) (rootless : o.roption = false) :
    ∃ rows, Converges (fun fuel => pstree o fuel (getProcesses entries) root) rows ∧
      (rows.map Row.idx).Nodup ∧
      ∀ i, i ∈ rows.map Row.idx ↔ o.Reaches T.parents root i ∧
        InSelectedSubtree o T.parents (getProcesses entries) i ∧
        ¬ BetweenSelected o T.parents (getProcesses entries) i := by
  have links : T.parents = parentOf (getProcesses entries) :=
    ((unlinked_getProcesses entries).linked made).parents_eq
  obtain ⟨R, rows, printed, visited, print, selected, hidden⟩ :=
    converges_pstree o entries root links acyclic
  refine ⟨rows, printed, ?_, fun i => ?_⟩
  · rw [visited, links]
    exact (preorder_nodup (mem_childrenOf _) (childrenOf_nodup _) (links ▸ acyclic) _ _).filter _
  · have chosen : (R i).selected = true ↔ o.selects (getProcesses entries i) = true := by
      rw [selected]
      simp [Options.Chooses, filtered]
    have veiled : (R i).hidden = true ↔
        ∃ s, o.selects (getProcesses entries s) = true ∧ Ancestor T.parents i s := by
      rw [hidden]
      simp [Options.Veils, filtered, hides, rootless]
    have shown : (R i).visible = true ↔ o.selects (getProcesses entries i) = true ∨
        ¬ ∃ s, o.selects (getProcesses entries s) = true ∧ Ancestor T.parents i s := by
      rw [← chosen, ← veiled, Proc.visible]
      cases (R i).hidden <;> cases (R i).selected <;> decide
    rw [visited, links, List.mem_filter, mem_preorder (mem_childrenOf _), ← links, Bool.and_eq_true,
      shown, print, and_comm (b := Kept o T.parents (getProcesses entries) i),
      kept_and_uncovered_iff filtered]
    rfl

/-- The rows under `-H` are those of the selected subtrees exactly when, within the depth limit, no process
that is not selected lies between two selected ones. -/
theorem pstree_shows_selected_iff (o : Options) (entries : Fin NProc → Entry) (root : Fin NProc)
    (T : Table NProc) (made : Converges (fun fuel => makeTree fuel (getProcesses entries)) T)
    (acyclic : Acyclic T.parents) (filtered : o.showall = false) (hides : o.Hoption = true)
    (rootless : o.roption = false) :
    (∃ rows, Converges (fun fuel => pstree o fuel (getProcesses entries) root) rows ∧
        (rows.map Row.idx).Nodup ∧
        ∀ i, i ∈ rows.map Row.idx ↔ o.Reaches T.parents root i ∧
          InSelectedSubtree o T.parents (getProcesses entries) i) ↔
      ∀ i, o.Reaches T.parents root i → ¬ BetweenSelected o T.parents (getProcesses entries) i := by
  obtain ⟨rows, printed, distinct, exact⟩ :=
    pstree_hides o entries root made acyclic filtered hides rootless
  constructor
  · rintro ⟨rows', printed', -, whole⟩ i reached between
    obtain rfl := printed.unique printed'
    obtain ⟨s, chosen, above⟩ := between.2.1
    have row := (whole i).mpr ⟨reached, s, chosen, .inr above⟩
    exact ((exact i).mp row).2.2 between
  · intro apart
    refine ⟨rows, printed, distinct, fun i => (exact i).trans ?_⟩
    exact ⟨fun row => ⟨row.1, row.2.1⟩, fun row => ⟨row.1, row.2, apart i row.1⟩⟩

/-- A shell of user `u`, a process of another user below it, and a second process of `u` below that. -/
def switchedUser : Fin 3 → Entry
  | 0 => ⟨1000, 1, 0, 1, bytes ['u'], [], 1⟩
  | 1 => ⟨0, 2, 1, 2, bytes ['r'], [], 1⟩
  | 2 => ⟨1000, 3, 2, 3, bytes ['u'], [], 1⟩

theorem switchedUser_acyclic : Acyclic (parentOf (getProcesses switchedUser)) :=
  acyclic_of_rank Fin.val (by decide)

/-- With `-p 2 -H` one process is selected, and the rows are its subtree. -/
theorem pstree_shows_selected_switchedUser :
    ∃ rows, Converges (fun fuel => pstree
        { showall := false, Hoption := true, ipid := 2, name := bytes ['x'] } fuel
        (getProcesses switchedUser) 0) rows ∧
      0 ∉ rows.map Row.idx ∧ 1 ∈ rows.map Row.idx ∧ 2 ∈ rows.map Row.idx := by
  obtain ⟨T, made, linked⟩ := converges_makeTree (unlinked_getProcesses switchedUser)
  have links : T.parents = parentOf (getProcesses switchedUser) := linked.parents_eq
  have acyclic : Acyclic T.parents := links ▸ switchedUser_acyclic
  have only (s : Fin 3) (chosen : Options.selects
      { showall := false, Hoption := true, ipid := 2, name := bytes ['x'] }
      (getProcesses switchedUser s) = true) : s = 1 := by
    revert s
    decide
  obtain ⟨rows, printed, -, whole⟩ := (pstree_shows_selected_iff
    { showall := false, Hoption := true, ipid := 2, name := bytes ['x'] } switchedUser 0 T made acyclic
    rfl rfl rfl).mpr fun i _ between => by
      obtain ⟨-, ⟨s, upper, above⟩, ⟨s', lower, below⟩⟩ := between
      obtain rfl := only s upper
      obtain rfl := only s' lower
      exact acyclic 1 (above.trans below)
  refine ⟨rows, printed, fun row => ?_, (whole 1).mpr ?_, (whole 2).mpr ?_⟩
  · obtain ⟨-, s, chosen, below⟩ := (whole 0).mp row
    obtain rfl := only s chosen
    rcases below with same | ⟨k, path⟩
    · cases same
    · have top : T.parents 0 = none := by rw [links]; decide
      simp [climb, top] at path
  · rw [links]
    exact ⟨⟨1, by decide, by decide⟩, 1, by decide, .inl rfl⟩
  · rw [links]
    exact ⟨⟨2, by decide, by decide⟩, 1, by decide, .inr ⟨0, by decide⟩⟩

/-- `-u u -H`. -/
def subtreesOfUser : Options := { showall := false, Hoption := true, name := bytes ['u'] }

/-- The process in the middle gets no row, although it is below the selected shell. -/
theorem switchedUser_hides_middle :
    ∃ T, Converges (fun fuel => makeTree fuel (getProcesses switchedUser)) T ∧ Acyclic T.parents ∧
      ∃ rows, Converges (fun fuel => pstree subtreesOfUser fuel (getProcesses switchedUser) 0) rows ∧
        subtreesOfUser.Reaches T.parents 0 1 ∧
        InSelectedSubtree subtreesOfUser T.parents (getProcesses switchedUser) 1 ∧
        1 ∉ rows.map Row.idx := by
  obtain ⟨T, made, linked⟩ := converges_makeTree (unlinked_getProcesses switchedUser)
  have links : T.parents = parentOf (getProcesses switchedUser) := linked.parents_eq
  have acyclic : Acyclic T.parents := links ▸ switchedUser_acyclic
  obtain ⟨rows, printed, -, exact⟩ :=
    pstree_hides subtreesOfUser switchedUser 0 made acyclic rfl rfl rfl
  have above : Ancestor T.parents 0 1 := by rw [links]; exact ⟨0, by decide⟩
  have below : Ancestor T.parents 1 2 := by rw [links]; exact ⟨0, by decide⟩
  have reached : subtreesOfUser.Reaches T.parents 0 1 := ⟨1, by decide, by rw [links]; decide⟩
  refine ⟨T, made, acyclic, rows, printed, reached, ⟨0, by decide, .inr above⟩, fun row => ?_⟩
  exact ((exact 1).mp row).2.2 ⟨by decide, ⟨0, by decide, above⟩, ⟨2, by decide, below⟩⟩

end SystemProgramming.ProcessTree
