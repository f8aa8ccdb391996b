import SystemProgramming.ProcessTree.DropProcs

/-! # The rows `PrintTree` prints

Below a marked entry of the table `DropProcs` leaves, the recursion visits the marked entries in
preorder down to the depth limit, whether or not the links form cycles: the remaining depth bounds
it. On a forest the marks are closed upwards within the subtree of the root, so dropping entries
from the chains is the same as dropping them from the traversal.
-/

namespace SystemProgramming.ProcessTree

open Lib

variable {NProc : ℕ}

/-- `PrintTree` prints no row for a hidden entry that is not selected. -/
def Proc.visible (proc : Proc NProc) : Bool := !(proc.hidden && !proc.selected)

/-- The rows of a subtree `depth` levels deep, over lists of children instead of links. -/
def render (o : Options) (P : Table NProc) (kids : Fin NProc → List (Fin NProc)) :
    ℕ → Bytes → Fin NProc → List (Row NProc)
  | 0, _, _ => []
  | depth + 1, head, idx =>
    if (P idx).visible then
      ⟨idx, rowLine o P idx head⟩ ::
        (kids idx).flatMap (render o P kids depth (childHead o P idx head))
    else (kids idx).flatMap (render o P kids depth (snprintf maxLine head))

/-- Whatever the heads, the rows are those of the visible entries in preorder. -/
theorem render_idx (o : Options) (P : Table NProc) (kids : Fin NProc → List (Fin NProc))
    (depth : ℕ) (head : Bytes) (idx : Fin NProc) :
    (render o P kids depth head idx).map Row.idx =
      (preorder kids depth idx).filter fun i => (P i).visible := by
  induction depth generalizing head idx with
  | zero => rfl
  | succ depth ih =>
    have below (nhead : Bytes) : ((kids idx).flatMap (render o P kids depth nhead)).map Row.idx =
        ((kids idx).flatMap (preorder kids depth)).filter fun i => (P i).visible := by
      rw [List.map_flatMap, List.filter_flatMap]
      exact congrArg (List.flatMap · _) (funext fun c => ih nhead c)
    rw [render, preorder]
    split_ifs with shown
    · rw [List.map_cons, below, List.filter_cons, if_pos shown]
    · rw [below, List.filter_cons, if_neg shown]

section

variable {o : Options} {P : Table NProc} {kids : Fin NProc → List (Fin NProc)}

/-- The loop over the children, given what the recursion prints for each of them. -/
theorem converges_printSisters {l : List (Fin NProc)} {nhead : Bytes} {atLdepth depth : ℕ}
    (each : ∀ c ∈ l, ∀ rows, Converges
      (fun fuel => printTree o P fuel c nhead ⟨atLdepth, rows⟩)
      ⟨atLdepth, rows ++ render o P kids depth nhead c⟩)
    {link : Option (Fin NProc)} (chain : Chain P.sisters link l) (rows : List (Row NProc)) :
    Converges (fun fuel => printSisters o P fuel link nhead ⟨atLdepth, rows⟩)
      ⟨atLdepth, rows ++ l.flatMap (render o P kids depth nhead)⟩ := by
  induction chain generalizing rows with
  | nil =>
    rw [List.flatMap_nil, List.append_nil]
    exact .of_succ (g := fun _ => some _) (fun fuel => by rw [printSisters])
      (.of_forall fun _ => rfl)
  | @cons c l tail ih =>
    have first := each c (List.mem_cons_self ..) rows
    have rest := ih (fun d inside => each d (List.mem_cons_of_mem _ inside))
      (rows ++ render o P kids depth nhead c)
    rw [List.append_assoc, ← List.flatMap_cons] at rest
    exact .of_succ (fun fuel => by rw [printSisters])
      (first.bind (g := fun screen fuel => printSisters o P fuel (P c).sister nhead screen) rest)

/-- `PrintTree` of a marked entry ends at any remaining depth and leaves `atLdepth` as it was. -/
theorem converges_printTree
    (chains : ∀ p, (P p).print = true → Chain P.sisters (P p).child (kids p))
    (marks : ∀ p, ∀ c ∈ kids p, (P c).print = true) (depth : ℕ) {atLdepth : ℕ}
    (remaining : atLdepth + depth = o.maxLdepth) (head : Bytes) {idx : Fin NProc}
    (mark : (P idx).print = true) (rows : List (Row NProc)) :
    Converges (fun fuel => printTree o P fuel idx head ⟨atLdepth, rows⟩)
      ⟨atLdepth, rows ++ render o P kids depth head idx⟩ := by
  induction depth generalizing atLdepth head idx rows with
  | zero =>
    rw [render, List.append_nil]
    refine .of_succ (g := fun _ => some _) (fun fuel => ?_) (.of_forall fun _ => rfl)
    rw [printTree, if_neg (by simp [mark])]
    exact if_pos remaining
  | succ depth ih =>
    have deeper : atLdepth ≠ o.maxLdepth := by omega
    have below (nhead : Bytes) (rows : List (Row NProc)) : Converges
        (fun fuel => printSisters o P fuel (P idx).child nhead ⟨atLdepth + 1, rows⟩)
        ⟨atLdepth + 1, rows ++ (kids idx).flatMap (render o P kids depth nhead)⟩ :=
      converges_printSisters
        (fun c inside rows => ih (by omega) nhead (marks idx c inside) rows) (chains idx mark) rows
    have entered (fuel : ℕ) := by
      simpa only [mark, Bool.true_eq_false, and_false, if_false, deeper] using
        printTree.eq_2 o P idx head ⟨atLdepth, rows⟩ fuel
    cases hide : (P idx).hidden && !(P idx).selected with
    | false =>
      have shown : (P idx).visible = true := by rw [Proc.visible, hide]; rfl
      have value := (below (childHead o P idx head) (rows ++ [⟨idx, rowLine o P idx head⟩])).map
        fun screen => { screen with atLdepth := screen.atLdepth - 1 }
      rw [render, if_pos shown, List.append_cons]
      refine .of_succ (fun fuel => ?_) value
      simp only [entered, hide]
      rfl
    | true =>
      have veiled : (P idx).visible = false := by rw [Proc.visible, hide]; rfl
      have value := (below (snprintf maxLine head) rows).map
        fun screen => { screen with atLdepth := screen.atLdepth - 1 }
      rw [render, if_neg (by simp [veiled])]
      refine .of_succ (fun fuel => ?_) value
      simp only [entered, hide]
      rfl

end

/-! ## The whole program -/

/-- The filter: every process counts as selected when all are shown. -/
def Options.counts (o : Options) (proc : Proc NProc) : Bool := o.showall || o.selects proc

/-- A selected entry, one above it or one below it. -/
def Kept (o : Options) (parent : Fin NProc → Option (Fin NProc)) (P : Table NProc)
    (i : Fin NProc) : Prop :=
  ∃ s, o.counts (P s) = true ∧ (s = i ∨ Ancestor parent i s ∨ Ancestor parent s i)

section

variable {o : Options} {parent : Fin NProc → Option (Fin NProc)} {P : Table NProc}

theorem exists_shows_iff (i : Fin NProc) : (∃ me, o.Shows parent P me i) ↔ Kept o parent P i := by
  cases all : o.showall with
  | true =>
    simp only [Options.Shows, Kept, Options.counts, all, if_true, Bool.true_or, true_and]
    exact ⟨fun _ => ⟨i, .inl rfl⟩, fun _ => ⟨i, rfl⟩⟩
  | false =>
    simp only [Options.Shows, Kept, Options.counts, all, Bool.false_or, Bool.false_eq_true, if_false]
    refine exists_congr fun me => and_congr_right fun _ => ?_
    rw [Below, eq_comm, or_assoc, or_comm (a := Ancestor parent me i)]

/-- What is kept is closed upwards. -/
theorem Kept.of_child {c p : Fin NProc} (link : parent c = some p) (kept : Kept o parent P c) :
    Kept o parent P p := by
  obtain ⟨s, counts, rfl | above | below⟩ := kept
  · exact ⟨s, counts, .inr (.inl (.of_parent link))⟩
  · exact ⟨s, counts, .inr (.inl ((Ancestor.of_parent link).trans above))⟩
  · refine ⟨s, counts, ?_⟩
    obtain ⟨q, same, reached⟩ := ancestor_iff_parent.mp below
    obtain rfl : p = q := Option.some.inj (link.symm.trans same)
    rcases reached with rfl | below
    · exact .inl rfl
    · exact .inr (.inr below)

end

/-- The table `PrintTree` starts from, for any options: the marks, and the rows that follow. -/
theorem converges_pstree (o : Options) (entries : Fin NProc → Entry) (root : Fin NProc)
    {parent : Fin NProc → Option (Fin NProc)} (links : parent = parentOf (getProcesses entries))
    (acyclic : Acyclic parent) :
    ∃ (R : Table NProc) (rows : List (Row NProc)),
      Converges (fun fuel => pstree o fuel (getProcesses entries) root) rows ∧
      rows.map Row.idx = (preorder (childrenOf parent) o.maxLdepth root).filter
        (fun i => (R i).visible && (R i).print) ∧
      (∀ i, (R i).print = true ↔ Kept o parent (getProcesses entries) i) ∧
      (∀ i, (R i).selected = true ↔ ∃ me, o.Chooses (getProcesses entries) me i) ∧
      ∀ i, (R i).hidden = true ↔ (∃ me, o.Veils parent (getProcesses entries) me i) ∨
        ((R i).print = true ∧ o.roption = true ∧ (entries i).pid = 1) := by
  subst links
  obtain ⟨T, made, linked⟩ := converges_makeTree (unlinked_getProcesses entries)
  obtain ⟨Q, marks, marked⟩ := converges_markProcs (mem_childrenOf _) o linked.grown
    fun me _ _ => acyclic.grounded me
  have grown := marked.grown linked.grown
  obtain ⟨R, drops, dropped, -⟩ := linked.drop marked.frame o
  -- the passes before `MarkProcs` leave the data of the readers
  have selects (i : Fin NProc) : o.selects (T i) = o.selects (getProcesses entries i) := by
    rw [linked.frame i]; rfl
  have print (i : Fin NProc) : (R i).print = true ↔
      Kept o (parentOf (getProcesses entries)) (getProcesses entries) i := by
    have unmarked : (T i).print = false := by rw [linked.frame i]; rfl
    rw [dropped.print_eq, marked.print, exists_shows_iff, unmarked]
    simp [Kept, Options.counts, selects]
  have chains (p : Fin NProc) (mark : (R p).print = true) : Chain R.sisters (R p).child
      ((childrenOf (parentOf (getProcesses entries)) p).filter fun i => (R i).print) := by
    have same : (fun i => (R i).print) = fun i => (Q i).print := funext dropped.print_eq
    rw [same]
    exact dropped.chain ((dropped.print_eq p).symm.trans mark) (grown.chains p)
  have upward (c p : Fin NProc) (link : parentOf (getProcesses entries) c = some p)
      (mark : (R c).print = true) : (R p).print = true :=
    (print p).mpr (((print c).mp mark).of_child link)
  have restricted := filter_preorder (mem_childrenOf _) upward o.maxLdepth root
  obtain ⟨rows, printed, visited⟩ : ∃ rows : List (Row NProc),
      Converges (fun fuel => (printTree o R fuel root [] ⟨0, []⟩).map Screen.rows) rows ∧
      rows.map Row.idx = ((preorder (childrenOf (parentOf (getProcesses entries))) o.maxLdepth
        root).filter fun i => (R i).print).filter fun i => (R i).visible := by
    rw [restricted]
    cases mark : (R root).print with
    | true =>
      refine ⟨_, (converges_printTree chains (fun p c inside => (List.mem_filter.mp inside).2)
        o.maxLdepth (Nat.zero_add _) [] mark []).map Screen.rows, ?_⟩
      rw [List.nil_append, render_idx, if_pos rfl]
    | false =>
      refine ⟨[], .of_succ (g := fun _ => some []) (fun fuel => ?_) (.of_forall fun _ => rfl), rfl⟩
      rw [printTree, if_pos ⟨rfl, mark⟩]
      rfl
  refine ⟨R, rows, ?_, ?_, print, fun i => ?_, fun i => ?_⟩
  · exact made.bind (g := fun P fuel => (markProcs o fuel P).bind _) (marks.bind (g := fun P fuel =>
      (dropProcs o fuel P).bind _) (drops.bind printed))
  · rw [visited, List.filter_filter]
  · have unselected : (T i).selected = false := by rw [linked.frame i]; rfl
    have same : (R i).selected = (Q i).selected := by rw [dropped.frame i]
    rw [same, marked.selected, unselected]
    simp [Options.Chooses, selects]
  · have shown : (T i).hidden = false := by rw [linked.frame i]; rfl
    have pid : (Q i).pid = (entries i).pid := by rw [marked.frame i, linked.frame i]; rfl
    rw [dropped.hidden, marked.hidden, shown, dropped.print_eq, pid]
    simp [Options.Veils, selects]

open scoped Classical in
/-- Without `-H` and `-r` the rows are the kept entries of the root's subtree, fewer than
`maxLdepth` levels down, each once, in preorder with sisters in table order. -/
theorem pstree_prints_kept (o : Options) (entries : Fin NProc → Entry) (root : Fin NProc)
    (T : Table NProc) (made : Converges (fun fuel => makeTree fuel (getProcesses entries)) T)
    (acyclic : Acyclic T.parents) (hideless : o.Hoption = false) (rootless : o.roption = false) :
    ∃ rows, Converges (fun fuel => pstree o fuel (getProcesses entries) root) rows ∧
      rows.map Row.idx = (preorder (childrenOf T.parents) o.maxLdepth root).filter
        (fun i => decide (Kept o T.parents (getProcesses entries) i)) ∧
      (rows.map Row.idx).Nodup ∧
      ∀ i, i ∈ rows.map Row.idx ↔ (∃ k < o.maxLdepth, climb T.parents k i = some root) ∧
        Kept o T.parents (getProcesses entries) i := by
  have linked := (unlinked_getProcesses entries).linked made
  have links : T.parents = parentOf (getProcesses entries) := linked.parents_eq
  obtain ⟨R, rows, printed, visited, print, -, hidden⟩ := converges_pstree o entries root links acyclic
  have exact : rows.map Row.idx = (preorder (childrenOf T.parents) o.maxLdepth root).filter
      (fun i => decide (Kept o T.parents (getProcesses entries) i)) := by
    rw [visited]
    apply List.filter_congr
    intro i _
    have unveiled : (R i).hidden = false := by
      rw [← Bool.not_eq_true, hidden]
      simp [Options.Veils, hideless, rootless]
    rw [Proc.visible, unveiled, Bool.eq_iff_iff, decide_eq_true_iff, ← print i]
    rfl
  refine ⟨rows, printed, exact, ?_, fun i => ?_⟩
  · rw [exact]
    exact (preorder_nodup (mem_childrenOf _) (childrenOf_nodup _) acyclic _ _).filter _
  · rw [exact, List.mem_filter, mem_preorder (mem_childrenOf _), decide_eq_true_iff]

/-- Process 1 and its child 2. -/
def initAndChild : Fin 2 → Entry
  | 0 => ⟨0, 1, 0, 1, [], [], 1⟩
  | 1 => ⟨0, 2, 1, 1, [], [], 1⟩

theorem pstree_prints_kept_initAndChild :
    ∃ rows, Converges (fun fuel =>
      pstree { showall := false, ipid := 2 } fuel (getProcesses initAndChild) 0) rows ∧
      1 ∈ rows.map Row.idx := by
  obtain ⟨T, made, linked⟩ := converges_makeTree (unlinked_getProcesses initAndChild)
  have links : T.parents = parentOf (getProcesses initAndChild) := linked.parents_eq
  have acyclic : Acyclic T.parents := by
    rw [links]
    exact acyclic_of_rank Fin.val (by decide)
  obtain ⟨rows, printed, -, -, visited⟩ := pstree_prints_kept { showall := false, ipid := 2 }
    initAndChild 0 T made acyclic rfl rfl
  refine ⟨rows, printed, (visited 1).mpr ⟨⟨1, by decide, ?_⟩, 1, by decide, .inl rfl⟩⟩
  rw [links]
  decide

end SystemProgramming.ProcessTree
