import SystemProgramming.ProcessTree.Snapshot
import SystemProgramming.ProcessTree.PrintTree
import SystemProgramming.ProcessTree.Start

/-! # From `/proc` to the rows

The whole program without `-f`: it reads the processes, links them by their parents' ids and prints the subtree
of process 1, or that of each process whose id is an argument. What it lists is said of the ids alone, as the
`stat` files have them.
-/

namespace SystemProgramming.ProcessTree

open Lib

variable {NProc : ℕ}

/-- The calls of `PrintTree` in `main`; outside the table there is none. -/
def printAll (o : Options) (P : Table NProc) (fuel : ℕ) : List ℤ → Screen NProc → Option (Screen NProc)
  | [], screen => some screen
  | idx :: rest, screen =>
    if inside : 0 ≤ idx ∧ idx.toNat < NProc then
      (printTree o P fuel ⟨idx.toNat, inside.2⟩ [] screen).bind (printAll o P fuel rest)
    else none

/-- The rows of `main`, from the table of the readers on. -/
def mainRows (o : Options) (fuel : ℕ) (P : Table NProc) (args : List ℤ) : Option (List (Row NProc)) :=
  (makeTree fuel P).bind fun T => (markProcs o fuel T).bind fun Q => (dropProcs o fuel Q).bind fun R =>
    (printAll o R fuel (starts (getRootPid P) R args) ⟨0, []⟩).map Screen.rows

/-- A process id with the id of its parent. -/
structure Link where
  pid : ℤ
  ppid : ℤ

/-- The children of a process; process 0 is no child of its own. -/
def childPids (links : List Link) (pid : ℤ) : List ℤ :=
  (links.filter fun link => link.ppid = pid ∧ link.pid ≠ pid).map Link.pid

/-- The processes that are asked for and there. -/
def rootPids (links : List Link) (args : List ℤ) : List ℤ :=
  if args = [] then [1] else args.filter fun pid => pid ∈ links.map Link.pid

/-- With `-r` process 1 has no row. -/
def Options.lists (o : Options) (pid : ℤ) : Bool := !(o.roption && pid == 1)

/-- The ids in the rows: each subtree in preorder, its sisters in the order of the table. -/
def listing (o : Options) (links : List Link) (args : List ℤ) : List ℤ :=
  ((rootPids links args).flatMap (preorder (childPids links) o.maxLdepth)).filter o.lists

/-! ## The table -/

section

variable {P : Table NProc} {entries : Fin NProc → Entry}

def linksOf (P : Table NProc) : List Link := (List.finRange NProc).map fun i => ⟨(P i).pid, (P i).ppid⟩

theorem pid_of_getPidIndex {pid : ℤ} {i : Fin NProc} (found : getPidIndex P pid = some i) : (P i).pid = pid :=
  eq_of_beq (List.find?_some (p := fun me => (P me).pid == pid) found)

theorem getPidIndex_eq_some (distinct : Function.Injective fun i => (P i).pid) (pid : ℤ) (i : Fin NProc) :
    getPidIndex P pid = some i ↔ (P i).pid = pid := by
  constructor
  · exact pid_of_getPidIndex
  · intro here
    obtain ⟨j, found⟩ := Option.isSome_iff_exists.mp ((getPidIndex_isSome P pid).mpr ⟨i, here⟩)
    rw [found, distinct ((pid_of_getPidIndex found).trans here.symm)]

/-- With one process for each id the links of the table are those of the ids. -/
theorem childPids_linksOf (distinct : Function.Injective fun i => (P i).pid) (p : Fin NProc) :
    childPids (linksOf P) (P p).pid = (childrenOf (parentOf P) p).map fun i => (P i).pid := by
  rw [childPids, linksOf, childrenOf, List.filter_map, List.map_map]
  refine congrArg _ (List.filter_congr fun me _ => ?_)
  rw [Bool.eq_iff_iff, beq_iff_eq, parentOf_eq_some, getPidIndex_eq_some distinct, ← distinct.ne_iff]
  simp only [Function.comp_apply, decide_eq_true_iff]
  rw [and_comm, eq_comm]

theorem map_preorder (distinct : Function.Injective fun i => (P i).pid) (depth : ℕ) (root : Fin NProc) :
    preorder (childPids (linksOf P)) depth (P root).pid =
      (preorder (childrenOf (parentOf P)) depth root).map fun i => (P i).pid :=
  preorder_map (childPids_linksOf distinct) depth root

/-- The entries `main` starts from. -/
def roots (P : Table NProc) (args : List ℤ) : List (Fin NProc) :=
  if args = [] then (getPidIndex P (getRootPid P)).toList else args.filterMap (getPidIndex P)

theorem getRootPid_of_one {init : Fin NProc} (one : (P init).pid = 1) : getRootPid P = 1 := by
  have found : (scan P fun proc => proc.pid == 1).isSome = true := by
    rw [scan, List.find?_isSome]
    exact ⟨init, List.mem_finRange init, beq_iff_eq.mpr one⟩
  obtain ⟨i, found⟩ := Option.isSome_iff_exists.mp found
  have here : (P i).pid = 1 := eq_of_beq (List.find?_some (p := fun me => (P me).pid == 1) found)
  rw [getRootPid, found]
  change toInt (P i).pid = 1
  rw [here]
  rfl

theorem filter_index (P : Table NProc) (args : List ℤ) :
    (args.map fun pid => index (getPidIndex P pid)).filter (fun idx => idx > -1) =
      (args.filterMap (getPidIndex P)).map fun i => (i.val : ℤ) := by
  induction args with
  | nil => rfl
  | cons pid rest ih =>
    rw [List.map_cons, List.filterMap_cons]
    cases getPidIndex P pid with
    | none => exact ih
    | some i =>
      have inside : decide (index (some i) > -1) = true := by
        rw [decide_eq_true_iff, index]
        omega
      rw [List.filter_cons_of_pos (p := fun idx => decide (idx > -1)) inside, ih]
      rfl

theorem filterMap_getPidIndex (P : Table NProc) (args : List ℤ) :
    ((args.filterMap (getPidIndex P)).map fun i => (P i).pid) =
      args.filter fun pid => pid ∈ (linksOf P).map Link.pid := by
  induction args with
  | nil => rfl
  | cons pid rest ih =>
    have there : pid ∈ (linksOf P).map Link.pid ↔ (getPidIndex P pid).isSome = true := by
      rw [getPidIndex_isSome]
      simp [linksOf]
    rw [List.filterMap_cons, List.filter_cons]
    cases found : getPidIndex P pid with
    | none =>
      rw [found] at there
      simpa [there] using ih
    | some i =>
      rw [found] at there
      simpa [there, pid_of_getPidIndex found] using ih

theorem starts_eq {R : Table NProc} (same : ∀ i, (R i).pid = (P i).pid) {args : List ℤ}
    (start : args ≠ [] ∨ ∃ i, (P i).pid = 1) :
    starts (getRootPid P) R args = (roots P args).map fun i => (i.val : ℤ) := by
  rw [starts, roots]
  simp only [getPidIndex_congr same]
  split_ifs with none
  · obtain ⟨init, one⟩ := start.resolve_left (not_not_intro none)
    rw [getRootPid_of_one one]
    obtain ⟨i, found⟩ := Option.isSome_iff_exists.mp ((getPidIndex_isSome P 1).mpr ⟨init, one⟩)
    rw [found]
    rfl
  · exact filter_index P args

theorem map_roots (distinct : Function.Injective fun i => (P i).pid) {args : List ℤ}
    (start : args ≠ [] ∨ ∃ i, (P i).pid = 1) :
    ((roots P args).map fun i => (P i).pid) = rootPids (linksOf P) args := by
  rw [roots, rootPids]
  split_ifs with none
  · obtain ⟨init, one⟩ := start.resolve_left (not_not_intro none)
    rw [getRootPid_of_one one, (getPidIndex_eq_some distinct 1 init).mpr one]
    simp [one]
  · exact filterMap_getPidIndex P args

end

/-! ## The passes -/

/-- The table `PrintTree` starts from when all processes are shown. -/
structure Shown (o : Options) (P R : Table NProc) : Prop where
  pid : ∀ i, (R i).pid = (P i).pid
  print : ∀ i, (R i).print = true
  visible : ∀ i, (R i).visible = o.lists (P i).pid
  chain : ∀ p, Chain R.sisters (R p).child (childrenOf (parentOf P) p)

section

variable {o : Options} {P R : Table NProc}

/-- The passes end on any links, cycles included. -/
theorem converges_shown (all : o.showall = true) (entries : Fin NProc → Entry) :
    ∃ T Q R, Converges (fun fuel => makeTree fuel (getProcesses entries)) T ∧
      Converges (fun fuel => markProcs o fuel T) Q ∧ Converges (fun fuel => dropProcs o fuel Q) R ∧
      Shown o (getProcesses entries) R := by
  obtain ⟨T, made, linked⟩ := converges_makeTree (unlinked_getProcesses entries)
  obtain ⟨Q, marks, marked⟩ := converges_markProcs (mem_childrenOf _) o linked.grown
    fun me filtered => by simp [all] at filtered
  obtain ⟨R, drops, dropped, -⟩ := linked.drop marked.frame o
  have print (i : Fin NProc) : (Q i).print = true := by
    rw [marked.print]
    exact .inr ⟨i, by simp [Options.Shows, all]⟩
  have pid (i : Fin NProc) : (Q i).pid = (entries i).pid := by
    rw [marked.frame i, linked.frame i]
    rfl
  have unselected (i : Fin NProc) : (R i).selected = false := by
    have same : (R i).selected = (Q i).selected := by rw [dropped.frame i]
    have first : (T i).selected = false := by
      rw [linked.frame i]
      rfl
    rw [same, ← Bool.not_eq_true, marked.selected, first]
    simp [Options.Chooses, all]
  have hidden (i : Fin NProc) : (R i).hidden = true ↔ o.roption = true ∧ (entries i).pid = 1 := by
    have shown : (T i).hidden = false := by
      rw [linked.frame i]
      rfl
    rw [dropped.hidden, marked.hidden, shown, print, pid]
    simp [Options.Veils, all]
  refine ⟨T, Q, R, made, marks, drops, ?_, fun i => (dropped.print_eq i).trans (print i), fun i => ?_, fun p => ?_⟩
  · intro i
    rw [dropped.frame i]
    exact pid i
  · rw [Proc.visible, unselected, Options.lists, Bool.eq_iff_iff]
    simp only [Bool.not_false, Bool.and_true, Bool.not_eq_true', Bool.eq_false_iff]
    rw [ne_eq, ne_eq, hidden, Bool.and_eq_true, beq_iff_eq]
    rfl
  · have every : Q.printed (childrenOf (parentOf (getProcesses entries)) p) =
        childrenOf (parentOf (getProcesses entries)) p := List.filter_eq_self.mpr fun i _ => print i
    rw [← every]
    exact dropped.chain (print p) ((marked.grown linked.grown).chains p)

/-- One call of `PrintTree` after the other adds its rows. -/
theorem Shown.converges_printAll (shown : Shown o P R) (indices : List (Fin NProc)) (rows : List (Row NProc)) :
    Converges (fun fuel => printAll o R fuel (indices.map fun i => (i.val : ℤ)) ⟨0, rows⟩)
      ⟨0, rows ++ indices.flatMap (render o R (childrenOf (parentOf P)) o.maxLdepth [])⟩ := by
  induction indices generalizing rows with
  | nil =>
    rw [List.flatMap_nil, List.append_nil]
    exact .of_forall fun _ => rfl
  | cons i rest ih =>
    have first := converges_printTree (fun p _ => shown.chain p) (fun _ c _ => shown.print c) o.maxLdepth
      (Nat.zero_add _) [] (shown.print i) rows
    have later := first.bind (g := fun screen fuel => printAll o R fuel (rest.map fun i => (i.val : ℤ)) screen)
      (ih _)
    have inside : 0 ≤ (i.val : ℤ) ∧ (i.val : ℤ).toNat < NProc := ⟨Int.natCast_nonneg _, i.isLt⟩
    have entered (fuel : ℕ) : printAll o R fuel ((i :: rest).map fun i => (i.val : ℤ)) ⟨0, rows⟩ =
        (printTree o R fuel i [] ⟨0, rows⟩).bind (printAll o R fuel (rest.map fun i => (i.val : ℤ))) := by
      rw [List.map_cons, printAll, dif_pos inside]
      rfl
    rw [List.flatMap_cons, ← List.append_assoc]
    simpa only [entered] using later

theorem Shown.map_pid (shown : Shown o P R) (distinct : Function.Injective fun i => (P i).pid)
    (indices : List (Fin NProc)) :
    ((indices.flatMap (render o R (childrenOf (parentOf P)) o.maxLdepth [])).map fun row => (P row.idx).pid) =
      ((indices.map fun i => (P i).pid).flatMap (preorder (childPids (linksOf P)) o.maxLdepth)).filter o.lists := by
  induction indices with
  | nil => rfl
  | cons i rest ih =>
    have first : ((render o R (childrenOf (parentOf P)) o.maxLdepth [] i).map fun row => (P row.idx).pid) =
        (preorder (childPids (linksOf P)) o.maxLdepth (P i).pid).filter o.lists := by
      have visited := render_idx o R (childrenOf (parentOf P)) o.maxLdepth [] i
      simp only [shown.visible] at visited
      rw [map_preorder distinct, List.filter_map, ← Function.comp_def (fun i => (P i).pid) Row.idx,
        ← List.map_map, visited]
      rfl
    rw [List.flatMap_cons, List.map_append, first, ih, List.map_cons, List.flatMap_cons, List.filter_append]

end

theorem converges_mainRows {o : Options} (all : o.showall = true) {entries : Fin NProc → Entry}
    (distinct : Function.Injective fun i => (entries i).pid) {args : List ℤ}
    (start : args ≠ [] ∨ ∃ i, (entries i).pid = 1) :
    ∃ rows, Converges (fun fuel => mainRows o fuel (getProcesses entries) args) rows ∧
      (rows.map fun row => (entries row.idx).pid) = listing o (linksOf (getProcesses entries)) args := by
  obtain ⟨T, Q, R, made, marks, drops, shown⟩ := converges_shown all entries
  have printed := (shown.converges_printAll (roots (getProcesses entries) args) []).map Screen.rows
  rw [← starts_eq shown.pid start, List.nil_append] at printed
  refine ⟨_, made.bind (g := fun T fuel => (markProcs o fuel T).bind _) (marks.bind (g := fun Q fuel =>
    (dropProcs o fuel Q).bind _) (drops.bind printed)), ?_⟩
  rw [listing, ← map_roots distinct start]
  exact shown.map_pid distinct _

/-! ## The processes of `/proc` -/

/-- The processes that were there for both files, in the order of the table. -/
def listed (glob : List Snapshot) : List Link :=
  (glob.reverse.filterMap Snapshot.line?).map fun line => ⟨line.pid.toInt, line.ppid.toInt⟩

theorem linksOf_getProcesses (entries : List Entry) :
    linksOf (getProcesses entries.get) = entries.map fun entry => ⟨entry.pid, entry.ppid⟩ := by
  have shape : linksOf (getProcesses entries.get) =
      ((List.finRange entries.length).map entries.get).map fun entry => ⟨entry.pid, entry.ppid⟩ := by
    rw [List.map_map]
    rfl
  rw [shape, List.map_get_finRange]

theorem linksOf_getProcessesDirect (getpwuid : UserDatabase) {glob : List Snapshot}
    (unbroken : ∀ process ∈ glob, ∀ line ∈ process.line?, line.Unbroken) :
    linksOf (getProcesses (getProcessesDirect getpwuid glob).get) = listed glob := by
  have fields : (getProcessesDirect getpwuid glob).map Entry.fields =
      (glob.reverse.filterMap Snapshot.line?).map StatLine.fields := by
    rw [getProcessesDirect, fields_foldl]
    exact (entriesOf_eq_iff (0, 0) glob.reverse).mpr
      (legible_of_unbroken (fun process member => unbroken process (List.mem_reverse.mp member)) (0, 0))
  have links := congrArg (List.map fun numbers => (⟨numbers.1, numbers.2.1⟩ : Link)) fields
  rw [List.map_map, List.map_map] at links
  rw [linksOf_getProcesses]
  exact links

/-- When no command has a blank in it and the process ids are distinct, the rows are those of the subtrees the
parents' ids in the `stat` files make up, whether or not these ids form cycles. -/
theorem pstree_lists_descendants (o : Options) (getpwuid : UserDatabase) (glob : List Snapshot) (args : List ℤ)
    (all : o.showall = true) (unbroken : ∀ process ∈ glob, ∀ line ∈ process.line?, line.Unbroken)
    (distinct : ((listed glob).map Link.pid).Nodup) (start : args ≠ [] ∨ 1 ∈ (listed glob).map Link.pid) :
    ∃ rows, Converges (fun fuel => mainRows o fuel (getProcesses (getProcessesDirect getpwuid glob).get) args) rows ∧
      (rows.map fun row => ((getProcessesDirect getpwuid glob).get row.idx).pid) = listing o (listed glob) args := by
  have links := linksOf_getProcessesDirect getpwuid unbroken
  rw [← links] at distinct start ⊢
  rw [linksOf, List.map_map, List.nodup_map_iff_inj_on (List.nodup_finRange _)] at distinct
  refine converges_mainRows all (fun i j same => distinct i (List.mem_finRange i) j (List.mem_finRange j) same)
    (start.imp_right fun one => ?_)
  rw [linksOf, List.map_map, List.mem_map] at one
  obtain ⟨i, -, one⟩ := one
  exact ⟨i, one⟩

theorem sleeping_letter : (65 : UInt8) ≤ 83 := by decide

/-- `7 (sh) S 1 7 ...` -/
def statLine (pid ppid : BitVec 32) (comm : Bytes) : StatLine where
  pid := pid
  comm := comm
  state := 83
  ppid := ppid
  pgrp := pid
  rest := []
  state_letter := sleeping_letter

/-- A shell and its two children, in the order the ids have in `/proc`. -/
def shellProcesses : List Snapshot :=
  [⟨some (statLine 1 0 (bytes ['i', 'n', 'i', 't']), 0), some []⟩,
    ⟨some (statLine 7 1 (bytes ['s', 'h']), 0), some []⟩,
    ⟨some (statLine 8 7 (bytes ['l', 's']), 0), some []⟩,
    ⟨some (statLine 9 7 (bytes ['c', 'a', 't']), 0), some []⟩]

/-- The later child comes first: the table runs backwards through `/proc`. -/
theorem pstree_lists_descendants_shell :
    ∃ rows, Converges (fun fuel =>
        mainRows {} fuel (getProcesses (getProcessesDirect (fun _ => none) shellProcesses).get) []) rows ∧
      (rows.map fun row => ((getProcessesDirect (fun _ => none) shellProcesses).get row.idx).pid) = [1, 7, 9, 8] := by
  have unbroken : ∀ process ∈ shellProcesses, ∀ line ∈ process.line?, line.Unbroken := by decide +kernel
  obtain ⟨rows, printed, ids⟩ := pstree_lists_descendants {} (fun _ => none) shellProcesses [] rfl unbroken
    (by decide) (.inr (by decide))
  exact ⟨rows, printed, ids.trans (by decide)⟩

end SystemProgramming.ProcessTree
