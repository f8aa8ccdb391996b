import SystemProgramming.ProcessTree.Depth
import SystemProgramming.ProcessTree.Cycles
import Mathlib.Algebra.Ring.Int.Defs
import Mathlib.Algebra.Group.Nat.Defs

/-! # Where `main` starts `PrintTree`

With process ids as arguments `main` skips those that are not in the table. Without, it passes on what
`get_pid_index` finds for the process id of the root, and -1 if it finds nothing. The record of the calls
ends with an index outside the table: the first access of that call is undefined.
-/

namespace SystemProgramming.ProcessTree

open Lib

variable {NProc : ℕ}

/-- A `long` in an `int`. -/
def toInt (value : ℤ) : ℤ := value.bmod (2 ^ 32)

/-- One of the scans of `GetRootPid`: the first entry that it accepts. -/
def scan (P : Table NProc) (accept : Proc NProc → Bool) : Option (Fin NProc) :=
  (List.finRange NProc).find? fun me => accept (P me)

def getRootPid (P : Table NProc) : ℤ :=
  match scan P fun proc => proc.pid == 1 with
  | some me => toInt (P me).pid
  | none =>
    match scan P fun proc => proc.ppid == 0 with
    | some me => toInt (P me).pid
    | none =>
      match scan P fun proc => proc.ppid == 1 with
      | some me => toInt (P me).pid
      | none =>
        match scan P fun proc => proc.pid == proc.ppid with
        | some me => toInt (P me).pid
        | none => -1

/-- The result of `get_pid_index` as the source has it. -/
def index : Option (Fin NProc) → ℤ
  | some i => i.val
  | none => -1

/-- The indices of the calls in `main`; `args` are the process ids on the command line. -/
def starts (RootPid : ℤ) (P : Table NProc) (args : List ℤ) : List ℤ :=
  if args = [] then [index (getPidIndex P RootPid)]
  else (args.map fun pid => index (getPidIndex P pid)).filter fun idx => idx > -1

/-- The indices of all calls of `PrintTree`, from those of `main` on. -/
def printFrom (o : Options) (P : Table NProc) (fuel : ℕ) : List ℤ → Screen NProc → Option (List ℤ)
  | [], _ => some []
  | idx :: rest, screen =>
    if inside : 0 ≤ idx ∧ idx < NProc then
      (traceTree o P fuel ⟨idx.toNat, by omega⟩ [] screen).bind fun trace =>
        (printFrom o P fuel rest trace.screen).map fun calls =>
          trace.calls.map (fun i => (i.val : ℤ)) ++ calls
    else some [idx]

/-- `main` from the table of the readers on. -/
def main (o : Options) (fuel : ℕ) (P : Table NProc) (args : List ℤ) : Option (List ℤ) :=
  (makeTree fuel P).bind fun T => (markProcs o fuel T).bind fun Q => (dropProcs o fuel Q).bind fun R =>
    printFrom o R fuel (starts (getRootPid P) R args) ⟨0, []⟩

/-- The process whose id `GetRootPid` returns: process 1, or else the first one with the parent id 0, or
else with the parent id 1, or else the first one that is its own parent. -/
def rootProcess (P : Table NProc) : Option (Fin NProc) :=
  (scan P fun proc => proc.pid == 1).or <| (scan P fun proc => proc.ppid == 0).or <|
    (scan P fun proc => proc.ppid == 1).or <| scan P fun proc => proc.pid == proc.ppid

/-- The table has a process with the id of its root process, cut to an `int`, or with the id -1 if it has
no root process. -/
def HasStart (P : Table NProc) : Prop :=
  match rootProcess P with
  | some root => ∃ i, (P i).pid = toInt (P root).pid
  | none => ∃ i, (P i).pid = -1

section

variable {P R : Table NProc}

theorem getPidIndex_isSome (P : Table NProc) (pid : ℤ) :
    (getPidIndex P pid).isSome = true ↔ ∃ i, (P i).pid = pid := by
  rw [getPidIndex, List.find?_isSome]
  simp

theorem getPidIndex_congr (same : ∀ i, (R i).pid = (P i).pid) (pid : ℤ) :
    getPidIndex R pid = getPidIndex P pid := by
  simp only [getPidIndex, same]

theorem index_inside (found : Option (Fin NProc)) :
    0 ≤ index found ∧ index found < NProc ↔ found.isSome = true := by
  cases found with
  | none => simp [index]
  | some i => simp [index]

theorem hasStart_iff (P : Table NProc) :
    HasStart P ↔ (getPidIndex P (getRootPid P)).isSome = true := by
  rw [getPidIndex_isSome, HasStart, rootProcess, getRootPid]
  cases scan P fun proc => proc.pid == 1 with
  | some me => rfl
  | none =>
    cases scan P fun proc => proc.ppid == 0 with
    | some me => rfl
    | none =>
      cases scan P fun proc => proc.ppid == 1 with
      | some me => rfl
      | none => cases scan P fun proc => proc.pid == proc.ppid <;> rfl

/-- Where the process ids fit an `int`, a table without a start has no process 1, no process with the parent
id 0 or 1 and none that is its own parent. -/
theorem hasStart_iff_of_int (fits : ∀ i, toInt (P i).pid = (P i).pid) :
    HasStart P ↔ ∃ i, (P i).pid = 1 ∨ (P i).ppid = 0 ∨ (P i).ppid = 1 ∨ (P i).pid = (P i).ppid ∨
      (P i).pid = -1 := by
  rw [HasStart]
  cases root : rootProcess P with
  | some me =>
    refine iff_of_true ⟨me, (fits me).symm⟩ ⟨me, ?_⟩
    simp only [rootProcess, Option.or_eq_some_iff, scan] at root
    rcases root with root | ⟨-, root | ⟨-, root | ⟨-, root⟩⟩⟩
    all_goals have accepted := List.find?_some root
    · exact .inl (eq_of_beq accepted)
    · exact .inr (.inl (eq_of_beq accepted))
    · exact .inr (.inr (.inl (eq_of_beq accepted)))
    · exact .inr (.inr (.inr (.inl (eq_of_beq accepted))))
  | none =>
    simp only [rootProcess, Option.or_eq_none_iff, scan, List.find?_eq_none, List.mem_finRange,
      forall_const, beq_iff_eq] at root
    obtain ⟨first, second, third, fourth⟩ := root
    simp only [first, second, third, fourth, false_or]

/-- With arguments `main` tests the index, without it does not. -/
theorem starts_inside_iff (same : ∀ i, (R i).pid = (P i).pid) (args : List ℤ) :
    (∀ idx ∈ starts (getRootPid P) R args, 0 ≤ idx ∧ idx < NProc) ↔ args ≠ [] ∨ HasStart P := by
  rw [hasStart_iff, starts]
  split_ifs with none
  · simp only [none, ne_eq, not_true_eq_false, false_or, List.mem_singleton, forall_eq, index_inside,
      getPidIndex_congr same]
  · refine iff_of_true (fun idx start => ?_) (.inl none)
    obtain ⟨listed, above⟩ := List.mem_filter.mp start
    obtain ⟨pid, -, rfl⟩ := List.mem_map.mp listed
    rw [index_inside]
    cases found : getPidIndex R pid with
    | none => simp [found, index] at above
    | some i => rfl

theorem starts_outside (same : ∀ i, (R i).pid = (P i).pid) {args : List ℤ}
    (leaves : ¬ ∀ idx ∈ starts (getRootPid P) R args, 0 ≤ idx ∧ idx < NProc) :
    ∃ idx, starts (getRootPid P) R args = [idx] ∧ ¬ (0 ≤ idx ∧ idx < NProc) := by
  rw [starts_inside_iff same, not_or, not_not] at leaves
  refine ⟨index (getPidIndex R (getRootPid P)), by rw [starts, if_pos leaves.1], ?_⟩
  rw [index_inside, getPidIndex_congr same, ← hasStart_iff]
  exact leaves.2

/-- Started inside the table the calls stay inside, and each leaves the depth counter at 0. -/
theorem converges_printFrom {o : Options} (walks : ∀ i, ∃ l, Chain R.sisters (R i).child l)
    {indices : List ℤ} (inside : ∀ idx ∈ indices, 0 ≤ idx ∧ idx < NProc) (rows : List (Row NProc)) :
    ∃ calls, Converges (fun fuel => printFrom o R fuel indices ⟨0, rows⟩) calls ∧
      ∀ idx ∈ calls, 0 ≤ idx ∧ idx < NProc := by
  induction indices generalizing rows with
  | nil => exact ⟨[], .of_forall fun _ => rfl, fun idx called => by cases called⟩
  | cons idx rest ih =>
    rw [List.forall_mem_cons] at inside
    obtain ⟨trace, traced, same, -⟩ := returns_traceTree walks o.maxLdepth (Nat.zero_add _)
      ⟨idx.toNat, by omega⟩ [] rows
    obtain ⟨calls, further, bounded⟩ := ih inside.2 trace.screen.rows
    have resumed : trace.screen = ⟨0, trace.screen.rows⟩ := by rw [← same]
    rw [← resumed] at further
    refine ⟨trace.calls.map (fun i => (i.val : ℤ)) ++ calls, ?_, fun other called => ?_⟩
    · simp only [printFrom, dif_pos inside.1]
      exact traced.bind (g := fun trace fuel => (printFrom o R fuel rest trace.screen).map fun calls =>
        trace.calls.map (fun i => (i.val : ℤ)) ++ calls) (further.map _)
    · rcases List.mem_append.mp called with here | later
      · obtain ⟨i, -, rfl⟩ := List.mem_map.mp here
        exact ⟨Int.natCast_nonneg _, Int.ofNat_lt.mpr i.isLt⟩
      · exact bounded other later

/-- Started outside the calls end there. -/
theorem printFrom_outside {o : Options} {idx : ℤ} (outside : ¬ (0 ≤ idx ∧ idx < NProc)) (fuel : ℕ)
    (screen : Screen NProc) : printFrom o R fuel [idx] screen = some [idx] := by
  rw [printFrom, dif_neg outside]

end

/-- The passes before `PrintTree` keep the process ids and leave walks that end. -/
theorem converges_passes (o : Options) {P T Q : Table NProc} (unlinked : Unlinked P)
    (made : Converges (fun fuel => makeTree fuel P) T)
    (marked : Converges (fun fuel => markProcs o fuel T) Q) :
    ∃ R, Converges (fun fuel => dropProcs o fuel Q) R ∧
      (∀ i, ∃ l, Chain R.sisters (R i).child l) ∧ ∀ i, (R i).pid = (P i).pid := by
  have linked := unlinked.linked made
  obtain ⟨bound, value⟩ := marked
  have remarked : Remarked T Q := remarked_markProcs o bound (value bound (Nat.le_refl _))
  obtain ⟨R, drops, dropped, walks⟩ := linked.drop remarked o
  refine ⟨R, drops, walks, fun i => ?_⟩
  rw [dropped.frame i, remarked i, linked.frame i]

/-- Once `MarkProcs` has ended, `main` makes its calls. -/
theorem converges_main (o : Options) {P T Q : Table NProc} (unlinked : Unlinked P)
    (made : Converges (fun fuel => makeTree fuel P) T)
    (marked : Converges (fun fuel => markProcs o fuel T) Q) (args : List ℤ) :
    ∃ calls, Converges (fun fuel => main o fuel P args) calls ∧
      ((∀ idx ∈ calls, 0 ≤ idx ∧ idx < NProc) ↔ args ≠ [] ∨ HasStart P) := by
  obtain ⟨R, drops, walks, same⟩ := converges_passes o unlinked made marked
  rw [← starts_inside_iff same]
  have runs {calls : List ℤ} (printed : Converges (fun fuel => printFrom o R fuel
      (starts (getRootPid P) R args) ⟨0, []⟩) calls) : Converges (fun fuel => main o fuel P args) calls :=
    made.bind (g := fun T fuel => (markProcs o fuel T).bind _) (marked.bind (g := fun Q fuel =>
      (dropProcs o fuel Q).bind _) (drops.bind printed))
  by_cases inside : ∀ idx ∈ starts (getRootPid P) R args, 0 ≤ idx ∧ idx < NProc
  · obtain ⟨calls, printed, bounded⟩ := converges_printFrom walks inside []
    exact ⟨calls, runs printed, iff_of_true bounded inside⟩
  · obtain ⟨idx, only, outside⟩ := starts_outside same inside
    refine ⟨[idx], runs ?_, iff_of_false ?_ inside⟩
    · rw [only]
      exact .of_forall fun fuel => printFrom_outside outside fuel _
    · intro bounded
      exact outside (bounded idx (List.mem_singleton_self idx))

theorem not_converges_main {o : Options} {P T : Table NProc} {args calls : List ℤ}
    (made : Converges (fun fuel => makeTree fuel P) T) (stuck : ∀ fuel, markProcs o fuel T = none) :
    ¬ Converges (fun fuel => main o fuel P args) calls := by
  obtain ⟨bound, made⟩ := made
  rintro ⟨enough, value⟩
  have built : makeTree (max bound enough) P = some T := made _ (Nat.le_max_left ..)
  have none : main o (max bound enough) P args = none := by
    rw [main, built, Option.bind_some, stuck, Option.bind_none]
  cases none.symm.trans (value _ (Nat.le_max_right ..))

/-- `main` gets through the passes when `MarkProcs` ends. Every index it calls `PrintTree` with lies in the
table exactly when there are process ids as arguments, the table has an entry to start from, or `MarkProcs`
does not end, so that no call is made. -/
theorem main_stays_inside_iff (o : Options) (entries : Fin NProc → Entry) (args : List ℤ) :
    ((o.showall = true ∨ ∀ s, o.selects (getProcesses entries s) = true →
        Grounded (parentOf (getProcesses entries)) s) →
      ∃ calls, Converges (fun fuel => main o fuel (getProcesses entries) args) calls) ∧
    ((∀ calls, Converges (fun fuel => main o fuel (getProcesses entries) args) calls →
        ∀ idx ∈ calls, 0 ≤ idx ∧ idx < NProc) ↔
      args ≠ [] ∨ HasStart (getProcesses entries) ∨
        ¬ (o.showall = true ∨ ∀ s, o.selects (getProcesses entries s) = true →
          Grounded (parentOf (getProcesses entries)) s)) := by
  obtain ⟨T, made, linked⟩ := converges_makeTree (unlinked_getProcesses entries)
  by_cases ends : o.showall = true ∨ ∀ s, o.selects (getProcesses entries s) = true →
      Grounded (parentOf (getProcesses entries)) s
  · obtain ⟨Q, marked⟩ := (linked.marks_end_iff o).mpr ends
    obtain ⟨calls, called, exact⟩ := converges_main o (unlinked_getProcesses entries) made marked args
    refine ⟨fun _ => ⟨calls, called⟩, ?_⟩
    rw [← or_assoc, ← exact, or_iff_left (not_not.mpr ends)]
    constructor
    · intro bounded
      exact bounded calls called
    · intro bounded calls' called'
      obtain rfl := called.unique called'
      exact bounded
  · refine ⟨fun free => absurd free ends, iff_of_true ?_ (.inr (.inr ends))⟩
    intro calls called
    exact absurd called (not_converges_main made (linked.markProcs_eq_none ends))

def oneProcess (pid ppid : ℤ) : Fin 1 → Entry := fun _ => ⟨0, pid, ppid, pid, [], [], 1⟩

/-- A view that shows one process without its parent. -/
theorem oneProcess_starts_outside :
    ∃ calls, Converges (fun fuel => main {} fuel (getProcesses (oneProcess 60 50)) []) calls ∧
      ¬ ∀ idx ∈ calls, 0 ≤ idx ∧ idx < (1 : ℕ) :=
  ⟨[-1], .of_succ (g := fun _ => some [-1]) (fun _ => rfl) (.of_forall fun _ => rfl), by decide⟩

end SystemProgramming.ProcessTree
