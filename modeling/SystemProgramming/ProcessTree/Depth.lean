import SystemProgramming.ProcessTree.DropProcs

/-! # How deep `PrintTree` nests

The links of a table may form cycles, so only the depth counter ends the recursion. `traceTree` is
`PrintTree` with a record of its calls; forgetting the record gives `printTree` back. The recursion is on
the levels that remain and, at each level, on the rest of the chain of sisters.
-/

namespace SystemProgramming.ProcessTree

open Lib

variable {NProc : ℕ}

/-- What a call of `PrintTree` leaves: the screen, how many levels nested past the depth test, and the
entries that it and the calls below it were made for. -/
structure Trace (NProc : ℕ) where
  screen : Screen NProc
  levels : ℕ
  calls : List (Fin NProc)

/-- A call for `idx` whose loop over the children left `below`. -/
def Trace.enter (idx : Fin NProc) (below : Trace NProc) : Trace NProc where
  screen := { below.screen with atLdepth := below.screen.atLdepth - 1 }
  levels := below.levels + 1
  calls := idx :: below.calls

/-- The call for one child, then those for its sisters. -/
def Trace.join (first rest : Trace NProc) : Trace NProc where
  screen := rest.screen
  levels := max first.levels rest.levels
  calls := first.calls ++ rest.calls

mutual

def traceTree (o : Options) (P : Table NProc) :
    ℕ → Fin NProc → Bytes → Screen NProc → Option (Trace NProc)
  | 0, _, _, _ => none
  | fuel + 1, idx, head, screen =>
    if head = [] ∧ (P idx).print = false then some ⟨screen, 0, [idx]⟩
    else if screen.atLdepth = o.maxLdepth then some ⟨screen, 0, [idx]⟩
    else
      let hide := (P idx).hidden && !(P idx).selected
      let nhead := if hide then snprintf maxLine head else childHead o P idx head
      let rows := if hide then screen.rows else screen.rows ++ [⟨idx, rowLine o P idx head⟩]
      (traceSisters o P fuel (P idx).child nhead ⟨screen.atLdepth + 1, rows⟩).map (Trace.enter idx)

def traceSisters (o : Options) (P : Table NProc) :
    ℕ → Option (Fin NProc) → Bytes → Screen NProc → Option (Trace NProc)
  | 0, _, _, _ => none
  | _ + 1, none, _, screen => some ⟨screen, 0, []⟩
  | fuel + 1, some child, head, screen =>
    (traceTree o P fuel child head screen).bind fun first =>
      (traceSisters o P fuel (P child).sister head first.screen).map first.join

end

/-- The record changes nothing about the run. -/
theorem trace_screen (o : Options) (P : Table NProc) (fuel : ℕ) :
    (∀ idx head screen,
      (traceTree o P fuel idx head screen).map Trace.screen = printTree o P fuel idx head screen) ∧
    ∀ link head screen,
      (traceSisters o P fuel link head screen).map Trace.screen =
        printSisters o P fuel link head screen := by
  induction fuel with
  | zero => exact ⟨fun _ _ _ => rfl, fun _ _ _ => rfl⟩
  | succ fuel ih =>
    obtain ⟨tree, sisters⟩ := ih
    refine ⟨fun idx head screen => ?_, fun link head screen => ?_⟩
    · rw [traceTree, printTree]
      split_ifs
      · rfl
      · rfl
      · simp only [← sisters, Option.map_map]
        rfl
    · cases link with
      | none => rfl
      | some child =>
        rw [traceSisters, printSisters, ← tree, Option.map_bind, Option.bind_map]
        congr 1
        funext first
        simp only [← sisters, Option.map_map, Function.comp_apply]
        rfl

section

variable {o : Options} {P : Table NProc}

theorem converges_printTree_of_trace {idx : Fin NProc} {head : Bytes} {screen : Screen NProc}
    {trace : Trace NProc} (traced : Converges (fun fuel => traceTree o P fuel idx head screen) trace) :
    Converges (fun fuel => printTree o P fuel idx head screen) trace.screen := by
  simpa only [(trace_screen o P _).1] using traced.map Trace.screen

/-- A run that ends with the given counter and at most `levels` levels deep. -/
def Returns (run : ℕ → Option (Trace NProc)) (atLdepth levels : ℕ) : Prop :=
  ∃ trace, Converges run trace ∧ trace.screen.atLdepth = atLdepth ∧ trace.levels ≤ levels

theorem Returns.at_once {run : ℕ → Option (Trace NProc)} (trace : Trace NProc) (levels : ℕ)
    (value : ∀ fuel, run (fuel + 1) = some trace) (flat : trace.levels = 0) :
    Returns run trace.screen.atLdepth levels :=
  ⟨trace, .of_succ (g := fun _ => some trace) value (.of_forall fun _ => rfl), rfl, by omega⟩

/-- The loop over the children returns if the recursion does for each of them. -/
theorem returns_traceSisters {atLdepth levels : ℕ} {head : Bytes}
    (each : ∀ c rows, Returns (fun fuel => traceTree o P fuel c head ⟨atLdepth, rows⟩) atLdepth levels)
    {link : Option (Fin NProc)} {l : List (Fin NProc)} (chain : Chain P.sisters link l)
    (rows : List (Row NProc)) :
    Returns (fun fuel => traceSisters o P fuel link head ⟨atLdepth, rows⟩) atLdepth levels := by
  induction chain generalizing rows with
  | nil => exact .at_once ⟨⟨atLdepth, rows⟩, 0, []⟩ levels (fun fuel => by rw [traceSisters]) rfl
  | @cons c l tail ih =>
    obtain ⟨first, enters, same, shallow⟩ := each c rows
    obtain ⟨rest, loops, still, low⟩ := ih first.screen.rows
    have resumed : first.screen = ⟨atLdepth, first.screen.rows⟩ := by rw [← same]
    rw [← resumed] at loops
    refine ⟨first.join rest, .of_succ (fun fuel => by rw [traceSisters]) ?_, still,
      Nat.max_le.mpr ⟨shallow, low⟩⟩
    exact enters.bind (g := fun first fuel =>
      (traceSisters o P fuel (P c).sister head first.screen).map first.join) (loops.map first.join)

/-- `PrintTree` returns from any entry, with any head, whatever levels remain. -/
theorem returns_traceTree (walks : ∀ i, ∃ l, Chain P.sisters (P i).child l) (depth : ℕ) {atLdepth : ℕ}
    (remaining : atLdepth + depth = o.maxLdepth) (idx : Fin NProc) (head : Bytes)
    (rows : List (Row NProc)) :
    Returns (fun fuel => traceTree o P fuel idx head ⟨atLdepth, rows⟩) atLdepth depth := by
  induction depth generalizing atLdepth idx head rows with
  | zero =>
    refine .at_once ⟨⟨atLdepth, rows⟩, 0, [idx]⟩ 0 (fun fuel => ?_) rfl
    rw [traceTree]
    split_ifs with unmarked bottom
    · rfl
    · rfl
    · exact absurd remaining bottom
  | succ depth ih =>
    have deeper : atLdepth ≠ o.maxLdepth := by omega
    by_cases unmarked : head = [] ∧ (P idx).print = false
    · refine .at_once ⟨⟨atLdepth, rows⟩, 0, [idx]⟩ (depth + 1) (fun fuel => ?_) rfl
      rw [traceTree, if_pos unmarked]
    · obtain ⟨l, chain⟩ := walks idx
      have each (nhead : Bytes) (c : Fin NProc) (rows : List (Row NProc)) :
          Returns (fun fuel => traceTree o P fuel c nhead ⟨atLdepth + 1, rows⟩) (atLdepth + 1) depth :=
        ih (by omega) c nhead rows
      obtain ⟨below, loops, same, shallow⟩ := returns_traceSisters
        (each (if (P idx).hidden && !(P idx).selected then snprintf maxLine head
          else childHead o P idx head)) chain
        (if (P idx).hidden && !(P idx).selected then rows
          else rows ++ [⟨idx, rowLine o P idx head⟩])
      refine ⟨below.enter idx, .of_succ (fun fuel => ?_) (loops.map (Trace.enter idx)), ?_,
        Nat.succ_le_succ shallow⟩
      · rw [traceTree, if_neg unmarked, if_neg deeper]
      · rw [Trace.enter, same, Nat.add_sub_cancel]

end

/-- After `MakeTree`, any marks and `DropProcs`, `PrintTree` of any entry returns with the depth counter as
it was, and the levels nested past the depth test, those already open included, are at most `maxLdepth`. -/
theorem printTree_returns (o : Options) {P : Table NProc} (unlinked : Unlinked P) :
    ∃ T, Converges (fun fuel => makeTree fuel P) T ∧
      ∀ Q : Table NProc, Remarked T Q →
      ∃ R, Converges (fun fuel => dropProcs o fuel Q) R ∧
        ∀ (idx : Fin NProc) (head : Bytes) (screen : Screen NProc), screen.atLdepth ≤ o.maxLdepth →
          ∃ trace, Converges (fun fuel => traceTree o R fuel idx head screen) trace ∧
            Converges (fun fuel => printTree o R fuel idx head screen) trace.screen ∧
            trace.screen.atLdepth = screen.atLdepth ∧
            screen.atLdepth + trace.levels ≤ o.maxLdepth := by
  obtain ⟨T, made, linked⟩ := converges_makeTree unlinked
  refine ⟨T, made, fun Q remarked => ?_⟩
  obtain ⟨R, drops, -, walks⟩ := linked.drop remarked o
  refine ⟨R, drops, fun idx head screen within => ?_⟩
  obtain ⟨depth, remaining⟩ := Nat.exists_eq_add_of_le within
  obtain ⟨trace, traced, same, shallow⟩ := returns_traceTree walks depth remaining.symm idx head
    screen.rows
  exact ⟨trace, traced, converges_printTree_of_trace traced, same, by omega⟩

/-- Two processes that are each other's parents, all marked: three levels and no more. -/
theorem printTree_returns_recycledPids :
    ∃ (T R : Table 3) (trace : Trace 3),
      Converges (fun fuel => makeTree fuel (getProcesses recycledPids)) T ∧
      Converges (fun fuel => dropProcs { maxLdepth := 3 } fuel fun i => { T i with print := true }) R ∧
      Converges (fun fuel => printTree { maxLdepth := 3 } R fuel 2 [] ⟨0, []⟩) trace.screen ∧
      trace.screen.atLdepth = 0 ∧ trace.levels ≤ 3 := by
  obtain ⟨T, made, rest⟩ := printTree_returns { maxLdepth := 3 } (unlinked_getProcesses recycledPids)
  obtain ⟨R, drops, prints⟩ := rest (fun i => { T i with print := true }) fun _ => rfl
  obtain ⟨trace, -, printed, same, shallow⟩ := prints 2 [] ⟨0, []⟩ (Nat.zero_le _)
  exact ⟨T, R, trace, made, drops, printed, same, by simpa using shallow⟩

end SystemProgramming.ProcessTree
