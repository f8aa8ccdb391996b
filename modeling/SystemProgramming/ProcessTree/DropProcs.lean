import SystemProgramming.ProcessTree.MarkProcs

/-! # The chains `DropProcs` leaves

The pass rewrites the links of the marked entries only, and a skip loop follows only the links of
unmarked ones. So every skip loop walks links as `MakeTree` left them, wherever the entries stand
in the table, and each chain comes out restricted to its marked entries.
-/

namespace SystemProgramming.ProcessTree

open Lib

variable {NProc : ℕ}

/-- The entries of a list that will print. -/
def Table.printed (T : Table NProc) (l : List (Fin NProc)) : List (Fin NProc) :=
  l.filter fun i => (T i).print

theorem Table.printed_cons (T : Table NProc) (a : Fin NProc) (l : List (Fin NProc)) :
    T.printed (a :: l) = if (T a).print then a :: T.printed l else T.printed l := List.filter_cons

/-- The skip loop finds the first marked entry of the old chain, in any table that agrees with the
old one on the marks and on the links of unmarked entries. -/
theorem converges_firstPrinted {T P : Table NProc} (print : ∀ i, (P i).print = (T i).print)
    (kept : ∀ i, (T i).print = false → (P i).sister = (T i).sister) {link : Option (Fin NProc)}
    {l : List (Fin NProc)} (chain : Chain T.sisters link l) :
    Converges (fun fuel => firstPrinted P fuel link) (T.printed l).head? := by
  induction chain with
  | nil =>
    exact .of_succ (g := fun _ => some none) (fun fuel => by rw [firstPrinted])
      (.of_forall fun _ => rfl)
  | @cons a l tail ih =>
    cases mark : (T a).print with
    | true =>
      rw [T.printed_cons, if_pos mark, List.head?_cons]
      refine .of_succ (g := fun _ => some (some a)) (fun fuel => ?_) (.of_forall fun _ => rfl)
      rw [firstPrinted, print, if_pos mark]
    | false =>
      rw [T.printed_cons, if_neg (by simp [mark])]
      refine .of_succ (fun fuel => ?_) ih
      rw [firstPrinted, print, if_neg (by simp [mark]), kept a mark]
      rfl

/-- The state of `DropProcs` after the entries in `visited`. -/
structure Dropped (o : Options) (T : Table NProc) (visited : List (Fin NProc))
    (P : Table NProc) : Prop where
  frame : ∀ i, P i =
    { T i with child := (P i).child, sister := (P i).sister, hidden := (P i).hidden }
  child : ∀ i ∈ visited, (T i).print = true → ∀ l, Chain T.sisters (T i).child l →
    (P i).child = (T.printed l).head?
  sister : ∀ i ∈ visited, (T i).print = true → ∀ l, Chain T.sisters (T i).sister l →
    (P i).sister = (T.printed l).head?
  others : ∀ i, (i ∈ visited → (T i).print = false) →
    (P i).child = (T i).child ∧ (P i).sister = (T i).sister
  hidden : ∀ i, (P i).hidden = true ↔
    (T i).hidden = true ∨ (i ∈ visited ∧ (T i).print = true ∧ o.roption = true ∧ (T i).pid = 1)

section

variable {o : Options} {T P : Table NProc} {visited : List (Fin NProc)} {me : Fin NProc}

theorem dropped_nil (o : Options) (T : Table NProc) : Dropped o T [] T where
  frame _ := rfl
  child i inside := absurd inside (List.not_mem_nil)
  sister i inside := absurd inside (List.not_mem_nil)
  others _ _ := ⟨rfl, rfl⟩
  hidden i := by simp

theorem Dropped.print_eq (dropped : Dropped o T visited P) (i : Fin NProc) :
    (P i).print = (T i).print := by
  rw [dropped.frame i]

/-- An entry that will not print is left alone. -/
theorem Dropped.skip (dropped : Dropped o T visited P) (unmarked : (T me).print = false) :
    Dropped o T (visited ++ [me]) P where
  frame := dropped.frame
  child i inside mark := by
    rcases List.mem_append.mp inside with seen | here
    · exact dropped.child i seen mark
    · obtain rfl := List.mem_singleton.mp here
      nomatch unmarked.symm.trans mark
  sister i inside mark := by
    rcases List.mem_append.mp inside with seen | here
    · exact dropped.sister i seen mark
    · obtain rfl := List.mem_singleton.mp here
      nomatch unmarked.symm.trans mark
  others i outside := dropped.others i fun seen => outside (List.mem_append_left _ seen)
  hidden i := by
    rw [dropped.hidden]
    refine or_congr_right ⟨fun ⟨seen, rest⟩ => ⟨List.mem_append_left _ seen, rest⟩, ?_⟩
    rintro ⟨inside, mark, rest⟩
    refine ⟨?_, mark, rest⟩
    rcases List.mem_append.mp inside with seen | here
    · exact seen
    · obtain rfl := List.mem_singleton.mp here
      nomatch unmarked.symm.trans mark

/-- A marked entry gets the first marked entries of its two old chains as links. -/
theorem Dropped.shorten (dropped : Dropped o T visited P) (new : me ∉ visited)
    (mark : (T me).print = true) {children sisters : List (Fin NProc)}
    (below : Chain T.sisters (T me).child children)
    (beside : Chain T.sisters (T me).sister sisters) :
    Dropped o T (visited ++ [me]) (P.set me { P me with
      child := (T.printed children).head?
      sister := (T.printed sisters).head?
      hidden := (P me).hidden || (o.roption && (P me).pid == 1) }) where
  frame i := by
    rw [Table.set_apply]
    split_ifs with here
    · subst here
      rw [dropped.frame i]
    · exact dropped.frame i
  child i inside marked l chain := by
    rw [Table.set_apply]
    split_ifs with here
    · subst here
      rw [chain.unique below]
    · refine dropped.child i ?_ marked l chain
      simpa [here] using inside
  sister i inside marked l chain := by
    rw [Table.set_apply]
    split_ifs with here
    · subst here
      rw [chain.unique beside]
    · refine dropped.sister i ?_ marked l chain
      simpa [here] using inside
  others i outside := by
    have different : i ≠ me := by
      rintro rfl
      nomatch mark.symm.trans (outside (List.mem_append_right _ (List.mem_singleton_self _)))
    rw [P.set_of_ne _ different]
    exact dropped.others i fun seen => outside (List.mem_append_left _ seen)
  hidden i := by
    rw [Table.set_apply]
    split_ifs with here
    · subst here
      have pid : (P i).pid = (T i).pid := by rw [dropped.frame i]
      simp [dropped.hidden, new, mark, pid]
    · simp [dropped.hidden, here]

theorem dropProc_eq (o : Options) (fuel : ℕ) (marked : (P me).print = true) :
    dropProc o fuel P me = (firstPrinted P fuel (P me).child).bind fun child =>
      (firstPrinted (P.set me { P me with child := child }) fuel (P me).sister).map fun sister =>
        P.set me { P me with
          child := child
          sister := sister
          hidden := (P me).hidden || (o.roption && (P me).pid == 1) } := by
  rw [dropProc, if_pos marked]
  congr 1
  funext child
  simp only [Table.set_self, Option.map_eq_bind]
  congr 1
  funext sister
  simp only [Table.set_set, Function.comp_apply]
  cases o.roption && (P me).pid == 1 <;> simp

/-- One pass of the loop terminates, given that the walks along the old sisters do. -/
theorem Dropped.pass (dropped : Dropped o T visited P) (new : me ∉ visited)
    (below : ∃ l, Chain T.sisters (T me).child l) (beside : ∃ l, Chain T.sisters (T me).sister l) :
    ∃ next, Converges (fun fuel => dropProc o fuel P me) next ∧
      Dropped o T (visited ++ [me]) next := by
  cases mark : (T me).print with
  | false =>
    refine ⟨P, .of_forall fun fuel => ?_, dropped.skip mark⟩
    rw [dropProc, dropped.print_eq, if_neg (by simp [mark])]
  | true =>
    obtain ⟨children, below⟩ := below
    obtain ⟨sisters, beside⟩ := beside
    refine ⟨_, ?_, dropped.shorten new mark below beside⟩
    have unvisited := dropped.others me fun seen => absurd seen new
    have kept (i) (unmarked : (T i).print = false) : (P i).sister = (T i).sister :=
      (dropped.others i fun _ => unmarked).2
    have first : Converges (fun fuel => firstPrinted P fuel (P me).child)
        (T.printed children).head? := by
      rw [unvisited.1]
      exact converges_firstPrinted dropped.print_eq kept below
    have second : Converges (fun fuel => firstPrinted
        (P.set me { P me with child := (T.printed children).head? }) fuel (P me).sister)
        (T.printed sisters).head? := by
      rw [unvisited.2]
      refine converges_firstPrinted (fun i => ?_) (fun i unmarked => ?_) beside
      · rw [Table.field_set Proc.print _ _ _ (by rfl), dropped.print_eq]
      · rw [Table.field_set Proc.sister _ _ _ (by rfl), kept i unmarked]
    have marked : (P me).print = true := (dropped.print_eq me).trans mark
    simp only [dropProc_eq o _ marked]
    exact first.bind (g := fun child fuel => (firstPrinted
      (P.set me { P me with child := child }) fuel (P me).sister).map _) (second.map _)

/-- `DropProcs` terminates when every walk along the sisters does. -/
theorem converges_dropProcs (o : Options) (below : ∀ i, ∃ l, Chain T.sisters (T i).child l)
    (beside : ∀ i, ∃ l, Chain T.sisters (T i).sister l) :
    ∃ P, Converges (fun fuel => dropProcs o fuel T) P ∧ Dropped o T (List.finRange NProc) P := by
  refine Converges.foldlM (Dropped o T) ?_ (dropped_nil o T)
  intro visited me rest P dropped split
  have nodup := split ▸ List.nodup_finRange NProc
  refine dropped.pass (fun seen => ?_) (below me) (beside me)
  exact List.disjoint_of_nodup_append nodup seen (List.mem_cons_self ..)

/-- The children of a marked entry are its old children that will print. -/
theorem Dropped.chain (dropped : Dropped o T (List.finRange NProc) P) {p : Fin NProc}
    (mark : (T p).print = true) {l : List (Fin NProc)} (chain : Chain T.sisters (T p).child l) :
    Chain P.sisters (P p).child (T.printed l) := by
  rw [dropped.child p (List.mem_finRange p) mark l chain]
  exact chain.filter fun x rest shown tail =>
    dropped.sister x (List.mem_finRange x) shown rest tail

/-- Whatever the marks, the walks along the sisters still end: every link leads to the entry it led to or
to a later one of the same chain. -/
theorem Dropped.walks (dropped : Dropped o T (List.finRange NProc) P)
    (below : ∀ i, ∃ l, Chain T.sisters (T i).child l) (i : Fin NProc) :
    ∃ l, Chain P.sisters (P i).child l := by
  have ahead (x : Fin NProc) (rest : List (Fin NProc)) (tail : Chain T.sisters (T x).sister rest)
      (y : Fin NProc) (link : P.sisters x = some y) : y ∈ rest := by
    cases mark : (T x).print with
    | false =>
      have kept : P.sisters x = (T x).sister := (dropped.others x fun _ => mark).2
      exact List.mem_of_mem_head? (tail.head_eq.symm.trans (kept.symm.trans link))
    | true =>
      have first := dropped.sister x (List.mem_finRange x) mark rest tail
      exact List.mem_of_mem_filter (List.mem_of_mem_head? (first.symm.trans link))
  have onwards {a? : Option (Fin NProc)} {l : List (Fin NProc)} (chain : Chain T.sisters a? l) :
      ∃ l', Chain P.sisters a? l' := chain.exists_of_ahead ahead
  obtain ⟨l, chain⟩ := below i
  cases link : (P i).child with
  | none => exact ⟨[], .nil⟩
  | some y =>
    cases mark : (T i).print with
    | false =>
      rw [← (dropped.others i fun _ => mark).1, link] at chain
      exact onwards chain
    | true =>
      have first := dropped.child i (List.mem_finRange i) mark l chain
      have inside : y ∈ l := List.mem_of_mem_filter (List.mem_of_mem_head? (first.symm.trans link))
      obtain ⟨before, after, rfl⟩ := List.append_of_mem inside
      exact onwards (.cons chain.suffix)

end

/-- Whatever is marked after `MakeTree`, `DropProcs` ends, and the walks along the sisters still do. -/
theorem Linked.drop {P T Q : Table NProc} (linked : Linked P (List.finRange NProc) T)
    (remarked : Remarked T Q) (o : Options) :
    ∃ R, Converges (fun fuel => dropProcs o fuel Q) R ∧ Dropped o Q (List.finRange NProc) R ∧
      ∀ i, ∃ l, Chain R.sisters (R i).child l := by
  have sisters := remarked.sisters_eq
  have below (i : Fin NProc) : ∃ l, Chain Q.sisters (Q i).child l := by
    refine ⟨childrenOf (parentOf P) i, ?_⟩
    rw [sisters, remarked i]
    exact linked.chain i
  have beside (i : Fin NProc) : ∃ l, Chain Q.sisters (Q i).sister l := by
    obtain ⟨l, chain⟩ := linked.sister_chain i
    refine ⟨l, ?_⟩
    rw [sisters, remarked i]
    exact chain
  obtain ⟨R, drops, dropped⟩ := converges_dropProcs o below beside
  exact ⟨R, drops, dropped, dropped.walks below⟩

/-- An entry that will not print is as it was. -/
theorem Dropped.unmarked {o : Options} {T P : Table NProc} {visited : List (Fin NProc)}
    (dropped : Dropped o T visited P) {i : Fin NProc} (unmarked : (T i).print = false) : P i = T i := by
  obtain ⟨child, sister⟩ := dropped.others i fun _ => unmarked
  have hidden : (P i).hidden = (T i).hidden := by
    rw [Bool.eq_iff_iff, dropped.hidden, unmarked]
    simp
  rw [dropped.frame i, child, sister, hidden]

/-- For any table whose chains end, and any marks: the pass ends, the children of a marked entry are its old
children that will print, in the old order, and nothing about an unmarked entry changes. -/
theorem dropProcs_restricts (o : Options) (T : Table NProc) (below : ∀ i, ∃ l, Chain T.sisters (T i).child l)
    (beside : ∀ i, ∃ l, Chain T.sisters (T i).sister l) :
    ∃ P, Converges (fun fuel => dropProcs o fuel T) P ∧
      (∀ p l, (T p).print = true → Chain T.sisters (T p).child l → Chain P.sisters (P p).child (T.printed l)) ∧
      ∀ i, (T i).print = false → P i = T i := by
  obtain ⟨P, drops, dropped⟩ := converges_dropProcs o below beside
  refine ⟨P, drops, ?_, ?_⟩
  · intro p l mark chain
    exact dropped.chain mark chain
  · intro i unmarked
    exact dropped.unmarked unmarked

/-- Three children whose chain runs against the order of the table, with the parent between them; the one in the
middle of the chain is not marked. -/
def backwards : Table 4
  | 0 => { Entry.toProc 4 ⟨0, 10, 12, 10, [], [], 1⟩ with print := true }
  | 1 => { Entry.toProc 4 ⟨0, 11, 12, 11, [], [], 1⟩ with sister := some 0 }
  | 2 => { Entry.toProc 4 ⟨0, 12, 1, 12, [], [], 1⟩ with print := true, child := some 3 }
  | 3 => { Entry.toProc 4 ⟨0, 13, 12, 13, [], [], 1⟩ with print := true, sister := some 1 }

theorem dropProcs_restricts_backwards :
    ∃ P, Converges (fun fuel => dropProcs {} fuel backwards) P ∧ Chain P.sisters (P 2).child [3, 0] ∧
      P 1 = backwards 1 := by
  have last : Chain backwards.sisters none [] := .nil
  have first : Chain backwards.sisters (some 0) [0] := .cons last
  have second : Chain backwards.sisters (some 1) [1, 0] := .cons first
  have third : Chain backwards.sisters (some 3) [3, 1, 0] := .cons second
  obtain ⟨P, drops, chains, kept⟩ := dropProcs_restricts {} backwards
    (fun | 0 => ⟨_, last⟩ | 1 => ⟨_, last⟩ | 2 => ⟨_, third⟩ | 3 => ⟨_, last⟩)
    (fun | 0 => ⟨_, last⟩ | 1 => ⟨_, first⟩ | 2 => ⟨_, last⟩ | 3 => ⟨_, second⟩)
  exact ⟨P, drops, chains 2 [3, 1, 0] rfl third, kept 1 rfl⟩

end SystemProgramming.ProcessTree
