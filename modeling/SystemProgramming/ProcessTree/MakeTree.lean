import SystemProgramming.ProcessTree.Model
import SystemProgramming.Lib.Chain
import SystemProgramming.Lib.Forest

/-! # The links `MakeTree` builds

Every entry is linked below the entry its `ppid` names, unless that is the entry itself or no entry.
After the loop the children of an entry form a chain, in table order, and the entry stores the
head of that chain; this holds for any table, with duplicate process ids and cycles included.
-/

namespace SystemProgramming.ProcessTree

open Lib

variable {NProc : ℕ}

/-! ## Overwriting one entry -/

@[simp] theorem Table.set_self (P : Table NProc) (idx : Fin NProc) (proc : Proc NProc) :
    P.set idx proc idx = proc := Function.update_self ..

theorem Table.set_of_ne (P : Table NProc) {idx other : Fin NProc} (proc : Proc NProc)
    (different : other ≠ idx) : P.set idx proc other = P other := Function.update_of_ne different ..

theorem Table.set_apply (P : Table NProc) (idx i : Fin NProc) (proc : Proc NProc) :
    P.set idx proc i = if i = idx then proc else P i := Function.update_apply ..

theorem Table.set_set (P : Table NProc) (idx : Fin NProc) (first second : Proc NProc) :
    (P.set idx first).set idx second = P.set idx second := Function.update_idem ..

/-- A field that keeps its value in the overwritten entry keeps it everywhere. -/
theorem Table.field_set {β : Type*} (field : Proc NProc → β) (P : Table NProc) (idx : Fin NProc)
    (proc : Proc NProc) (same : field proc = field (P idx)) (i : Fin NProc) :
    field (P.set idx proc i) = field (P i) := by
  by_cases here : i = idx
  · subst here; simpa using same
  · rw [P.set_of_ne proc here]

/-! ## The parent an entry gets -/

/-- The links and sisters as functions on the indices. -/
def Table.sisters (P : Table NProc) : Fin NProc → Option (Fin NProc) := fun i => (P i).sister

def Table.parents (P : Table NProc) : Fin NProc → Option (Fin NProc) := fun i => (P i).parent

/-- The entry named by the `ppid`, if it is another one. -/
def parentOf (P : Table NProc) (me : Fin NProc) : Option (Fin NProc) :=
  (getPidIndex P (P me).ppid).filter fun parent => parent != me

/-- The entries linked below `p`, in table order. -/
def childrenOf (parent : Fin NProc → Option (Fin NProc)) (p : Fin NProc) : List (Fin NProc) :=
  (List.finRange NProc).filter fun me => parent me == some p

section

variable (parent : Fin NProc → Option (Fin NProc))

theorem mem_childrenOf (c p : Fin NProc) : c ∈ childrenOf parent p ↔ parent c = some p := by
  simp [childrenOf]

theorem childrenOf_nodup (p : Fin NProc) : (childrenOf parent p).Nodup :=
  (List.nodup_finRange NProc).filter _

end

/-- An entry without links and marks, as the readers leave it. -/
def Unlinked (P : Table NProc) : Prop :=
  ∀ i, (P i).parent = none ∧ (P i).child = none ∧ (P i).sister = none

theorem unlinked_getProcesses (entries : Fin NProc → Entry) : Unlinked (getProcesses entries) :=
  fun _ => ⟨rfl, rfl, rfl⟩

/-- The state of `MakeTree` after the entries in `visited`. -/
structure Linked (P₀ : Table NProc) (visited : List (Fin NProc)) (P : Table NProc) : Prop where
  frame : ∀ i, P i =
    { P₀ i with parent := (P i).parent, child := (P i).child, sister := (P i).sister }
  parent : ∀ me, (P me).parent = if me ∈ visited then parentOf P₀ me else none
  chain : ∀ p, Chain P.sisters (P p).child (visited.filter fun me => parentOf P₀ me == some p)
  fresh : ∀ me, (me ∈ visited → parentOf P₀ me = none) → (P me).sister = none

theorem linked_nil {P₀ : Table NProc} (unlinked : Unlinked P₀) : Linked P₀ [] P₀ where
  frame _ := rfl
  parent me := by simp [(unlinked me).1]
  chain p := by rw [(unlinked p).2.1]; exact .nil
  fresh me _ := (unlinked me).2.2

theorem Linked.getPidIndex_eq {P₀ P : Table NProc} {visited : List (Fin NProc)}
    (linked : Linked P₀ visited P) (pid : ℤ) : getPidIndex P pid = getPidIndex P₀ pid := by
  have pids : ∀ i, (P i).pid = (P₀ i).pid := fun i => by rw [linked.frame i]
  simp only [getPidIndex, pids]

theorem converges_lastSister {P : Table NProc} {first last : Fin NProc} {before : List (Fin NProc)}
    (chain : Chain P.sisters (some first) (before ++ [last])) :
    Converges (fun fuel => lastSister P fuel first) last := by
  induction before generalizing first with
  | nil =>
    obtain ⟨rest, same, tail⟩ := Chain.some_iff.mp chain
    obtain ⟨rfl, rfl⟩ := List.cons.inj same
    have ends : (P last).sister = none := tail.head_eq
    exact .of_succ (g := fun _ => some last) (fun fuel => by simp [lastSister, ends])
      (.of_forall fun _ => rfl)
  | cons b before ih =>
    obtain ⟨rest, same, tail⟩ := Chain.some_iff.mp chain
    obtain ⟨rfl, rfl⟩ := List.cons.inj same
    obtain ⟨next, link⟩ : ∃ next, P.sisters b = some next := by
      cases before with
      | nil => exact ⟨last, tail.head_eq⟩
      | cons c _ => exact ⟨c, tail.head_eq⟩
    rw [link] at tail
    exact .of_succ (fun fuel => by rw [lastSister, show (P b).sister = some next from link]) (ih tail)

/-- Entries without another entry as parent stay where they are. -/
theorem Linked.skip {P₀ P : Table NProc} {visited : List (Fin NProc)} {me : Fin NProc}
    (linked : Linked P₀ visited P) (new : me ∉ visited) (root : parentOf P₀ me = none) :
    Linked P₀ (visited ++ [me]) P where
  frame := linked.frame
  parent i := by
    rw [linked.parent]
    by_cases here : i = me
    · subst here; simp [new, root]
    · simp [here]
  chain p := by simpa [root] using linked.chain p
  fresh i free := linked.fresh i fun member => free (List.mem_append_left _ member)

/-- Appending one entry to the chain of its parent, whichever link was overwritten for it. -/
theorem Linked.attach {P₀ P next : Table NProc} {visited : List (Fin NProc)}
    {me parent : Fin NProc} (linked : Linked P₀ visited P) (link : parentOf P₀ me = some parent)
    (frame : ∀ i, next i = { P i with
      parent := (next i).parent, child := (next i).child, sister := (next i).sister })
    (parents : ∀ i, (next i).parent = if i = me then some parent else (P i).parent)
    (here : Chain next.sisters (next parent).child
      (visited.filter (fun i => parentOf P₀ i == some parent) ++ [me]))
    (there : ∀ p, p ≠ parent → Chain next.sisters (next p).child
      (visited.filter fun i => parentOf P₀ i == some p))
    (fresh : ∀ i, (i ∈ visited → parentOf P₀ i = none) → (next i).sister = none) :
    Linked P₀ (visited ++ [me]) next where
  frame i := by rw [frame i, linked.frame i]
  parent i := by
    rw [parents, linked.parent]
    by_cases same : i = me
    · subst same; simp [link]
    · simp [same]
  chain p := by
    rw [List.filter_append]
    by_cases same : p = parent
    · subst same
      simpa [link] using here
    · simpa [link, Ne.symm same] using there p same
  fresh i free := fresh i fun member => free (List.mem_append_left _ member)

section

variable {P below : Table NProc} {me parent i : Fin NProc} {entry : Proc NProc}

/-- With the parent of one entry and the child or sister of another set, the rest of the table is as before. -/
theorem frame_relinked (belowDef : below = P.set me { P me with parent := some parent })
    (kept : entry = { below i with child := entry.child, sister := entry.sister }) (k : Fin NProc) :
    below.set i entry k = { P k with
      parent := (below.set i entry k).parent
      child := (below.set i entry k).child
      sister := (below.set i entry k).sister } := by
  rw [Table.set_apply]
  split_ifs with here
  · rw [here, kept, belowDef, Table.set_apply]
    split_ifs with same
    · rw [same]
    · rfl
  · rw [belowDef, Table.set_apply]
    split_ifs with same
    · rw [same]
    · rfl

theorem parent_relinked (belowDef : below = P.set me { P me with parent := some parent })
    (kept : entry.parent = (below i).parent) (k : Fin NProc) :
    (below.set i entry k).parent = if k = me then some parent else (P k).parent := by
  rw [Table.field_set Proc.parent _ _ _ kept, belowDef, Table.set_apply]
  split_ifs <;> rfl

end

/-- The first child of a parent becomes its `child`. -/
theorem Linked.attach_first {P₀ P : Table NProc} {visited : List (Fin NProc)}
    {me parent : Fin NProc} (linked : Linked P₀ visited P) (new : me ∉ visited)
    (link : parentOf P₀ me = some parent) (below : Table NProc)
    (belowDef : below = P.set me { P me with parent := some parent })
    (stored : (P parent).child = none) :
    Linked P₀ (visited ++ [me]) (below.set parent { below parent with child := some me }) := by
  have sisters (i) : (below.set parent { below parent with child := some me } i).sister =
      (P i).sister := by
    rw [Table.field_set Proc.sister _ _ _ (by rfl), belowDef, Table.field_set Proc.sister _ _ _ (by rfl)]
  have same : (below.set parent { below parent with child := some me }).sisters = P.sisters :=
    funext sisters
  have chain := linked.chain parent
  rw [stored, Chain.nil_iff] at chain
  apply linked.attach link
  · exact frame_relinked belowDef rfl
  · exact parent_relinked belowDef rfl
  · rw [chain, same, Table.set_self]
    refine .cons ?_
    rw [show P.sisters me = none from linked.fresh me fun member => absurd member new]
    exact .nil
  · intro p other
    rw [same, Table.set_of_ne _ _ other, belowDef, Table.field_set Proc.child _ _ _ (by rfl)]
    exact linked.chain p
  · intro i free
    rw [sisters]
    exact linked.fresh i free

/-- A later child becomes the sister of the last one. -/
theorem Linked.attach_last {P₀ P : Table NProc} {visited before : List (Fin NProc)}
    {me parent last : Fin NProc} (linked : Linked P₀ visited P) (new : me ∉ visited)
    (link : parentOf P₀ me = some parent) (below : Table NProc)
    (belowDef : below = P.set me { P me with parent := some parent })
    (split : visited.filter (fun i => parentOf P₀ i == some parent) = before ++ [last]) :
    Linked P₀ (visited ++ [me]) (below.set last { below last with sister := some me }) := by
  have member : last ∈ visited.filter fun i => parentOf P₀ i == some parent := by simp [split]
  obtain ⟨seen, child⟩ := List.mem_filter.mp member
  have sisters : (below.set last { below last with sister := some me }).sisters =
      Function.update P.sisters last (some me) := by
    funext i
    rw [Function.update_apply, Table.sisters, Table.set_apply]
    split_ifs with here
    · rfl
    · rw [belowDef]
      exact Table.field_set Proc.sister P me _ (by rfl) i
  have children (i) : (below.set last { below last with sister := some me } i).child =
      (P i).child := by
    rw [Table.field_set Proc.child _ _ _ (by rfl), belowDef, Table.field_set Proc.child _ _ _ (by rfl)]
  have chain := linked.chain parent
  apply linked.attach link
  · exact frame_relinked belowDef rfl
  · exact parent_relinked belowDef rfl
  · rw [sisters, children, split]
    rw [split] at chain
    refine chain.snoc (fun inside => new ?_) (linked.fresh me fun member => absurd member new)
    rw [← split] at inside
    exact (List.mem_filter.mp inside).1
  · intro p other
    rw [sisters, children]
    refine (linked.chain p).congr fun x inside => Function.update_of_ne ?_ ..
    rintro rfl
    have mine := (List.mem_filter.mp inside).2
    exact other (Option.some.inj ((eq_of_beq mine).symm.trans (eq_of_beq child)))
  · intro i free
    have different : i ≠ last := by
      rintro rfl
      nomatch (free seen).symm.trans (eq_of_beq child)
    rw [show (below.set last { below last with sister := some me } i).sister = _ from
      congrFun sisters i, Function.update_of_ne different]
    exact linked.fresh i free

/-- One pass of the loop terminates and links its entry. -/
theorem Linked.pass {P₀ P : Table NProc} {visited : List (Fin NProc)} {me : Fin NProc}
    (linked : Linked P₀ visited P) (new : me ∉ visited) :
    ∃ next, Converges (fun fuel => linkParent fuel P me) next ∧
      Linked P₀ (visited ++ [me]) next := by
  have named : getPidIndex P (P me).ppid = getPidIndex P₀ (P₀ me).ppid := by
    rw [linked.getPidIndex_eq, linked.frame me]
  cases found : getPidIndex P₀ (P₀ me).ppid with
  | none =>
    refine ⟨P, .of_forall fun _ => by simp only [linkParent, named, found], linked.skip new ?_⟩
    simp [parentOf, found]
  | some parent =>
    by_cases self : parent = me
    · refine ⟨P, .of_forall fun _ => by simp only [linkParent, named, found, if_pos self],
        linked.skip new ?_⟩
      simp [parentOf, found, self]
    · have link : parentOf P₀ me = some parent := by simp [parentOf, found, self]
      have unfolded (fuel : ℕ) := by
        simpa only [named, found, if_neg self] using linkParent.eq_def fuel P me
      -- the table in which only the parent link of `me` is set
      generalize belowDef : P.set me { P me with parent := some parent } = below at unfolded
      have child : (below parent).child = (P parent).child := by
        rw [← belowDef, Table.field_set Proc.child _ _ _ (by rfl)]
      have chain := linked.chain parent
      cases stored : (P parent).child with
      | none =>
        refine ⟨_, .of_forall fun fuel => ?_, linked.attach_first new link below belowDef.symm stored⟩
        rw [unfolded, child, stored]
      | some first =>
        rw [stored] at chain
        obtain ⟨before, last, split⟩ : ∃ before last,
            visited.filter (fun i => parentOf P₀ i == some parent) = before ++ [last] := by
          rcases List.eq_nil_or_concat' (visited.filter fun i => parentOf P₀ i == some parent) with
            empty | found
          · rw [empty] at chain; nomatch chain.head_eq
          · exact found
        rw [split] at chain
        have sisters : below.sisters = P.sisters := by
          funext i
          rw [← belowDef]
          exact Table.field_set Proc.sister P me _ (by rfl) i
        refine ⟨_, ?_, linked.attach_last new link below belowDef.symm split⟩
        simp only [unfolded, child, stored]
        exact (converges_lastSister (sisters ▸ chain)).map _

/-- `MakeTree` terminates on every table and builds the chains of children. -/
theorem converges_makeTree {P : Table NProc} (unlinked : Unlinked P) :
    ∃ T, Converges (fun fuel => makeTree fuel P) T ∧ Linked P (List.finRange NProc) T := by
  refine Converges.foldlM (Linked P) ?_ (linked_nil unlinked)
  intro visited me rest state linked split
  have nodup := split ▸ List.nodup_finRange NProc
  exact linked.pass fun member => List.disjoint_of_nodup_append nodup member (List.mem_cons_self ..)

/-- What `MakeTree` returns is linked. -/
theorem Unlinked.linked {P T : Table NProc} (unlinked : Unlinked P)
    (made : Converges (fun fuel => makeTree fuel P) T) : Linked P (List.finRange NProc) T := by
  obtain ⟨T', made', linked⟩ := converges_makeTree unlinked
  obtain rfl := made.unique made'
  exact linked

theorem Linked.parents_eq {P T : Table NProc} (linked : Linked P (List.finRange NProc) T) :
    T.parents = parentOf P := by
  funext me
  exact (linked.parent me).trans (if_pos (List.mem_finRange me))

/-- Every walk along the sisters ends, from the children of an entry or from any other. -/
theorem Linked.sister_chain {P₀ T : Table NProc} (linked : Linked P₀ (List.finRange NProc) T)
    (i : Fin NProc) : ∃ l, Chain T.sisters (T i).sister l := by
  cases link : parentOf P₀ i with
  | none => exact ⟨[], linked.fresh i (fun _ => link) ▸ .nil⟩
  | some p =>
    obtain ⟨before, after, split⟩ := List.append_of_mem ((mem_childrenOf (parentOf P₀) i p).mpr link)
    have chain := linked.chain p
    rw [← childrenOf, split] at chain
    exact ⟨after, chain.suffix⟩

theorem parentOf_eq_some {P : Table NProc} {me p : Fin NProc} :
    parentOf P me = some p ↔ me ≠ p ∧ getPidIndex P (P me).ppid = some p := by
  rw [parentOf, Option.filter_eq_some_iff, and_comm, bne_iff_ne, ne_comm]

/-- For any table without links every walk from a `child` along the sisters ends. It visits the other
entries whose `ppid` leads to `p`, in table order, and these are the entries with the parent `p`. -/
theorem makeTree_builds_chains {P : Table NProc} (unlinked : Unlinked P) :
    ∃ T, Converges (fun fuel => makeTree fuel P) T ∧
      (∀ i, T i = { P i with
        parent := (T i).parent, child := (T i).child, sister := (T i).sister }) ∧
      (∀ p, ∃ l, Chain T.sisters (T p).child l ∧ l.Pairwise (· < ·) ∧
        ∀ me, me ∈ l ↔ me ≠ p ∧ getPidIndex P (P me).ppid = some p) ∧
      (∀ me p, (T me).parent = some p ↔ me ≠ p ∧ getPidIndex P (P me).ppid = some p) ∧
      ∀ p q l l', Chain T.sisters (T p).child l → Chain T.sisters (T q).child l' → p ≠ q →
        l.Disjoint l' := by
  obtain ⟨T, made, linked⟩ := converges_makeTree unlinked
  have chain (p : Fin NProc) : Chain T.sisters (T p).child (childrenOf (parentOf P) p) :=
    linked.chain p
  refine ⟨T, made, linked.frame, fun p => ⟨_, chain p, ?_, fun me => ?_⟩, fun me p => ?_, ?_⟩
  · exact (List.pairwise_lt_finRange NProc).filter _
  · rw [mem_childrenOf, parentOf_eq_some]
  · rw [← parentOf_eq_some, ← linked.parents_eq]
    rfl
  · intro p q l l' first second apart me inFirst inSecond
    rw [first.unique (chain p), mem_childrenOf] at inFirst
    rw [second.unique (chain q), mem_childrenOf] at inSecond
    exact apart (Option.some.inj (inFirst.symm.trans inSecond))

/-- Two processes that name each other as parents, and a third with the process id of one of them. -/
def recycledPids : Fin 3 → Entry
  | 0 => ⟨1000, 7, 8, 7, bytes ['u'], [], 1⟩
  | 1 => ⟨1000, 7, 8, 7, bytes ['u'], [], 1⟩
  | 2 => ⟨1000, 8, 7, 7, bytes ['u'], [], 1⟩

theorem makeTree_builds_chains_recycledPids :
    ∃ T, Converges (fun fuel => makeTree fuel (getProcesses recycledPids)) T ∧
      (T 0).parent = some 2 ∧ (T 1).parent = some 2 ∧ (T 2).parent = some 1 := by
  obtain ⟨T, made, -, -, parent, -⟩ := makeTree_builds_chains (unlinked_getProcesses recycledPids)
  exact ⟨T, made, (parent 0 2).mpr (by decide), (parent 1 2).mpr (by decide),
    (parent 2 1).mpr (by decide)⟩

end SystemProgramming.ProcessTree
