import SystemProgramming.ProcessTree.MakeTree
import Mathlib.Data.Fintype.EquivFin

/-! # The marks `MarkProcs` sets

The pass writes only `print`, `selected` and `hidden`, so it walks links that stay as `MakeTree`
left them. Where no cycle is in the way every walk ends: a selected entry marks itself, everything above
it and everything below it. Marks are only added, so the marks of several passes are a union.
-/

namespace SystemProgramming.ProcessTree

open Lib

variable {NProc : ℕ}

/-! ## Tables that differ in their marks -/

/-- The tables differ in nothing but their marks. -/
def Remarked (P Q : Table NProc) : Prop := ∀ i, Q i =
  { P i with print := (Q i).print, selected := (Q i).selected, hidden := (Q i).hidden }

theorem Remarked.sisters_eq {P Q : Table NProc} (remarked : Remarked P Q) : Q.sisters = P.sisters := by
  funext i
  rw [Table.sisters, remarked i]
  rfl

/-- `Q` is `P` with the entries in `shown`, `chosen` and `veiled` marked as well. -/
structure Marked (shown chosen veiled : Fin NProc → Prop) (P Q : Table NProc) : Prop where
  frame : ∀ i, Q i =
    { P i with print := (Q i).print, selected := (Q i).selected, hidden := (Q i).hidden }
  print : ∀ i, (Q i).print = true ↔ (P i).print = true ∨ shown i
  selected : ∀ i, (Q i).selected = true ↔ (P i).selected = true ∨ chosen i
  hidden : ∀ i, (Q i).hidden = true ↔ (P i).hidden = true ∨ veiled i

section

variable {P Q R : Table NProc} {shown chosen veiled shown' chosen' veiled' : Fin NProc → Prop}

theorem Marked.refl (P : Table NProc) :
    Marked (fun _ => False) (fun _ => False) (fun _ => False) P P where
  frame _ := rfl
  print _ := (or_iff_left id).symm
  selected _ := (or_iff_left id).symm
  hidden _ := (or_iff_left id).symm

theorem Marked.trans (first : Marked shown chosen veiled P Q)
    (second : Marked shown' chosen' veiled' Q R) :
    Marked (fun i => shown i ∨ shown' i) (fun i => chosen i ∨ chosen' i)
      (fun i => veiled i ∨ veiled' i) P R where
  frame i := by rw [second.frame i, first.frame i]
  print i := by rw [second.print, first.print, or_assoc]
  selected i := by rw [second.selected, first.selected, or_assoc]
  hidden i := by rw [second.hidden, first.hidden, or_assoc]

theorem Marked.congr (marked : Marked shown chosen veiled P Q) (shows : ∀ i, shown i ↔ shown' i)
    (chooses : ∀ i, chosen i ↔ chosen' i) (veils : ∀ i, veiled i ↔ veiled' i) :
    Marked shown' chosen' veiled' P Q where
  frame := marked.frame
  print i := by rw [marked.print, shows]
  selected i := by rw [marked.selected, chooses]
  hidden i := by rw [marked.hidden, veils]

/-- Marking one entry. -/
theorem Marked.set (show_ choose veil : Bool) (P : Table NProc) (me : Fin NProc) :
    Marked (fun i => show_ = true ∧ i = me) (fun i => choose = true ∧ i = me)
      (fun i => veil = true ∧ i = me) P
      (P.set me { P me with
        print := (P me).print || show_
        selected := (P me).selected || choose
        hidden := (P me).hidden || veil }) := by
  refine ⟨fun i => ?_, fun i => ?_, fun i => ?_, fun i => ?_⟩
  all_goals
    rw [Table.set_apply]
    split_ifs with same
    · simp [same]
    · simp [same]

end

/-! ## Tables whose links form a forest -/

/-- The links of `P` are those of a forest with the given parents and lists of children. -/
structure Grown (parent : Fin NProc → Option (Fin NProc)) (children : Fin NProc → List (Fin NProc))
    (P : Table NProc) : Prop where
  parents : ∀ i, (P i).parent = parent i
  chains : ∀ p, Chain P.sisters (P p).child (children p)

/-- The entries of a subtree. -/
def Below (parent : Fin NProc → Option (Fin NProc)) (top i : Fin NProc) : Prop :=
  i = top ∨ Ancestor parent top i

variable {parent : Fin NProc → Option (Fin NProc)} {children : Fin NProc → List (Fin NProc)}
  {P Q : Table NProc} {shown chosen veiled : Fin NProc → Prop}

theorem Marked.sisters_eq (marked : Marked shown chosen veiled P Q) : Q.sisters = P.sisters :=
  Remarked.sisters_eq marked.frame

theorem Marked.grown (marked : Marked shown chosen veiled P Q) (grown : Grown parent children P) :
    Grown parent children Q where
  parents i := by rw [marked.frame i]; exact grown.parents i
  chains p := by
    rw [marked.sisters_eq, marked.frame p]
    exact grown.chains p

theorem Linked.grown {P₀ T : Table NProc} (linked : Linked P₀ (List.finRange NProc) T) :
    Grown (parentOf P₀) (childrenOf (parentOf P₀)) T where
  parents i := by rw [linked.parent, if_pos (List.mem_finRange i)]
  chains := linked.chain

/-! ## The walks -/

/-- The recursion over the children, given that it ends at each of them. -/
theorem converges_markSisters {l : List (Fin NProc)}
    (each : ∀ c ∈ l, ∀ P, Grown parent children P → ∃ Q,
      Converges (fun fuel => markChildren fuel P c) Q ∧
        Marked (Below parent c) (fun _ => False) (fun _ => False) P Q)
    {link : Option (Fin NProc)} (grown : Grown parent children P)
    (chain : Chain P.sisters link l) :
    ∃ Q, Converges (fun fuel => markSisters fuel P link) Q ∧
      Marked (fun i => ∃ c ∈ l, Below parent c i) (fun _ => False) (fun _ => False) P Q := by
  induction l generalizing P link with
  | nil =>
    obtain rfl := chain.head_eq
    refine ⟨P, .of_succ (g := fun _ => some P) (fun fuel => by rw [List.head?_nil, markSisters])
      (.of_forall fun _ => rfl), (Marked.refl P).congr ?_ (fun _ => Iff.rfl) fun _ => Iff.rfl⟩
    simp
  | cons c l ih =>
    obtain rfl := chain.head_eq
    obtain ⟨rest, same, tail⟩ := Chain.some_iff.mp chain
    obtain ⟨-, rfl⟩ := List.cons.inj same
    obtain ⟨Q, marks, first⟩ := each c (List.mem_cons_self ..) P grown
    obtain ⟨R, rests, second⟩ := ih (fun d inside => each d (List.mem_cons_of_mem _ inside))
      (first.grown grown) (first.sisters_eq.symm ▸ tail)
    refine ⟨R, .of_succ (fun fuel => by rw [List.head?_cons, markSisters])
      (marks.bind (g := fun Q fuel => markSisters fuel Q (Q c).sister) rests),
      (first.trans second).congr ?_ (fun _ => or_self_iff) fun _ => or_self_iff⟩
    intro i
    rw [List.exists_mem_cons_iff]

section

variable (links : ∀ c p, c ∈ children p ↔ parent c = some p)
include links

/-- A subtree is its top and the subtrees of the children. -/
theorem below_iff (top i : Fin NProc) :
    Below parent top i ↔ i = top ∨ ∃ c ∈ children top, Below parent c i := by
  simp only [Below, ancestor_iff_child (a := top), links, eq_comm (a := i)]

/-- `MarkChildren` ends and marks the subtree: there is always less below, unless it leads back. -/
theorem converges_markChildren {me : Fin NProc} (ends : Acc (fun x a => Ancestor parent a x) me)
    (P : Table NProc) (grown : Grown parent children P) :
    ∃ Q, Converges (fun fuel => markChildren fuel P me) Q ∧
      Marked (Below parent me) (fun _ => False) (fun _ => False) P Q := by
  induction ends generalizing P with
  | intro me _ ih =>
    have here : Marked (fun i => i = me) (fun _ => False) (fun _ => False) P
        (P.set me { P me with print := true }) := by
      simpa using Marked.set true false false P me
    obtain ⟨Q, marks, below⟩ := converges_markSisters
      (fun c inside P => ih c (.of_parent ((links c me).mp inside)) P) (here.grown grown)
      ((here.grown grown).chains me)
    refine ⟨Q, .of_succ (fun fuel => by rw [markChildren]) marks,
      (here.trans below).congr ?_ (fun _ => or_self_iff) fun _ => or_self_iff⟩
    exact fun i => (below_iff links me i).symm

end

theorem ancestor_iff_below (i me : Fin NProc) :
    Ancestor parent i me ↔ ∃ p, parent me = some p ∧ Below parent i p := ancestor_iff_parent

/-- A path upwards is its first entry and the path of the parent. -/
theorem above_iff (i p : Fin NProc) :
    Below parent i p ↔ i = p ∨ ∃ q, parent p = some q ∧ Below parent i q := by
  rw [Below, ancestor_iff_below, eq_comm]

/-- The loop over the parents ends and marks everything from the link upwards. -/
theorem converges_markParents (hide : Bool) (P : Table NProc) (grown : Grown parent children P)
    {link : Option (Fin NProc)} (ends : ∀ p, link = some p → Acc (Ancestor parent) p) :
    ∃ Q, Converges (fun fuel => markParents hide fuel P link) Q ∧
      Marked (fun i => ∃ p, link = some p ∧ Below parent i p) (fun _ => False)
        (fun i => hide = true ∧ ∃ p, link = some p ∧ Below parent i p) P Q := by
  have top (P : Table NProc) : ∃ Q, Converges (fun fuel => markParents hide fuel P none) Q ∧
      Marked (fun i => ∃ p, none = some p ∧ Below parent i p) (fun _ => False)
        (fun i => hide = true ∧ ∃ p, none = some p ∧ Below parent i p) P Q := by
    refine ⟨P, .of_succ (g := fun _ => some P) (fun fuel => by rw [markParents])
      (.of_forall fun _ => rfl), (Marked.refl P).congr ?_ (fun _ => Iff.rfl) ?_⟩ <;> simp
  cases link with
  | none => exact top P
  | some p =>
    replace ends := ends p rfl
    induction ends generalizing P with
    | intro p _ ih =>
      have here : Marked (fun i => i = p) (fun _ => False) (fun i => hide = true ∧ i = p) P
          (P.set p { P p with print := true, hidden := (P p).hidden || hide }) := by
        simpa using Marked.set true false hide P p
      have upper : (P.set p { P p with print := true, hidden := (P p).hidden || hide } p).parent =
          parent p := (here.grown grown).parents p
      obtain ⟨Q, marks, above⟩ : ∃ Q, Converges (fun fuel => markParents hide fuel
          (P.set p { P p with print := true, hidden := (P p).hidden || hide }) (parent p)) Q ∧
          Marked (fun i => ∃ q, parent p = some q ∧ Below parent i q) (fun _ => False)
            (fun i => hide = true ∧ ∃ q, parent p = some q ∧ Below parent i q) _ Q := by
        cases link : parent p with
        | none => exact top _
        | some q => exact ih q (.of_parent link) _ (here.grown grown)
      refine ⟨Q, .of_succ (fun fuel => by simp only [markParents, upper]) marks,
        (here.trans above).congr ?_ (fun _ => or_self_iff) ?_⟩
      · intro i
        simp only [Option.some.injEq, exists_eq_left']
        exact (above_iff i p).symm
      · intro i
        simp only [Option.some.injEq, exists_eq_left', ← and_or_left]
        exact and_congr_right' (above_iff i p).symm

/-! ## The loop over the table -/

/-- The entries the pass over `me` marks for printing. -/
def Options.Shows (o : Options) (parent : Fin NProc → Option (Fin NProc)) (P : Table NProc)
    (me i : Fin NProc) : Prop :=
  if o.showall then i = me
  else o.selects (P me) = true ∧ (Below parent me i ∨ Ancestor parent i me)

/-- The entries the pass over `me` selects. -/
def Options.Chooses (o : Options) (P : Table NProc) (me i : Fin NProc) : Prop :=
  o.showall = false ∧ o.selects (P me) = true ∧ i = me

/-- The entries the pass over `me` hides. -/
def Options.Veils (o : Options) (parent : Fin NProc → Option (Fin NProc)) (P : Table NProc)
    (me i : Fin NProc) : Prop :=
  o.showall = false ∧ o.selects (P me) = true ∧ o.Hoption = true ∧ Ancestor parent i me

theorem Marked.selects_eq (marked : Marked shown chosen veiled P Q) (o : Options) (i : Fin NProc) :
    o.selects (Q i) = o.selects (P i) := by
  rw [marked.frame i]
  rfl

section

variable (links : ∀ c p, c ∈ children p ↔ parent c = some p)
include links

theorem converges_markProc (o : Options) (P : Table NProc) (grown : Grown parent children P)
    (me : Fin NProc)
    (grounded : o.showall = false → o.selects (P me) = true → Grounded parent me) :
    ∃ Q, Converges (fun fuel => markProc o fuel P me) Q ∧
      Marked (o.Shows parent P me) (o.Chooses P me) (o.Veils parent P me) P Q := by
  cases all : o.showall with
  | true =>
    refine ⟨P.set me { P me with print := true },
      .of_forall fun fuel => by rw [markProc, if_pos all], ?_⟩
    have here : Marked (fun i => i = me) (fun _ => False) (fun _ => False) P
        (P.set me { P me with print := true }) := by
      simpa using Marked.set true false false P me
    refine here.congr ?_ ?_ ?_ <;> simp [Options.Shows, Options.Chooses, Options.Veils, all]
  | false =>
    cases selected : o.selects (P me) with
    | false =>
      refine ⟨P, .of_forall fun fuel => by simp [markProc, all, selected], ?_⟩
      refine (Marked.refl P).congr ?_ ?_ ?_ <;>
        simp [Options.Shows, Options.Chooses, Options.Veils, all, selected]
    | true =>
      have here : Marked (fun _ => False) (fun i => i = me) (fun _ => False) P
          (P.set me { P me with selected := true }) := by
        simpa using Marked.set false true false P me
      have grounded := grounded all selected
      obtain ⟨Q, parents, above⟩ := converges_markParents o.Hoption _ (here.grown grown)
        fun p link => grounded.acc_ancestor.inv (.of_parent link)
      obtain ⟨R, subtree, below⟩ := converges_markChildren links grounded.acc_descendant Q
        (above.grown (here.grown grown))
      refine ⟨R, ?_, ((here.trans above).trans below).congr ?_ ?_ ?_⟩
      · simpa [markProc, all, selected, grown.parents me] using
          parents.bind (g := fun Q fuel => markChildren fuel Q me) subtree
      · intro i
        simp [Options.Shows, all, selected, ancestor_iff_below, or_comm]
      · simp [Options.Chooses, all, selected]
      · intro i
        simp [Options.Veils, all, selected, ancestor_iff_below]

/-- `MarkProcs` ends when no selected entry is on a cycle or below one. -/
theorem converges_markProcs (o : Options) {T : Table NProc} (grown : Grown parent children T)
    (grounded : ∀ me, o.showall = false → o.selects (T me) = true → Grounded parent me) :
    ∃ Q, Converges (fun fuel => markProcs o fuel T) Q ∧
      Marked (fun i => ∃ me, o.Shows parent T me i) (fun i => ∃ me, o.Chooses T me i)
        (fun i => ∃ me, o.Veils parent T me i) T Q := by
  have start : Marked (fun i => ∃ me ∈ [], o.Shows parent T me i)
      (fun i => ∃ me ∈ [], o.Chooses T me i) (fun i => ∃ me ∈ [], o.Veils parent T me i) T T := by
    refine (Marked.refl T).congr ?_ ?_ ?_ <;> simp
  have pass (visited : List (Fin NProc)) (me : Fin NProc) (rest : List (Fin NProc))
      (P : Table NProc) (marked : Marked (fun i => ∃ me ∈ visited, o.Shows parent T me i)
        (fun i => ∃ me ∈ visited, o.Chooses T me i) (fun i => ∃ me ∈ visited, o.Veils parent T me i)
        T P) (_ : visited ++ me :: rest = List.finRange NProc) :
      ∃ Q, Converges (fun fuel => markProc o fuel P me) Q ∧
        Marked (fun i => ∃ other ∈ visited ++ [me], o.Shows parent T other i)
          (fun i => ∃ other ∈ visited ++ [me], o.Chooses T other i)
          (fun i => ∃ other ∈ visited ++ [me], o.Veils parent T other i) T Q := by
    obtain ⟨Q, pass, more⟩ := converges_markProc links o P (marked.grown grown) me
      fun all selected => grounded me all (marked.selects_eq o me ▸ selected)
    refine ⟨Q, pass, (marked.trans more).congr ?_ ?_ ?_⟩
    all_goals
      intro i
      simp [Options.Shows, Options.Chooses, Options.Veils, marked.selects_eq, or_and_right,
        exists_or]
  obtain ⟨Q, marks, marked⟩ := Converges.foldlM _ pass start
  exact ⟨Q, marks, marked.congr (by simp) (by simp) (by simp)⟩

end

end SystemProgramming.ProcessTree
