import Mathlib.Tactic.Common
import Mathlib.Data.List.Basic
import Mathlib.Data.List.TakeWhile

/-! # Trees from their outlines

An outline lists a tree in preorder with the level and the label of each entry. The entries below one are the
deeper ones that follow it, so the outline determines the tree of the labels.
-/

namespace SystemProgramming.Lib

variable {α β γ δ : Type*}

/-- Lists that agree on `f` agree on what `f` determines. -/
theorem map_eq_map_of_determined {f : α → γ} {f' : β → γ} {h : α → δ} {h' : β → δ}
    {l : List α} {l' : List β} (determined : ∀ a ∈ l, ∀ b ∈ l', f a = f' b → h a = h' b)
    (same : l.map f = l'.map f') : l.map h = l'.map h' := by
  induction l generalizing l' with
  | nil => rw [List.map_eq_nil_iff.mp same.symm, List.map_nil, List.map_nil]
  | cons a l ih =>
    cases l' with
    | nil => cases same
    | cons b l' =>
      obtain ⟨first, rest⟩ := List.cons.inj same
      rw [List.map_cons, List.map_cons, determined a (List.mem_cons_self ..) b (List.mem_cons_self ..) first]
      congr 1
      exact ih (fun a inside b inside' => determined a (List.mem_cons_of_mem _ inside) b
        (List.mem_cons_of_mem _ inside')) rest

/-- A label, and the trees of the children in their order. -/
inductive OrderedTree (γ : Type*) where
  | node (label : γ) (children : List (OrderedTree γ))

/-- The labels at an entry and at most `depth` levels below it. -/
def labelTree (kids : α → List α) (label : α → γ) : ℕ → α → OrderedTree γ
  | 0, x => .node (label x) []
  | depth + 1, x => .node (label x) ((kids x).map (labelTree kids label depth))

/-- The subtree of an entry, cut below `depth` levels, with levels counted from `level` on. -/
def outline (kids : α → List α) (label : α → γ) : ℕ → ℕ → α → List (ℕ × γ)
  | 0, _, _ => []
  | depth + 1, level, x => (level, label x) :: (kids x).flatMap (outline kids label depth (level + 1))

/-- The subtree of an entry has at most `depth` levels. -/
def Shallow (kids : α → List α) : ℕ → α → Prop
  | 0, _ => False
  | depth + 1, x => ∀ c ∈ kids x, Shallow kids depth c

section

variable {kids : α → List α} {label : α → γ} {kids' : β → List β} {label' : β → γ} {depth depth' level : ℕ}

theorem Shallow.exists_succ {x : α} (shallow : Shallow kids depth x) : ∃ less, depth = less + 1 := by
  cases depth with
  | zero => exact shallow.elim
  | succ less => exact ⟨less, rfl⟩

theorem le_level_of_mem_outline (depth level : ℕ) (x : α) :
    ∀ entry ∈ outline kids label depth level x, level ≤ entry.1 := by
  induction depth generalizing level x with
  | zero => exact fun entry inside => by cases inside
  | succ depth ih =>
    intro entry inside
    rcases List.mem_cons.mp inside with rfl | below
    · exact Nat.le_refl _
    · obtain ⟨c, -, deeper⟩ := List.mem_flatMap.mp below
      exact Nat.le_of_succ_le (ih (level + 1) c entry deeper)

theorem lt_level_of_mem_below {l : List α} :
    ∀ entry ∈ l.flatMap (outline kids label depth (level + 1)), level < entry.1 := by
  intro entry inside
  obtain ⟨c, -, below⟩ := List.mem_flatMap.mp inside
  exact le_level_of_mem_outline depth (level + 1) c entry below

/-- Sisters begin at their own level. -/
theorem level_of_mem_head? {l : List α} (shallow : ∀ c ∈ l, Shallow kids depth c) :
    ∀ entry ∈ (l.flatMap (outline kids label depth level)).head?, entry.1 = level := by
  intro entry front
  cases l with
  | nil => cases front
  | cons c l =>
    obtain ⟨less, rfl⟩ := (shallow c (List.mem_cons_self ..)).exists_succ
    obtain rfl := Option.some.inj front
    rfl

/-- What follows an entry splits into what is below it and what is not. -/
theorem below_append_inj {below below' rest rest' : List (ℕ × γ)}
    (deep : ∀ entry ∈ below, level < entry.1) (deep' : ∀ entry ∈ below', level < entry.1)
    (flat : ∀ entry ∈ rest.head?, entry.1 = level) (flat' : ∀ entry ∈ rest'.head?, entry.1 = level)
    (same : below ++ rest = below' ++ rest') : below = below' ∧ rest = rest' := by
  have front {below rest : List (ℕ × γ)} (deep : ∀ entry ∈ below, level < entry.1)
      (flat : ∀ entry ∈ rest.head?, entry.1 = level) :
      (below ++ rest).takeWhile (fun entry => level < entry.1) = below := by
    rw [List.takeWhile_append_of_pos (by simpa using deep)]
    cases rest with
    | nil => simp
    | cons entry rest =>
      have stop := flat entry rfl
      rw [List.takeWhile_cons_of_neg (by simp [stop]), List.append_nil]
  have equal : below = below' := by rw [← front deep flat, same, front deep' flat']
  refine ⟨equal, ?_⟩
  rw [equal] at same
  exact List.append_cancel_left same

/-- What the outline of an entry determines, the outlines of sisters determine for each of them. -/
theorem map_eq_of_outline_eq {f : α → δ} {f' : β → δ} {l : List α} {l' : List β}
    (shallow : ∀ c ∈ l, Shallow kids depth c) (shallow' : ∀ c ∈ l', Shallow kids' depth' c)
    (each : ∀ c ∈ l, ∀ c' ∈ l',
      outline kids label depth level c = outline kids' label' depth' level c' → f c = f' c')
    (same : l.flatMap (outline kids label depth level) = l'.flatMap (outline kids' label' depth' level)) :
    l.map f = l'.map f' := by
  induction l generalizing l' with
  | nil =>
    cases l' with
    | nil => rfl
    | cons c' l' =>
      obtain ⟨less', rfl⟩ := (shallow' c' (List.mem_cons_self ..)).exists_succ
      cases same
  | cons c l ih =>
    obtain ⟨less, rfl⟩ := (shallow c (List.mem_cons_self ..)).exists_succ
    cases l' with
    | nil => cases same
    | cons c' l' =>
      obtain ⟨less', rfl⟩ := (shallow' c' (List.mem_cons_self ..)).exists_succ
      rw [List.forall_mem_cons] at shallow shallow' each
      obtain ⟨entry, following⟩ := List.cons.inj same
      obtain ⟨below, rest⟩ := below_append_inj lt_level_of_mem_below lt_level_of_mem_below
        (level_of_mem_head? shallow.2) (level_of_mem_head? shallow'.2) following
      have first : f c = f' c' := by
        apply each.1 c' (List.mem_cons_self ..)
        rw [outline, outline, entry, below]
      have others : l.map f = l'.map f' :=
        ih shallow.2 shallow'.2 (fun d inside d' inside' =>
          each.2 d inside d' (List.mem_cons_of_mem _ inside')) rest
      rw [List.map_cons, List.map_cons, first, others]

/-- The outline determines the tree. -/
theorem labelTree_eq_of_outline_eq {x : α} {y : β} (shallow : Shallow kids depth x)
    (shallow' : Shallow kids' depth' y)
    (same : outline kids label depth level x = outline kids' label' depth' level y) :
    labelTree kids label depth x = labelTree kids' label' depth' y := by
  induction depth generalizing depth' level x y with
  | zero => exact shallow.elim
  | succ depth ih =>
    obtain ⟨less', rfl⟩ := shallow'.exists_succ
    obtain ⟨entry, below⟩ := List.cons.inj same
    have children := map_eq_of_outline_eq shallow shallow'
      (fun c inside c' inside' => ih (shallow c inside) (shallow' c' inside')) below
    rw [labelTree, labelTree, (Prod.mk.inj entry).2, children]

end

end SystemProgramming.Lib
