import SystemProgramming.ProcessTree.Strokes
import SystemProgramming.ProcessTree.Users
import SystemProgramming.Lib.Scanf
import SystemProgramming.Lib.Outline

/-! # The rows determine the tree

Some glyphs stand for several things, but none begins with another, and in front of the bar that all rows have
behind the connector there is no other one. So the number of glyphs in front of it, hence the level of an
entry, and the process id behind the graphics can be read off the row.
-/

namespace SystemProgramming.ProcessTree

open Lib

variable {NProc : ℕ}

/-! ## The drawing of a tree -/

/-- The connector of a root (`none`) or of a child, with whether a later sister follows. -/
def Graphics.connector (g : Graphics) : Option Bool → Bytes
  | none => []
  | some true => g.chars.barc
  | some false => g.chars.barl

/-- What the rows below have in the column of the connector. -/
def Graphics.indent (g : Graphics) : Option Bool → Bytes
  | none => []
  | some true => g.chars.bar
  | some false => Graphics.space

def sketchLine (o : Options) (g : Graphics) (P : Table NProc) (kids : Fin NProc → List (Fin NProc))
    (head : Bytes) (place : Option Bool) (idx : Fin NProc) : Bytes :=
  g.chars.sg ++ head ++ g.connector place ++ (if kids idx = [] then g.chars.s2 else g.chars.p) ++
    (if (P idx).pid = (P idx).pgid then g.chars.pgl else g.chars.npgl) ++ g.chars.eg ++ label o P idx

/-- The rows of a subtree as they should be: the head of the rows below is the head of the row, what stands
in the column of the connector, and a space. -/
def sketch (o : Options) (g : Graphics) (P : Table NProc) (kids : Fin NProc → List (Fin NProc)) :
    ℕ → Bytes → Option Bool → Fin NProc → List (Row NProc)
  | 0, _, _, _ => []
  | depth + 1, head, place, idx =>
    ⟨idx, sketchLine o g P kids head place idx⟩ ::
      (withLater (kids idx)).flatMap fun c =>
        sketch o g P kids depth (head ++ g.indent place ++ Graphics.space) (some c.2) c.1

/-- A tree that is drawn whole: no entry is hidden, all its levels are within the limit and all rows within
the window. -/
structure DrawnTree (o : Options) (g : Graphics) (P : Table NProc) (kids : Fin NProc → List (Fin NProc))
    (root : Fin NProc) : Prop where
  chars : o.chars = g.chars
  narrow : o.columns < maxLine
  trimmed : Trimmed P kids
  print : (P root).print = true
  visible : ∀ i ∈ preorder kids o.maxLdepth root, (P i).visible = true
  shallow : Shallow kids o.maxLdepth root
  wide : ∀ row ∈ sketch o g P kids o.maxLdepth [] none root, row.line.length < o.columns

/-- Where the links of an entry place it. -/
def Placed (P : Table NProc) (glyphs : List Bytes) (idx : Fin NProc) : Option Bool → Prop
  | none => glyphs = []
  | some later => glyphs ≠ [] ∧ (P idx).sister.isSome = later

section

variable {o : Options} {g : Graphics} {P : Table NProc} {kids : Fin NProc → List (Fin NProc)}
  {glyphs : List Bytes} {place : Option Bool} {idx : Fin NProc}

theorem Graphics.connector_eq_barl_iff (g : Graphics) (place : Option Bool) :
    g.connector place = g.chars.barl ↔ place = some false := by
  cases g <;> rcases place with _ | _ | _ <;> decide

theorem Placed.connector_eq (placed : Placed P glyphs idx place) :
    (if glyphs = [] then [] else [if (P idx).sister.isSome then g.chars.barc else g.chars.barl]).flatten =
      g.connector place := by
  cases place with
  | none =>
    obtain rfl : glyphs = [] := placed
    rfl
  | some later =>
    rw [if_neg placed.1, placed.2]
    cases later <;> simp [Graphics.connector]

theorem Placed.indent_eq (placed : Placed P glyphs idx place) :
    (g.childGlyphs P idx glyphs).flatten = glyphs.flatten ++ g.indent place ++ Graphics.space := by
  have column : (if glyphs = [] then []
      else [if (P idx).sister.isSome then g.chars.bar else Graphics.space]).flatten = g.indent place := by
    cases place with
    | none =>
      obtain rfl : glyphs = [] := placed
      rfl
    | some later =>
      rw [if_neg placed.1, placed.2]
      cases later <;> simp [Graphics.indent]
  rw [Graphics.childGlyphs, List.flatten_append, List.flatten_append, column]
  simp

theorem rowText_eq_sketchLine (placed : Placed P glyphs idx place)
    (chain : Chain P.sisters (P idx).child (kids idx)) :
    rowText o g P idx glyphs = sketchLine o g P kids glyphs.flatten place idx := by
  have body : (if kids idx = [] then g.chars.s2 else g.chars.p) =
      g.dash ++ if (P idx).child.isSome then g.tee else g.dash := by
    rw [chain.isSome_iff, g.s2_eq, g.p_eq]
    cases kids idx <;> rfl
  rw [sketchLine, body, ← placed.connector_eq, rowText, Graphics.drawn, Graphics.rowGlyphs]
  simp only [List.flatten_append, List.flatten_cons, List.flatten_nil, List.append_assoc, List.append_nil]

/-- The rows as they should be are those of the glyphs. -/
theorem sketch_eq_strokes (trimmed : Trimmed P kids) (depth : ℕ) (placed : Placed P glyphs idx place)
    (print : (P idx).print = true) (visible : ∀ i ∈ preorder kids depth idx, (P i).visible = true) :
    sketch o g P kids depth glyphs.flatten place idx =
      (strokes g P kids depth glyphs idx).map fun stroke => ⟨stroke.1, rowText o g P stroke.1 stroke.2⟩ := by
  induction depth generalizing glyphs place idx with
  | zero => rfl
  | succ depth ih =>
    have chain := trimmed.chain idx print
    have shown := visible idx (List.mem_cons_self ..)
    rw [sketch, strokes, if_pos shown, List.map_cons, rowText_eq_sketchLine placed chain,
      ← placed.indent_eq (g := g), List.map_flatMap]
    congr 1
    conv_rhs => rw [← map_fst_withLater (kids idx), List.flatMap_map]
    apply List.flatMap_congr
    intro c inside
    obtain ⟨listed, sister⟩ := chain.isSome_of_mem_withLater c inside
    apply ih
    · exact ⟨by simp [Graphics.childGlyphs], sister⟩
    · exact trimmed.print idx c.1 listed
    · exact fun i below => visible i (List.mem_cons_of_mem _ (List.mem_flatMap.mpr ⟨c.1, listed, below⟩))

theorem DrawnTree.sketch_eq {root : Fin NProc} (drawn : DrawnTree o g P kids root) :
    sketch o g P kids o.maxLdepth [] none root = (strokes g P kids o.maxLdepth [] root).map fun stroke =>
      ⟨stroke.1, rowText o g P stroke.1 stroke.2⟩ := by
  have placed : Placed P [] root none := rfl
  exact sketch_eq_strokes drawn.trimmed o.maxLdepth placed drawn.print drawn.visible

/-- No row is cut. -/
theorem DrawnTree.printTree {root : Fin NProc} (drawn : DrawnTree o g P kids root) :
    Converges (fun fuel => (printTree o P fuel root [] ⟨0, []⟩).map Screen.rows)
      (sketch o g P kids o.maxLdepth [] none root) := by
  have rows : (drawnRows g P kids o.maxLdepth root).map (cutRow o g P) =
      sketch o g P kids o.maxLdepth [] none root := by
    rw [drawnRows, if_pos drawn.print, drawn.sketch_eq]
    apply List.map_congr_left
    intro stroke inside
    have fits : (rowText o g P stroke.1 stroke.2).length < o.columns := by
      apply drawn.wide ⟨stroke.1, rowText o g P stroke.1 stroke.2⟩
      rw [drawn.sketch_eq]
      exact List.mem_map_of_mem inside
    rw [cutRow, List.take_of_length_le (by omega)]
  rw [← rows]
  exact drawn.trimmed.printTree drawn.chars drawn.narrow root

/-! ## What a row says -/

/-- The process id in a row. -/
theorem scanWord_label (o : Options) (P : Table NProc) (idx : Fin NProc) :
    (scanWord (label o P idx)).map Prod.fst = some (signedDigits (P idx).pid) := by
  rw [label, padLeft, decimal_eq]
  simp only [List.append_assoc]
  rw [show bytes [' '] = [32] from rfl, List.singleton_append, scanWord_cons_of_blank rfl,
    scanWord_replicate, List.singleton_append,
    scanWord_append (signedDigits_ne_nil _) isBlank_of_mem_signedDigits rfl]
  rfl

/-- The level of an entry, from the glyphs of its head: none for a root, then two more on each level but the
first. -/
def headLevel (glyphs : List Bytes) : ℕ := (glyphs.length + 1) / 2

theorem headLevel_childGlyphs (g : Graphics) (P : Table NProc) (idx : Fin NProc) (glyphs : List Bytes) :
    headLevel (g.childGlyphs P idx glyphs) = headLevel glyphs + 1 := by
  rw [headLevel, headLevel, Graphics.childGlyphs]
  by_cases empty : glyphs = []
  · simp [empty]
  · rw [if_neg empty, List.length_append, List.length_append, List.length_singleton, List.length_singleton]
    omega

theorem strokes_eq_outline (depth : ℕ) (visible : ∀ i ∈ preorder kids depth idx, (P i).visible = true) :
    ((strokes g P kids depth glyphs idx).map fun stroke => (headLevel stroke.2, (P stroke.1).pid)) =
      outline kids (fun i => (P i).pid) depth (headLevel glyphs) idx := by
  induction depth generalizing glyphs idx with
  | zero => rfl
  | succ depth ih =>
    rw [strokes, if_pos (visible idx (List.mem_cons_self ..)), List.map_cons, List.map_flatMap, outline,
      ← headLevel_childGlyphs g P idx]
    congr 1
    apply List.flatMap_congr
    intro c inside
    exact ih fun i below => visible i (List.mem_cons_of_mem _ (List.mem_flatMap.mpr ⟨c, inside, below⟩))

/-- The head and the connector. -/
def Graphics.frontGlyphs (g : Graphics) (P : Table NProc) (idx : Fin NProc) (glyphs : List Bytes) :
    List Bytes :=
  glyphs ++ if glyphs = [] then [] else [if (P idx).sister.isSome then g.chars.barc else g.chars.barl]

/-- The glyphs in front of the bar. -/
def Graphics.columnGlyphs (g : Graphics) : List Bytes :=
  [Graphics.space, g.chars.bar, g.chars.barc, g.chars.barl]

theorem frontGlyphs_inColumn (inHead : ∀ glyph ∈ glyphs, glyph ∈ g.headGlyphs) :
    ∀ glyph ∈ g.frontGlyphs P idx glyphs, glyph ∈ g.columnGlyphs := by
  intro glyph inside
  rcases List.mem_append.mp inside with front | connector
  · have found := inHead glyph front
    simp only [Graphics.headGlyphs, Graphics.columnGlyphs, List.mem_cons, List.not_mem_nil] at found ⊢
    tauto
  · split_ifs at connector <;> simp_all [Graphics.columnGlyphs]

theorem headLevel_frontGlyphs (g : Graphics) (P : Table NProc) (idx : Fin NProc) (glyphs : List Bytes) :
    headLevel glyphs = (g.frontGlyphs P idx glyphs).length / 2 := by
  rw [headLevel, Graphics.frontGlyphs]
  by_cases empty : glyphs = []
  · simp [empty]
  · rw [if_neg empty, List.length_append, List.length_singleton]

theorem rowText_eq (o : Options) (g : Graphics) (P : Table NProc) (idx : Fin NProc) (glyphs : List Bytes) :
    rowText o g P idx glyphs = g.chars.sg ++ ((g.frontGlyphs P idx glyphs).flatten ++ (g.dash ++
      ((if (P idx).child.isSome then g.tee else g.dash) ++
        ((if (P idx).pid = (P idx).pgid then g.chars.pgl else g.chars.npgl) ++
          (g.chars.eg ++ label o P idx))))) := by
  simp only [rowText, Graphics.drawn, Graphics.rowGlyphs, Graphics.frontGlyphs, List.flatten_append,
    List.flatten_cons, List.flatten_nil, List.append_assoc, List.append_nil]

end

/-- Rows with the same text have their entries on the same level and the same process id. -/
theorem rowText_inj {NProc' : ℕ} {o o' : Options} {g : Graphics} {P : Table NProc} {P' : Table NProc'}
    {glyphs glyphs' : List Bytes} {idx : Fin NProc} {idx' : Fin NProc'}
    (inHead : ∀ glyph ∈ glyphs, glyph ∈ g.headGlyphs) (inHead' : ∀ glyph ∈ glyphs', glyph ∈ g.headGlyphs)
    (same : rowText o g P idx glyphs = rowText o' g P' idx' glyphs') :
    headLevel glyphs = headLevel glyphs' ∧ (P idx).pid = (P' idx').pid := by
  have columns : PrefixFree (g.dash :: g.columnGlyphs) ∧ g.dash ∉ g.columnGlyphs := by cases g <;> decide
  have body : PrefixFree [g.tee, g.dash] := by cases g <;> decide
  have leader : PrefixFree [g.chars.pgl, g.chars.npgl] := by cases g <;> decide
  have either {a b : Bytes} (first : Prop) [Decidable first] : (if first then a else b) ∈ [a, b] := by
    split_ifs <;> simp
  have words {N : ℕ} {Q : Table N} {i : Fin N} {heads : List Bytes}
      (inHead : ∀ glyph ∈ heads, glyph ∈ g.headGlyphs) :
      ∀ glyph ∈ g.frontGlyphs Q i heads, glyph ∈ g.dash :: g.columnGlyphs ∧ glyph ≠ g.dash := by
    intro glyph inside
    have listed := frontGlyphs_inColumn inHead glyph inside
    exact ⟨List.mem_cons_of_mem _ listed, fun equal => columns.2 (equal ▸ listed)⟩
  rw [rowText_eq, rowText_eq] at same
  obtain ⟨front, rest⟩ := columns.1.flatten_append_inj (List.mem_cons_self ..) (words inHead) (words inHead')
    (List.append_cancel_left same)
  obtain ⟨-, rest⟩ := body.append_inj (either _) (either _) rest
  obtain ⟨-, rest⟩ := leader.append_inj (either _) (either _) rest
  have labels : label o P idx = label o' P' idx' := List.append_cancel_left rest
  refine ⟨?_, ?_⟩
  · rw [headLevel_frontGlyphs g P idx, front, ← headLevel_frontGlyphs]
  · apply signedDigits_injective
    apply Option.some.inj
    rw [← scanWord_label o P idx, labels, scanWord_label]

/-- The rows `PrintTree` prints for a tree: heads and connectors follow the sisters, and another tree with the
same rows has the same process ids at the same places. -/
theorem printTree_draws (o : Options) (g : Graphics) (P : Table NProc) (kids : Fin NProc → List (Fin NProc))
    (root : Fin NProc) (drawn : DrawnTree o g P kids root) :
    Converges (fun fuel => (printTree o P fuel root [] ⟨0, []⟩).map Screen.rows)
        (sketch o g P kids o.maxLdepth [] none root) ∧
      (∀ place, g.connector place = g.chars.barl ↔ place = some false) ∧
      ∀ {NProc' : ℕ} (o' : Options) (P' : Table NProc') (kids' : Fin NProc' → List (Fin NProc'))
        (root' : Fin NProc'), DrawnTree o' g P' kids' root' →
        ∀ rows', Converges (fun fuel => (printTree o' P' fuel root' [] ⟨0, []⟩).map Screen.rows) rows' →
          (sketch o g P kids o.maxLdepth [] none root).map Row.line = rows'.map Row.line →
          labelTree kids (fun i => (P i).pid) o.maxLdepth root =
            labelTree kids' (fun i => (P' i).pid) o'.maxLdepth root' := by
  refine ⟨drawn.printTree, g.connector_eq_barl_iff, ?_⟩
  intro NProc' o' P' kids' root' drawn' rows' printed same
  obtain rfl := drawn'.printTree.unique printed
  have levels :
      (strokes g P kids o.maxLdepth [] root).map (fun stroke => (headLevel stroke.2, (P stroke.1).pid)) =
      (strokes g P' kids' o'.maxLdepth [] root').map
        (fun stroke => (headLevel stroke.2, (P' stroke.1).pid)) := by
    rw [drawn.sketch_eq, drawn'.sketch_eq, List.map_map, List.map_map] at same
    apply map_eq_map_of_determined ?_ same
    intro stroke inside stroke' inside' equal
    obtain ⟨level, pid⟩ := rowText_inj (strokes_root_inHead _ _ stroke inside)
      (strokes_root_inHead _ _ stroke' inside') equal
    rw [level, pid]
  rw [strokes_eq_outline _ drawn.visible, strokes_eq_outline _ drawn'.visible] at levels
  exact labelTree_eq_of_outline_eq drawn.shallow drawn'.shallow levels

/-- The table for process 1 and its child 2, all of it to be printed. -/
def initAndChildTree : Table 2
  | 0 => { (initAndChild 0).toProc 2 with print := true, child := some 1 }
  | 1 => { (initAndChild 1).toProc 2 with print := true, parent := some 0 }

def initAndChildKids : Fin 2 → List (Fin 2)
  | 0 => [1]
  | 1 => []

theorem printTree_draws_initAndChild :
    Converges (fun fuel => (printTree { maxLdepth := 2, chars := .ascii } initAndChildTree fuel 0 [] ⟨0, []⟩).map
      Screen.rows)
      [⟨0, bytes ['-', '+', '=', ' ', ' ', ' ', ' ', ' ', '1', ' ', ' ']⟩,
        ⟨1, bytes [' ', '\\', '-', '-', '-', ' ', ' ', ' ', ' ', ' ', '2', ' ', ' ']⟩] := by
  have drawn : DrawnTree { maxLdepth := 2, chars := .ascii } .ascii initAndChildTree
      initAndChildKids 0 := by
    refine ⟨rfl, by decide, ⟨fun p _ => ?_, fun p c _ => ?_⟩, rfl, by decide, ?_, by decide⟩
    · match p with
      | 0 => exact .cons .nil
      | 1 => exact .nil
    · match c with
      | 0 => rfl
      | 1 => rfl
    · intro c inside d below
      obtain rfl : c = 1 := List.mem_singleton.mp inside
      cases below
  exact (printTree_draws _ _ _ _ _ drawn).1

end SystemProgramming.ProcessTree
