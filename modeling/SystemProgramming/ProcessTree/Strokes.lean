import SystemProgramming.ProcessTree.PrintTree
import SystemProgramming.Lib.PrefixCode

/-! # Rows as glyphs

A head is a sequence of glyphs that grows by two on each level, by one below the root. The buffers for heads
and rows hold more than a line of the window shows, so every row is the cut of one whose head is not cut.
-/

namespace SystemProgramming.ProcessTree

open Lib

variable {NProc : ℕ}

/-- The graphics sets, `G_ASCII` to `G_UTF8`. -/
inductive Graphics where
  | ascii
  | pc850
  | vt100
  | utf8
deriving DecidableEq

namespace Graphics

/-- `TreeChars[graph]`. -/
def chars : Graphics → TreeChars
  | .ascii => .ascii
  | .pc850 => .pc850
  | .vt100 => .vt100
  | .utf8 => .utf8

/-- A horizontal bar. -/
def dash : Graphics → Bytes
  | .ascii => bytes ['-']
  | .pc850 => [0o304]
  | .vt100 => bytes ['q']
  | .utf8 => [0o342, 0o224, 0o200]

/-- A horizontal bar with one going down. -/
def tee : Graphics → Bytes
  | .ascii => bytes ['+']
  | .pc850 => [0o302]
  | .vt100 => bytes ['w']
  | .utf8 => [0o342, 0o224, 0o254]

def space : Bytes := bytes [' ']

theorem s2_eq (g : Graphics) : g.chars.s2 = g.dash ++ g.dash := by cases g <;> rfl

theorem p_eq (g : Graphics) : g.chars.p = g.dash ++ g.tee := by cases g <;> rfl

/-- The glyphs of a head. -/
def headGlyphs (g : Graphics) : List Bytes := [space, g.chars.bar]

/-- The glyphs of a row. -/
def glyphs (g : Graphics) : List Bytes :=
  [space, g.chars.bar, g.chars.barc, g.chars.barl, g.dash, g.tee, g.chars.pgl, g.chars.npgl]

/-- The glyphs of the head below an entry that has a row. -/
def childGlyphs (g : Graphics) (P : Table NProc) (idx : Fin NProc) (glyphs : List Bytes) : List Bytes :=
  glyphs ++ (if glyphs = [] then [] else [if (P idx).sister.isSome then g.chars.bar else space]) ++
    [space]

/-- The glyphs of a row: the head, the connector, and the three in front of the process id. -/
def rowGlyphs (g : Graphics) (P : Table NProc) (idx : Fin NProc) (glyphs : List Bytes) : List Bytes :=
  glyphs ++ (if glyphs = [] then [] else [if (P idx).sister.isSome then g.chars.barc else g.chars.barl]) ++
    [g.dash, if (P idx).child.isSome then g.tee else g.dash,
      if (P idx).pid = (P idx).pgid then g.chars.pgl else g.chars.npgl]

end Graphics

/-- The text of a row behind the graphics. -/
def label (o : Options) (P : Table NProc) (idx : Fin NProc) : Bytes :=
  bytes [' '] ++ padLeft 5 (decimal (P idx).pid) ++ bytes [' '] ++
    (if o.noption then [] else (P idx).name) ++ bytes [' '] ++
    (if (P idx).thcount > 1 then
      snprintf 16 (bytes ['['] ++ decimal (P idx).thcount ++ bytes [']'])
    else []) ++ (P idx).cmd

/-- The graphics of a row, between the strings that switch to the graphics and back. -/
def Graphics.drawn (g : Graphics) (P : Table NProc) (idx : Fin NProc) (glyphs : List Bytes) : Bytes :=
  g.chars.sg ++ (g.rowGlyphs P idx glyphs).flatten ++ g.chars.eg

/-- A row before it is cut. -/
def rowText (o : Options) (g : Graphics) (P : Table NProc) (idx : Fin NProc) (glyphs : List Bytes) : Bytes :=
  g.drawn P idx glyphs ++ label o P idx

/-- The entries with a row, with the glyphs of their heads. -/
def strokes (g : Graphics) (P : Table NProc) (kids : Fin NProc → List (Fin NProc)) :
    ℕ → List Bytes → Fin NProc → List (Fin NProc × List Bytes)
  | 0, _, _ => []
  | depth + 1, glyphs, idx =>
    if (P idx).visible then
      (idx, glyphs) :: (kids idx).flatMap (strokes g P kids depth (g.childGlyphs P idx glyphs))
    else (kids idx).flatMap (strokes g P kids depth glyphs)

/-- The entries with a row in the output for `root`: none if it does not print. -/
def drawnRows (g : Graphics) (P : Table NProc) (kids : Fin NProc → List (Fin NProc)) (depth : ℕ)
    (root : Fin NProc) : List (Fin NProc × List Bytes) :=
  if (P root).print then strokes g P kids depth [] root else []

/-- A row as it is output. -/
def cutRow (o : Options) (g : Graphics) (P : Table NProc) (stroke : Fin NProc × List Bytes) : Row NProc :=
  ⟨stroke.1, (rowText o g P stroke.1 stroke.2).take (o.columns - 1)⟩

/-- A table as the passes leave it: below an entry that prints, the links lead along `kids`, and these
print. -/
structure Trimmed (P : Table NProc) (kids : Fin NProc → List (Fin NProc)) : Prop where
  chain : ∀ p, (P p).print = true → Chain P.sisters (P p).child (kids p)
  print : ∀ p, ∀ c ∈ kids p, (P c).print = true

/-- What is cut from the middle does not matter to a cut further in front. -/
theorem take_append_take {α : Type*} (front middle : List α) {rest rest' : List α} {size count : ℕ}
    (within : count ≤ front.length + size) (same : middle.length ≤ size → rest = rest') :
    (front ++ middle.take size ++ rest).take count = (front ++ middle ++ rest').take count := by
  by_cases fits : middle.length ≤ size
  · rw [List.take_of_length_le fits, same fits]
  · have longer : size ≤ middle.length := by omega
    have left : (front ++ middle.take size ++ rest).take count = (front ++ middle.take size).take count :=
      List.take_append_of_le_length (by rw [List.length_append, List.length_take]; omega)
    have right : (front ++ middle ++ rest').take count = (front ++ middle).take count :=
      List.take_append_of_le_length (by rw [List.length_append]; omega)
    rw [left, right, List.take_append, List.take_append, List.take_take, Nat.min_eq_left (by omega)]

theorem Linked.trimmed {P T Q : Table NProc} (linked : Linked P (List.finRange NProc) T)
    (remarked : Remarked T Q) (o : Options) :
    ∃ R kids, Converges (fun fuel => dropProcs o fuel Q) R ∧ Trimmed R kids := by
  obtain ⟨R, drops, dropped, -⟩ := linked.drop remarked o
  refine ⟨R, fun p => Q.printed (childrenOf (parentOf P) p), drops, fun p mark => ?_, fun p c inside => ?_⟩
  · have chain : Chain Q.sisters (Q p).child (childrenOf (parentOf P) p) := by
      rw [remarked.sisters_eq, remarked p]
      exact linked.chain p
    exact dropped.chain ((dropped.print_eq p).symm.trans mark) chain
  · rw [dropped.print_eq]
    exact (List.mem_filter.mp inside).2

section

variable {o : Options} {g : Graphics} {P : Table NProc} {kids : Fin NProc → List (Fin NProc)}
  {glyphs : List Bytes}

/-- A head is empty only if it has no glyphs. -/
theorem cut_head_eq_nil_iff (inHead : ∀ glyph ∈ glyphs, glyph ∈ g.headGlyphs) :
    snprintf maxLine glyphs.flatten = [] ↔ glyphs = [] := by
  have solid : ∀ glyph ∈ g.headGlyphs, glyph ≠ [] := by cases g <;> decide
  cases glyphs with
  | nil => simp [snprintf]
  | cons first rest =>
    obtain ⟨byte, more, rfl⟩ := List.exists_cons_of_ne_nil
      (solid first (inHead first (List.mem_cons_self ..)))
    simp [snprintf, maxLine]

theorem childGlyphs_inHead (inHead : ∀ glyph ∈ glyphs, glyph ∈ g.headGlyphs) (idx : Fin NProc) :
    ∀ glyph ∈ g.childGlyphs P idx glyphs, glyph ∈ g.headGlyphs := by
  intro glyph inside
  rw [Graphics.childGlyphs, List.mem_append, List.mem_append, List.mem_singleton] at inside
  rcases inside with (front | added) | rfl
  · exact inHead glyph front
  · split_ifs at added <;> simp_all [Graphics.headGlyphs]
  · exact List.mem_cons_self ..

/-- The heads of all rows are made of the glyphs of a head. -/
theorem strokes_inHead (depth : ℕ) (inHead : ∀ glyph ∈ glyphs, glyph ∈ g.headGlyphs) (idx : Fin NProc) :
    ∀ stroke ∈ strokes g P kids depth glyphs idx, ∀ glyph ∈ stroke.2, glyph ∈ g.headGlyphs := by
  induction depth generalizing glyphs idx with
  | zero => exact fun stroke inside => by cases inside
  | succ depth ih =>
    intro stroke inside
    rw [strokes] at inside
    split_ifs at inside with shown
    · rcases List.mem_cons.mp inside with rfl | below
      · exact inHead
      · obtain ⟨c, -, drawn⟩ := List.mem_flatMap.mp below
        exact ih (childGlyphs_inHead inHead idx) c stroke drawn
    · obtain ⟨c, -, drawn⟩ := List.mem_flatMap.mp inside
      exact ih inHead c stroke drawn

theorem strokes_root_inHead (depth : ℕ) (root : Fin NProc) :
    ∀ stroke ∈ strokes g P kids depth [] root, ∀ glyph ∈ stroke.2, glyph ∈ g.headGlyphs :=
  strokes_inHead depth (fun glyph none => by cases none) root

theorem rowGlyphs_inGlyphs (inHead : ∀ glyph ∈ glyphs, glyph ∈ g.headGlyphs) (idx : Fin NProc) :
    ∀ glyph ∈ g.rowGlyphs P idx glyphs, glyph ∈ g.glyphs := by
  intro glyph inside
  rw [Graphics.rowGlyphs, List.mem_append, List.mem_append] at inside
  rcases inside with (front | connector) | last
  · have found := inHead glyph front
    simp only [Graphics.headGlyphs, Graphics.glyphs, List.mem_cons, List.not_mem_nil] at found ⊢
    tauto
  · split_ifs at connector <;> simp_all [Graphics.glyphs]
  · simp only [List.mem_cons, List.not_mem_nil, or_false] at last
    split_ifs at last <;> rcases last with rfl | rfl | rfl <;> simp [Graphics.glyphs]

theorem childHead_eq (chars : o.chars = g.chars) (inHead : ∀ glyph ∈ glyphs, glyph ∈ g.headGlyphs) (idx : Fin NProc) :
    childHead o P idx (snprintf maxLine glyphs.flatten) =
      snprintf maxLine (g.childGlyphs P idx glyphs).flatten := by
  have cut (rest : Bytes) : snprintf maxLine (snprintf maxLine glyphs.flatten ++ rest) =
      snprintf maxLine (glyphs.flatten ++ rest) :=
    take_append_take [] glyphs.flatten (Nat.le_of_eq (Nat.zero_add _).symm) fun _ => rfl
  simp only [childHead, Graphics.childGlyphs, cut_head_eq_nil_iff inHead, chars, List.append_assoc, cut,
    List.flatten_append]
  congr 2
  split_ifs <;> simp [Graphics.space]

theorem rowLine_eq (chars : o.chars = g.chars) (narrow : o.columns < maxLine)
    (inHead : ∀ glyph ∈ glyphs, glyph ∈ g.headGlyphs) (idx : Fin NProc) :
    rowLine o P idx (snprintf maxLine glyphs.flatten) = (rowText o g P idx glyphs).take (o.columns - 1) := by
  have fits : o.columns - 1 ≤ 4 * maxLine - 1 := by omega
  have within : o.columns - 1 ≤ g.chars.sg.length + (maxLine - 1) := by omega
  have cut (rest : Bytes) : (g.chars.sg ++ (snprintf maxLine glyphs.flatten ++ rest)).take (o.columns - 1) =
      (g.chars.sg ++ (glyphs.flatten ++ rest)).take (o.columns - 1) := by
    rw [← List.append_assoc, ← List.append_assoc]
    exact take_append_take g.chars.sg glyphs.flatten within fun _ => rfl
  have body : (if (P idx).child.isSome then g.chars.p else g.chars.s2) =
      g.dash ++ if (P idx).child.isSome then g.tee else g.dash := by
    rw [g.s2_eq, g.p_eq]
    split_ifs <;> rfl
  have connector : (if glyphs = [] then []
      else if (P idx).sister.isSome then g.chars.barc else g.chars.barl) =
      (if glyphs = [] then []
        else [if (P idx).sister.isSome then g.chars.barc else g.chars.barl]).flatten := by
    split_ifs <;> simp
  rw [rowLine]
  simp only [cut_head_eq_nil_iff inHead, chars]
  rw [snprintf, List.take_take, Nat.min_eq_left fits, body, connector]
  simp only [List.append_assoc, cut]
  simp only [rowText, Graphics.drawn, Graphics.rowGlyphs, label, List.flatten_append, List.flatten_cons,
    List.flatten_nil, List.append_assoc, List.append_nil]

/-- The rows are those of the strokes, cut at the window width. -/
theorem render_eq_strokes (chars : o.chars = g.chars) (narrow : o.columns < maxLine) (depth : ℕ)
    (inHead : ∀ glyph ∈ glyphs, glyph ∈ g.headGlyphs) (idx : Fin NProc) :
    render o P kids depth (snprintf maxLine glyphs.flatten) idx =
      (strokes g P kids depth glyphs idx).map (cutRow o g P) := by
  induction depth generalizing glyphs idx with
  | zero => rfl
  | succ depth ih =>
    rw [render, strokes]
    split_ifs with shown
    · rw [List.map_cons, rowLine_eq chars narrow inHead, childHead_eq chars inHead, List.map_flatMap]
      congr 2
      funext c
      exact ih (childGlyphs_inHead inHead idx) c
    · have again : snprintf maxLine (snprintf maxLine glyphs.flatten) = snprintf maxLine glyphs.flatten := by
        rw [snprintf, snprintf, List.take_take, Nat.min_self]
      rw [again, List.map_flatMap]
      congr 1
      funext c
      exact ih inHead c

/-- What `PrintTree` outputs for a root. -/
theorem Trimmed.printTree (trimmed : Trimmed P kids) (chars : o.chars = g.chars)
    (narrow : o.columns < maxLine) (root : Fin NProc) :
    Converges (fun fuel => (printTree o P fuel root [] ⟨0, []⟩).map Screen.rows)
      ((drawnRows g P kids o.maxLdepth root).map (cutRow o g P)) := by
  rw [drawnRows]
  cases mark : (P root).print with
  | true =>
    have rows : render o P kids o.maxLdepth (snprintf maxLine ([] : List Bytes).flatten) root =
        (strokes g P kids o.maxLdepth [] root).map (cutRow o g P) :=
      render_eq_strokes chars narrow o.maxLdepth (fun glyph inside => by cases inside) root
    rw [if_pos rfl, ← rows]
    exact (converges_printTree trimmed.chain trimmed.print o.maxLdepth (Nat.zero_add _) [] mark []).map
      Screen.rows
  | false =>
    refine .of_succ (g := fun _ => some []) (fun fuel => ?_) (.of_forall fun _ => rfl)
    rw [printTree.eq_2, if_pos ⟨rfl, mark⟩]
    rfl

end

end SystemProgramming.ProcessTree
