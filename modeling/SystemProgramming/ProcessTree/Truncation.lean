import SystemProgramming.ProcessTree.Strokes

/-! # Where the window cuts a row

`Columns` counts bytes, and the two control strings of the VT100 set are added to it, wherever the cut falls.
Glyphs of one byte are never cut, but with VT100 the cut may fall in front of the string that switches the
graphics off, and with UTF-8 inside a glyph.
-/

namespace SystemProgramming.ProcessTree

open Lib

variable {NProc : ℕ}

/-- `Columns` for a window of that width; 0 stands for a window of unknown width. -/
def windowColumns (chars : TreeChars) (width : ℕ) : ℕ :=
  let columns := if width = 0 then maxLine - 1 else width
  let columns := columns + chars.sg.length + chars.eg.length
  if columns ≥ maxLine then maxLine - 1 else columns

/-- The line consists of the first glyphs of the row, or has all of them and the strings around them. -/
def WholeGlyphs (g : Graphics) (P : Table NProc) (stroke : Fin NProc × List Bytes) (line : Bytes) : Prop :=
  (∃ k, line = g.chars.sg ++ ((g.rowGlyphs P stroke.1 stroke.2).take k).flatten) ∨
    g.drawn P stroke.1 stroke.2 <+: line

/-- A line that leaves the terminal as it was. -/
structure CleanLine (g : Graphics) (P : Table NProc) (stroke : Fin NProc × List Bytes) (line : Bytes) :
    Prop where
  whole : WholeGlyphs g P stroke line
  normal : g.chars.sg <:+: line → g.chars.eg <:+: line

/-- How many columns a row needs: any number where each glyph is one byte and nothing is switched, room for
all glyphs and both strings with VT100, and with UTF-8 a number that does not cut a glyph. -/
def Fits (g : Graphics) (P : Table NProc) (columns : ℕ) (stroke : Fin NProc × List Bytes) : Prop :=
  match g with
  | .ascii => True
  | .pc850 => True
  | .vt100 => (Graphics.vt100.rowGlyphs P stroke.1 stroke.2).length + 2 < columns
  | .utf8 => CutsNoWord (Graphics.utf8.rowGlyphs P stroke.1 stroke.2) (columns - 1)

section

variable {o : Options} {g : Graphics} {P : Table NProc} {stroke : Fin NProc × List Bytes} {columns : ℕ}

theorem windowColumns_lt (chars : TreeChars) (width : ℕ) : windowColumns chars width < maxLine := by
  rw [windowColumns]
  split_ifs with known wide wide
  · decide
  · omega
  · decide
  · omega

theorem two_lt_windowColumns_vt100 (width : ℕ) : 2 < windowColumns Graphics.vt100.chars width := by
  have strings : Graphics.vt100.chars.sg.length = 1 ∧ Graphics.vt100.chars.eg.length = 1 := ⟨rfl, rfl⟩
  rw [windowColumns, strings.1, strings.2]
  split_ifs with known wide wide
  · decide
  · decide
  · decide
  · omega

theorem drawn_prefix_of_le {count : ℕ} (room : (g.drawn P stroke.1 stroke.2).length ≤ count) :
    g.drawn P stroke.1 stroke.2 <+: (rowText o g P stroke.1 stroke.2).take count := by
  rw [rowText, List.take_append, List.take_of_length_le room]
  exact List.prefix_append _ _

theorem take_rowText_of_lt {count : ℕ} (short : count < (g.drawn P stroke.1 stroke.2).length) :
    (rowText o g P stroke.1 stroke.2).take count = (g.drawn P stroke.1 stroke.2).take count ∧
      ¬ g.drawn P stroke.1 stroke.2 <+: (rowText o g P stroke.1 stroke.2).take count := by
  refine ⟨List.take_append_of_le_length (Nat.le_of_lt short), fun whole => ?_⟩
  have longer := whole.length_le
  rw [List.length_take] at longer
  omega

/-- Without control strings it only matters that no glyph is cut. -/
theorem cleanLine_iff_of_plain (sg : g.chars.sg = []) (eg : g.chars.eg = []) (count : ℕ) :
    CleanLine g P stroke ((rowText o g P stroke.1 stroke.2).take count) ↔
      CutsNoWord (g.rowGlyphs P stroke.1 stroke.2) count := by
  have drawn : g.drawn P stroke.1 stroke.2 = (g.rowGlyphs P stroke.1 stroke.2).flatten := by
    rw [Graphics.drawn, sg, eg, List.nil_append, List.append_nil]
  have clean : CleanLine g P stroke ((rowText o g P stroke.1 stroke.2).take count) ↔
      WholeGlyphs g P stroke ((rowText o g P stroke.1 stroke.2).take count) :=
    ⟨CleanLine.whole, fun whole => ⟨whole, fun _ => by rw [eg]; exact List.nil_infix⟩⟩
  rw [clean, ← exists_take_flatten_iff, WholeGlyphs, sg]
  by_cases room : (g.drawn P stroke.1 stroke.2).length ≤ count
  · refine iff_of_true (.inr (drawn_prefix_of_le room)) ⟨(g.rowGlyphs P stroke.1 stroke.2).length, ?_⟩
    rw [List.take_length, List.take_of_length_le (by rw [← drawn]; exact room)]
  · obtain ⟨cut, missing⟩ := take_rowText_of_lt (o := o) (Nat.lt_of_not_le room)
    rw [or_iff_left missing, cut, drawn]
    simp only [List.nil_append]

theorem cleanLine_of_bytes (sg : g.chars.sg = []) (eg : g.chars.eg = [])
    (single : ∀ glyph ∈ g.glyphs, glyph.length = 1) (inHead : ∀ glyph ∈ stroke.2, glyph ∈ g.headGlyphs)
    (count : ℕ) : CleanLine g P stroke ((rowText o g P stroke.1 stroke.2).take count) := by
  rw [cleanLine_iff_of_plain sg eg]
  apply cutsNoWord_of_single
  intro glyph inside
  exact single glyph (rowGlyphs_inGlyphs inHead stroke.1 glyph inside)

/-- With VT100 the string that switches the graphics off must be in the line. -/
theorem cleanLine_vt100_iff (inHead : ∀ glyph ∈ stroke.2, glyph ∈ Graphics.vt100.headGlyphs)
    (enough : 2 < columns) :
    CleanLine .vt100 P stroke ((rowText o .vt100 P stroke.1 stroke.2).take (columns - 1)) ↔
      Fits .vt100 P columns stroke := by
  have inGlyphs := rowGlyphs_inGlyphs (P := P) inHead stroke.1
  have single : ∀ glyph ∈ Graphics.vt100.glyphs, glyph.length = 1 ∧ (0o17 : UInt8) ∉ glyph := by decide
  have size := length_flatten_of_single fun glyph inside => (single glyph (inGlyphs glyph inside)).1
  have front : (Graphics.vt100.chars.sg ++ (Graphics.vt100.rowGlyphs P stroke.1 stroke.2).flatten).length =
      (Graphics.vt100.rowGlyphs P stroke.1 stroke.2).length + 1 := by
    rw [List.length_append, size, Nat.add_comm]
    rfl
  have length : (Graphics.vt100.drawn P stroke.1 stroke.2).length =
      (Graphics.vt100.rowGlyphs P stroke.1 stroke.2).length + 2 := by
    rw [Graphics.drawn, List.length_append, front]
    rfl
  rw [Fits]
  constructor
  · intro clean
    by_contra short
    obtain ⟨cut, -⟩ : (rowText o .vt100 P stroke.1 stroke.2).take (columns - 1) =
        (Graphics.vt100.drawn P stroke.1 stroke.2).take (columns - 1) ∧ _ :=
      take_rowText_of_lt (by rw [length]; omega)
    have starts : Graphics.vt100.chars.sg <:+: (rowText o .vt100 P stroke.1 stroke.2).take (columns - 1) := by
      rw [rowText, Graphics.drawn, List.append_assoc, List.append_assoc, List.take_append,
        List.take_of_length_le (show Graphics.vt100.chars.sg.length ≤ columns - 1 from
          Nat.le_sub_of_add_le (Nat.le_of_lt enough))]
      exact (List.prefix_append _ _).isInfix
    -- the switch back would have to be among the glyphs
    have ends : (0o17 : UInt8) ∈ Graphics.vt100.chars.sg ++
        (Graphics.vt100.rowGlyphs P stroke.1 stroke.2).flatten := by
      have found := (clean.normal starts).subset (List.mem_singleton_self (0o17 : UInt8))
      rw [cut, Graphics.drawn, List.take_append_of_le_length (by rw [front]; omega)] at found
      exact List.mem_of_mem_take found
    rcases List.mem_append.mp ends with switch | drawn
    · revert switch
      decide
    · obtain ⟨glyph, inside, found⟩ := List.mem_flatten.mp drawn
      exact (single glyph (inGlyphs glyph inside)).2 found
  · intro room
    have whole : Graphics.vt100.drawn P stroke.1 stroke.2 <+:
        (rowText o .vt100 P stroke.1 stroke.2).take (columns - 1) := drawn_prefix_of_le (by omega)
    refine ⟨.inr whole, fun _ => ?_⟩
    exact (List.suffix_append _ _).isInfix.trans whole.isInfix

/-- One row: what the window leaves of it. -/
theorem cleanLine_iff_fits (g : Graphics) (inHead : ∀ glyph ∈ stroke.2, glyph ∈ g.headGlyphs) (width : ℕ)
    (narrow : columns = windowColumns g.chars width) :
    CleanLine g P stroke ((rowText o g P stroke.1 stroke.2).take (columns - 1)) ↔
      Fits g P columns stroke := by
  cases g with
  | ascii => exact iff_of_true (cleanLine_of_bytes rfl rfl (by decide) inHead _) trivial
  | pc850 => exact iff_of_true (cleanLine_of_bytes rfl rfl (by decide) inHead _) trivial
  | vt100 => exact cleanLine_vt100_iff inHead (narrow ▸ two_lt_windowColumns_vt100 width)
  | utf8 => exact cleanLine_iff_of_plain rfl rfl (columns - 1)

end

/-- After `MakeTree`, any marks and `DropProcs`, each line output for a root has whole glyphs and leaves the
terminal as it was exactly when each row fits. -/
theorem printTree_clean_iff (o : Options) (g : Graphics) (width : ℕ) (chars : o.chars = g.chars)
    (columns : o.columns = windowColumns g.chars width) {P : Table NProc} (unlinked : Unlinked P) :
    ∃ T, Converges (fun fuel => makeTree fuel P) T ∧
      ∀ Q : Table NProc, Remarked T Q → ∃ R kids, Converges (fun fuel => dropProcs o fuel Q) R ∧
        Trimmed R kids ∧ ∀ root,
          (∃ rows, Converges (fun fuel => (printTree o R fuel root [] ⟨0, []⟩).map Screen.rows) rows ∧
            List.Forall₂ (fun stroke row => row.idx = stroke.1 ∧ CleanLine g R stroke row.line)
              (drawnRows g R kids o.maxLdepth root) rows) ↔
          ∀ stroke ∈ drawnRows g R kids o.maxLdepth root, Fits g R o.columns stroke := by
  obtain ⟨T, made, linked⟩ := converges_makeTree unlinked
  refine ⟨T, made, fun Q remarked => ?_⟩
  obtain ⟨R, kids, drops, trimmed⟩ := linked.trimmed remarked o
  refine ⟨R, kids, drops, trimmed, fun root => ?_⟩
  have printed := trimmed.printTree chars (columns ▸ windowColumns_lt _ _) root
  have inHead : ∀ stroke ∈ drawnRows g R kids o.maxLdepth root,
      ∀ glyph ∈ stroke.2, glyph ∈ g.headGlyphs := by
    intro stroke inside
    rw [drawnRows] at inside
    split_ifs at inside
    · exact strokes_root_inHead o.maxLdepth root stroke inside
    · cases inside
  have each (stroke : Fin NProc × List Bytes) (inside : stroke ∈ drawnRows g R kids o.maxLdepth root) :
      ((cutRow o g R stroke).idx = stroke.1 ∧ CleanLine g R stroke (cutRow o g R stroke).line) ↔
        Fits g R o.columns stroke := by
    rw [← cleanLine_iff_fits g (inHead stroke inside) width columns]
    exact and_iff_right rfl
  constructor
  · rintro ⟨rows, printed', clean⟩ stroke inside
    obtain rfl := printed.unique printed'
    rw [List.forall₂_map_right_iff, List.forall₂_same] at clean
    exact (each stroke inside).mp (clean stroke inside)
  · intro fits
    refine ⟨_, printed, ?_⟩
    rw [List.forall₂_map_right_iff, List.forall₂_same]
    exact fun stroke inside => (each stroke inside).mpr (fits stroke inside)

/-- In ASCII every window will do. -/
theorem printTree_clean_recycledPids :
    ∃ R kids rows, Trimmed R kids ∧
      Converges (fun fuel => (printTree { columns := 1, chars := .ascii } R fuel (2 : Fin 3) []
        ⟨0, []⟩).map Screen.rows) rows ∧
      List.Forall₂ (fun stroke row => row.idx = stroke.1 ∧ CleanLine .ascii R stroke row.line)
        (drawnRows .ascii R kids 100 2) rows := by
  obtain ⟨T, -, rest⟩ := printTree_clean_iff { columns := 1, chars := .ascii } .ascii 1 rfl rfl
    (unlinked_getProcesses recycledPids)
  obtain ⟨R, kids, -, trimmed, clean⟩ := rest (fun i => { T i with print := true }) fun _ => rfl
  obtain ⟨rows, printed, lines⟩ := (clean 2).mpr fun _ _ => trivial
  exact ⟨R, kids, rows, trimmed, printed, lines⟩

def initOnly : Fin 1 → Entry := fun _ => ⟨0, 1, 0, 1, [], [], 1⟩

/-- Two columns leave one byte of the first UTF-8 glyph. -/
theorem initOnly_cut :
    Converges (fun fuel => pstree { columns := windowColumns .utf8 2 } fuel (getProcesses initOnly) 0)
        [⟨0, [0o342]⟩] ∧
      ∀ P : Table 1, ¬ WholeGlyphs .utf8 P (0, []) [0o342] := by
  refine ⟨⟨2, fun fuel enough => ?_⟩, fun P whole => ?_⟩
  · obtain ⟨less, rfl⟩ := Nat.exists_eq_add_of_le' enough
    rfl
  · rcases whole with ⟨k, same⟩ | whole
    · cases k with
      | zero => cases same
      | succ k => simp [Graphics.rowGlyphs, Graphics.dash, Graphics.chars, TreeChars.utf8] at same
    · have longer := whole.length_le
      simp [Graphics.drawn, Graphics.rowGlyphs, Graphics.dash] at longer
      omega

end SystemProgramming.ProcessTree
