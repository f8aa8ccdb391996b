import SystemProgramming.Dictionary.Model
import SystemProgramming.Lib.Fuel

/-! # What `convert` makes of a well-formed text

Every entry becomes one record. After the last entry the end of the file has not been met yet, so the main
loop takes one more pass; what it does there depends on what `getline` leaves in the line buffer when it
finds nothing.
-/

namespace SystemProgramming.Dictionary

open Lib

/-- A headword, the lines of its definition and the bounds the record has room for. -/
structure Entry where
  word : List UInt8
  lines : List (List UInt8)
  word_ne_nil : word ≠ []
  word_fits : word.length ≤ 30
  word_bytes : ∀ byte ∈ word, byte ≠ 0 ∧ byte ≠ newline ∧ byte ≠ space
  lines_ne_nil : ∀ line ∈ lines, line ≠ []
  lines_bytes : ∀ line ∈ lines, 0 ∉ line ∧ newline ∉ line
  text_fits : lines.flatten.length ≤ 479

namespace Entry

/-- The definition without its newlines. -/
def text (entry : Entry) : List UInt8 := entry.lines.flatten

def linesSource (lines : List (List UInt8)) : List UInt8 := lines.flatMap (· ++ [newline])

/-- The entry as it stands in the text, with the blank line behind it. -/
def source (entry : Entry) : List UInt8 :=
  entry.word ++ newline :: (linesSource entry.lines ++ [newline])

def record (entry : Entry) : Dictrec where
  word := Field.init wordSize (entry.word ++ [space])
  text := Field.init textSize entry.text

variable (entry : Entry)

theorem zero_not_mem_word : 0 ∉ entry.word := fun inside => (entry.word_bytes 0 inside).1 rfl

theorem newline_not_mem_word : newline ∉ entry.word :=
  fun inside => (entry.word_bytes newline inside).2.1 rfl

theorem zero_not_mem_headed : 0 ∉ entry.word ++ [space] := by
  simp [entry.zero_not_mem_word, space]

theorem zero_not_mem_text : 0 ∉ entry.text := by
  intro inside
  obtain ⟨line, member, inside⟩ := List.mem_flatten.mp inside
  exact (entry.lines_bytes line member).1 inside

theorem newline_not_mem_text : newline ∉ entry.text := by
  intro inside
  obtain ⟨line, member, inside⟩ := List.mem_flatten.mp inside
  exact (entry.lines_bytes line member).2 inside

end Entry

def source (entries : List Entry) : List UInt8 := entries.flatMap Entry.source

/-- The file of records. -/
def recordsFile (entries : List Entry) : List UInt8 := entries.flatMap fun entry => entry.record.write

/-! ## One entry -/

section

variable (fresh kept : LineBuffer → LineBuffer)

/-- The last byte of a line that was read is its newline. -/
theorem setLast_line {line : List UInt8} (byte : UInt8) (proper : 0 ∉ line) :
    setLast byte (some (line ++ [newline])) = some (line ++ [byte]) := by
  have whole : cstr (line ++ [newline]) = line ++ [newline] := cstr_eq_self (by simp [proper, newline])
  simp [setLast, whole]

theorem cstr_line_ne_nil {line : List UInt8} (proper : 0 ∉ line) : cstr (line ++ [newline]) ≠ [] := by
  rw [cstr_eq_self (by simp [proper, newline])]
  simp

/-- The definition is collected up to the blank line. -/
theorem convertDefinition_lines {lines : List (List UInt8)} (nonempty : ∀ line ∈ lines, line ≠ [])
    (bytes : ∀ line ∈ lines, 0 ∉ line ∧ newline ∉ line) (text rest : List UInt8) (buffer : LineBuffer)
    (proper : 0 ∉ text) (fits : (text ++ lines.flatten).length < textSize) :
    Converges (fun fuel => convertDefinition kept fuel
        ⟨Entry.linesSource lines ++ newline :: rest, false⟩ buffer (Field.init textSize text))
      (⟨rest, false⟩, some [newline], Field.init textSize (text ++ lines.flatten)) := by
  induction lines generalizing text buffer with
  | nil =>
    have got := getline_append rest kept buffer (List.not_mem_nil (a := newline))
    rw [List.nil_append] at got
    apply Converges.of_succ (g := fun _ =>
      some (⟨rest, false⟩, some [newline], Field.init textSize (text ++ [].flatten)))
    · intro fuel
      rw [convertDefinition, Entry.linesSource, List.flatMap_nil, List.nil_append, got]
      simp
    · exact .of_forall fun _ => rfl
  | cons line lines ih =>
    rw [List.forall_mem_cons] at nonempty bytes
    have got := getline_append (Entry.linesSource lines ++ newline :: rest) kept buffer bytes.1.2
    have split : Entry.linesSource (line :: lines) ++ newline :: rest =
        line ++ newline :: (Entry.linesSource lines ++ newline :: rest) := by
      simp [Entry.linesSource]
    have long : some (line.length + 1) ≠ some 1 := by
      simpa using nonempty.1
    have whole : (text ++ line) ++ lines.flatten = text ++ (line :: lines).flatten := by simp
    have room : (text ++ line).length < textSize := by
      rw [← whole, List.length_append] at fits
      omega
    have copied := Field.strcat_init room proper
    rw [← whole] at fits ⊢
    apply Converges.of_succ (g := fun fuel => convertDefinition kept fuel
      ⟨Entry.linesSource lines ++ newline :: rest, false⟩ (some (line ++ [0]))
      (Field.init textSize (text ++ line)))
    · intro fuel
      rw [split, convertDefinition, got]
      simp only [if_neg long, setLast_line 0 bytes.1.1, cstr_append_zero bytes.1.1, copied,
        Option.bind_eq_bind, Option.bind_some]
    · apply ih nonempty.2 bytes.2
      · simp [proper, bytes.1.1]
      · exact fits

/-- One pass of the main loop writes the record of one entry. -/
theorem convert_entry (entry : Entry) (rest : List UInt8) (buffer : LineBuffer) :
    ∃ bound, ∀ fuel, bound ≤ fuel →
      convert fresh kept (fuel + 1) ⟨entry.source ++ rest, false⟩ buffer =
        (convert fresh kept fuel ⟨rest, false⟩ (some [newline])).map (entry.record.write ++ ·) := by
  have fits := entry.text_fits
  have short := entry.word_fits
  obtain ⟨bound, defined⟩ := convertDefinition_lines kept entry.lines_ne_nil entry.lines_bytes [] rest
    (some (entry.word ++ [space])) List.not_mem_nil (by simp only [textSize, List.nil_append]; omega)
  refine ⟨bound, fun fuel enough => ?_⟩
  have split : entry.source ++ rest =
      entry.word ++ newline :: (Entry.linesSource entry.lines ++ newline :: rest) := by
    simp [Entry.source]
  have got := getline_append (Entry.linesSource entry.lines ++ newline :: rest) fresh buffer
    entry.newline_not_mem_word
  have named : (Field.init wordSize []).strcpy (entry.word ++ [space]) =
      some (Field.init wordSize (entry.word ++ [space])) := by
    apply Field.strcpy_init
    · simp only [wordSize, List.length_append, List.length_singleton]
      omega
    · simp
  rw [split, convert, got]
  simp only [Bool.false_eq_true, if_false, Option.bind_eq_bind, Option.bind_some,
    cstr_line_ne_nil entry.zero_not_mem_word, setLast_line space entry.zero_not_mem_word,
    cstr_eq_self entry.zero_not_mem_headed, named, defined fuel enough, List.nil_append]
  rw [Option.map_eq_bind]
  rfl

/-! ## The end of the text -/

/-- What the line buffer holds when the last entry has been read. -/
def lastLine (entries : List Entry) (buffer : LineBuffer) : LineBuffer :=
  if entries = [] then buffer else some [newline]

theorem convert_source (entries : List Entry) (buffer : LineBuffer) :
    ∃ bound, ∀ fuel, bound ≤ fuel →
      convert fresh kept (fuel + entries.length) ⟨source entries, false⟩ buffer =
        (convert fresh kept fuel ⟨[], false⟩ (lastLine entries buffer)).map (recordsFile entries ++ ·) := by
  induction entries generalizing buffer with
  | nil => exact ⟨0, fun fuel _ => by simp [source, lastLine, recordsFile]⟩
  | cons entry entries ih =>
    obtain ⟨first, here⟩ := convert_entry fresh kept entry (source entries) buffer
    obtain ⟨second, there⟩ := ih (some [newline])
    refine ⟨max first second, fun fuel enough => ?_⟩
    have same : lastLine entries (some [newline]) = lastLine (entry :: entries) buffer := by
      simp [lastLine]
    have split : source (entry :: entries) = entry.source ++ source entries := List.flatMap_cons
    rw [split, List.length_cons, ← Nat.add_assoc, here (fuel + entries.length) (by omega),
      there fuel (by omega), same, Option.map_map]
    congr 1
    funext written
    simp [recordsFile]

/-- The loop over a definition does not end at the end of the file. -/
theorem convertDefinition_atEnd (fuel : ℕ) (eof : Bool) (buffer : LineBuffer) (text : Field textSize) :
    convertDefinition kept fuel ⟨[], eof⟩ buffer text = none := by
  induction fuel generalizing eof buffer text with
  | zero => rfl
  | succ fuel ih =>
    rw [convertDefinition, getline_nil]
    simp only [reduceCtorEq, if_false, Option.bind_eq_bind]
    cases setLast 0 (kept buffer) with
    | none => rfl
    | some line =>
      rw [Option.bind_some]
      cases text.strcat (cstr line) with
      | none => rfl
      | some text => exact ih true (some line) text

/-- The `getline` that meets the end of the file leaves an empty string. -/
def LeavesEmpty (buffer : LineBuffer) : Prop := ∃ line, fresh buffer = some line ∧ cstr line = []

theorem convert_end_of_leavesEmpty {buffer : LineBuffer} (empty : LeavesEmpty fresh buffer) (fuel : ℕ) :
    convert fresh kept (fuel + 2) ⟨[], false⟩ buffer = some [] := by
  obtain ⟨line, left, empty⟩ := empty
  simp [convert, left, empty]

theorem convert_end_of_not_leavesEmpty {buffer : LineBuffer} (other : ¬ LeavesEmpty fresh buffer)
    (fuel : ℕ) : convert fresh kept fuel ⟨[], false⟩ buffer = none := by
  cases fuel with
  | zero => rfl
  | succ fuel =>
    cases left : fresh buffer with
    | none => simp [convert, left]
    | some line =>
      have nonempty : cstr line ≠ [] := fun empty => other ⟨line, left, empty⟩
      simp [convert, left, nonempty, convertDefinition_atEnd]

/-- `convert` ends with the file of records if its last `getline` leaves an empty string, and does not
end otherwise. -/
theorem converges_convert_iff (entries : List Entry) (file : List UInt8) :
    Converges (fun fuel => convert fresh kept fuel ⟨source entries, false⟩ none) file ↔
      LeavesEmpty fresh (lastLine entries none) ∧ file = recordsFile entries := by
  obtain ⟨bound, unfolded⟩ := convert_source fresh kept entries none
  constructor
  · rintro ⟨enough, value⟩
    have here := value (max bound enough + 2 + entries.length) (by omega)
    dsimp only at here
    rw [unfolded (max bound enough + 2) (by omega)] at here
    by_cases empty : LeavesEmpty fresh (lastLine entries none)
    · rw [convert_end_of_leavesEmpty fresh kept empty, Option.map_some, List.append_nil] at here
      exact ⟨empty, (Option.some.inj here).symm⟩
    · rw [convert_end_of_not_leavesEmpty fresh kept empty] at here
      cases here
  · rintro ⟨empty, rfl⟩
    refine ⟨bound + 2 + entries.length, fun fuel enough => ?_⟩
    obtain ⟨more, rfl⟩ : ∃ more, fuel = bound + more + 2 + entries.length :=
      ⟨fuel - (bound + 2 + entries.length), by omega⟩
    dsimp only
    rw [unfolded (bound + more + 2) (by omega), convert_end_of_leavesEmpty fresh kept empty, Option.map_some,
      List.append_nil]

end

end SystemProgramming.Dictionary
