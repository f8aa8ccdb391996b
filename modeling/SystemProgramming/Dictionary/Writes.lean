import SystemProgramming.Dictionary.Model
import SystemProgramming.Lib.TracedFuel

/-! # Where `convert` writes

`convert` with the index of every byte that is written to the line buffer and to the two fields of the
record. A copy that does not fit is recorded as far as its NUL, and there is nothing to go on with behind it;
the same holds for a write in front of the line buffer.
-/

namespace SystemProgramming.Dictionary.Writes

open Lib

/-- A byte that is written. -/
inductive Access where
  | line (i : ℤ)
  | word (i : ℕ)
  | text (i : ℕ)
deriving DecidableEq, Repr

def Inside : Access → Prop
  | .line i => 0 ≤ i
  | .word i => i < wordSize
  | .text i => i < textSize

/-- `line[strlen(line) - 1] = byte`; an empty line has its write at -1. -/
def setLast (byte : UInt8) (line : LineBuffer) : Traced Access (List UInt8) := do
  let line ← Traced.ofOption line
  Traced.tell (.line ((cstr line).length - 1))
  if cstr line = [] then Traced.stop else return line.set ((cstr line).length - 1) byte

/-- `strcpy(rec.word, line)` -/
def strcpyWord (string : List UInt8) : Traced Access (Field wordSize) := do
  Traced.tellAll ((List.range (string.length + 1)).map .word)
  Traced.ofOption ((Field.init wordSize []).strcpy string)

/-- `strcat(rec.text, line)` -/
def strcatText (text : Field textSize) (string : List UInt8) : Traced Access (Field textSize) := do
  Traced.tellAll ((List.range (string.length + 1)).map fun k => .text (text.string.length + k))
  Traced.ofOption (text.strcat string)

def convertDefinition (kept : LineBuffer → LineBuffer) : ℕ → Stream → LineBuffer → Field textSize →
    Traced Access (Stream × LineBuffer × Field textSize)
  | 0, _, _, _ => Traced.stop
  | fuel + 1, input, line, text =>
    let got := getline kept input line
    if got.count = some 1 then return (got.stream, got.line, text)
    else do
      let line ← setLast 0 got.line
      let text ← strcatText text (cstr line)
      convertDefinition kept fuel got.stream (some line) text

def convert (fresh kept : LineBuffer → LineBuffer) : ℕ → Stream → LineBuffer → Traced Access (List UInt8)
  | 0, _, _ => Traced.stop
  | fuel + 1, input, line =>
    if input.eof then return []
    else do
      let got := getline fresh input line
      let line ← Traced.ofOption got.line
      if cstr line = [] then convert fresh kept fuel got.stream (some line)
      else
        let line ← setLast space (some line)
        let word ← strcpyWord (cstr line)
        let (input, line, text) ←
          convertDefinition kept fuel got.stream (some line) (Field.init textSize [])
        let written ← convert fresh kept fuel input line
        return (Dictrec.mk word text).write ++ written

section

variable {fresh kept : LineBuffer → LineBuffer} {line string : List UInt8} {text : Field textSize}

/-! ## The results are those without the trace -/

@[simp] theorem result_setLast (byte : UInt8) (line : LineBuffer) :
    (setLast byte line).result = Dictionary.setLast byte line := by
  cases line with
  | none => rfl
  | some line =>
    by_cases empty : cstr line = [] <;> simp [setLast, Dictionary.setLast, empty]

theorem result_convertDefinition (fuel : ℕ) (input : Stream) (line : LineBuffer) (text : Field textSize) :
    (convertDefinition kept fuel input line text).result =
      Dictionary.convertDefinition kept fuel input line text := by
  induction fuel generalizing input line text with
  | zero => rfl
  | succ fuel ih =>
    rw [convertDefinition, Dictionary.convertDefinition]
    split
    · rfl
    · simp [strcatText, ih]

theorem result_convert (fuel : ℕ) (input : Stream) (line : LineBuffer) :
    (convert fresh kept fuel input line).result = Dictionary.convert fresh kept fuel input line := by
  induction fuel generalizing input line with
  | zero => rfl
  | succ fuel ih =>
    rw [convert, Dictionary.convert]
    split
    · rfl
    · rw [Traced.result_bind, Traced.result_ofOption]
      apply Option.bind_congr
      intro line _
      split
      · exact ih _ _
      · simp [strcpyWord, result_convertDefinition, ih]

/-! ## One write -/

/-- The write at the end of a line that holds a string. -/
theorem settles_setLast (byte : UInt8) (some : cstr line ≠ []) :
    Settles Inside (fun _ => setLast byte (.some line)) (line.set ((cstr line).length - 1) byte) := by
  have positive := List.length_pos_iff.mpr some
  apply Settles.const
  · have inside : Inside (.line ((cstr line).length - 1)) := by
      change (0 : ℤ) ≤ (cstr line).length - 1
      omega
    simp [setLast, some, inside]
  · simp [Dictionary.setLast, some]

/-- An empty line is written to in front of its start. -/
theorem breaks_setLast (byte : UInt8) (empty : cstr line = []) :
    Breaks Inside fun _ => setLast byte (.some line) := by
  apply Breaks.const
  · have outside : ¬ Inside (.line (([] : List UInt8).length - 1)) := by
      change ¬ (0 : ℤ) ≤ ([] : List UInt8).length - 1
      decide
    simpa [setLast, empty] using outside
  · simp [Dictionary.setLast, empty]

theorem settles_strcpyWord (proper : 0 ∉ string) (fits : string.length < wordSize) :
    ∃ word, word.string = string ∧ Settles Inside (fun _ => strcpyWord string) word := by
  obtain ⟨word, copied⟩ := (Field.init wordSize []).exists_strcpy fits
  refine ⟨word, Field.string_of_strcpy proper copied, .const ?_ copied⟩
  rw [strcpyWord, Traced.always_range_bind]
  refine ⟨?_, Traced.always_ofOption⟩
  intro i below
  exact Nat.lt_of_lt_of_le below fits

theorem breaks_strcpyWord (long : ¬ string.length < wordSize) : Breaks Inside fun _ => strcpyWord string := by
  apply Breaks.const
  · rw [strcpyWord, Traced.always_range_bind]
    rintro ⟨inside, -⟩
    exact long (inside string.length (Nat.lt_succ_self _))
  · exact dif_neg long

theorem settles_strcatText (proper : 0 ∉ string) (fits : text.string.length + string.length < textSize) :
    ∃ longer, longer.string = text.string ++ string ∧ Settles Inside (fun _ => strcatText text string) longer := by
  have whole : (text.string ++ string).length < textSize := by rwa [List.length_append]
  have both : 0 ∉ text.string ++ string := by
    rw [List.mem_append]
    exact not_or.mpr ⟨not_mem_cstr text.bytes, proper⟩
  obtain ⟨longer, copied⟩ := text.exists_strcpy whole
  refine ⟨longer, Field.string_of_strcpy both copied, .const ?_ copied⟩
  rw [strcatText, Traced.always_range_bind]
  refine ⟨?_, Traced.always_ofOption⟩
  intro k below
  change text.string.length + k < textSize
  omega

theorem breaks_strcatText (long : ¬ text.string.length + string.length < textSize) :
    Breaks Inside fun _ => strcatText text string := by
  apply Breaks.const
  · rw [strcatText, Traced.always_range_bind]
    rintro ⟨inside, -⟩
    exact long (inside string.length (Nat.lt_succ_self _))
  · apply dif_neg
    rwa [List.length_append]

end

end SystemProgramming.Dictionary.Writes
