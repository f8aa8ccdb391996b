import Mathlib.Tactic.Common
import Mathlib.Data.List.Basic
import Mathlib.Data.List.TakeWhile

/-! # Streams read line by line

A stream is what is still to be read and the end-of-file flag, which is set by the read that meets the end
and not before. What the line buffer holds after a read that finds nothing is not specified; it is a
parameter here.
-/

namespace SystemProgramming.Lib

def newline : UInt8 := 10

structure Stream where
  rest : List UInt8
  eof : Bool
deriving DecidableEq

/-- An allocated line buffer, up to its last NUL; `none` is the null pointer. -/
abbrev LineBuffer := Option (List UInt8)

/-- The first line with its newline, and what comes behind it. -/
def splitLine (bytes : List UInt8) : List UInt8 × List UInt8 :=
  let line := bytes.takeWhile (· != newline)
  (line ++ (bytes.drop line.length).take 1, (bytes.drop line.length).drop 1)

/-- The state after `getline`; `count` is its result, `none` for -1. -/
structure Getline where
  count : Option ℕ
  line : LineBuffer
  stream : Stream

def getline (atEnd : LineBuffer → LineBuffer) (stream : Stream) (line : LineBuffer) : Getline :=
  if stream.rest = [] then ⟨none, atEnd line, ⟨[], true⟩⟩
  else
    let (first, rest) := splitLine stream.rest
    ⟨some first.length, some first, ⟨rest, stream.eof || first.getLast? != some newline⟩⟩

/-- The lines, each with `mark` in place of its newline; the last one need not have one. -/
def linesWith (mark : List UInt8) : List UInt8 → List (List UInt8)
  | [] => []
  | byte :: bytes =>
    if byte = newline then mark :: linesWith mark bytes
    else
      match linesWith mark bytes with
      | [] => [[byte]]
      | line :: more => (byte :: line) :: more

/-- The lines without their newlines. -/
def lines : List UInt8 → List (List UInt8) := linesWith []

/-- The lines with their newlines. -/
def fullLines : List UInt8 → List (List UInt8) := linesWith [newline]

section

variable {line : List UInt8} (rest : List UInt8) (atEnd : LineBuffer → LineBuffer) (buffer : LineBuffer)

theorem splitLine_append (whole : newline ∉ line) :
    splitLine (line ++ newline :: rest) = (line ++ [newline], rest) := by
  have before : (line ++ newline :: rest).takeWhile (· != newline) = line := by
    rw [List.takeWhile_append_of_pos, List.takeWhile_cons_of_neg, List.append_nil]
    · simp
    · intro byte inside
      simpa using ne_of_mem_of_not_mem inside whole
  simp [splitLine, before]

/-- A complete line is read with its newline and without meeting the end of the file. -/
theorem getline_append (whole : newline ∉ line) :
    getline atEnd ⟨line ++ newline :: rest, false⟩ buffer =
      ⟨some (line.length + 1), some (line ++ [newline]), ⟨rest, false⟩⟩ := by
  simp [getline, splitLine_append rest whole]

@[simp] theorem getline_nil (eof : Bool) :
    getline atEnd ⟨[], eof⟩ buffer = ⟨none, atEnd buffer, ⟨[], true⟩⟩ := if_pos rfl

theorem splitLine_whole (whole : newline ∉ line) : splitLine line = (line, []) := by
  have all : line.takeWhile (· != newline) = line := by
    rw [List.takeWhile_eq_self_iff]
    intro byte inside
    simpa using ne_of_mem_of_not_mem inside whole
  simp [splitLine, all]

theorem linesWith_append (mark : List UInt8) (whole : newline ∉ line) :
    linesWith mark (line ++ newline :: rest) = (line ++ mark) :: linesWith mark rest := by
  induction line with
  | nil => exact if_pos rfl
  | cons byte line ih =>
    rw [List.mem_cons, not_or] at whole
    rw [List.cons_append, linesWith, if_neg (Ne.symm whole.1), ih whole.2]
    rfl

theorem linesWith_whole (mark : List UInt8) (whole : newline ∉ line) (nonempty : line ≠ []) :
    linesWith mark line = [line] := by
  induction line with
  | nil => exact absurd rfl nonempty
  | cons byte line ih =>
    rw [List.mem_cons, not_or] at whole
    rw [linesWith, if_neg (Ne.symm whole.1)]
    cases line with
    | nil => rfl
    | cons next line => rw [ih whole.2 (List.cons_ne_nil next line)]

theorem lines_append (whole : newline ∉ line) : lines (line ++ newline :: rest) = line :: lines rest := by
  rw [lines, linesWith_append rest [] whole, List.append_nil]

theorem lines_whole (whole : newline ∉ line) (nonempty : line ≠ []) : lines line = [line] :=
  linesWith_whole [] whole nonempty

theorem fullLines_append (whole : newline ∉ line) :
    fullLines (line ++ newline :: rest) = (line ++ [newline]) :: fullLines rest :=
  linesWith_append rest [newline] whole

theorem fullLines_whole (whole : newline ∉ line) (nonempty : line ≠ []) : fullLines line = [line] :=
  linesWith_whole [newline] whole nonempty

end

/-- A text is empty, begins with a complete line or is one line without a newline. -/
theorem text_cases (text : List UInt8) :
    text = [] ∨ (∃ line rest, newline ∉ line ∧ text = line ++ newline :: rest) ∨
      newline ∉ text ∧ text ≠ [] := by
  by_cases complete : newline ∈ text
  · obtain ⟨line, rest, same, first⟩ := List.eq_append_cons_of_mem complete
    exact .inr (.inl ⟨line, rest, first, same⟩)
  · by_cases empty : text = []
    · exact .inl empty
    · exact .inr (.inr ⟨complete, empty⟩)

section

variable {text line : List UInt8} {more : List (List UInt8)}

theorem fullLines_eq_nil (none : fullLines text = []) : text = [] := by
  rcases text_cases text with rfl | ⟨line, rest, whole, rfl⟩ | ⟨whole, nonempty⟩
  · rfl
  · rw [fullLines_append rest whole] at none
    cases none
  · rw [fullLines_whole whole nonempty] at none
    cases none

/-- The stream behind a line, with these lines left. A line without a newline has met the end of the file. -/
structure Stream.Behind (stream : Stream) (line : List UInt8) (more : List (List UInt8)) : Prop where
  left : fullLines stream.rest = more
  eof_iff : stream.eof = true ↔ line.getLast? ≠ some newline
  last : stream.eof = true → stream.rest = []

/-- A stream that has just been opened is behind a newline. -/
theorem Stream.behind_open (text : List UInt8) : Stream.Behind ⟨text, false⟩ [newline] (fullLines text) where
  left := rfl
  eof_iff := by simp
  last eof := nomatch eof

section

variable {stream : Stream} {before : List UInt8}

theorem Stream.Behind.rest_eq_nil (here : stream.Behind line []) : stream.rest = [] :=
  fullLines_eq_nil here.left

theorem Stream.Behind.getline_end (here : stream.Behind line []) (atEnd : LineBuffer → LineBuffer)
    (buffer : LineBuffer) : getline atEnd stream buffer = ⟨none, atEnd buffer, ⟨[], true⟩⟩ :=
  if_pos here.rest_eq_nil

/-- The next line is read. -/
theorem Stream.Behind.getline_next (here : stream.Behind before (line :: more)) :
    stream.eof = false ∧ line ≠ [] ∧ ∃ next : Stream, next.Behind line more ∧
      ∀ atEnd buffer, getline atEnd stream buffer = ⟨some line.length, some line, next⟩ := by
  obtain ⟨text, eof⟩ := stream
  have split : fullLines text = line :: more := here.left
  have early : eof = false := by
    rw [Bool.eq_false_iff]
    intro ended
    obtain rfl : text = [] := here.last ended
    cases split
  subst early
  refine ⟨rfl, ?_⟩
  rcases text_cases text with rfl | ⟨first, rest, whole, rfl⟩ | ⟨whole, nonempty⟩
  · cases split
  · rw [fullLines_append rest whole] at split
    cases split
    refine ⟨by simp, ⟨rest, false⟩, ⟨rfl, by simp, fun ended => nomatch ended⟩, fun atEnd buffer => ?_⟩
    rw [getline_append rest atEnd buffer whole, List.length_append, List.length_singleton]
  · rw [fullLines_whole whole nonempty] at split
    cases split
    have last : line.getLast? ≠ some newline := fun same => whole (List.mem_of_getLast? same)
    refine ⟨nonempty, ⟨[], true⟩, ⟨rfl, by simp [last], fun _ => rfl⟩, fun atEnd buffer => ?_⟩
    simp [getline, nonempty, splitLine_whole whole, last]

end

end

end SystemProgramming.Lib
