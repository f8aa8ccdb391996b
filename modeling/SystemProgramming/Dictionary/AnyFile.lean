import SystemProgramming.Dictionary.Convert
import SystemProgramming.Dictionary.Writes
import Mathlib.Data.List.Forall2

/-! # What `convert` does with any file

The file is a sequence of lines, and each of them is a word, is skipped in place of a word, belongs to a
definition or ends it. At the end of the file the `getline` of a definition stores nothing, and that of the
main loop, whose size argument is 0, leaves what the C library puts in the place of the buffer.
-/

namespace SystemProgramming.Dictionary.AnyFile

open Lib Writes

/-- The line of a word and the lines of its definition. -/
structure Block where
  head : List UInt8
  lines : List (List UInt8)
deriving DecidableEq, Repr

/-- The entries of a file; the first argument is the one that is being read. A line that begins with a NUL
holds no word, and a line of one byte ends a definition. -/
def entriesFrom : Option Block → List (List UInt8) → List Block
  | block, [] => block.toList
  | none, line :: lines =>
    if cstr line = [] then entriesFrom none lines else entriesFrom (some ⟨line, []⟩) lines
  | some block, line :: lines =>
    if line.length = 1 then block :: entriesFrom none lines
    else entriesFrom (some { block with lines := block.lines ++ [line] }) lines

def entries (file : List UInt8) : List Block := entriesFrom none (fullLines file)

/-- The definition without the last byte of each line, which is its newline. -/
def collected (lines : List (List UInt8)) : List UInt8 := lines.flatMap fun line => (cstr line).dropLast

/-- The lines of a definition hold strings, and there is room behind `used` bytes for what is collected. -/
def Room (used : ℕ) (lines : List (List UInt8)) : Prop :=
  (∀ line ∈ lines, cstr line ≠ []) ∧ used + (collected lines).length < textSize

instance (used : ℕ) (lines : List (List UInt8)) : Decidable (Room used lines) :=
  inferInstanceAs (Decidable (_ ∧ _))

def Block.Fits (block : Block) : Prop := (cstr block.head).length < wordSize ∧ Room 0 block.lines

instance (block : Block) : Decidable block.Fits := inferInstanceAs (Decidable (_ ∧ _))

/-- Is a definition being read behind a line? -/
def next (inside : Bool) (line : List UInt8) : Bool :=
  if inside then line.length ≠ 1 else cstr line ≠ []

/-- The line buffer behind the lines. -/
def lastRead (buffer : LineBuffer) (lines : List (List UInt8)) : LineBuffer :=
  lines.foldl (fun _ line => some line) buffer

/-- The line that was read last has not met the end of the file. -/
def Unended (buffer : LineBuffer) : Prop := ∀ line ∈ buffer, line.getLast? = some newline

/-- Behind the last of the lines no definition is being read, and the line buffer has the property if there will
be a `getline` at the end of the file; `buffer` is the line buffer in front of them. -/
def Ends (Q : LineBuffer → Prop) (buffer : LineBuffer) (lines : List (List UInt8)) : Prop :=
  lines.foldl next false = false ∧ (Unended (lastRead buffer lines) → Q (lastRead buffer lines))

/-- The main loop ends and has written a record for each entry. -/
def Converts (fresh : LineBuffer → LineBuffer) (file : List UInt8) : Prop :=
  ∃ records : List Dictrec, records.length = (entries file).length ∧
    Converges (fun fuel => Dictionary.convert fresh id fuel ⟨file, false⟩ none) (records.flatMap Dictrec.write)

/-- The lines end where the loops end, and every entry fits into a record. -/
def Fine (Q : LineBuffer → Prop) (buffer : LineBuffer) (lines : List (List UInt8)) : Prop :=
  Ends Q buffer lines ∧ ∀ block ∈ entriesFrom none lines, block.Fits

/-- The `getline` that meets the end of the file leaves no word. -/
def LeavesNoWord (fresh : LineBuffer → LineBuffer) (buffer : LineBuffer) : Prop :=
  ∀ line ∈ fresh buffer, cstr line = []

theorem LeavesEmpty.leavesNoWord {fresh : LineBuffer → LineBuffer} {buffer : LineBuffer}
    (empty : LeavesEmpty fresh buffer) : LeavesNoWord fresh buffer := by
  obtain ⟨line, left, empty⟩ := empty
  intro other same
  cases left.symm.trans same
  exact empty

section

variable {fresh : LineBuffer → LineBuffer} {Q : LineBuffer → Prop} {before : LineBuffer}
variable {line buffer head : List UInt8} {lines body more : List (List UInt8)} {input stream : Stream}
variable {text : Field textSize} {block : Block} {used : ℕ}

/-! ## A definition -/

/-- The loop over the lines of a definition. -/
def definitionLoop (input : Stream) (line : LineBuffer) (text : Field textSize) (fuel : ℕ) :
    Traced Access (Stream × LineBuffer × Field textSize) :=
  Writes.convertDefinition id fuel input line text

theorem room_cons : Room used (line :: lines) ↔
    cstr line ≠ [] ∧ Room (used + (cstr line).dropLast.length) lines := by
  rw [Room, Room, List.forall_mem_cons, collected, List.flatMap_cons, List.length_append, ← Nat.add_assoc, and_assoc]
  rfl

theorem Room.used_lt (room : Room used lines) : used < textSize := Nat.lt_of_le_of_lt (Nat.le_add_right ..) room.2

/-- A line that does not end the definition is appended to the text if it holds a string for which there is
room. -/
theorem convertDefinition_step {count : Option ℕ} (text : Field textSize)
    (got : getline id input before = ⟨count, some line, stream⟩) (longer : count ≠ some 1) :
    (cstr line ≠ [] ∧ text.string.length + (cstr line).dropLast.length < textSize ∧
      ∃ (buffer : List UInt8) (after : Field textSize), cstr buffer = (cstr line).dropLast ∧
        after.string = text.string ++ (cstr line).dropLast ∧
        (∀ a, Settles Inside (definitionLoop stream (some buffer) after) a →
          Settles Inside (definitionLoop input before text) a) ∧
        (Breaks Inside (definitionLoop stream (some buffer) after) →
          Breaks Inside (definitionLoop input before text))) ∨
    ¬ (cstr line ≠ [] ∧ text.string.length + (cstr line).dropLast.length < textSize) ∧
      Breaks Inside (definitionLoop input before text) := by
  have unfold (fuel : ℕ) : definitionLoop input before text (fuel + 1) =
      (Writes.setLast 0 (some line) >>= fun line =>
        strcatText text (cstr line) >>= fun text => definitionLoop stream (some line) text fuel) := by
    rw [definitionLoop, Writes.convertDefinition, got]
    exact if_neg longer
  by_cases empty : cstr line = []
  · refine .inr ⟨fun both => both.1 empty, .of_succ unfold ?_⟩
    exact (breaks_setLast 0 empty).bind_left
  · have cut := cstr_set_last empty
    have written := settles_setLast 0 empty
    by_cases fits : text.string.length + (cstr line).dropLast.length < textSize
    · rw [← cut] at fits
      obtain ⟨after, string, copied⟩ := settles_strcatText (not_mem_cstr _) fits
      rw [cut] at fits string
      refine .inl ⟨empty, fits, _, after, cut, string, fun a rest => ?_, fun rest => ?_⟩
      · exact .of_succ rfl unfold (written.bind (copied.bind rest))
      · exact .of_succ unfold (.bind_right written (.bind_right copied rest))
    · refine .inr ⟨fun both => fits both.2, .of_succ unfold ?_⟩
      rw [← cut] at fits
      exact .bind_right written (breaks_strcatText fits).bind_left

/-- At the end of the file the buffer gets shorter until there is nothing left in front of its end. -/
theorem breaks_convertDefinition_end (here : input.rest = []) (buffer : List UInt8) (text : Field textSize) :
    Breaks Inside (definitionLoop input (some buffer) text) := by
  induction length : (cstr buffer).length generalizing input buffer text with
  | zero =>
    have got : getline id input (some buffer) = ⟨none, some buffer, ⟨[], true⟩⟩ := if_pos here
    rcases convertDefinition_step text got (by simp) with ⟨string, -⟩ | ⟨-, broken⟩
    · exact absurd (List.eq_nil_of_length_eq_zero length) string
    · exact broken
  | succ length ih =>
    have got : getline id input (some buffer) = ⟨none, some buffer, ⟨[], true⟩⟩ := if_pos here
    rcases convertDefinition_step text got (by simp) with
      ⟨-, -, shorter, after, cut, -, -, passes⟩ | ⟨-, broken⟩
    · apply passes
      apply ih rfl
      rw [cut, List.length_dropLast]
      omega
    · exact broken

/-- A definition that nothing ends. -/
theorem breaks_convertDefinition (open' : ∀ line ∈ lines, line.length ≠ 1) {before : List UInt8}
    (here : input.Behind before lines) (buffer : List UInt8) (text : Field textSize) :
    Breaks Inside (definitionLoop input (some buffer) text) := by
  induction lines generalizing input before buffer text with
  | nil => exact breaks_convertDefinition_end here.rest_eq_nil buffer text
  | cons line lines ih =>
    rw [List.forall_mem_cons] at open'
    obtain ⟨-, -, stream, behind, got⟩ := here.getline_next
    have longer : some line.length ≠ some 1 := fun same => open'.1 (Option.some.inj same)
    rcases convertDefinition_step text (got id (some buffer)) longer with
      ⟨-, -, shorter, after, -, -, -, passes⟩ | ⟨-, broken⟩
    · exact passes (ih open'.2 behind shorter after)
    · exact broken

/-- A definition up to the line that ends it. -/
theorem convertDefinition_lines {last : List UInt8} (open' : ∀ line ∈ body, line.length ≠ 1)
    (ends : last.length = 1) {before : List UInt8} (here : input.Behind before (body ++ last :: more))
    (buffer : List UInt8) (text : Field textSize) (short : text.string.length < textSize) :
    (Room text.string.length body ∧ ∃ (stream : Stream) (after : Field textSize), stream.Behind last more ∧
      after.string = text.string ++ collected body ∧
      Settles Inside (definitionLoop input (some buffer) text) (stream, some last, after)) ∨
    ¬ Room text.string.length body ∧
      Breaks Inside (definitionLoop input (some buffer) text) := by
  induction body generalizing input before buffer text with
  | nil =>
    obtain ⟨-, -, stream, behind, got⟩ := here.getline_next
    refine .inl ⟨⟨by simp, short⟩, stream, text, behind, (List.append_nil _).symm, ?_⟩
    apply Settles.of_succ rfl (g := fun _ => pure (stream, some last, text))
    · intro fuel
      rw [definitionLoop, Writes.convertDefinition, got]
      exact if_pos (congrArg some ends)
    · exact .pure
  | cons line body ih =>
    rw [List.forall_mem_cons] at open'
    obtain ⟨-, -, stream, behind, got⟩ := here.getline_next
    have longer : some line.length ≠ some 1 := fun same => open'.1 (Option.some.inj same)
    rw [room_cons]
    rcases convertDefinition_step text (got id (some buffer)) longer with
      ⟨nonempty, fits, shorter, after, -, string, settles, breaks⟩ | ⟨wrong, broken⟩
    · have length : after.string.length = text.string.length + (cstr line).dropLast.length := by
        rw [string, List.length_append]
      rcases ih open'.2 behind shorter after (length ▸ fits) with
        ⟨room, stream, whole, left, all, done⟩ | ⟨full, broken⟩
      · rw [string, List.append_assoc] at all
        exact .inl ⟨⟨nonempty, length ▸ room⟩, stream, whole, left, all, settles _ done⟩
      · exact .inr ⟨fun both => full (length ▸ both.2), breaks broken⟩
    · exact .inr ⟨fun both => wrong ⟨both.1, both.2.used_lt⟩, broken⟩

/-! ## The main loop -/

def mainLoop (fresh : LineBuffer → LineBuffer) (input : Stream) (line : LineBuffer) (fuel : ℕ) :
    Traced Access (List UInt8) :=
  Writes.convert fresh id fuel input line

/-- The record of an entry: the last byte of the word's line is a space in it. -/
structure Holds (block : Block) (record : Dictrec) : Prop where
  word : record.word.string = (cstr block.head).dropLast ++ [space]
  text : record.text.string = collected block.lines

theorem mainLoop_eof (ended : input.eof = true) (before : LineBuffer) :
    Settles Inside (mainLoop fresh input before) [] := by
  apply Settles.of_succ rfl (g := fun _ => pure [])
  · intro fuel
    rw [mainLoop, Writes.convert]
    exact if_pos ended
  · exact .pure

/-- A null pointer is left to `strlen`. -/
theorem stops_mainLoop {count : Option ℕ} (early : input.eof = false)
    (got : getline fresh input before = ⟨count, none, stream⟩) : Stops Inside (mainLoop fresh input before) := by
  apply Stops.of_succ rfl (g := fun _ => Traced.stop)
  · intro fuel
    rw [mainLoop, Writes.convert, early, got]
    rfl
  · exact fun _ => ⟨Traced.always_stop, rfl⟩

section

variable {count : Option ℕ} (early : input.eof = false)
  (got : getline fresh input before = ⟨count, some line, stream⟩)

include early got

/-- A line without a string is skipped. -/
theorem mainLoop_skip (empty : cstr line = []) (fuel : ℕ) :
    mainLoop fresh input before (fuel + 1) = mainLoop fresh stream (some line) fuel := by
  rw [mainLoop, Writes.convert, early, got, Traced.ofOption_some_bind, if_pos empty]
  rfl

/-- A line with a string is the word of an entry, and what becomes of it depends on the definition and on what
comes behind that. -/
theorem mainLoop_word (nonempty : cstr line ≠ []) :
    ((cstr line).length < wordSize ∧ ∃ (buffer : List UInt8) (word : Field wordSize),
      word.string = (cstr line).dropLast ++ [space] ∧
      (Breaks Inside (definitionLoop stream (some buffer) (Field.init textSize [])) →
        Breaks Inside (mainLoop fresh input before)) ∧
      ∀ rest last text,
        Settles Inside (definitionLoop stream (some buffer) (Field.init textSize [])) (rest, last, text) →
        (Breaks Inside (mainLoop fresh rest last) → Breaks Inside (mainLoop fresh input before)) ∧
        (Stops Inside (mainLoop fresh rest last) → Stops Inside (mainLoop fresh input before)) ∧
        ∀ written, Settles Inside (mainLoop fresh rest last) written →
          Settles Inside (mainLoop fresh input before) ((Dictrec.mk word text).write ++ written)) ∨
    ¬ (cstr line).length < wordSize ∧ Breaks Inside (mainLoop fresh input before) := by
  have unfold (fuel : ℕ) : mainLoop fresh input before (fuel + 1) =
      (Writes.setLast space (some line) >>= fun line => strcpyWord (cstr line) >>= fun word =>
        definitionLoop stream (some line) (Field.init textSize []) fuel >>= fun read =>
          mainLoop fresh read.1 read.2.1 fuel >>= fun written =>
            pure ((Dictrec.mk word read.2.2).write ++ written)) := by
    rw [mainLoop, Writes.convert, early, got, Traced.ofOption_some_bind, if_neg nonempty]
    rfl
  have headed := settles_setLast space nonempty
  have string := cstr_set_last_of_ne nonempty (by decide : space ≠ 0)
  have length : (cstr (line.set ((cstr line).length - 1) space)).length = (cstr line).length := by
    have positive := List.length_pos_iff.mpr nonempty
    rw [string, List.length_append, List.length_dropLast, List.length_singleton]
    omega
  by_cases fits : (cstr line).length < wordSize
  · rw [← length] at fits
    obtain ⟨word, same, copied⟩ := settles_strcpyWord (not_mem_cstr _) fits
    rw [length] at fits
    refine .inl ⟨fits, line.set ((cstr line).length - 1) space, word, same.trans string, fun broken => ?_,
      fun rest last text defined => ⟨fun broken => ?_, fun stopped => ?_, ?_⟩⟩
    · exact .of_succ unfold (.bind_right headed (.bind_right copied broken.bind_left))
    · exact .of_succ unfold (.bind_right headed (.bind_right copied (.bind_right defined broken.bind_left)))
    · exact .of_succ rfl unfold (.bind_right headed (.bind_right copied (.bind_right defined stopped.bind_left)))
    · intro written done
      exact .of_succ rfl unfold (headed.bind (copied.bind (defined.bind (done.bind .pure))))
  · refine .inr ⟨fits, .of_succ unfold (.bind_right headed (Breaks.bind_left ?_))⟩
    rw [← length] at fits
    exact breaks_strcpyWord fits

end

/-! ## The entries -/

/-- Lines of a definition are added to the entry that is being read. -/
theorem entriesFrom_lines {last : List UInt8} (longer : ∀ line ∈ body, line.length ≠ 1) (ends : last.length = 1) :
    entriesFrom (some block) (body ++ last :: more) =
      { block with lines := block.lines ++ body } :: entriesFrom none more := by
  induction body generalizing block with
  | nil => rw [List.nil_append, entriesFrom, if_pos ends, List.append_nil]
  | cons line body ih =>
    rw [List.forall_mem_cons] at longer
    rw [List.cons_append, entriesFrom, if_neg longer.1, ih longer.2]
    simp

theorem foldl_next (longer : ∀ line ∈ lines, line.length ≠ 1) : lines.foldl next true = true := by
  induction lines with
  | nil => rfl
  | cons line lines ih =>
    rw [List.forall_mem_cons] at longer
    have inside : next true line = true := by simp [next, longer.1]
    rw [List.foldl_cons, inside]
    exact ih longer.2

theorem fine_skip (empty : cstr head = []) : Fine Q before (head :: lines) ↔ Fine Q (some head) lines := by
  have outside : next false head = false := by simp [next, empty]
  rw [Fine, Fine, Ends, Ends, List.foldl_cons, outside, lastRead, List.foldl_cons, entriesFrom, if_pos empty]
  rfl

theorem not_fine_open (word : cstr head ≠ []) (longer : ∀ line ∈ lines, line.length ≠ 1) :
    ¬ Fine Q before (head :: lines) := by
  have inside : next false head = true := by simp [next, word]
  rw [Fine, Ends, List.foldl_cons, inside, foldl_next longer]
  exact fun both => Bool.noConfusion both.1.1

theorem entriesFrom_entry {last : List UInt8} (word : cstr head ≠ []) (longer : ∀ line ∈ body, line.length ≠ 1)
    (ends : last.length = 1) :
    entriesFrom none (head :: (body ++ last :: more)) = ⟨head, body⟩ :: entriesFrom none more := by
  rw [entriesFrom, if_neg word, entriesFrom_lines longer ends]
  rfl

theorem fine_entry {last : List UInt8} (word : cstr head ≠ []) (longer : ∀ line ∈ body, line.length ≠ 1)
    (ends : last.length = 1) : Fine Q before (head :: (body ++ last :: more)) ↔
      (⟨head, body⟩ : Block).Fits ∧ Fine Q (some last) more := by
  have inside : next false head = true := by simp [next, word]
  have outside : next true last = false := by simp [next, ends]
  have behind : lastRead before (head :: (body ++ last :: more)) = lastRead (some last) more := by
    rw [lastRead, List.foldl_cons, List.foldl_append]
    rfl
  rw [Fine, Ends, List.foldl_cons, List.foldl_append, inside, foldl_next longer, List.foldl_cons, outside, behind,
    entriesFrom_entry word longer ends, List.forall_mem_cons, and_left_comm]
  rfl

/-- The first line of one byte, if there is one. -/
theorem exists_end (lines : List (List UInt8)) : (∀ line ∈ lines, line.length ≠ 1) ∨
    ∃ body last more, lines = body ++ last :: more ∧ (∀ line ∈ body, line.length ≠ 1) ∧ last.length = 1 := by
  cases found : lines.find? fun line => line.length = 1 with
  | none =>
    left
    intro line member
    simpa using List.find?_eq_none.mp found line member
  | some last =>
    obtain ⟨ends, body, more, split, longer⟩ := List.find?_eq_some_iff_append.mp found
    exact .inr ⟨body, last, more, split, fun line member => by simpa using longer line member, by simpa using ends⟩

/-! ## Any file -/

/-- What becomes of the main loop with these lines left. -/
inductive Outcome (fresh : LineBuffer → LineBuffer) (before : LineBuffer) (input : Stream)
    (lines : List (List UInt8)) : Prop where
  | ends (fine : Fine (LeavesEmpty fresh) before lines) (records : List Dictrec)
      (holds : List.Forall₂ Holds (entriesFrom none lines) records)
      (settles : Settles Inside (mainLoop fresh input before) (records.flatMap Dictrec.write))
  | stops (tame : Fine (LeavesNoWord fresh) before lines) (bad : ¬ Fine (LeavesEmpty fresh) before lines)
      (stopped : Stops Inside (mainLoop fresh input before))
  | breaks (wild : ¬ Fine (LeavesNoWord fresh) before lines) (broken : Breaks Inside (mainLoop fresh input before))

theorem Fine.mono {Q' : LineBuffer → Prop} (weaker : ∀ buffer, Q buffer → Q' buffer) (fine : Fine Q before lines) :
    Fine Q' before lines := ⟨fine.1.imp_right fun last open' => weaker _ (last open'), fine.2⟩

theorem fine_nil_iff : Fine Q before [] ↔ (Unended before → Q before) := by
  constructor
  · exact fun fine => fine.1.2
  · exact fun last => ⟨⟨rfl, last⟩, nofun⟩

theorem Unended.iff (here : input.Behind (before.getD [newline]) lines) : Unended before ↔ input.eof = false := by
  rw [← Bool.not_eq_true, here.eof_iff, not_not]
  cases before with
  | none => exact iff_of_true nofun rfl
  | some line => simp [Unended]

/-- What is left in the buffer at the end of the file is taken for a word. -/
theorem outcome_nil (here : input.Behind (before.getD [newline]) []) : Outcome fresh before input [] := by
  cases early : input.eof with
  | true =>
    have ended : ¬ Unended before := by
      rw [Unended.iff here, early]
      exact Bool.noConfusion
    exact .ends (fine_nil_iff.mpr fun unended => absurd unended ended) [] .nil (mainLoop_eof early _)
  | false =>
    have unended : Unended before := (Unended.iff here).mpr early
    have got := here.getline_end fresh before
    cases left : fresh before with
    | none =>
      rw [left] at got
      refine .stops (fine_nil_iff.mpr fun _ line same => ?_) (fun fine => ?_) (stops_mainLoop early got)
      · cases left.symm.trans same
      · obtain ⟨line, same, -⟩ := fine_nil_iff.mp fine unended
        cases left.symm.trans same
    | some line =>
      rw [left] at got
      by_cases empty : cstr line = []
      · refine .ends (fine_nil_iff.mpr fun _ => ⟨line, left, empty⟩) [] .nil ?_
        exact .of_succ rfl (mainLoop_skip early got empty) (mainLoop_eof rfl _)
      · refine .breaks (fun tame => empty (fine_nil_iff.mp tame unended line left)) ?_
        rcases mainLoop_word early got empty with ⟨-, buffer, word, -, breaks, -⟩ | ⟨-, broken⟩
        · exact breaks (breaks_convertDefinition_end rfl buffer _)
        · exact broken

theorem outcome_skip (here : input.Behind (before.getD [newline]) (head :: lines)) (empty : cstr head = [])
    (rest : ∀ stream : Stream, stream.Behind head lines → Outcome fresh (some head) stream lines) :
    Outcome fresh before input (head :: lines) := by
  obtain ⟨early, -, stream, behind, got⟩ := here.getline_next
  have unfold := mainLoop_skip early (got fresh before) empty
  have same : entriesFrom none (head :: lines) = entriesFrom none lines := by rw [entriesFrom, if_pos empty]
  cases rest stream behind with
  | ends fine records holds settles =>
    exact .ends ((fine_skip empty).mpr fine) records (same ▸ holds) (.of_succ rfl unfold settles)
  | stops tame bad stopped =>
    exact .stops ((fine_skip empty).mpr tame) (mt (fine_skip empty).mp bad) (.of_succ rfl unfold stopped)
  | breaks wild broken => exact .breaks (mt (fine_skip empty).mp wild) (.of_succ unfold broken)

/-- The last definition is not ended. -/
theorem outcome_open (here : input.Behind (before.getD [newline]) (head :: lines)) (nonempty : cstr head ≠ [])
    (longer : ∀ line ∈ lines, line.length ≠ 1) : Outcome fresh before input (head :: lines) := by
  obtain ⟨early, -, stream, behind, got⟩ := here.getline_next
  refine .breaks (not_fine_open nonempty longer) ?_
  rcases mainLoop_word early (got fresh before) nonempty with ⟨-, buffer, word, -, breaks, -⟩ | ⟨-, broken⟩
  · exact breaks (breaks_convertDefinition longer behind buffer _)
  · exact broken

theorem string_blank : (Field.init textSize []).string = [] := by
  rw [Field.string_init (by decide) List.not_mem_nil]

theorem outcome_entry {last : List UInt8} (here : input.Behind (before.getD [newline]) (head :: (body ++ last :: more)))
    (nonempty : cstr head ≠ []) (longer : ∀ line ∈ body, line.length ≠ 1) (ends : last.length = 1)
    (rest : ∀ stream : Stream, stream.Behind last more → Outcome fresh (some last) stream more) :
    Outcome fresh before input (head :: (body ++ last :: more)) := by
  obtain ⟨early, -, stream, behind, got⟩ := here.getline_next
  have same : entriesFrom none (head :: (body ++ last :: more)) = ⟨head, body⟩ :: entriesFrom none more :=
    entriesFrom_entry nonempty longer ends
  have fine_iff (Q : LineBuffer → Prop) : Fine Q before (head :: (body ++ last :: more)) ↔
      (⟨head, body⟩ : Block).Fits ∧ Fine Q (some last) more := fine_entry nonempty longer ends
  have short : (Field.init textSize []).string.length < textSize := by
    rw [string_blank]
    decide
  rcases mainLoop_word early (got fresh before) nonempty with
    ⟨fits, buffer, word, string, breaks, goes⟩ | ⟨long, broken⟩
  · rcases convertDefinition_lines longer ends behind buffer (Field.init textSize []) short with
      ⟨room, after, text, left, all, defined⟩ | ⟨full, broken⟩
    · rw [string_blank] at room all
      obtain ⟨broken, stopped, settles⟩ := goes after _ text defined
      cases rest after left with
      | ends fine records holds done =>
        refine .ends ((fine_iff _).mpr ⟨⟨fits, room⟩, fine⟩) (⟨word, text⟩ :: records) ?_ (settles _ done)
        rw [same]
        exact .cons ⟨string, all⟩ holds
      | stops tame bad here =>
        exact .stops ((fine_iff _).mpr ⟨⟨fits, room⟩, tame⟩) (fun fine => bad ((fine_iff _).mp fine).2) (stopped here)
      | breaks wild here => exact .breaks (fun tame => wild ((fine_iff _).mp tame).2) (broken here)
    · rw [string_blank] at full
      exact .breaks (fun tame => full ((fine_iff _).mp tame).1.2) (breaks broken)
  · exact .breaks (fun tame => long ((fine_iff _).mp tame).1.1) broken

/-- The main loop where a word is to be read. -/
theorem mainLoop_lines (bound : ℕ) (enough : lines.length ≤ bound)
    (here : input.Behind (before.getD [newline]) lines) : Outcome fresh before input lines := by
  induction bound generalizing lines before input with
  | zero =>
    obtain rfl := List.eq_nil_of_length_eq_zero (Nat.le_zero.mp enough)
    exact outcome_nil here
  | succ bound ih =>
    cases lines with
    | nil => exact outcome_nil here
    | cons head lines =>
      have fewer : lines.length ≤ bound := Nat.le_of_succ_le_succ enough
      by_cases empty : cstr head = []
      · exact outcome_skip here empty fun stream behind => ih fewer behind
      · rcases exists_end lines with longer | ⟨body, last, more, rfl, longer, ends⟩
        · exact outcome_open here empty longer
        · refine outcome_entry here empty longer ends fun stream behind => ih ?_ behind
          rw [List.length_append, List.length_cons] at fewer
          omega

theorem outcome_file (fresh : LineBuffer → LineBuffer) (file : List UInt8) :
    Outcome fresh none ⟨file, false⟩ (fullLines file) :=
  mainLoop_lines _ (Nat.le_refl _) (Stream.behind_open file)

section

variable {file : List UInt8}

theorem converts_eq : (fun fuel => Dictionary.convert fresh id fuel ⟨file, false⟩ none) =
    fun fuel => (mainLoop fresh ⟨file, false⟩ none fuel).result :=
  funext fun fuel => (result_convert fuel _ _).symm

/-- The records that are written hold the entries. -/
theorem exists_records (fine : Fine (LeavesEmpty fresh) none (fullLines file)) : ∃ records,
    List.Forall₂ Holds (entries file) records ∧
      Converges (fun fuel => Dictionary.convert fresh id fuel ⟨file, false⟩ none) (records.flatMap Dictrec.write) := by
  rw [converts_eq]
  cases outcome_file fresh file with
  | ends _ records holds settles => exact ⟨records, holds, settles.converges⟩
  | stops _ bad _ => exact absurd fine bad
  | breaks wild _ => exact absurd (fine.mono fun _ => LeavesEmpty.leavesNoWord) wild

theorem not_converts (bad : ¬ Fine (LeavesEmpty fresh) none (fullLines file)) : ¬ Converts fresh file := by
  rintro ⟨records, -, done⟩
  rw [converts_eq] at done
  cases outcome_file fresh file with
  | ends fine _ _ _ => exact bad fine
  | stops _ _ stopped => exact stopped.not_converges _ done
  | breaks _ broken => exact broken.not_converges _ done

theorem not_inside (wild : ¬ Fine (LeavesNoWord fresh) none (fullLines file)) :
    ¬ ∀ fuel, (Writes.convert fresh id fuel ⟨file, false⟩ none).Always Inside := by
  cases outcome_file fresh file with
  | ends fine _ _ _ => exact absurd (fine.mono fun _ => LeavesEmpty.leavesNoWord) wild
  | stops tame _ _ => exact absurd tame wild
  | breaks _ broken => exact broken.not_always

/-- `convert` ends with one record for each entry exactly when the file ends where the loops end and the entries
fit. -/
theorem converts_iff (fresh : LineBuffer → LineBuffer) (file : List UInt8) :
    Converts fresh file ↔ Fine (LeavesEmpty fresh) none (fullLines file) := by
  constructor
  · intro done
    by_contra bad
    exact not_converts bad done
  · intro fine
    obtain ⟨records, holds, done⟩ := exists_records fine
    exact ⟨records, holds.length_eq.symm, done⟩

/-- Every write stays inside its field and the buffer exactly when the file ends where the loops end or a null
pointer stops them, and the entries fit. -/
theorem inside_iff (fresh : LineBuffer → LineBuffer) (file : List UInt8) :
    (∀ fuel, (Writes.convert fresh id fuel ⟨file, false⟩ none).Always Inside) ↔
      Fine (LeavesNoWord fresh) none (fullLines file) := by
  constructor
  · intro all
    by_contra wild
    exact not_inside wild all
  · intro tame fuel
    cases outcome_file fresh file with
    | ends _ _ _ settles => exact settles.always fuel
    | stops _ _ stopped => exact (stopped fuel).1
    | breaks wild _ => exact absurd tame wild

end

/-- "a" and its definition "b", without a blank line behind them. -/
theorem not_converts_open : ¬ Converts (fun _ => some []) [97, 10, 98, 10] :=
  not_converts fun fine => absurd fine.1.1 (by decide)

/-- A word of 40 bytes, in a file that ends where the loops end. -/
theorem not_inside_long : ¬ ∀ fuel,
    (Writes.convert (fun _ => some []) id fuel ⟨List.replicate 40 97 ++ [10, 98], false⟩ none).Always Inside :=
  not_inside fun tame => absurd (tame.2 ⟨List.replicate 40 97 ++ [10], []⟩ (by decide)) (by decide)

end

end SystemProgramming.Dictionary.AnyFile
