import SystemProgramming.Dictionary.RoundTrip
import SystemProgramming.Dictionary.Lookup5

/-! # Two versions of `lookup` on one file

The records that `convert` writes are one byte longer than those `lookup5` maps, and their word field ends with
a space. So the array has three records: the first headword with its space, the newline behind the first record
and the second headword with its space, and an empty one.
-/

namespace SystemProgramming.Dictionary.Lookup5

open Lib

/-! ## The mapping -/

/-- The file with the zeros behind it. -/
def extended (file : List UInt8) : List UInt8 := file ++ List.replicate mapSize 0

section

variable {file string more : List UInt8} (behind : List Dictrec) {i : ℕ}

/-- Inside the mapping the file is as it was. -/
theorem exists_drop_memory (there : (extended file).drop (i * recordSize) = string ++ 0 :: more)
    (room : i * recordSize + string.length < mapSize) :
    ∃ rest, (memory file behind).drop (i * recordSize) = string ++ 0 :: rest := by
  obtain ⟨left, split⟩ : ∃ left, mapSize - i * recordSize - string.length = left + 1 :=
    ⟨mapSize - i * recordSize - string.length - 1, by omega⟩
  have mapped : (Field.init mapSize file).bytes.drop (i * recordSize) = string ++ 0 :: more.take left := by
    rw [Field.init, List.drop_take]
    change ((extended file).drop (i * recordSize)).take _ = _
    rw [there, List.take_append, List.take_of_length_le (by omega), split, List.take_succ_cons]
  have short : i * recordSize ≤ (Field.init mapSize file).bytes.length := by
    rw [Field.size_eq]
    omega
  refine ⟨more.take left ++ behind.flatMap Dictrec.bytes, ?_⟩
  rw [memory, List.drop_append_of_le_length short, mapped, List.append_assoc, List.cons_append]

theorem wordAt_memory (there : (extended file).drop (i * recordSize) = string ++ 0 :: more)
    (room : i * recordSize + string.length < mapSize) (proper : 0 ∉ string) :
    wordAt (memory file behind) i = string := by
  obtain ⟨rest, mapped⟩ := exists_drop_memory behind there room
  rw [wordAt, mapped, cstr_append_zero proper]

/-- A record ends the array when its word is empty. -/
theorem ends_iff (there : (extended file).drop (i * recordSize) = string ++ 0 :: more)
    (room : i * recordSize + string.length < mapSize) (proper : 0 ∉ string) :
    (memory file behind)[i * recordSize]? = some 0 ↔ string = [] := by
  obtain ⟨rest, mapped⟩ := exists_drop_memory behind there room
  rw [← List.head?_drop, mapped]
  cases string with
  | nil => simp
  | cons byte string =>
    have : byte ≠ 0 := fun zero => proper (by simp [zero])
    simp [this]

end

theorem lookup_found_iff (table : Table) (sought : Dictrec) :
    (lookup table sought).1 = .found ↔ ∃ i < table.len, sought.word.string = wordAt table.memory i := by
  rw [lookup]
  split
  · next i found =>
    have here := List.find?_some found
    have inside := List.mem_of_find?_eq_some found
    simp only [true_iff]
    exact ⟨i, List.mem_range.mp inside, by simpa using here⟩
  · next absent =>
    simp only [List.find?_eq_none, List.mem_range, decide_eq_true_eq] at absent
    simp only [reduceCtorEq, false_iff, not_exists, not_and]
    exact absent

/-! ## The file of records in the mapping -/

theorem line_length (entry : Entry) : entry.line.length = recordSize := by
  have short := entry.word_fits
  have fits : entry.text.length ≤ 479 := entry.text_fits
  simp only [Entry.line, List.length_append, List.length_cons, List.length_replicate, recordSize, wordSize, textSize]
  omega

/-- A record begins with its headword and a space and ends with a NUL. -/
theorem exists_line_eq (entry : Entry) : ∃ middle, entry.line = entry.word ++ [space] ++ 0 :: (middle ++ [0]) := by
  have short := entry.word_fits
  have fits : entry.text.length ≤ 479 := entry.text_fits
  have room : 31 - entry.word.length = (30 - entry.word.length) + 1 := by omega
  have more : 480 - entry.text.length = (479 - entry.text.length) + 1 := by omega
  refine ⟨List.replicate (30 - entry.word.length) 0 ++
    (entry.text ++ List.replicate (479 - entry.text.length) 0), ?_⟩
  rw [Entry.line, room, more, List.replicate_succ, List.replicate_succ']
  simp

/-- The word field at the start of the file. -/
def firstWord : List Entry → List UInt8
  | [] => []
  | entry :: _ => entry.word ++ [space]

theorem zero_not_mem_firstWord (entries : List Entry) : 0 ∉ firstWord entries := by
  cases entries with
  | nil => exact List.not_mem_nil
  | cons entry entries => exact entry.zero_not_mem_headed

theorem firstWord_length (entries : List Entry) : (firstWord entries).length ≤ 31 := by
  cases entries with
  | nil => simp [firstWord]
  | cons entry entries =>
    have := entry.word_fits
    simp only [firstWord, List.length_append, List.length_singleton]
    omega

theorem extended_cons (entry : Entry) (entries : List Entry) :
    extended (recordsFile (entry :: entries)) = entry.line ++ newline :: extended (recordsFile entries) := by
  simp [extended, recordsFile, write_record]

theorem mapSize_pos : mapSize = (mapSize - 1) + 1 := by decide

theorem exists_extended_eq (entries : List Entry) :
    ∃ behind, extended (recordsFile entries) = firstWord entries ++ 0 :: behind := by
  cases entries with
  | nil => exact ⟨List.replicate (mapSize - 1) 0, by rw [extended, mapSize_pos, List.replicate_succ]; rfl⟩
  | cons entry entries =>
    obtain ⟨middle, line⟩ := exists_line_eq entry
    exact ⟨_, by rw [extended_cons, line, List.append_assoc, List.cons_append]; rfl⟩

/-- The last byte of the first record is a NUL. -/
theorem exists_drop_extended (entries : List Entry) :
    ∃ behind, (extended (recordsFile entries)).drop (recordSize - 1) = 0 :: behind := by
  cases entries with
  | nil =>
    have more : mapSize - (recordSize - 1) = (mapSize - recordSize) + 1 := by decide
    exact ⟨_, by rw [recordsFile, List.flatMap_nil, extended, List.nil_append, List.drop_replicate, more,
      List.replicate_succ]⟩
  | cons entry entries =>
    obtain ⟨middle, line⟩ := exists_line_eq entry
    have length := line_length entry
    have front : (entry.word ++ [space] ++ 0 :: middle).length = recordSize - 1 := by
      rw [line] at length
      simp only [List.length_append, List.length_cons, List.length_nil] at length ⊢
      omega
    refine ⟨newline :: extended (recordsFile entries), ?_⟩
    rw [extended_cons, line, ← front]
    have split : entry.word ++ [space] ++ 0 :: (middle ++ [0]) ++ newline :: extended (recordsFile entries) =
        entry.word ++ [space] ++ 0 :: middle ++ 0 :: newline :: extended (recordsFile entries) := by simp
    rw [split, List.drop_left]

/-- The first record of the array, and the second and third one if there is an entry. -/
theorem drop_zero (entries : List Entry) :
    ∃ behind, (extended (recordsFile entries)).drop (0 * recordSize) = firstWord entries ++ 0 :: behind := by
  obtain ⟨behind, file⟩ := exists_extended_eq entries
  exact ⟨behind, by rw [Nat.zero_mul, List.drop_zero, file]⟩

theorem drop_one (entry : Entry) (entries : List Entry) :
    ∃ behind, (extended (recordsFile (entry :: entries))).drop (1 * recordSize) =
      newline :: firstWord entries ++ 0 :: behind := by
  obtain ⟨behind, file⟩ := exists_extended_eq entries
  refine ⟨behind, ?_⟩
  rw [Nat.one_mul, extended_cons, List.drop_left' (line_length entry), file, List.cons_append]

theorem drop_two (entry : Entry) (entries : List Entry) :
    ∃ behind, (extended (recordsFile (entry :: entries))).drop (2 * recordSize) = [] ++ 0 :: behind := by
  obtain ⟨behind, file⟩ := exists_drop_extended entries
  refine ⟨behind, ?_⟩
  have split : 2 * recordSize = recordSize + ((recordSize - 1) + 1) := by decide
  rw [extended_cons, split, ← List.drop_drop, List.drop_left' (line_length entry), List.drop_succ_cons, file,
    List.nil_append]

section

variable (behind : List Dictrec)

theorem initDictTable_nil : ∃ table, initDictTable (recordsFile []) behind = some table ∧
    ∀ word, (∃ i < table.len, word = wordAt table.memory i) ↔ word = [] := by
  obtain ⟨more, here⟩ := drop_zero []
  have room : 0 * recordSize + (firstWord []).length < mapSize := by decide
  have word := wordAt_memory behind here room List.not_mem_nil
  have ends := (ends_iff behind here room List.not_mem_nil).mpr rfl
  refine ⟨_, initDictTable_eq_some.mpr ⟨0, inside_of_getElem? ends, ends, nofun, rfl⟩, fun w => ?_⟩
  constructor
  · rintro ⟨i, less, same⟩
    obtain rfl : i = 0 := Nat.lt_one_iff.mp less
    rw [same, word, firstWord]
  · rintro rfl
    exact ⟨0, Nat.one_pos, word.symm⟩

theorem initDictTable_cons (entry : Entry) (entries : List Entry) :
    ∃ table, initDictTable (recordsFile (entry :: entries)) behind = some table ∧
      ∀ word, (∃ i < table.len, word = wordAt table.memory i) ↔
        word = entry.word ++ [space] ∨ word = newline :: firstWord entries ∨ word = [] := by
  obtain ⟨_, zero⟩ := drop_zero (entry :: entries)
  obtain ⟨_, one⟩ := drop_one entry entries
  obtain ⟨_, two⟩ := drop_two entry entries
  have length := firstWord_length (entry :: entries)
  have length' := firstWord_length entries
  have size : mapSize = 16384 := by decide
  have record : recordSize = 512 := by decide
  have room : 0 * recordSize + (firstWord (entry :: entries)).length < mapSize := by omega
  have room' : 1 * recordSize + (newline :: firstWord entries).length < mapSize := by
    rw [List.length_cons]
    omega
  have proper : 0 ∉ newline :: firstWord entries := by
    simp [newline, zero_not_mem_firstWord]
  have word₀ := wordAt_memory behind zero room (zero_not_mem_firstWord _)
  have word₁ := wordAt_memory behind one room' proper
  have word₂ := wordAt_memory behind two (by decide) List.not_mem_nil
  have first := (ends_iff behind zero room (zero_not_mem_firstWord _)).not.mpr (by simp [firstWord])
  have second := (ends_iff behind one room' proper).not.mpr (by simp)
  have third := (ends_iff behind two (by decide) List.not_mem_nil).mpr rfl
  refine ⟨_, initDictTable_eq_some.mpr ⟨2, inside_of_getElem? third, third, fun j less => ?_, rfl⟩, fun w => ?_⟩
  · obtain rfl | rfl : j = 0 ∨ j = 1 := by omega
    · exact first
    · exact second
  · constructor
    · rintro ⟨i, less, same⟩
      simp only at less
      obtain rfl | rfl | rfl : i = 0 ∨ i = 1 ∨ i = 2 := by omega
      · exact .inl (same.trans word₀)
      · exact .inr (.inl (same.trans word₁))
      · exact .inr (.inr (same.trans word₂))
    · rintro (rfl | rfl | rfl)
      · exact ⟨0, show 0 < 3 by decide, word₀.symm⟩
      · exact ⟨1, show 1 < 3 by decide, word₁.symm⟩
      · exact ⟨2, show 2 < 3 by decide, word₂.symm⟩

end

/-! ## The two versions -/

/-- `convert` ends, `my_connect` maps its file, and both versions of `lookup` come to the same result. -/
def Agrees (fresh kept atEnd : LineBuffer → LineBuffer) (behind : List Dictrec) (entries : List Entry)
    (sought : Dictrec) : Prop :=
  ∃ file table result, Converges (fun fuel => convert fresh kept fuel ⟨source entries, false⟩ none) file ∧
    initDictTable file behind = some table ∧ Converges (Dictionary.lookup atEnd (some file) sought) result ∧
    (lookup table sought).1 = result.1

/-- The word is none of the text. -/
def Absent (entries : List Entry) (word : List UInt8) : Prop := ∀ entry ∈ entries, word ≠ entry.word

/-- The word is neither the first headword with a space behind it nor the second one between a newline and a
space. -/
def Unmapped (entries : List Entry) (word : List UInt8) : Prop :=
  (∀ entry ∈ entries[0]?, word ≠ entry.word ++ [space]) ∧
    ∀ entry ∈ entries[1]?, word ≠ newline :: (entry.word ++ [space])

section

variable {behind : List Dictrec} {entries : List Entry} {sought : Dictrec}

theorem exists_table (behind : List Dictrec) (entries : List Entry) (sought : Dictrec)
    (two : 2 ≤ sought.word.string.length) :
    ∃ table, initDictTable (recordsFile entries) behind = some table ∧
      ((lookup table sought).1 = .found ↔ ¬ Unmapped entries sought.word.string) := by
  have nonempty : sought.word.string ≠ [] := by
    intro empty
    simp [empty] at two
  cases entries with
  | nil =>
    obtain ⟨table, loaded, words⟩ := initDictTable_nil behind
    refine ⟨table, loaded, ?_⟩
    rw [lookup_found_iff, words]
    simp [Unmapped, nonempty]
  | cons entry entries =>
    obtain ⟨table, loaded, words⟩ := initDictTable_cons behind entry entries
    refine ⟨table, loaded, ?_⟩
    rw [lookup_found_iff, words]
    cases entries with
    | nil =>
      have short : sought.word.string ≠ [newline] := by
        intro single
        simp [single] at two
      simp [Unmapped, firstWord, nonempty, short]
    | cons second entries => simp [Unmapped, firstWord, nonempty, or_iff_not_imp_left]

theorem lookup_ne_unavail (table : Table) (sought : Dictrec) : (lookup table sought).1 ≠ .unavail := by
  rw [lookup]
  split <;> simp

theorem answer_found_iff {result : Result × Dictrec} (answered : answer entries sought = some result) :
    (result.1 = .found ↔ ¬ Absent entries sought.word.string) ∧ result.1 ≠ .unavail := by
  rw [answer] at answered
  split at answered
  · next entry first =>
    obtain ⟨text, -, rfl⟩ := Option.map_eq_some_iff.mp answered
    have same : entry.word = sought.word.string := by simpa using List.find?_some first
    simp only [true_iff, ne_eq, reduceCtorEq, not_false_eq_true, and_true]
    exact fun absent => absent entry (List.mem_of_find?_eq_some first) same.symm
  · next absent =>
    cases answered
    simp only [List.find?_eq_none, decide_eq_true_eq] at absent
    simp only [reduceCtorEq, false_iff, not_not, ne_eq, not_false_eq_true, and_true]
    exact fun entry member same => absent entry member same.symm

/-- A headword has no space, so no word is found by both. -/
theorem absent_or_unmapped (entries : List Entry) (word : List UInt8) :
    Absent entries word ∨ Unmapped entries word := by
  by_cases spaced : space ∈ word
  · left
    rintro entry member rfl
    exact (entry.word_bytes space spaced).2.2 rfl
  · right
    constructor <;> rintro entry - rfl <;> simp at spaced

theorem Result.eq_iff {a b : Result} (left : a ≠ .unavail) (right : b ≠ .unavail) :
    a = b ↔ (a = .found ↔ b = .found) := by
  cases a <;> cases b <;> simp_all

theorem fst_eq_iff {table : Table} {result : Result × Dictrec} (two : 2 ≤ sought.word.string.length)
    (loaded : initDictTable (recordsFile entries) behind = some table)
    (answered : answer entries sought = some result) :
    (lookup table sought).1 = result.1 ↔
      Absent entries sought.word.string ∧ Unmapped entries sought.word.string := by
  obtain ⟨other, also, mapped⟩ := exists_table behind entries sought two
  cases loaded.symm.trans also
  obtain ⟨headword, known⟩ := answer_found_iff answered
  rw [Result.eq_iff (lookup_ne_unavail table sought) known, mapped, headword, not_iff_not]
  rcases absent_or_unmapped entries sought.word.string with absent | unmapped
  · simp [absent]
  · simp [unmapped]

theorem Agrees.neither {fresh kept atEnd : LineBuffer → LineBuffer}
    (agrees : Agrees fresh kept atEnd behind entries sought) (two : 2 ≤ sought.word.string.length) :
    LeavesEmpty fresh (lastLine entries none) ∧
      Absent entries sought.word.string ∧ Unmapped entries sought.word.string := by
  obtain ⟨file, table, result, converted, loaded, looked, agree⟩ := agrees
  have several : sought.word.string.length ≠ 1 := by omega
  obtain ⟨empty, rfl⟩ := (converges_convert_iff fresh kept entries file).mp converted
  have answered := (converges_lookup_iff atEnd entries sought result).mp looked
  rw [if_neg several] at answered
  exact ⟨empty, (fst_eq_iff two loaded answered.symm).mp agree⟩

/-- For words of two bytes and more the versions agree exactly on those that neither finds. -/
theorem agrees_iff {fresh kept atEnd : LineBuffer → LineBuffer} (two : 2 ≤ sought.word.string.length) :
    Agrees fresh kept atEnd behind entries sought ↔ LeavesEmpty fresh (lastLine entries none) ∧
      Absent entries sought.word.string ∧ Unmapped entries sought.word.string := by
  constructor
  · exact fun agrees => agrees.neither two
  · rintro ⟨empty, neither⟩
    obtain ⟨result, answered⟩ := exists_answer entries sought
    obtain ⟨table, loaded, -⟩ := exists_table behind entries sought two
    have several : sought.word.string.length ≠ 1 := by omega
    refine ⟨recordsFile entries, table, result, ?_, loaded, ?_, (fst_eq_iff two loaded answered).mpr neither⟩
    · exact (converges_convert_iff fresh kept entries _).mpr ⟨empty, rfl⟩
    · rw [converges_lookup_iff, if_neg several, answered]

end

/-- The word `ab`. -/
def ab : Dictrec := ⟨Field.init wordSize [97, 98], Field.init textSize []⟩

theorem agrees_ab_iff : Agrees (fun _ => some []) id (fun _ => some []) [] [shortEntry] ab ↔
    LeavesEmpty (fun _ => some []) (lastLine [shortEntry] none) ∧
      Absent [shortEntry] ab.word.string ∧ Unmapped [shortEntry] ab.word.string :=
  agrees_iff (by decide)

/-- `lookup1` finds the word of the only entry, `lookup5` does not. -/
theorem not_agrees_ab : ¬ Agrees (fun _ => some []) id (fun _ => some []) [] [shortEntry] ab := by
  intro agrees
  obtain ⟨-, absent, -⟩ := agrees.neither (by decide)
  exact absent shortEntry List.mem_cons_self (by decide)

end SystemProgramming.Dictionary.Lookup5
