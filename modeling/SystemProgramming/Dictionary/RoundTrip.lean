import SystemProgramming.Dictionary.Convert

/-! # Looking up what `convert` has written

The search reads one record per line and finds the first one whose headword is the word sought. The
pointer that passes the NULs behind the headword is advanced once more before the copy, so the text comes
back without its first byte.
-/

namespace SystemProgramming.Dictionary

open Lib

/-! ## One record -/

section

variable (entry : Entry) (atEnd : LineBuffer → LineBuffer)

/-- The bytes of a record line up to its newline. -/
def Entry.line : List UInt8 :=
  entry.word ++ space :: (List.replicate (31 - entry.word.length) 0 ++
    (entry.text ++ List.replicate (480 - entry.text.length) 0))

theorem write_record : entry.record.write = entry.line ++ [newline] := by
  have short := entry.word_fits
  have fits : entry.text.length ≤ textSize := entry.text_fits.trans (by decide)
  have named : (entry.word ++ [space]).length ≤ wordSize := by
    simp only [wordSize, List.length_append, List.length_singleton]
    omega
  have room : wordSize - (entry.word ++ [space]).length = 31 - entry.word.length := by
    simp only [wordSize, List.length_append, List.length_singleton]
    omega
  rw [Dictrec.write, Entry.record, Field.init_bytes named, Field.init_bytes fits, room]
  simp [Entry.line, textSize]

theorem newline_not_mem_line : newline ∉ entry.line := by
  have noSpace : newline ≠ space := by decide
  have noZero : newline ≠ 0 := by decide
  simp [Entry.line, entry.newline_not_mem_word, entry.newline_not_mem_text, noSpace, noZero]

/-- The line with the end of the headword marked. -/
def Entry.marked : List UInt8 :=
  entry.word ++ 0 :: (List.replicate (31 - entry.word.length) 0 ++
    (entry.text ++ (List.replicate (480 - entry.text.length) 0 ++ [newline])))

theorem strtok_line : strtok (entry.line ++ [newline]) = some (0, entry.marked) := by
  have proper := entry.zero_not_mem_word
  have short := entry.word_fits
  obtain ⟨room, more⟩ : ∃ room, 31 - entry.word.length = room + 1 :=
    ⟨30 - entry.word.length, by omega⟩
  have noSpace (byte : UInt8) (inside : byte ∈ entry.word) : (byte != space) = true := by
    simpa using (entry.word_bytes byte inside).2.2
  have start : (entry.line ++ [newline]).takeWhile (· == space) = [] := by
    obtain ⟨first, word, split⟩ := List.exists_cons_of_ne_nil entry.word_ne_nil
    have apart := (entry.word_bytes first (by simp [split])).2.2
    simp [Entry.line, split, apart]
  have head : cstr (entry.line ++ [newline]) = entry.word ++ [space] := by
    rw [Entry.line, List.append_assoc, cstr_append proper, more, List.replicate_succ]
    simp [cstr, space]
  have token : (entry.word ++ [space]).takeWhile (· != space) = entry.word := by
    rw [List.takeWhile_append_of_pos noSpace, List.takeWhile_cons_of_neg (by simp), List.append_nil]
  simp only [strtok, start, List.length_nil, List.drop_zero, head, token, entry.word_ne_nil, if_false,
    Nat.zero_add]
  simp [Entry.line, Entry.marked]

/-- The pointer stops at the first byte of the text, or at the newline if the text is empty. -/
theorem dropWhile_marked : ∃ first behind,
    (entry.marked.drop entry.word.length).dropWhile (· == 0) = first :: behind ∧
      cstr behind = entry.text.tail := by
  have fits : entry.text.length ≤ 479 := entry.text_fits
  have zeros (n : ℕ) (rest : List UInt8) :
      (List.replicate n 0 ++ rest).dropWhile (· == 0) = rest.dropWhile (· == 0) :=
    List.dropWhile_append_of_pos fun byte inside => by simp [List.eq_of_mem_replicate inside]
  rw [Entry.marked, List.drop_left, List.dropWhile_cons_of_pos (by simp), zeros]
  cases text : entry.text with
  | nil =>
    refine ⟨newline, [], ?_, rfl⟩
    rw [List.nil_append, zeros]
    rfl
  | cons first behind =>
    have apart : first ≠ 0 := by
      rintro rfl
      exact entry.zero_not_mem_text (by simp [text])
    have proper : 0 ∉ behind := fun inside => entry.zero_not_mem_text (by simp [text, inside])
    rw [text] at fits
    obtain ⟨room, more⟩ : ∃ room, 480 - (first :: behind).length = room + 1 :=
      ⟨479 - (first :: behind).length, by omega⟩
    refine ⟨first, _, List.dropWhile_cons_of_neg (by simpa using apart), ?_⟩
    rw [more, List.replicate_succ, List.cons_append]
    exact cstr_append_zero proper

/-- The text that is copied for a record with the word sought. -/
theorem compareLine_line (sought : Dictrec) : compareLine (entry.line ++ [newline]) sought =
    if entry.word = sought.word.string then
      (sought.text.strcpy entry.text.tail).map fun text => some { sought with text := text }
    else some none := by
  have word : cstr entry.marked = entry.word := cstr_append_zero entry.zero_not_mem_word
  obtain ⟨first, behind, stops, string⟩ := dropWhile_marked entry
  rw [compareLine, strtok_line, Option.bind_eq_bind, Option.bind_some]
  simp only [List.drop_zero, word, stops, string]

/-- What the search makes of the first record. -/
theorem search_record (rest : List UInt8) (sought : Dictrec) (fuel : ℕ) :
    search atEnd (fuel + 1) ⟨entry.record.write ++ rest, false⟩ sought =
      if entry.word = sought.word.string then
        (sought.text.strcpy entry.text.tail).map fun text => (.found, { sought with text := text })
      else search atEnd fuel ⟨rest, false⟩ sought := by
  have got := getline_append rest atEnd none (newline_not_mem_line entry)
  have split : entry.record.write ++ rest = entry.line ++ newline :: rest := by
    simp [write_record]
  rw [split, search, got]
  simp only [Bool.false_eq_true, if_false, reduceCtorEq, Option.bind_eq_bind, Option.bind_some,
    compareLine_line]
  split_ifs with same
  · cases sought.text.strcpy entry.text.tail <;> rfl
  · rfl

end

/-! ## The file -/

/-- The answer of the search: the text of the first record with the word, without its first byte. -/
def answer (entries : List Entry) (sought : Dictrec) : Option (Result × Dictrec) :=
  match entries.find? (·.word = sought.word.string) with
  | some entry =>
    (sought.text.strcpy entry.text.tail).map fun text => (.found, { sought with text := text })
  | none => some (.notFound, sought)

theorem search_records (atEnd : LineBuffer → LineBuffer) (entries : List Entry) (sought : Dictrec)
    (fuel : ℕ) : search atEnd (fuel + entries.length + 2) ⟨recordsFile entries, false⟩ sought =
      answer entries sought := by
  induction entries with
  | nil => rfl
  | cons entry entries ih =>
    have split : recordsFile (entry :: entries) = entry.record.write ++ recordsFile entries :=
      List.flatMap_cons
    have next : fuel + (entry :: entries).length + 2 = (fuel + entries.length + 2) + 1 := by
      simp only [List.length_cons]
      omega
    rw [split, next, search_record, answer, List.find?_cons]
    split_ifs with same
    · simp [same]
    · simp [same, ih, answer]

theorem exists_answer (entries : List Entry) (sought : Dictrec) :
    ∃ result, answer entries sought = some result := by
  rw [answer]
  split
  · next entry _ =>
    have fits := entry.text_fits
    have room : entry.text.tail.length < textSize := by
      unfold Entry.text textSize
      rw [List.length_tail]
      omega
    obtain ⟨text, copied⟩ := sought.text.exists_strcpy room
    exact ⟨_, by rw [copied, Option.map_some]⟩
  · exact ⟨_, rfl⟩

/-- `lookup` on the file of records. -/
theorem converges_lookup_iff (atEnd : LineBuffer → LineBuffer) (entries : List Entry) (sought : Dictrec)
    (result : Result × Dictrec) :
    Converges (lookup atEnd (some (recordsFile entries)) sought) result ↔
      some result = if sought.word.string.length = 1 then some (.unavail, sought)
        else answer entries sought := by
  obtain ⟨value, there⟩ := exists_answer entries sought
  have gives : Converges (lookup atEnd (some (recordsFile entries)) sought)
      (if sought.word.string.length = 1 then (.unavail, sought) else value) := by
    refine ⟨entries.length + 2, fun fuel enough => ?_⟩
    obtain ⟨more, rfl⟩ : ∃ more, fuel = more + entries.length + 2 :=
      ⟨fuel - (entries.length + 2), by omega⟩
    rw [lookup]
    split_ifs
    · rfl
    · rw [Option.bind_eq_bind, Option.bind_some, search_records, there]
  have same : (if sought.word.string.length = 1 then some (.unavail, sought)
      else answer entries sought) =
        some (if sought.word.string.length = 1 then (.unavail, sought) else value) := by
    rw [there]
    split_ifs <;> rfl
  rw [same, Option.some.injEq]
  constructor
  · exact fun other => other.unique gives
  · rintro rfl
    exact gives

/-! ## The round trip -/

/-- The result a lookup should have: the whole text of the first entry with the word sought. -/
def Answers (entries : List Entry) (sought : Dictrec) (result : Result × Dictrec) : Prop :=
  match entries.find? (·.word = sought.word.string) with
  | some entry => result.1 = .found ∧ result.2.text.string = entry.text
  | none => result.1 = .notFound

/-- `convert` ends, and looking the word up in the file it has written gives the text of the entry. -/
def RoundTrip (fresh kept atEnd : LineBuffer → LineBuffer) (entries : List Entry) (sought : Dictrec) : Prop :=
  ∃ file result, Converges (fun fuel => convert fresh kept fuel ⟨source entries, false⟩ none) file ∧
    Converges (lookup atEnd (some file) sought) result ∧ Answers entries sought result

theorem answers_iff {entries : List Entry} {sought : Dictrec} {result : Result × Dictrec}
    (found : some result = if sought.word.string.length = 1 then some (.unavail, sought)
      else answer entries sought) :
    Answers entries sought result ↔ sought.word.string.length ≠ 1 ∧
      ∀ entry, entries.find? (·.word = sought.word.string) = some entry → entry.text = [] := by
  split_ifs at found with single
  · cases found
    simp only [Answers, single, ne_eq, not_true_eq_false, false_and, iff_false]
    split <;> simp
  · rw [answer] at found
    rw [Answers]
    split at found
    · next entry first =>
      obtain ⟨text, copied, rfl⟩ := Option.map_eq_some_iff.mp found.symm
      have proper : 0 ∉ entry.text.tail := fun inside => entry.zero_not_mem_text (List.mem_of_mem_tail inside)
      simp only [first, Field.string_of_strcpy proper copied, true_and, ne_eq, single, not_false_eq_true,
        Option.some.injEq, forall_eq']
      cases entry.text <;> simp
    · next absent =>
      cases found
      simp [absent, single]

/-- Exactly the definitions without text survive the round trip. -/
theorem roundTrip_iff (fresh kept atEnd : LineBuffer → LineBuffer) (entries : List Entry)
    (sought : Dictrec) : RoundTrip fresh kept atEnd entries sought ↔
      LeavesEmpty fresh (lastLine entries none) ∧ sought.word.string.length ≠ 1 ∧
        ∀ entry, entries.find? (·.word = sought.word.string) = some entry → entry.text = [] := by
  constructor
  · rintro ⟨file, result, converted, looked, answers⟩
    obtain ⟨empty, rfl⟩ := (converges_convert_iff fresh kept entries file).mp converted
    have found := (converges_lookup_iff atEnd entries sought result).mp looked
    exact ⟨empty, (answers_iff found).mp answers⟩
  · rintro ⟨empty, spared⟩
    obtain ⟨value, there⟩ := exists_answer entries sought
    have found : some value = if sought.word.string.length = 1 then some (.unavail, sought)
        else answer entries sought := by
      rw [if_neg spared.1, there]
    refine ⟨recordsFile entries, value, ?_, ?_, ?_⟩
    · exact (converges_convert_iff fresh kept entries _).mpr ⟨empty, rfl⟩
    · exact (converges_lookup_iff atEnd entries sought value).mpr found
    · exact (answers_iff found).mpr spared

/-- The word `ab` with the definition `x`. -/
def shortEntry : Entry where
  word := [97, 98]
  lines := [[120]]
  word_ne_nil := by decide
  word_fits := by decide
  word_bytes := by simp [newline, space]
  lines_ne_nil := by decide
  lines_bytes := by decide
  text_fits := by decide

/-- The definition of one byte comes back empty. -/
theorem not_roundTrip_shortEntry : ¬ RoundTrip (fun _ => some []) id (fun _ => some []) [shortEntry]
    ⟨Field.init wordSize [97, 98], Field.init textSize []⟩ := by
  rintro ⟨file, result, converted, looked, answers⟩
  obtain ⟨-, rfl⟩ := (converges_convert_iff _ _ _ file).mp converted
  have found := (converges_lookup_iff _ _ _ result).mp looked
  obtain ⟨-, spared⟩ := (answers_iff found).mp answers
  have empty : shortEntry.text = [] := spared shortEntry (List.find?_cons_of_pos (by decide))
  exact absurd empty (by decide)

end SystemProgramming.Dictionary
