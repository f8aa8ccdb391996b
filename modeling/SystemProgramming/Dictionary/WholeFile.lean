import SystemProgramming.Dictionary.Mapped

/-! # Files of whole records in the mapping of lookup5

The memory from `dict_table` on is an array of records then: those of the file, as far as the mapping has room
for them, the zeros `ftruncate` has added, and what is mapped behind. The records of a dictionary have words, so
the first record with an empty word is behind them, and it is counted with them.
-/

namespace SystemProgramming.Dictionary.WholeFile

open Lib Lookup5

/-- A record whose word is a string that is not empty. -/
structure Record extends Dictrec where
  named : word.string ≠ []
  ends : 0 ∈ word.bytes

def fileOf (records : List Record) : List UInt8 := records.flatMap fun record => record.bytes

/-- What `lookup` is for: the text of the first record with the word. -/
def answer (records : List Record) (sought : Dictrec) : Result × Dictrec :=
  match records.find? fun record => sought.word.string = record.word.string with
  | some record => (.found, { sought with text := record.text })
  | none => (.notFound, sought)

/-- `my_connect` and the `lookup` behind it read inside the mapping, and `lookup` answers. -/
def Finds (behind : List Dictrec) (records : List Record) (sought : Dictrec) : Prop :=
  (Mapped.myConnect (fileOf records) behind).Always Mapped.Within ∧
    ∃ memory dictLen, (Mapped.myConnect (fileOf records) behind).result = some (memory, dictLen) ∧
      (Mapped.lookup memory dictLen sought).Always Mapped.Within ∧
      (Mapped.lookup memory dictLen sought).result = some (answer records sought)

/-! ## Memory that holds records -/

section

variable {all : List Dictrec} {rec : Dictrec} {word left right : List UInt8} {i : ℕ}

theorem drop_flatMap_bytes (all : List Dictrec) (i : ℕ) :
    (all.flatMap Dictrec.bytes).drop (i * recordSize) = (all.drop i).flatMap Dictrec.bytes := by
  induction i generalizing all with
  | zero => rw [Nat.zero_mul, List.drop_zero, List.drop_zero]
  | succ i ih =>
    cases all with
    | nil => simp
    | cons rec all =>
      rw [List.drop_succ_cons, ← ih, Nat.succ_mul, Nat.add_comm, ← List.drop_drop]
      congr 1
      exact List.drop_left' (length_bytes rec)

theorem take_flatMap_bytes (all : List Dictrec) (i : ℕ) :
    (all.flatMap Dictrec.bytes).take (i * recordSize) = (all.take i).flatMap Dictrec.bytes := by
  induction i generalizing all with
  | zero => rw [Nat.zero_mul, List.take_zero, List.take_zero, List.flatMap_nil]
  | succ i ih =>
    cases all with
    | nil => simp
    | cons rec all =>
      rw [List.take_succ_cons, List.flatMap_cons, List.flatMap_cons, Nat.succ_mul, Nat.add_comm, ← ih,
        ← length_bytes rec, List.take_length_add_append]

theorem drop_at (here : all[i]? = some rec) :
    (all.flatMap Dictrec.bytes).drop (i * recordSize) = rec.bytes ++ (all.drop (i + 1)).flatMap Dictrec.bytes := by
  obtain ⟨inside, same⟩ := List.getElem?_eq_some_iff.mp here
  rw [drop_flatMap_bytes, List.drop_eq_getElem_cons inside, same, List.flatMap_cons]

/-- A record with an empty word begins with a NUL. -/
theorem ends_at (here : all[i]? = some rec) :
    (all.flatMap Dictrec.bytes)[i * recordSize]? = some 0 ↔ rec.word.string = [] := by
  have size := rec.word.size_eq
  rw [← List.head?_drop, drop_at here, Dictrec.bytes, Field.string]
  cases bytes : rec.word.bytes with
  | nil =>
    rw [bytes] at size
    cases size
  | cons byte bytes => by_cases zero : byte = 0 <;> simp [cstr, zero]

/-- A string shorter than a buffer is read from the buffer alone. -/
theorem eq_cstr_append_iff (told : 0 ∈ left ∨ word.length < left.length) :
    word = cstr (left ++ right) ↔ word = cstr left := by
  by_cases ends : 0 ∈ left
  · obtain ⟨rest, whole⟩ := exists_cstr_append ends
    have same : cstr (left ++ right) = cstr left := by
      conv_lhs => rw [whole, List.append_assoc, List.cons_append]
      exact cstr_append_zero (not_mem_cstr left)
    rw [same]
  · have short := told.resolve_left ends
    rw [cstr_append ends, cstr_eq_self ends]
    constructor
    · rintro rfl
      rw [List.length_append] at short
      omega
    · rintro rfl
      exact absurd short (Nat.lt_irrefl _)

theorem eq_wordAt_iff (here : all[i]? = some rec) (told : 0 ∈ rec.word.bytes ∨ word.length < wordSize) :
    word = wordAt (all.flatMap Dictrec.bytes) i ↔ word = rec.word.string := by
  rw [wordAt, drop_at here, Dictrec.bytes, List.append_assoc]
  apply eq_cstr_append_iff
  rwa [rec.word.size_eq]

theorem textAt_eq (here : all[i]? = some rec) : textAt (all.flatMap Dictrec.bytes) i = rec.text := by
  have stored : ((all.flatMap Dictrec.bytes).drop (i * recordSize + wordSize)).take textSize = rec.text.bytes := by
    rw [← List.drop_drop, drop_at here, Dictrec.bytes, List.append_assoc, List.drop_left' rec.word.size_eq,
      List.take_left' rec.text.size_eq]
  rw [textAt, stored]
  exact Field.ext (List.take_left' rec.text.size_eq)

/-- The first record of the table with a word. -/
def first (table : Table) (word : List UInt8) : Option ℕ :=
  (List.range table.len).find? fun i => word = wordAt table.memory i

/-- The records of the memory up to the first one with an empty word. -/
def counted (all : List Dictrec) : Option (List Dictrec) :=
  (all.findIdx? fun rec => rec.word.string = []).map fun k => all.take (k + 1)

/-- The table of a memory that holds records. -/
structure Holds (table : Table) (records : List Dictrec) : Prop where
  len_eq : table.len = records.length
  starts : ∃ rest, table.memory = (records ++ rest).flatMap Dictrec.bytes

section

variable {table : Table} {records : List Dictrec}

theorem Holds.first_of_some (holds : Holds table records)
    (told : ∀ rec ∈ records, 0 ∈ rec.word.bytes ∨ word.length < wordSize)
    (there : records.find? (fun rec => word = rec.word.string) = some rec) :
    ∃ i, first table word = some i ∧ textAt table.memory i = rec.text := by
  obtain ⟨rest, memory⟩ := holds.starts
  have here {j : ℕ} (inside : j < records.length) : (records ++ rest)[j]? = some records[j] := by
    rw [List.getElem?_append_left inside, List.getElem?_eq_getElem inside]
  have word_iff {j : ℕ} (inside : j < records.length) :
      word = wordAt table.memory j ↔ word = records[j].word.string := by
    rw [memory]
    exact eq_wordAt_iff (here inside) (told _ (List.getElem_mem inside))
  obtain ⟨same, i, inside, rfl, before⟩ := List.find?_eq_some_iff_getElem.mp there
  refine ⟨i, ?_, memory ▸ textAt_eq (here inside)⟩
  rw [first, List.find?_range_eq_some, holds.len_eq]
  refine ⟨?_, List.mem_range.mpr inside, fun j less => ?_⟩
  · rw [decide_eq_true_eq, word_iff inside]
    exact of_decide_eq_true same
  · simpa [word_iff (less.trans inside)] using before j less

theorem Holds.first_of_none (holds : Holds table records)
    (told : ∀ rec ∈ records, 0 ∈ rec.word.bytes ∨ word.length < wordSize)
    (absent : records.find? (fun rec => word = rec.word.string) = none) : first table word = none := by
  obtain ⟨rest, memory⟩ := holds.starts
  rw [first, List.find?_range_eq_none]
  intro i below
  rw [holds.len_eq] at below
  have here : (records ++ rest)[i]? = some records[i] := by
    rw [List.getElem?_append_left below, List.getElem?_eq_getElem below]
  have other := List.find?_eq_none.mp absent records[i] (List.getElem_mem below)
  rw [memory, Bool.not_eq_true', decide_eq_false_iff_not, eq_wordAt_iff here (told _ (List.getElem_mem below))]
  simpa using other

end

end

/-! ## The file in the memory -/

/-- A record of zeros. -/
def zeros : Dictrec := ⟨Field.init wordSize [], Field.init textSize []⟩

/-- The memory behind the records of the file that the mapping has room for. -/
def rest (records : List Record) (behind : List Dictrec) : List Dictrec :=
  List.replicate (capacity - records.length) zeros ++ behind

/-- The records of the file that the mapping has room for. -/
def visible (records : List Record) : List Dictrec := (records.take capacity).map Record.toDictrec

section

variable {records : List Record} {behind strays : List Dictrec} {record : Record} {i : ℕ} {sought : Dictrec}

theorem length_fileOf (records : List Record) : (fileOf records).length = records.length * recordSize := by
  rw [fileOf, ← List.flatMap_map Record.toDictrec Dictrec.bytes, length_flatMap_bytes, List.length_map]

theorem bytes_zeros (n : ℕ) :
    (List.replicate n zeros).flatMap Dictrec.bytes = List.replicate (n * recordSize) 0 := by
  have one : zeros.bytes = List.replicate recordSize 0 := by
    simp [zeros, Dictrec.bytes, Field.init, recordSize]
  induction n with
  | zero => simp
  | succ n ih =>
    rw [List.replicate_succ, List.flatMap_cons, ih, one, List.replicate_append_replicate, Nat.succ_mul, Nat.add_comm]

theorem memory_fileOf (records : List Record) (behind : List Dictrec) :
    memory (fileOf records) behind = (visible records ++ rest records behind).flatMap Dictrec.bytes := by
  have size : mapSize = capacity * recordSize := by decide
  have shown : (fileOf records).take mapSize = (visible records).flatMap Dictrec.bytes := by
    rw [fileOf, ← List.flatMap_map Record.toDictrec Dictrec.bytes, size, take_flatMap_bytes, visible, List.map_take]
  have filled : (List.replicate mapSize (0 : UInt8)).take (mapSize - (fileOf records).length) =
      (List.replicate (capacity - records.length) zeros).flatMap Dictrec.bytes := by
    rw [bytes_zeros, List.take_replicate, length_fileOf, size, ← Nat.sub_mul]
    congr 1
    exact Nat.min_eq_left (Nat.mul_le_mul_right _ (Nat.sub_le ..))
  have start : (Field.init mapSize (fileOf records)).bytes = (visible records).flatMap Dictrec.bytes ++
      (List.replicate (capacity - records.length) zeros).flatMap Dictrec.bytes := by
    rw [← shown, ← filled, ← List.take_append]
    rfl
  rw [memory, start, rest, List.flatMap_append, List.flatMap_append, List.append_assoc]

theorem mem_visible {rec : Dictrec} (member : rec ∈ visible records) :
    rec.word.string ≠ [] ∧ 0 ∈ rec.word.bytes := by
  obtain ⟨record, -, rfl⟩ := List.mem_map.mp member
  exact ⟨record.named, record.ends⟩

/-- The first record of the file that the mapping has room for, by its word. -/
theorem find?_visible (word : List UInt8) : (visible records).find? (fun rec => word = rec.word.string) =
    ((records.take capacity).find? fun record => word = record.word.string).map Record.toDictrec := by
  rw [visible, List.find?_map]
  rfl

/-- The table of a file: its records, and those behind them up to the first one with an empty word. -/
theorem holds_of_counted (there : counted (rest records behind) = some strays) : ∃ table,
    initDictTable (fileOf records) behind = some table ∧ Holds table (visible records ++ strays) := by
  obtain ⟨k, found, rfl⟩ := Option.map_eq_some_iff.mp there
  obtain ⟨inside, ends, before⟩ := List.findIdx?_eq_some_iff_getElem.mp found
  have whole := memory_fileOf records behind
  have here : (visible records ++ rest records behind)[(visible records).length + k]? =
      some (rest records behind)[k] := by
    rw [List.getElem?_append_right (Nat.le_add_right ..), Nat.add_sub_cancel_left, List.getElem?_eq_getElem inside]
  have last : (memory (fileOf records) behind)[((visible records).length + k) * recordSize]? = some 0 := by
    rw [whole, ends_at here]
    exact of_decide_eq_true ends
  refine ⟨_, initDictTable_eq_some.mpr ⟨_, inside_of_getElem? last, last, fun j less => ?_, rfl⟩, ⟨?_, ?_⟩⟩
  · by_cases shown : j < (visible records).length
    · have at_ : (visible records ++ rest records behind)[j]? = some (visible records)[j] := by
        rw [List.getElem?_append_left shown, List.getElem?_eq_getElem shown]
      rw [whole, ne_eq, ends_at at_]
      exact (mem_visible (List.getElem_mem shown)).1
    · obtain ⟨m, rfl⟩ := Nat.exists_eq_add_of_le (Nat.not_lt.mp shown)
      have lower : m < k := by omega
      have at_ : (visible records ++ rest records behind)[(visible records).length + m]? =
          some (rest records behind)[m] := by
        rw [List.getElem?_append_right (Nat.le_add_right ..), Nat.add_sub_cancel_left,
          List.getElem?_eq_getElem (lower.trans inside)]
      rw [whole, ne_eq, ends_at at_]
      simpa using before m lower
  · have taken : ((rest records behind).take (k + 1)).length = k + 1 := by
      rw [List.length_take]
      exact Nat.min_eq_left inside
    rw [List.length_append, taken]
    exact Nat.add_assoc _ k 1
  · refine ⟨(rest records behind).drop (k + 1), whole.trans ?_⟩
    rw [List.append_assoc, List.take_append_drop]

theorem find?_records (records : List Record) (strays : List Dictrec) (word : List UInt8) :
    (visible records ++ strays).find? (fun rec => word = rec.word.string) =
      (((records.take capacity).find? fun record => word = record.word.string).map Record.toDictrec).or
        (strays.find? fun rec => word = rec.word.string) := by
  rw [List.find?_append, find?_visible]

theorem initDictTable_eq_none (endless : counted (rest records behind) = none) :
    initDictTable (fileOf records) behind = none := by
  rw [counted, Option.map_eq_none_iff, List.findIdx?_eq_none_iff] at endless
  rw [Option.eq_none_iff_forall_ne_some]
  intro table found
  obtain ⟨k, inside, ends, -⟩ := initDictTable_eq_some.mp found
  have whole := memory_fileOf records behind
  have below : k < (visible records ++ rest records behind).length := by
    rw [whole, length_flatMap_bytes] at inside
    have under := Nat.mul_lt_mul_of_pos_right k.lt_succ_self (show 0 < recordSize by decide)
    exact Nat.lt_of_mul_lt_mul_right (Nat.lt_of_lt_of_le under inside)
  have here := List.getElem?_eq_getElem below
  rw [whole, ends_at here] at ends
  rcases List.mem_append.mp (List.getElem_mem below) with shown | other
  · exact (mem_visible shown).1 ends
  · simpa [ends] using endless _ other

/-- Behind a `my_connect` that has come back. -/
theorem exists_strays {table : Table} (loaded : initDictTable (fileOf records) behind = some table) : ∃ strays,
    counted (rest records behind) = some strays ∧ Holds table (visible records ++ strays) := by
  cases there : counted (rest records behind) with
  | none => cases (initDictTable_eq_none there).symm.trans loaded
  | some strays =>
    obtain ⟨other, also, holds⟩ := holds_of_counted there
    cases loaded.symm.trans also
    exact ⟨strays, rfl, holds⟩

/-- A record of the file is found in front of the records behind the file. -/
theorem first_of_visible {table : Table} {word : List UInt8}
    (loaded : initDictTable (fileOf records) behind = some table)
    (there : (records.take capacity).find? (fun record => word = record.word.string) = some record) :
    ∃ i, first table word = some i ∧ textAt table.memory i = record.text := by
  obtain ⟨strays, -, holds⟩ := exists_strays loaded
  have found := List.find?_some there
  have same : word = record.word.string := of_decide_eq_true found
  have short : word.length < wordSize := same ▸ (Field.zero_mem_iff record.word).mp record.ends
  apply holds.first_of_some fun _ _ => .inr short
  rw [find?_records, there]
  rfl

theorem zeros_word : zeros.word.string = [] := Field.string_init (by decide) List.not_mem_nil

theorem counted_of_lt (room : records.length < capacity) (behind : List Dictrec) :
    counted (rest records behind) = some [zeros] := by
  obtain ⟨left, more⟩ : ∃ left, capacity - records.length = left + 1 := ⟨capacity - records.length - 1, by omega⟩
  have first : rest records behind = zeros :: (List.replicate left zeros ++ behind) := by
    rw [rest, more, List.replicate_succ, List.cons_append]
  rw [counted, first, List.findIdx?_cons, if_pos (by simp [zeros_word])]
  rfl

theorem visible_of_le (room : records.length ≤ capacity) : visible records = records.map Record.toDictrec := by
  rw [visible, List.take_of_length_le room]

section

variable (room : records.length < capacity) {table : Table}

include room

/-- The one record that is counted behind those of the file consists of zeros. -/
theorem holds_of_lt (loaded : initDictTable (fileOf records) behind = some table) :
    Holds table (records.map Record.toDictrec ++ [zeros]) := by
  obtain ⟨strays, there, holds⟩ := exists_strays loaded
  cases there.symm.trans (counted_of_lt room behind)
  rwa [visible_of_le room.le] at holds

theorem exists_table_of_lt (behind : List Dictrec) : ∃ table, initDictTable (fileOf records) behind = some table := by
  obtain ⟨table, loaded, -⟩ := holds_of_counted (counted_of_lt room behind)
  exact ⟨table, loaded⟩

theorem len_of_lt (loaded : initDictTable (fileOf records) behind = some table) : table.len = records.length + 1 := by
  rw [(holds_of_lt room loaded).len_eq, List.length_append, List.length_map, List.length_singleton]

end

/-- Behind a table the mapping has no room for there is none with an empty word. -/
theorem capacity_lt_len {table : Table} (full : capacity ≤ records.length)
    (loaded : initDictTable (fileOf records) behind = some table) : capacity < table.len := by
  obtain ⟨strays, there, holds⟩ := exists_strays loaded
  obtain ⟨k, found, rfl⟩ := Option.map_eq_some_iff.mp there
  obtain ⟨inside, -⟩ := List.findIdx?_eq_some_iff_getElem.mp found
  rw [holds.len_eq, List.length_append, visible, List.length_map, List.length_take, Nat.min_eq_left full,
    List.length_take, Nat.min_eq_left inside]
  omega

/-! ## Looking up -/

section

variable {table : Table} {word : List UInt8}

theorem lookup_of_first_some (found : first table sought.word.string = some i) :
    Lookup5.lookup table sought = (.found, { sought with text := textAt table.memory i }) := by
  rw [first] at found
  rw [Lookup5.lookup, found]

theorem lookup_of_first_none (absent : first table sought.word.string = none) :
    Lookup5.lookup table sought = (.notFound, sought) := by
  rw [first] at absent
  rw [Lookup5.lookup, absent]

/-- All words of the table are strings. -/
theorem terminated (records : List Record) (word : List UInt8) :
    ∀ rec ∈ records.map Record.toDictrec ++ [zeros], 0 ∈ rec.word.bytes ∨ word.length < wordSize := by
  intro rec member
  rcases List.mem_append.mp member with shown | last
  · obtain ⟨record, -, rfl⟩ := List.mem_map.mp shown
    exact .inl record.ends
  · rw [List.mem_singleton.mp last]
    exact .inl (by decide)

theorem find?_table (word : List UInt8) :
    (records.map Record.toDictrec ++ [zeros]).find? (fun rec => word = rec.word.string) =
      (((records.find? fun record => word = record.word.string).map Record.toDictrec).or
        (if word = [] then some zeros else none)) := by
  rw [List.find?_append, List.find?_map, List.find?_singleton, zeros_word]
  simp only [decide_eq_true_eq]
  rfl

theorem find?_nil : records.find? (fun record => decide ([] = record.word.string)) = none := by
  rw [List.find?_eq_none]
  intro record _
  simpa using Ne.symm record.named

variable (room : records.length < capacity) (loaded : initDictTable (fileOf records) behind = some table)

include room loaded

theorem first_of_some (there : records.find? (fun record => word = record.word.string) = some record) :
    ∃ i, first table word = some i ∧ textAt table.memory i = record.text := by
  apply first_of_visible loaded
  rwa [List.take_of_length_le room.le]

theorem first_of_none (nonempty : word ≠ [])
    (absent : records.find? (fun record => word = record.word.string) = none) : first table word = none := by
  apply (holds_of_lt room loaded).first_of_none (terminated records word)
  rw [find?_table, absent, if_neg nonempty]
  rfl

/-- The record that ends the array has the empty word. -/
theorem first_nil : ∃ i, first table [] = some i ∧ textAt table.memory i = zeros.text := by
  apply (holds_of_lt room loaded).first_of_some (terminated records [])
  rw [find?_table, find?_nil, if_pos rfl]
  rfl

theorem lookup_fileOf (sought : Dictrec) :
    Lookup5.lookup table sought =
      if sought.word.string = [] then (.found, { sought with text := zeros.text }) else answer records sought := by
  split_ifs with empty
  · obtain ⟨i, found, text⟩ := first_nil room loaded
    rw [← empty] at found
    rw [lookup_of_first_some found, text]
  · rw [answer]
    cases there : records.find? fun record => sought.word.string = record.word.string with
    | some record =>
      obtain ⟨i, found, text⟩ := first_of_some room loaded there
      rw [lookup_of_first_some found, text]
    | none => exact lookup_of_first_none (first_of_none room loaded empty there)

end

theorem answer_empty (empty : sought.word.string = []) : answer records sought = (.notFound, sought) := by
  have absent : records.find? (fun record => decide (sought.word.string = record.word.string)) = none := by
    rw [List.find?_eq_none]
    intro record _
    simpa [empty] using record.named
  rw [answer, absent]

/-- The count leaves a full mapping. -/
theorem not_finds_of_full (full : capacity ≤ records.length) : ¬ Finds behind records sought := by
  rintro ⟨connected, -⟩
  obtain ⟨table, loaded, inside⟩ := (Mapped.myConnect_spec (fileOf records) behind).2.mp connected
  exact absurd inside (Nat.not_le.mpr (capacity_lt_len full loaded))

/-- The record that ends the array is taken for one with the empty word. -/
theorem not_finds_of_empty (empty : sought.word.string = []) : ¬ Finds behind records sought := by
  by_cases room : records.length < capacity
  · rintro ⟨-, memory, dictLen, connected, -, answered⟩
    obtain ⟨table, loaded⟩ := exists_table_of_lt room behind
    rw [(Mapped.myConnect_spec (fileOf records) behind).1, loaded] at connected
    cases connected
    have found := (Mapped.lookup_spec loaded sought).1
    rw [found, lookup_fileOf room loaded, if_pos empty, answer_empty empty, Option.some.injEq,
      Prod.mk.injEq] at answered
    exact absurd answered.1 (by decide)
  · exact not_finds_of_full (Nat.not_lt.mp room)

/-- Exactly while there is room for the record that ends the array, and for words that are not empty. -/
theorem finds_iff (behind : List Dictrec) (records : List Record) (sought : Dictrec) :
    Finds behind records sought ↔ records.length < capacity ∧ sought.word.string ≠ [] := by
  constructor
  · intro finds
    exact ⟨by_contra fun full => not_finds_of_full (Nat.not_lt.mp full) finds,
      fun empty => not_finds_of_empty empty finds⟩
  · rintro ⟨room, some⟩
    obtain ⟨table, loaded⟩ := exists_table_of_lt room behind
    obtain ⟨result, within⟩ := Mapped.myConnect_spec (fileOf records) behind
    obtain ⟨found, inside⟩ := Mapped.lookup_spec loaded sought
    have short : table.len ≤ capacity := len_of_lt room loaded ▸ room
    rw [lookup_fileOf room loaded, if_neg some] at found
    rw [loaded] at result
    refine ⟨within.mpr ⟨table, loaded, short⟩, _, _, result, fun index member => ?_, found⟩
    have size : capacity * recordSize = mapSize := by decide
    exact Nat.lt_of_lt_of_le (inside index member) (size ▸ Nat.mul_le_mul_right _ short)

end

/-- The record "a" with the text "1". -/
def one : Record where
  word := Field.init wordSize [97]
  text := Field.init textSize [49]
  named := by decide
  ends := by decide

/-- The empty word is found in a file of one record. -/
theorem not_finds_empty : ¬ Finds [] [one] ⟨Field.init wordSize [], Field.init textSize []⟩ :=
  not_finds_of_empty (by decide)

end SystemProgramming.Dictionary.WholeFile
