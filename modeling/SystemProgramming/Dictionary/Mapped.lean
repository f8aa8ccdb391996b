import SystemProgramming.Dictionary.Versions
import SystemProgramming.Lib.Traced

/-! # Where lookup5 reads

The functions of lookup5 with the index of every byte they read from `dict_table` on. Where no memory is mapped
there is nothing to go on with. What a `lookup` reads behind a `my_connect` that has succeeded belongs to the
records that were counted; these are in the mapping if a record with an empty word is.
-/

namespace SystemProgramming.Dictionary.Mapped

open Lib Lookup5

/-- One byte of the memory. -/
def fetch (memory : List UInt8) (index : ℕ) : Traced ℕ UInt8 := do
  Traced.tell index
  match memory[index]? with
  | some byte => return byte
  | none => Traced.stop

/-- `strcmp` of a string with what starts at an index, as far as `dict_cmp` is used: are they equal? -/
def dictCmp (memory : List UInt8) : List UInt8 → ℕ → Traced ℕ Bool
  | [], index => do
    let byte ← fetch memory index
    return byte == 0
  | char :: string, index => do
    let byte ← fetch memory index
    if byte = char then dictCmp memory string (index + 1) else return false

/-- The loop that counts the records from record `i` on, for as many rounds as there are records in the memory,
and one more. -/
def countRecords (memory : List UInt8) : ℕ → ℕ → Traced ℕ ℕ
  | 0, _ => Traced.stop
  | rounds + 1, i => do
    let first ← fetch memory (i * recordSize)
    if first = 0 then return i else countRecords memory rounds (i + 1)

/-- The memory and `dict_len`. -/
def myConnect (file : List UInt8) (behind : List Dictrec) : Traced ℕ (List UInt8 × ℕ) := do
  let memory := memory file behind
  let counted ← countRecords memory (memory.length / recordSize + 1) 0
  return (memory, 1 + counted)

/-- `memcpy(sought->text, cur->text, sizeof(cur->text))` -/
def copyText (memory : List UInt8) (i : ℕ) : Traced ℕ (Field textSize) := do
  Traced.tellAll ((List.range textSize).map fun k => i * recordSize + wordSize + k)
  if (i + 1) * recordSize ≤ memory.length then return textAt memory i else Traced.stop

/-- The loop of `lookup` from record `i` on, with the number of records that are left. -/
def lookupFrom (memory : List UInt8) (sought : Dictrec) : ℕ → ℕ → Traced ℕ (Result × Dictrec)
  | 0, _ => return (.notFound, sought)
  | left + 1, i => do
    if ← dictCmp memory sought.word.string (i * recordSize) then
      let text ← copyText memory i
      return (.found, { sought with text := text })
    else lookupFrom memory sought left (i + 1)

def lookup (memory : List UInt8) (dictLen : ℕ) (sought : Dictrec) : Traced ℕ (Result × Dictrec) :=
  lookupFrom memory sought dictLen 0

/-- An index of the mapping. -/
def Within (index : ℕ) : Prop := index < mapSize

section

variable {memory string rest : List UInt8} {file : List UInt8} {behind : List Dictrec} {index bound i k : ℕ}
variable {sought : Dictrec} {byte : UInt8}

/-! ## One read -/

theorem result_fetch_eq_some : (fetch memory index).result = some byte ↔ memory[index]? = some byte := by
  cases found : memory[index]? <;> simp [fetch, found]

@[simp] theorem always_fetch {P : ℕ → Prop} : (fetch memory index).Always P ↔ P index := by
  rw [fetch, Traced.always_bind, Traced.always_tell]
  constructor
  · exact And.left
  · intro inside
    refine ⟨inside, fun _ _ => ?_⟩
    split
    · exact Traced.always_pure
    · exact Traced.always_stop

/-- A comparison with a string reads no further than to its end. -/
theorem dictCmp_spec {word : List UInt8} (proper : 0 ∉ word) (ends : 0 ∉ string)
    (there : memory.drop index = string ++ 0 :: rest) (within : index + string.length < bound) :
    (dictCmp memory word index).result = some (word == string) ∧ (dictCmp memory word index).Always (· < bound) := by
  induction word generalizing string index with
  | nil =>
    cases string with
    | nil =>
      have here : memory[index]? = some 0 := by rw [← List.head?_drop, there]; rfl
      constructor
      · simp [dictCmp, result_fetch_eq_some.mpr here]
      · simp [dictCmp, Nat.lt_of_le_of_lt (Nat.le_add_right ..) within]
    | cons char string =>
      have here : memory[index]? = some char := by rw [← List.head?_drop, there]; rfl
      have other : char ≠ 0 := fun zero => ends (by simp [zero])
      constructor
      · simp [dictCmp, result_fetch_eq_some.mpr here, other]
      · simp [dictCmp, Nat.lt_of_le_of_lt (Nat.le_add_right ..) within]
  | cons first word ih =>
    rw [List.mem_cons, not_or] at proper
    have first_within : index < bound := Nat.lt_of_le_of_lt (Nat.le_add_right ..) within
    cases string with
    | nil =>
      have here : memory[index]? = some 0 := by rw [← List.head?_drop, there]; rfl
      constructor
      · simp [dictCmp, result_fetch_eq_some.mpr here, proper.1]
      · simp [dictCmp, first_within, result_fetch_eq_some.mpr here, proper.1]
    | cons char string =>
      have here : memory[index]? = some char := by rw [← List.head?_drop, there]; rfl
      rw [List.mem_cons, not_or] at ends
      by_cases same : char = first
      · subst same
        have next : memory.drop (index + 1) = string ++ 0 :: rest := by
          rw [← List.drop_drop, there]
          rfl
        have next_within : index + 1 + string.length < bound := by
          rw [List.length_cons] at within
          omega
        obtain ⟨result, reads⟩ := ih proper.2 ends.2 next next_within
        constructor
        · simp [dictCmp, result_fetch_eq_some.mpr here, result]
        · simp [dictCmp, first_within, result_fetch_eq_some.mpr here, reads]
      · constructor
        · simp [dictCmp, result_fetch_eq_some.mpr here, same, Ne.symm same]
        · simp [dictCmp, first_within, result_fetch_eq_some.mpr here, same]

/-! ## Counting the records -/

theorem within_record_iff : Within (i * recordSize) ↔ i < capacity := by
  have size : mapSize = 16384 := by decide
  have record : recordSize = 512 := by decide
  rw [Within, size, record, capacity]
  omega

theorem countRecords_last (rounds : ℕ) (ends : memory[i * recordSize]? = some 0) :
    (countRecords memory (rounds + 1) i).result = some i ∧
      ((countRecords memory (rounds + 1) i).Always Within ↔ i < capacity) := by
  rw [← within_record_iff]
  constructor
  · simp [countRecords, result_fetch_eq_some.mpr ends]
  · simp [countRecords, result_fetch_eq_some.mpr ends]

theorem countRecords_next (rounds : ℕ) (here : memory[i * recordSize]? = some byte) (more : byte ≠ 0) :
    (countRecords memory (rounds + 1) i).result = (countRecords memory rounds (i + 1)).result ∧
      ((countRecords memory (rounds + 1) i).Always Within ↔
        i < capacity ∧ (countRecords memory rounds (i + 1)).Always Within) := by
  rw [← within_record_iff]
  constructor
  · simp [countRecords, result_fetch_eq_some.mpr here, more]
  · simp [countRecords, result_fetch_eq_some.mpr here, more]

/-- The loop stops at the first record with an empty word, or where the memory is not mapped. -/
theorem countRecords_spec (whole : recordSize ∣ memory.length) (room : capacity ≤ memory.length / recordSize)
    (rounds i : ℕ) (total : i + rounds = memory.length / recordSize + 1) (inside : i ≤ memory.length / recordSize) :
    (∃ k, i ≤ k ∧ memory[k * recordSize]? = some 0 ∧
      (∀ j, i ≤ j → j < k → memory[j * recordSize]? ≠ some 0) ∧
      (countRecords memory rounds i).result = some k ∧
      ((countRecords memory rounds i).Always Within ↔ k < capacity)) ∨
    (∀ j, i ≤ j → memory[j * recordSize]? ≠ some 0) ∧
      (countRecords memory rounds i).result = none ∧ ¬ (countRecords memory rounds i).Always Within := by
  induction rounds generalizing i with
  | zero => omega
  | succ rounds ih =>
    cases here : memory[i * recordSize]? with
    | none =>
      have out : memory.length / recordSize ≤ i := by
        rw [← Nat.not_lt, ← record_inside_iff whole, Nat.not_lt]
        exact List.getElem?_eq_none_iff.mp here
      refine .inr ⟨fun j low found => ?_, ?_, fun within => ?_⟩
      · have below := (record_inside_iff whole).mp (List.getElem?_eq_some_iff.mp found).1
        omega
      · simp [countRecords, fetch, here]
      · have first : Within (i * recordSize) := by
          rw [countRecords, Traced.always_bind, always_fetch] at within
          exact within.1
        rw [within_record_iff] at first
        omega
    | some byte =>
      have below := (record_inside_iff whole).mp (List.getElem?_eq_some_iff.mp here).1
      by_cases zero : byte = 0
      · subst zero
        obtain ⟨result, within⟩ := countRecords_last rounds here
        exact .inl ⟨i, Nat.le_refl i, here, fun j low high => by omega, result, within⟩
      · obtain ⟨result, within⟩ := countRecords_next rounds here zero
        rw [result, within]
        have skip (j : ℕ) (low : i ≤ j) (other : i + 1 ≤ j → memory[j * recordSize]? ≠ some 0) :
            memory[j * recordSize]? ≠ some 0 := by
          by_cases first : j = i
          · rw [first, here]
            exact fun same => zero (Option.some.inj same)
          · exact other (by omega)
        rcases ih (i + 1) (by omega) (by omega) with ⟨k, low, ends, before, counted, inner⟩ | ⟨none, rest, outside⟩
        · refine .inl ⟨k, by omega, ends, fun j l h => skip j l fun l' => before j l' h, counted, ?_⟩
          rw [inner]
          exact and_iff_right_of_imp fun _ => by omega
        · exact .inr ⟨fun j l => skip j l fun l' => none j l', rest, fun both => outside both.2⟩

/-- `my_connect` gives the table; it stays inside the mapping exactly when all records of the table are there. -/
theorem myConnect_spec (file : List UInt8) (behind : List Dictrec) :
    (myConnect file behind).result = (initDictTable file behind).map (fun table => (table.memory, table.len)) ∧
      ((myConnect file behind).Always Within ↔
        ∃ table, initDictTable file behind = some table ∧ table.len ≤ capacity) := by
  have whole : recordSize ∣ (memory file behind).length := length_memory file behind ▸ Nat.dvd_mul_left _ _
  have room : capacity ≤ (memory file behind).length / recordSize := by
    rw [records_memory]
    exact Nat.le_add_right ..
  have always : (myConnect file behind).Always Within ↔
      (countRecords (memory file behind) ((memory file behind).length / recordSize + 1) 0).Always Within := by
    rw [myConnect, Traced.always_bind]
    exact and_iff_left fun _ _ => Traced.always_pure
  rw [always, myConnect, Traced.result_bind]
  rcases countRecords_spec whole room _ 0 (Nat.zero_add _) (Nat.zero_le _) with
    ⟨k, -, ends, before, result, within⟩ | ⟨all, result, outside⟩
  · have table : initDictTable file behind = some ⟨memory file behind, k + 1, inside_of_getElem? ends⟩ :=
      initDictTable_eq_some.mpr ⟨k, inside_of_getElem? ends, ends, fun j => before j (Nat.zero_le j), rfl⟩
    rw [result, table, within]
    refine ⟨?_, ?_⟩
    · rw [Option.bind_some, Nat.add_comm]
      rfl
    · simp only [Option.some.injEq, exists_eq_left', Nat.succ_le_iff]
  · have none : initDictTable file behind = none := by
      rw [Option.eq_none_iff_forall_ne_some]
      intro table found
      obtain ⟨k, -, ends, -⟩ := initDictTable_eq_some.mp found
      exact all k (Nat.zero_le k) ends
    rw [result, none]
    exact ⟨rfl, iff_of_false outside (by simp)⟩

/-! ## Looking up -/

theorem copyText_spec (inside : (i + 1) * recordSize ≤ memory.length) :
    (copyText memory i).result = some (textAt memory i) ∧ (copyText memory i).Always (· < (i + 1) * recordSize) := by
  constructor
  · simp [copyText, inside]
  · rw [copyText, if_pos inside, Traced.always_range_bind]
    refine ⟨?_, Traced.always_pure⟩
    intro k below
    rw [Nat.succ_mul, recordSize, Nat.add_assoc]
    exact Nat.add_lt_add_left (Nat.add_lt_add_left below _) _

theorem lookupFrom_spec {len : ℕ} (inside : len * recordSize ≤ memory.length)
    (ends : ∀ i < len, ∃ rest, memory.drop (i * recordSize) = wordAt memory i ++ 0 :: rest ∧
      i * recordSize + (wordAt memory i).length < len * recordSize)
    (left i : ℕ) (total : i + left = len) :
    (lookupFrom memory sought left i).result = some (
      match (List.range' i left).find? fun i => sought.word.string = wordAt memory i with
      | some i => (.found, { sought with text := textAt memory i })
      | none => (.notFound, sought)) ∧
    (lookupFrom memory sought left i).Always (· < len * recordSize) := by
  induction left generalizing i with
  | zero => exact ⟨rfl, Traced.always_pure⟩
  | succ left ih =>
    obtain ⟨rest, there, within⟩ := ends i (by omega)
    have below : (i + 1) * recordSize ≤ len * recordSize := Nat.mul_le_mul_right _ (by omega)
    obtain ⟨compared, reads⟩ := dictCmp_spec (not_mem_cstr sought.word.bytes) (not_mem_cstr _) there within
    obtain ⟨copied, copies⟩ := copyText_spec (i := i) (below.trans inside)
    obtain ⟨result, others⟩ := ih (i + 1) (by omega)
    change (dictCmp memory sought.word.string _).result = some (sought.word.string == wordAt memory i) at compared
    change (dictCmp memory sought.word.string _).Always _ at reads
    have copies' : (copyText memory i).Always (· < len * recordSize) :=
      fun index member => Nat.lt_of_lt_of_le (copies index member) below
    rw [List.range'_succ, List.find?_cons]
    by_cases same : sought.word.string = wordAt memory i
    · rw [same, beq_self_eq_true, ← same] at compared
      constructor
      · rw [lookupFrom, Traced.result_bind, compared]
        simp [copied, same]
      · simp [lookupFrom, reads, compared, copies']
    · rw [beq_eq_false_iff_ne.mpr same] at compared
      constructor
      · simp [lookupFrom, compared, result, same]
      · simp [lookupFrom, reads, compared, others]

/-- Behind a `my_connect` that has succeeded `lookup` is that of the array of records, and it reads these only. -/
theorem lookup_spec {table : Table} (connected : initDictTable file behind = some table) (sought : Dictrec) :
    (lookup table.memory table.len sought).result = some (Lookup5.lookup table sought) ∧
      (lookup table.memory table.len sought).Always (· < table.len * recordSize) := by
  obtain ⟨k, inside, ends, -, rfl⟩ := initDictTable_eq_some.mp connected
  rw [lookup, Lookup5.lookup, List.range_eq_range']
  apply lookupFrom_spec inside _ (k + 1) 0 (Nat.zero_add _)
  intro i below
  -- the word of a record ends at the start of the last one at the latest
  obtain ⟨more, rfl⟩ := Nat.exists_eq_add_of_le (Nat.lt_succ_iff.mp below)
  have there : ((Lookup5.memory file behind).drop (i * recordSize))[more * recordSize]? = some 0 := by
    rw [List.getElem?_drop, ← Nat.add_mul]
    exact ends
  obtain ⟨rest, split⟩ := exists_cstr_append (List.mem_of_getElem? there)
  refine ⟨rest, split, ?_⟩
  have short : (wordAt (Lookup5.memory file behind) i).length ≤ more * recordSize := by
    rw [← Nat.not_lt]
    intro longer
    rw [getElem?_of_lt_cstr longer] at there
    exact not_mem_cstr _ (List.mem_of_getElem? there)
  have positive : 0 < recordSize := by decide
  rw [Nat.succ_mul, Nat.add_mul]
  omega

end

end SystemProgramming.Dictionary.Mapped
