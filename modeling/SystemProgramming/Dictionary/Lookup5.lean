import SystemProgramming.Dictionary.Model
import Mathlib.Data.List.FinRange

/-! # The dictionary mapped into memory

`my_connect` cuts or extends the file to four pages, maps it and counts the records up to the first one
whose word is empty, which is counted too. Nothing keeps the count inside the mapping: behind it other
memory may be mapped, whose pages hold whole records. `lookup` goes through the records that were counted.
-/

namespace SystemProgramming.Dictionary

open Lib

def Dictrec.bytes (rec : Dictrec) : List UInt8 := rec.word.bytes ++ rec.text.bytes

namespace Lookup5

/-- `getpagesize() << N2_PAGE` -/
def mapSize : ℕ := 4096 <<< 2

def recordSize : ℕ := wordSize + textSize

/-- The records the mapping has room for. -/
def capacity : ℕ := 32

/-- The memory from `dict_table` on, as far as it is mapped: the file, and what is mapped behind it. -/
def memory (file : List UInt8) (behind : List Dictrec) : List UInt8 :=
  (Field.init mapSize file).bytes ++ behind.flatMap Dictrec.bytes

/-- `dict_table`, seen as an array of records, and `dict_len`. -/
structure Table where
  memory : List UInt8
  len : ℕ
  inside : len * recordSize ≤ memory.length

/-- `dict_table[i].word` as a string -/
def wordAt (memory : List UInt8) (i : ℕ) : List UInt8 := cstr (memory.drop (i * recordSize))

def textAt (memory : List UInt8) (i : ℕ) : Field textSize :=
  Field.init textSize ((memory.drop (i * recordSize + wordSize)).take textSize)

theorem inside_of_lt {memory : List UInt8} {i : ℕ} (below : i < memory.length / recordSize) :
    (i + 1) * recordSize ≤ memory.length :=
  Nat.mul_le_of_le_div recordSize (i + 1) memory.length below

/-- There is no result when no record has an empty word: the loop then reads what is not mapped. -/
def initDictTable (file : List UInt8) (behind : List Dictrec) : Option Table :=
  let memory := memory file behind
  ((List.finRange (memory.length / recordSize)).find? fun i => memory[i.val * recordSize]? = some 0).map
    fun i => ⟨memory, i.val + 1, inside_of_lt i.isLt⟩

def lookup (table : Table) (sought : Dictrec) : Result × Dictrec :=
  match (List.range table.len).find? fun i => sought.word.string = wordAt table.memory i with
  | some i => (.found, { sought with text := textAt table.memory i })
  | none => (.notFound, sought)

/-! ## The record that ends the array -/

section

variable {file : List UInt8} {behind : List Dictrec} {i k : ℕ}

theorem record_inside_iff {memory : List UInt8} (whole : recordSize ∣ memory.length) :
    i * recordSize < memory.length ↔ i < memory.length / recordSize := by
  obtain ⟨count, length⟩ := whole
  have positive : 0 < recordSize := by decide
  rw [length, Nat.mul_div_cancel_left _ positive, Nat.mul_comm]
  exact Nat.mul_lt_mul_left positive

theorem length_bytes (rec : Dictrec) : rec.bytes.length = recordSize := by
  rw [Dictrec.bytes, List.length_append, rec.word.size_eq, rec.text.size_eq]
  rfl

theorem length_flatMap_bytes (records : List Dictrec) :
    (records.flatMap Dictrec.bytes).length = records.length * recordSize := by
  induction records with
  | nil => exact (Nat.zero_mul _).symm
  | cons rec records ih =>
    rw [List.flatMap_cons, List.length_append, ih, length_bytes, List.length_cons, Nat.succ_mul, Nat.add_comm]

theorem length_memory (file : List UInt8) (behind : List Dictrec) :
    (memory file behind).length = (capacity + behind.length) * recordSize := by
  have size : capacity * recordSize = mapSize := by decide
  rw [memory, List.length_append, Field.size_eq, length_flatMap_bytes, Nat.add_mul, size]

theorem records_memory (file : List UInt8) (behind : List Dictrec) :
    (memory file behind).length / recordSize = capacity + behind.length := by
  rw [length_memory]
  exact Nat.mul_div_cancel _ (by decide)

/-- The first record with an empty word is the last one that is counted. -/
theorem initDictTable_eq_some {table : Table} :
    initDictTable file behind = some table ↔ ∃ k, ∃ inside : (k + 1) * recordSize ≤ (memory file behind).length,
      (memory file behind)[k * recordSize]? = some 0 ∧
      (∀ j < k, (memory file behind)[j * recordSize]? ≠ some 0) ∧ table = ⟨memory file behind, k + 1, inside⟩ := by
  rw [initDictTable, Option.map_eq_some_iff]
  constructor
  · rintro ⟨k, found, rfl⟩
    obtain ⟨ends, i, bound, same, before⟩ := List.find?_eq_some_iff_getElem.mp found
    rw [List.getElem_finRange] at same
    have value : i = k.val := by rw [← same]; rfl
    refine ⟨k.val, inside_of_lt k.isLt, by simpa using ends, fun j less => ?_, rfl⟩
    have skipped := before j (by omega)
    rw [List.getElem_finRange] at skipped
    simpa using skipped
  · rintro ⟨k, inside, ends, before, rfl⟩
    have below : k < (memory file behind).length / recordSize :=
      (Nat.le_div_iff_mul_le (by decide)).mpr inside
    refine ⟨⟨k, below⟩, ?_, rfl⟩
    rw [List.find?_eq_some_iff_getElem]
    refine ⟨by simpa using ends, k, by rwa [List.length_finRange], by simp, fun j less => ?_⟩
    rw [List.getElem_finRange]
    simpa using before j less

/-- A record of the memory has all its bytes there. -/
theorem inside_of_getElem? {byte : UInt8} (there : (memory file behind)[k * recordSize]? = some byte) :
    (k + 1) * recordSize ≤ (memory file behind).length := by
  have whole : recordSize ∣ (memory file behind).length := length_memory file behind ▸ Nat.dvd_mul_left _ _
  exact inside_of_lt ((record_inside_iff whole).mp (List.getElem?_eq_some_iff.mp there).1)

end

end Lookup5

end SystemProgramming.Dictionary
