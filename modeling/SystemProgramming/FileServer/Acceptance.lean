import SystemProgramming.FileServer.Model

/-! # Which messages the kernel accepts

The type the kernel sees has the integer of the structure as its lower and the first four bytes of
the text as its upper half, so the fourth of these bytes decides the sign. In the transmit loop they
are the bytes last read to the front of the buffer: `msgsnd` accepts all blocks and the end message
exactly when no byte at a position of the fourth is 0x80 or more and the four bytes left at the
end are not all zero.
-/

namespace SystemProgramming.FileServer

open Lib

/-! ## The tag -/

theorem readInt_store_tag (m : Memory) (tag : ℤ) :
    readInt (m.store 0 (int tag)) = signed (int tag) := congrArg signed (m.load_store 0 (int tag))

theorem readInt_store_data (m : Memory) (text : Bytes) :
    readInt (m.store dataOffset text) = readInt m :=
  congrArg signed (m.load_store_of_disjoint _ _ (.inl (Nat.le_refl _)))

/-! ## The sign of the type -/

/-- The bytes between the tag and offset 8 as an integer. -/
def upper (m : Memory) : ℤ := signed (m.load dataOffset 4)

theorem long_eq (m : Memory) :
    signed (m.load 0 8) = unsigned (m.load 0 4) + 2 ^ 32 * upper m := by
  have split : m.load 0 8 = m.load 0 4 ++ m.load dataOffset 4 := m.load_add 0 4 4
  rw [split, signed_append _ _ (List.ne_nil_of_length_pos (by rw [Memory.length_load]; decide)),
    Memory.length_load, upper]
  norm_num

theorem upper_nonneg_iff (m : Memory) : 0 ≤ upper m ↔ m 7 < 128 := by
  have split : m.load dataOffset 4 = m.load dataOffset 3 ++ [m 7] := m.load_add dataOffset 3 1
  rw [upper, split, signed_nonneg_iff]

theorem upper_eq_zero_iff (m : Memory) : upper m = 0 ↔ ∀ j < 4, m (dataOffset + j) = 0 := by
  rw [upper, signed_eq_zero_iff, unsigned_eq_zero_iff]
  simp [Memory.load]

theorem tag_lt (m : Memory) : unsigned (m.load 0 4) < 2 ^ 32 := by
  simpa using unsigned_lt (m.load 0 4)

/-- The kernel accepts a message when the upper half is not negative and the type not zero. -/
theorem msgsnd_eq_some_iff (m : Memory) (size : ℕ) (message : Message) :
    msgsnd m size = some message ↔
      (m 7 < 128 ∧ (readInt m = 0 → ∃ j < 4, m (dataOffset + j) ≠ 0)) ∧
        message = ⟨m.load 0 8, m.load 8 size⟩ := by
  have bound := tag_lt m
  have zero := upper_eq_zero_iff m
  have positive : ¬ signed (m.load 0 8) < 1 ↔
      m 7 < 128 ∧ (readInt m = 0 → ∃ j < 4, m (dataOffset + j) ≠ 0) := by
    have some_ : (∃ j < 4, m (dataOffset + j) ≠ 0) ↔ upper m ≠ 0 := by
      rw [ne_eq, zero]; push Not; rfl
    rw [some_, ← upper_nonneg_iff, long_eq, readInt, signed_eq_zero_iff]
    omega
  rw [msgsnd, ← positive]
  split_ifs with refused
  · simp [refused]
  · simp [refused, eq_comm]

/-! ## The bytes at the front of the buffer -/

/-- No byte that a block starting here brings to the fourth position is 0x80 or more. -/
def Low (rest : Bytes) : Prop := ∀ i b, rest[i]? = some b → i % msgSize = 3 → b < 128

/-- One of the four bytes at the front of the buffer is not zero in the end: it comes from the last
block that is long enough to reach it, or was there before. -/
def Marked (m : Memory) (rest : Bytes) : Prop :=
  (∃ i b, rest[i]? = some b ∧ i % msgSize < 4 ∧ rest.length ≤ i + msgSize ∧ b ≠ 0) ∨
    ∃ j < 4, rest.length ≤ j ∧ m (dataOffset + j) ≠ 0

/-- The buffer after the next `read`. -/
def fill (m : Memory) (rest : Bytes) : Memory := m.store dataOffset (rest.take msgSize)

theorem fill_of_lt (m : Memory) {rest : Bytes} {j : ℕ} (small : j < 4) {b : UInt8}
    (here : rest[j]? = some b) : fill m rest (dataOffset + j) = b := by
  have inside : (rest.take msgSize)[j]? = some b := by
    rw [List.getElem?_take_of_lt (by rw [msgSize]; omega), here]
  obtain ⟨bound, value⟩ := List.getElem?_eq_some_iff.mp inside
  rw [fill, Memory.store_inside _ _ _ bound, value]

theorem fill_of_le (m : Memory) {rest : Bytes} {j : ℕ} (short : rest.length ≤ j) :
    fill m rest (dataOffset + j) = m (dataOffset + j) := by
  apply Memory.store_above _ _ _
  have := List.length_take_le msgSize rest
  have := List.length_take_le' msgSize rest
  omega

theorem low_fill_iff {m : Memory} (low : m 7 < 128) (rest : Bytes) :
    Low rest ↔ fill m rest 7 < 128 ∧ Low (rest.drop msgSize) := by
  have fourth : 7 = dataOffset + 3 := rfl
  constructor
  · intro all
    refine ⟨?_, fun i b here position => ?_⟩
    · cases third : rest[3]? with
      | none =>
        rw [fourth, fill_of_le m (List.getElem?_eq_none_iff.mp third)]
        exact low
      | some b =>
        rw [fourth, fill_of_lt m (by decide) third]
        exact all 3 b third rfl
    · rw [List.getElem?_drop] at here
      exact all _ b here ((Nat.add_mod_left ..).trans position)
  · rintro ⟨first, later⟩ i b here position
    by_cases near : i < msgSize
    · obtain rfl : i = 3 := by rw [← position, Nat.mod_eq_of_lt near]
      rwa [fourth, fill_of_lt m (by decide) here] at first
    · obtain ⟨k, rfl⟩ := Nat.exists_eq_add_of_le (Nat.not_lt.mp near)
      exact later k b (List.getElem?_drop.trans here) ((Nat.add_mod_left ..).symm.trans position)

theorem marked_fill_iff (m : Memory) (rest : Bytes) :
    Marked m rest ↔ Marked (fill m rest) (rest.drop msgSize) := by
  constructor
  · rintro (⟨i, b, here, front, last, nonzero⟩ | ⟨j, small, short, nonzero⟩)
    · by_cases near : i < msgSize
      · rw [Nat.mod_eq_of_lt near] at front
        refine .inr ⟨i, front, by rw [List.length_drop]; omega, ?_⟩
        rwa [fill_of_lt m front here]
      · obtain ⟨k, rfl⟩ := Nat.exists_eq_add_of_le (Nat.not_lt.mp near)
        refine .inl ⟨k, b, List.getElem?_drop.trans here,
          (Nat.add_mod_left ..).symm.trans_lt front, ?_, nonzero⟩
        rw [List.length_drop]; omega
    · refine .inr ⟨j, small, by rw [List.length_drop]; omega, ?_⟩
      rwa [fill_of_le m short]
  · rintro (⟨i, b, here, front, last, nonzero⟩ | ⟨j, small, short, nonzero⟩)
    · rw [List.getElem?_drop] at here
      rw [List.length_drop] at last
      exact .inl ⟨_, b, here, (Nat.add_mod_left ..).trans_lt front, by omega, nonzero⟩
    · rw [List.length_drop] at short
      cases here : rest[j]? with
      | none =>
        have short := List.getElem?_eq_none_iff.mp here
        rw [fill_of_le m short] at nonzero
        exact .inr ⟨j, small, short, nonzero⟩
      | some b =>
        rw [fill_of_lt m small here] at nonzero
        exact .inl ⟨j, b, here, (Nat.mod_eq_of_lt (small.trans (by decide))).trans_lt small, by omega,
          nonzero⟩

end SystemProgramming.FileServer
