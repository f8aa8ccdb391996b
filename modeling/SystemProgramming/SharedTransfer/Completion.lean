import SystemProgramming.SharedTransfer.Delivery
import Mathlib.Algebra.Group.Nat.Defs

/-! # When the writer may leave its loop

The loop condition uses the running total `bytes`, a 32-bit word, as a truth value. The writer
therefore leaves after a zero count, as intended, or after a block that brings the total to a
multiple of `2 ^ 32`. The transfer is complete exactly for the streams that avoid the second case.
-/

namespace SystemProgramming.SharedTransfer

open Lib

/-- What the loop must guarantee in every interleaving: the writer leaves only after it has
published the count 0, and standard output is complete when it removes the semaphores. -/
def Completes (seg : Shmseg) (blocks : List Block) : Prop :=
  ∀ s, Reachable step (start seg blocks) s →
    (s.writer.pc.left = true → 0 ∈ s.published) ∧
      (s.sems.removed = true → s.stdout = stream blocks)

/-- No non-empty initial run of blocks has a total length that is 0 as a 32-bit word. -/
def NoWrap (blocks : List Block) : Prop :=
  ∀ k, 1 ≤ k → k ≤ blocks.length → (stream (blocks.take k)).length % 2 ^ 32 ≠ 0

/-- The count of the current round that `bytes` does not include yet. -/
def State.uncounted (s : State) : BitVec 32 :=
  match s.writer.pc with
  | .store n => n
  | .release | .test | .total => s.seg.cnt
  | .reserve | .read | .drain | .remove | .done | .failed => 0

/-- The writer's bookkeeping when the total never wraps to 0. -/
structure Account (blocks : List Block) (s : State) : Prop where
  cut : ∃ finished, blocks = finished ++ s.stdin ∧ s.taken = stream finished ∧
    s.writer.bytes + s.uncounted = BitVec.ofNat 32 (stream finished).length ∧
    (s.uncounted ≠ 0 → finished ≠ [])
  ended : s.uncounted = 0 →
    (∃ n, s.writer.pc = .store n) ∨ s.writer.pc = .release ∨ s.writer.pc = .test → s.stdin = []
  counting : s.writer.pc = .total → s.seg.cnt ≠ 0
  announced : s.writer.pc = .test → s.seg.cnt ∈ s.published
  left : s.writer.pc.left = true → 0 ∈ s.published ∧ s.stdin = []

theorem start_account (seg : Shmseg) (blocks : List Block) : Account blocks (start seg blocks) where
  cut := ⟨[], by simp [start, stream, State.uncounted]⟩
  ended := by simp [start]
  counting := by simp [start]
  announced := by simp [start]
  left := by simp [start, WriterPc.left]

theorem Block.length_word_ne_zero (block : Block) : BitVec.ofNat 32 block.bytes.length ≠ 0#32 := by
  have nonempty := block.nonempty
  have fits := block.fits
  unfold bufSize at fits
  intro zero
  have value := congrArg BitVec.toNat zero
  simp only [BitVec.toNat_ofNat] at value
  omega

/-- Under `NoWrap` the total after a counted block is not 0. -/
theorem Account.total_ne_zero {blocks : List Block} {s : State} (inv : Account blocks s)
    (noWrap : NoWrap blocks) (pc : s.writer.pc = .total) : s.writer.bytes + s.seg.cnt ≠ 0 := by
  obtain ⟨finished, split, -, total, nonempty⟩ := inv.cut
  simp only [State.uncounted, pc] at total nonempty
  rw [total]
  have some_block : finished ≠ [] := nonempty (inv.counting pc)
  have whole : blocks.take finished.length = finished := by simp [split]
  have wraps := noWrap finished.length (List.length_pos_iff.mpr some_block) (by simp [split])
  rw [whole] at wraps
  intro zero
  have value := congrArg BitVec.toNat zero
  simp only [BitVec.toNat_ofNat] at value
  exact wraps value

theorem WriterMove.account {blocks : List Block} {s t : State} (move : WriterMove s t)
    (noWrap : NoWrap blocks) (sync : Sync s) (inv : Account blocks s) : Account blocks t := by
  obtain ⟨finished, split, read, total, nonempty⟩ := inv.cut
  cases move with
  | lost pc gone => simp [(sync.gone gone).2] at pc
  | reserve pc present free =>
    simp only [State.uncounted, pc] at total nonempty
    exact ⟨⟨finished, split, read, total, nonempty⟩, by simp [State.writerAt],
      by simp [State.writerAt], by simp [State.writerAt], by simp [State.writerAt, WriterPc.left]⟩
  | eof pc ended =>
    simp only [State.uncounted, pc] at total nonempty
    exact ⟨⟨finished, split, read, total, nonempty⟩, fun _ _ => ended,
      by simp [State.writerAt], by simp [State.writerAt], by simp [State.writerAt, WriterPc.left]⟩
  | read pc block rest input =>
    simp only [State.uncounted, pc] at total
    refine ⟨⟨finished ++ [block], ?_, ?_, ?_, by simp⟩, ?_, by simp [State.writerAt],
      by simp [State.writerAt], by simp [State.writerAt, WriterPc.left]⟩
    · simp [split, input, State.writerAt]
    · simp [read, stream, State.writerAt]
    · simp only [State.uncounted, State.writerAt]
      have total : s.writer.bytes = BitVec.ofNat 32 (stream finished).length := by simpa using total
      simp [total, stream, BitVec.ofNat_add]
    · intro zero
      exact (block.length_word_ne_zero zero).elim
  | store n pc =>
    have ended := inv.ended
    simp only [State.uncounted, pc] at total nonempty ended
    exact ⟨⟨finished, split, read, total, nonempty⟩, fun zero _ => ended zero (.inl ⟨n, rfl⟩),
      by simp [State.writerAt], by simp [State.writerAt], by simp [State.writerAt, WriterPc.left]⟩
  | release pc present =>
    have ended := inv.ended
    simp only [State.uncounted, pc] at total nonempty ended
    exact ⟨⟨finished, split, read, total, nonempty⟩, fun zero _ => ended zero (.inr (.inl trivial)),
      by simp [State.writerAt], by simp [State.writerAt], by simp [State.writerAt, WriterPc.left]⟩
  | more pc nonzero =>
    simp only [State.uncounted, pc] at total nonempty
    exact ⟨⟨finished, split, read, total, nonempty⟩, by simp [State.writerAt], fun _ => nonzero,
      by simp [State.writerAt], by simp [State.writerAt, WriterPc.left]⟩
  | stop pc zero =>
    have ended := inv.ended
    have announced := inv.announced pc
    simp only [State.uncounted, pc, zero] at total nonempty ended announced
    exact ⟨⟨finished, split, read, total, nonempty⟩, by simp [State.writerAt],
      by simp [State.writerAt], by simp [State.writerAt],
      fun _ => ⟨announced, ended trivial (.inr (.inr trivial))⟩⟩
  | total pc =>
    have word := inv.total_ne_zero noWrap pc
    simp only [State.uncounted, pc] at total
    rw [if_pos word]
    exact ⟨⟨finished, split, read, by simpa [State.uncounted] using total, by simp [State.uncounted]⟩,
      by simp, by simp, by simp, by simp [WriterPc.left]⟩
  | drain pc present free | remove pc =>
    have left := inv.left (by simp [pc, WriterPc.left])
    simp only [State.uncounted, pc] at total nonempty
    exact ⟨⟨finished, split, read, total, nonempty⟩, by simp [State.writerAt],
      by simp [State.writerAt], by simp [State.writerAt], fun _ => left⟩

theorem ReaderMove.account {blocks : List Block} {s t : State} (move : ReaderMove s t)
    (inv : Account blocks s) : Account blocks t := by
  obtain ⟨writer, seg, stdin, taken, -, published, -⟩ := move.frame
  have uncounted : t.uncounted = s.uncounted := by simp only [State.uncounted, writer, seg]
  obtain ⟨cut, ended, counting, announced, left⟩ := inv
  rw [← writer, ← seg, ← stdin, ← taken, ← published, ← uncounted] at *
  exact ⟨cut, ended, counting, announced, left⟩

theorem step_account {blocks : List Block} (noWrap : NoWrap blocks) (s : State) (party : Party)
    (t : State) (inv : (Sync s ∧ Balance s) ∧ Account blocks s) (taken : step s party = some t) :
    (Sync t ∧ Balance t) ∧ Account blocks t := by
  refine ⟨step_balance s party t inv.1 taken, ?_⟩
  cases party with
  | writer => exact (stepWriter_move taken).account noWrap inv.1.1 inv.2
  | reader => exact (stepReader_move taken).account inv.2

/-- Streams that avoid the wrap are transferred completely. -/
theorem completes_of_noWrap (seg : Shmseg) {blocks : List Block} (noWrap : NoWrap blocks) :
    Completes seg blocks := by
  intro s reached
  obtain ⟨⟨sync, balance⟩, account⟩ := reached.invariant (step_account noWrap)
    ⟨⟨start_sync seg blocks, start_balance seg blocks⟩, start_account seg blocks⟩
  refine ⟨fun left => (account.left left).1, fun removed => ?_⟩
  obtain ⟨tokens, done⟩ := sync.gone removed
  have drained := (account.left (by simp [done, WriterPc.left])).2
  obtain ⟨finished, split, taken, -⟩ := account.cut
  have idle := sync.idle_of_removed removed
  rw [← balance.settled idle (by simp [done]), taken, split, drained, List.append_nil]

/-! ## The converse: driving the writer out of its loop -/

/-- Both programs stand at their loop heads with the turn on the writer's side. -/
structure AtHead (s : State) (rest : List Block) (total : BitVec 32) : Prop where
  writer : s.writer.pc = .reserve
  reader : s.reader.pc = .reserve
  turn : s.sems.value .writeSem = 1 ∧ s.sems.value .readSem = 0 ∧ s.sems.removed = false
  stdin : s.stdin = rest
  bytes : s.writer.bytes = total
  published : 0#32 ∉ s.published

theorem start_atHead (seg : Shmseg) (blocks : List Block) : AtHead (start seg blocks) blocks 0 where
  writer := rfl
  reader := rfl
  turn := by simp [start, initSemInUse, initSemAvailable]
  stdin := rfl
  bytes := rfl
  published := by simp [start]

/-- The writer's half of a round, up to the sum that ends it. -/
theorem AtHead.write {s : State} {block : Block} {rest : List Block} {total : BitVec 32}
    (head : AtHead s (block :: rest) total) :
    ∃ t, exec step s (List.replicate 6 .writer) = some t ∧ 0#32 ∉ t.published ∧ t.stdin = rest ∧
      t.reader.pc = .reserve ∧ t.sems.value .writeSem = 0 ∧ t.sems.value .readSem = 1 ∧
      t.sems.removed = false ∧ t.seg.cnt = BitVec.ofNat 32 block.bytes.length ∧
      t.writer.bytes = total + BitVec.ofNat 32 block.bytes.length ∧
      t.writer.pc = if total + BitVec.ofNat 32 block.bytes.length = 0#32 then .drain else .reserve := by
  obtain ⟨writer, reader, ⟨up, down, present⟩, stdin, bytes, published⟩ := head
  have nonzero := block.length_word_ne_zero
  simp [exec, List.replicate, step, stepWriter, writer, reader, stdin, bytes, published, reserveSem,
    releaseSem, present, up, down, Semop.andThen, State.writerAt, nonzero, nonzero.symm]

/-- One complete round: the block is counted without a wrap and the reader gives the turn back. -/
theorem AtHead.round {s : State} {block : Block} {rest : List Block} {total : BitVec 32}
    (head : AtHead s (block :: rest) total)
    (noWrap : total + BitVec.ofNat 32 block.bytes.length ≠ 0#32) :
    ∃ t, Reachable step s t ∧ AtHead t rest (total + BitVec.ofNat 32 block.bytes.length) := by
  obtain ⟨t, written, published, stdin, reader, up, down, present, cnt, bytes, writer⟩ := head.write
  rw [if_neg noWrap] at writer
  have nonzero := block.length_word_ne_zero
  have answer : ∃ u, exec step t (List.replicate 5 .reader) = some u ∧
      u.writer = t.writer ∧ u.stdin = t.stdin ∧ u.published = t.published ∧
      u.reader.pc = .reserve ∧ u.sems.value .writeSem = 1 ∧ u.sems.value .readSem = 0 ∧
      u.sems.removed = false := by
    simp [exec, List.replicate, step, stepReader, reader, reserveSem, releaseSem, present, up, down,
      Semop.andThen, State.readerAt, cnt, nonzero]
  obtain ⟨u, answered, sameWriter, sameStdin, samePublished, reader, up, down, present⟩ := answer
  refine ⟨u, Reachable.trans ⟨_, written⟩ ⟨_, answered⟩, ?_⟩
  exact ⟨by rw [sameWriter, writer], reader, ⟨up, down, present⟩, by rw [sameStdin, stdin],
    by rw [sameWriter, bytes], by rw [samePublished]; exact published⟩

/-- The first wrap drives the writer out of the loop although it has published no zero count. -/
theorem AtHead.leaves {s : State} {blocks : List Block} {before : ℕ}
    (head : AtHead s blocks (BitVec.ofNat 32 before)) {k : ℕ} (positive : 1 ≤ k)
    (bound : k ≤ blocks.length)
    (wraps : (before + (stream (blocks.take k)).length) % 2 ^ 32 = 0) :
    ∃ t, Reachable step s t ∧ t.writer.pc.left = true ∧ 0#32 ∉ t.published := by
  induction blocks generalizing s before k with
  | nil => simp only [List.length_nil] at bound; omega
  | cons block rest ih =>
    have sum : BitVec.ofNat 32 before + BitVec.ofNat 32 block.bytes.length =
        BitVec.ofNat 32 (before + block.bytes.length) := (BitVec.ofNat_add ..).symm
    by_cases zero : BitVec.ofNat 32 before + BitVec.ofNat 32 block.bytes.length = 0#32
    · obtain ⟨t, written, published, -, -, -, -, -, -, -, writer⟩ := head.write
      rw [if_pos zero] at writer
      exact ⟨t, ⟨_, written⟩, by simp [writer, WriterPc.left], published⟩
    · obtain ⟨t, rounded, next⟩ := head.round zero
      rw [sum] at next zero
      obtain ⟨k, rfl⟩ : ∃ j, k = j + 1 := ⟨k - 1, by omega⟩
      have length : (stream ((block :: rest).take (k + 1))).length =
          block.bytes.length + (stream (rest.take k)).length := by simp [stream]
      rw [length, ← Nat.add_assoc] at wraps
      have later : 1 ≤ k := by
        by_contra none
        obtain rfl : k = 0 := by omega
        apply zero
        apply BitVec.eq_of_toNat_eq
        simpa [stream] using wraps
      obtain ⟨u, left, outside⟩ := ih next later (by simpa using bound) wraps
      exact ⟨u, rounded.trans left, outside⟩

/-- A stream that brings the total to 0 is not transferred as the loop promises. -/
theorem not_completes_of_wrap (seg : Shmseg) {blocks : List Block} {k : ℕ} (positive : 1 ≤ k)
    (bound : k ≤ blocks.length) (wraps : (stream (blocks.take k)).length % 2 ^ 32 = 0) :
    ¬ Completes seg blocks := by
  intro complete
  have head : AtHead (start seg blocks) blocks (BitVec.ofNat 32 0) := start_atHead seg blocks
  obtain ⟨t, reached, left, outside⟩ := head.leaves positive bound (by simpa using wraps)
  exact outside ((complete t reached).1 left)

/-- The loop keeps its promise exactly for the streams that never bring the total to 0. -/
theorem completes_iff_noWrap (seg : Shmseg) (blocks : List Block) :
    Completes seg blocks ↔ NoWrap blocks := by
  constructor
  · intro complete k positive bound wraps
    exact not_completes_of_wrap seg positive bound wraps complete
  · exact completes_of_noWrap seg

/-- One full buffer of zero bytes. -/
def zeroBlock : Block :=
  ⟨List.replicate bufSize 0, by rw [List.length_replicate]; decide, List.length_replicate.le⟩

/-- Four gibibytes in full buffers end the transfer before the end of file is announced. -/
theorem not_completes_four_gibibytes :
    ¬ Completes zeroSeg (List.replicate (2 ^ 22) zeroBlock) := by
  apply not_completes_of_wrap zeroSeg (show 1 ≤ 2 ^ 22 by decide) List.length_replicate.ge
  have whole : (List.replicate (2 ^ 22) zeroBlock).take (2 ^ 22) = List.replicate (2 ^ 22) zeroBlock :=
    List.take_of_length_le List.length_replicate.le
  have bytes : zeroBlock.bytes.length = 1024 := List.length_replicate
  have total : (stream (List.replicate (2 ^ 22) zeroBlock)).length = 2 ^ 22 * 1024 := by
    rw [stream, List.length_flatMap, List.map_replicate, List.sum_replicate_nat, bytes]
  rw [whole]
  exact (congrArg (· % 2 ^ 32) total).trans (by decide)

end SystemProgramming.SharedTransfer
