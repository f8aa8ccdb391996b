import SystemProgramming.SharedTransfer.Invariant

/-! # Alternation and delivery of the shared-memory transfer

The token invariant says who may touch the segment; this module adds where the bytes are. Whatever
the interleaving, standard output together with the block in the segment that waits to be written
is what the writer has read.
-/

namespace SystemProgramming.SharedTransfer

open Lib

/-- Reading a block of at most `bufSize` bytes makes it the first bytes of the buffer. -/
theorem Shmseg.firstBytes_fill (seg : Shmseg) (block : Block) :
    (seg.fill block).firstBytes (BitVec.ofNat 32 block.bytes.length) = block.bytes := by
  have fits := block.fits
  have small : block.bytes.length < 2 ^ 32 := by unfold bufSize at fits; omega
  rw [firstBytes, BitVec.toNat_ofNat, Nat.mod_eq_of_lt small]
  exact List.take_left

@[simp] theorem Shmseg.firstBytes_zero (seg : Shmseg) : seg.firstBytes 0#32 = [] := by
  simp [firstBytes]

/-- A block is in the segment and the reader has still to write it. -/
def State.awaiting (s : State) : Prop :=
  s.writer.pc = .release ∨ s.sems.value .readSem = 1 ∨
    s.reader.pc = .test ∨ s.reader.pc = .total ∨ s.reader.pc = .write

/-- Where the bytes read from standard input are. -/
structure Balance (s : State) : Prop where
  awaited : s.awaiting → s.taken = s.stdout ++ s.seg.firstBytes s.seg.cnt
  filled : ∀ n, s.writer.pc = .store n → s.taken = s.stdout ++ s.seg.firstBytes n
  settled : ¬ s.awaiting → (∀ n, s.writer.pc ≠ .store n) → s.taken = s.stdout
  current : s.writer.pc = .release ∨ s.writer.pc = .test ∨ s.writer.pc = .total →
    s.seg.cnt = s.stored

theorem start_balance (seg : Shmseg) (blocks : List Block) : Balance (start seg blocks) where
  awaited := by simp [State.awaiting, start, initSemInUse]
  filled := by simp [start]
  settled := by simp [start]
  current := by simp [start]

/-- While the writer has its turn the reader has neither a turn nor a block. -/
theorem Sync.not_awaiting {s : State} (inv : Sync s) (turn : s.writer.pc.holds = 1)
    (early : s.writer.pc ≠ .release) : ¬ s.awaiting := by
  have running : s.writer.pc ≠ .done := by
    intro done
    simp [done, WriterPc.holds] at turn
  have token := inv.token (inv.present running)
  simp only [State.tokens, turn] at token
  rintro (release | free | test | total | write)
  · exact early release
  · omega
  · simp only [test, ReaderPc.holds] at token; omega
  · simp only [total, ReaderPc.holds] at token; omega
  · simp only [write, ReaderPc.holds] at token; omega

/-- After the removal no block waits for the reader. -/
theorem Sync.idle_of_removed {s : State} (inv : Sync s) (removed : s.sems.removed = true) :
    ¬ s.awaiting := by
  obtain ⟨token, done⟩ := inv.gone removed
  simp only [State.tokens] at token
  rintro (release | free | test | total | write)
  · simp [done] at release
  · omega
  · simp only [test, ReaderPc.holds] at token; omega
  · simp only [total, ReaderPc.holds] at token; omega
  · simp only [write, ReaderPc.holds] at token; omega

/-- While the reader has its turn no round of the writer is open. -/
theorem Sync.writer_outside {s : State} (inv : Sync s) (turn : s.reader.pc.holds = 1) :
    s.writer.pc.holds = 0 ∧ s.sems.value .readSem = 0 := by
  cases removed : s.sems.removed with
  | false =>
    have token := inv.token removed
    simp only [State.tokens, turn] at token
    omega
  | true =>
    have token := (inv.gone removed).1
    simp only [State.tokens, turn] at token
    omega

/-- A step that moves no byte and leaves the reader's claim on the segment as it was. -/
theorem Balance.pass {s t : State} (inv : Balance s) (awaiting : t.awaiting ↔ s.awaiting)
    (bytes : t.seg = s.seg ∧ t.taken = s.taken ∧ t.stdout = s.stdout)
    (before : ∀ n, s.writer.pc ≠ .store n) (after : ∀ n, t.writer.pc ≠ .store n)
    (current : t.writer.pc = .release ∨ t.writer.pc = .test ∨ t.writer.pc = .total →
      t.seg.cnt = t.stored) : Balance t := by
  obtain ⟨seg, taken, stdout⟩ := bytes
  refine ⟨?_, fun n stored => (after n stored).elim, ?_, current⟩
  · rw [awaiting, seg, taken, stdout]
    exact inv.awaited
  · rw [awaiting, taken, stdout]
    exact fun settled _ => inv.settled settled before

/-- After `read` the bytes in front of the store are all that is not written yet: no block was waiting. -/
theorem Balance.of_read {s t : State} {n : BitVec 32} (inv : Balance s) (sync : Sync s)
    (pc : s.writer.pc = .read) (store : t.writer.pc = .store n) (awaiting : t.awaiting → s.awaiting)
    (filled : s.taken = s.stdout → t.taken = t.stdout ++ t.seg.firstBytes n) : Balance t := by
  have idle := sync.not_awaiting (by simp [pc, WriterPc.holds]) (by simp [pc])
  have same := inv.settled idle (by simp [pc])
  refine ⟨fun waits => (idle (awaiting waits)).elim, ?_, fun _ other => (other n store).elim, by simp [store]⟩
  intro m stored
  cases store.symm.trans stored
  exact filled same

theorem WriterMove.balance {s t : State} (move : WriterMove s t) (sync : Sync s) (inv : Balance s) :
    Balance t := by
  cases move with
  | lost pc gone => simp [(sync.gone gone).2] at pc
  | reserve pc present free | drain pc present free | remove pc =>
    exact inv.pass (by simp [State.awaiting, State.writerAt, pc]) ⟨rfl, rfl, rfl⟩ (by simp [pc])
      (by simp [State.writerAt]) (by simp [State.writerAt])
  | eof pc ended =>
    apply inv.of_read sync pc rfl
    · simp [State.awaiting, State.writerAt, pc]
    · intro same
      simpa [State.writerAt] using same
  | read pc block rest input =>
    apply inv.of_read sync pc rfl
    · simp [State.awaiting, State.writerAt, pc]
    · intro same
      simp only [State.writerAt, same, Shmseg.firstBytes_fill]
  | store n pc =>
    exact ⟨fun _ => inv.filled n pc, by simp [State.writerAt],
      by simp [State.awaiting, State.writerAt], fun _ => rfl⟩
  | release pc present =>
    have token := sync.token present
    simp only [State.tokens, pc, WriterPc.holds] at token
    have empty : s.sems.value .readSem = 0 := by omega
    exact ⟨fun _ => inv.awaited (.inl pc), by simp [State.writerAt],
      by simp [State.awaiting, State.writerAt, empty], fun _ => inv.current (.inl pc)⟩
  | more pc _ | stop pc _ =>
    exact inv.pass (by simp [State.awaiting, State.writerAt, pc]) ⟨rfl, rfl, rfl⟩ (by simp [pc])
      (by simp [State.writerAt]) (fun _ => inv.current (.inr (.inl pc)))
  | total pc =>
    by_cases wrapped : s.writer.bytes + s.seg.cnt = 0
    · rw [if_neg (not_not.mpr wrapped)]
      exact inv.pass (by simp [State.awaiting, pc]) ⟨rfl, rfl, rfl⟩ (by simp [pc]) (by simp) (by simp)
    · rw [if_pos wrapped]
      exact inv.pass (by simp [State.awaiting, pc]) ⟨rfl, rfl, rfl⟩ (by simp [pc]) (by simp) (by simp)

theorem ReaderMove.balance {s t : State} (move : ReaderMove s t) (sync : Sync s) (inv : Balance s) :
    Balance t := by
  cases move with
  | lost gone =>
    have done := (sync.gone gone).2
    have idle := sync.idle_of_removed gone
    refine ⟨?_, by simp [State.readerAt, done],
      fun _ _ => inv.settled idle (by simp [done]), by simp [State.readerAt, done]⟩
    rintro (release | free | other)
    · exact (idle (.inl release)).elim
    · exact (idle (.inr (.inl free))).elim
    · simp [State.readerAt] at other
  | reserve pc present free =>
    have token := sync.token present
    simp only [State.tokens] at token
    have announced : s.sems.value .readSem = 1 := by omega
    exact ⟨fun _ => inv.awaited (.inr (.inl announced)), inv.filled,
      by simp [State.awaiting, State.readerAt], inv.current⟩
  | more pc _ =>
    exact ⟨fun _ => inv.awaited (.inr (.inr (.inl pc))), inv.filled,
      by simp [State.awaiting, State.readerAt], inv.current⟩
  | stop pc zero =>
    have awaited := inv.awaited (.inr (.inr (.inl pc)))
    exact ⟨fun _ => awaited, inv.filled,
      fun _ _ => by simpa [State.readerAt, zero] using awaited, inv.current⟩
  | total pc =>
    exact ⟨fun _ => inv.awaited (.inr (.inr (.inr (.inl pc)))), inv.filled,
      by simp [State.awaiting], inv.current⟩
  | write pc =>
    obtain ⟨outside, empty⟩ := sync.writer_outside (by simp [pc, ReaderPc.holds])
    refine ⟨?_, ?_, fun _ _ => inv.awaited (.inr (.inr (.inr (.inr pc)))), inv.current⟩
    · rintro (release | free | other)
      · have release : s.writer.pc = .release := release
        simp [release, WriterPc.holds] at outside
      · have free : s.sems.value .readSem = 1 := free
        omega
      · simp [State.readerAt] at other
    · intro n stored
      have stored : s.writer.pc = .store n := stored
      simp [stored, WriterPc.holds] at outside
  | release pc present | finish pc present =>
    obtain ⟨outside, empty⟩ := sync.writer_outside (by simp [pc, ReaderPc.holds])
    have still (n) : s.writer.pc ≠ .store n := by
      intro stored
      simp [stored, WriterPc.holds] at outside
    exact inv.pass (by simp [State.awaiting, State.readerAt, pc]) ⟨rfl, rfl, rfl⟩ still still inv.current

theorem step_balance (s : State) (party : Party) (t : State) (inv : Sync s ∧ Balance s)
    (taken : step s party = some t) : Sync t ∧ Balance t := by
  refine ⟨step_sync s party t inv.1 taken, ?_⟩
  cases party with
  | writer => exact (stepWriter_move taken).balance inv.1 inv.2
  | reader => exact (stepReader_move taken).balance inv.1 inv.2

theorem reachable_balance {seg : Shmseg} {blocks : List Block} {s : State}
    (reached : Reachable step (start seg blocks) s) : Sync s ∧ Balance s :=
  reached.invariant step_balance ⟨start_sync seg blocks, start_balance seg blocks⟩

/-- Standard output is what has been read from standard input, up to one block on its way. -/
theorem Balance.stdout_prefix {s : State} (inv : Balance s) : s.stdout <+: s.taken := by
  by_cases awaiting : s.awaiting
  · rw [inv.awaited awaiting]
    exact List.prefix_append _ _
  · by_cases storing : ∃ n, s.writer.pc = .store n
    · obtain ⟨n, stored⟩ := storing
      rw [inv.filled n stored]
      exact List.prefix_append _ _
    · rw [inv.settled awaiting (not_exists.mp storing)]

/-- The semaphores never allow two turns. -/
theorem Sync.value_le {s : State} (inv : Sync s) :
    s.sems.value .writeSem + s.sems.value .readSem ≤ 1 := by
  cases removed : s.sems.removed with
  | false =>
    have token := inv.token removed
    simp only [State.tokens] at token
    omega
  | true =>
    have token := (inv.gone removed).1
    simp only [State.tokens] at token
    omega

theorem ReaderPc.holds_of_using {pc : ReaderPc} (active : pc.using = true) : pc.holds = 1 := by
  cases pc <;> simp_all [ReaderPc.using, ReaderPc.holds]

theorem WriterPc.holds_of_filling {pc : WriterPc} (active : pc.filling = true) : pc.holds = 1 := by
  cases pc <;> simp_all [WriterPc.filling, WriterPc.holds]

/-- In every state of every interleaving: at most one semaphore is up, filling and using the
segment exclude each other, the count the writer tests is the one it stored in that round, and
standard output is a prefix of the input read so far. -/
theorem alternating_transfer (seg : Shmseg) (blocks : List Block) (s : State)
    (reached : Reachable step (start seg blocks) s) :
    s.sems.value .writeSem + s.sems.value .readSem ≤ 1 ∧
      ¬ (s.writer.pc.filling = true ∧ s.reader.pc.using = true) ∧
      (s.writer.pc = .test ∨ s.writer.pc = .total → s.seg.cnt = s.stored) ∧
      s.stdout <+: s.taken := by
  obtain ⟨sync, balance⟩ := reachable_balance reached
  refine ⟨sync.value_le, ?_, fun tests => balance.current (.inr tests), balance.stdout_prefix⟩
  rintro ⟨filling, using_⟩
  have outside := (sync.writer_outside (ReaderPc.holds_of_using using_)).1
  rw [WriterPc.holds_of_filling filling] at outside
  contradiction

/-- A segment as `ftruncate` leaves it. -/
def zeroSeg : Shmseg := ⟨0, List.replicate bufSize 0, List.length_replicate⟩

/-- The writer has published a single byte and tests its count, the reader is using the segment. -/
def publishedByte : State :=
  (exec step (start zeroSeg [⟨[65], by decide, by decide⟩])
    [.writer, .writer, .writer, .writer, .reader, .reader]).get (by decide +kernel)

theorem alternating_transfer_publishedByte :
    publishedByte.sems.value .writeSem + publishedByte.sems.value .readSem ≤ 1 ∧
      ¬ (publishedByte.writer.pc.filling = true ∧ publishedByte.reader.pc.using = true) ∧
      (publishedByte.writer.pc = .test ∨ publishedByte.writer.pc = .total →
        publishedByte.seg.cnt = publishedByte.stored) ∧
      publishedByte.stdout <+: publishedByte.taken :=
  alternating_transfer zeroSeg [⟨[65], by decide, by decide⟩] publishedByte
    ⟨[.writer, .writer, .writer, .writer, .reader, .reader], (Option.some_get _).symm⟩

end SystemProgramming.SharedTransfer
