import SystemProgramming.SharedTransfer.Model
import Mathlib.Data.List.Infix

/-! # What every interleaving of the transfer keeps

The two semaphores and the two critical sections share one token, which nobody holds once the set
is removed. While the token is on the reader's side, the bytes still missing from standard output
are exactly the block in the segment; this accounts for every byte the writer has read.
-/

namespace SystemProgramming.SharedTransfer

open Lib

/-! ## Semaphore operations -/

@[simp] theorem SemSet.set_removed (sems : SemSet) (semNum : SemNum) (val : ℕ) :
    (sems.set semNum val).removed = sems.removed := rfl

@[simp] theorem SemSet.set_value (sems : SemSet) (semNum other : SemNum) (val : ℕ) :
    (sems.set semNum val).value other = if other = semNum then val else sems.value other := rfl

/-- A reservation either fails on a removed set or takes one unit. -/
theorem reserveSem_andThen {sems : SemSet} {semNum : SemNum} {failure t : State}
    {next : SemSet → State} :
    (reserveSem sems semNum).andThen failure next = some t ↔
      sems.removed = true ∧ failure = t ∨
      sems.removed = false ∧ 0 < sems.value semNum ∧
        next (sems.set semNum (sems.value semNum - 1)) = t := by
  unfold reserveSem
  cases sems.removed with
  | true => simp [Semop.andThen]
  | false =>
    by_cases empty : sems.value semNum = 0
    · simp [Semop.andThen, empty]
    · simp [Semop.andThen, empty, Nat.pos_of_ne_zero empty]

/-- A release either fails on a removed set or adds one unit. -/
theorem releaseSem_andThen {sems : SemSet} {semNum : SemNum} {failure t : State}
    {next : SemSet → State} :
    (releaseSem sems semNum).andThen failure next = some t ↔
      sems.removed = true ∧ failure = t ∨
      sems.removed = false ∧ next (sems.set semNum (sems.value semNum + 1)) = t := by
  unfold releaseSem
  cases sems.removed <;> simp [Semop.andThen]

/-! ## What one step can do -/

/-- The steps of the writer, each with the condition under which it is taken. -/
inductive WriterMove (s : State) : State → Prop
  | lost (pc : s.writer.pc = .reserve ∨ s.writer.pc = .release ∨ s.writer.pc = .drain)
      (gone : s.sems.removed = true) : WriterMove s (s.writerAt .failed)
  | reserve (pc : s.writer.pc = .reserve) (present : s.sems.removed = false)
      (free : 0 < s.sems.value .writeSem) :
      WriterMove s ({ s with sems := s.sems.set .writeSem (s.sems.value .writeSem - 1) }.writerAt .read)
  | eof (pc : s.writer.pc = .read) (ended : s.stdin = []) : WriterMove s (s.writerAt (.store 0))
  | read (pc : s.writer.pc = .read) (block : Block) (rest : List Block)
      (input : s.stdin = block :: rest) :
      WriterMove s ({ s with
        seg := s.seg.fill block
        stdin := rest
        taken := s.taken ++ block.bytes }.writerAt (.store (BitVec.ofNat 32 block.bytes.length)))
  | store (n : BitVec 32) (pc : s.writer.pc = .store n) :
      WriterMove s ({ s with seg := { s.seg with cnt := n }, stored := n }.writerAt .release)
  | release (pc : s.writer.pc = .release) (present : s.sems.removed = false) :
      WriterMove s ({ s with
        sems := s.sems.set .readSem (s.sems.value .readSem + 1)
        published := s.published ++ [s.seg.cnt] }.writerAt .test)
  | more (pc : s.writer.pc = .test) (nonzero : s.seg.cnt ≠ 0) : WriterMove s (s.writerAt .total)
  | stop (pc : s.writer.pc = .test) (zero : s.seg.cnt = 0) : WriterMove s (s.writerAt .drain)
  | total (pc : s.writer.pc = .total) :
      WriterMove s { s with writer :=
        ⟨if s.writer.bytes + s.seg.cnt ≠ 0 then .reserve else .drain,
          s.writer.bytes + s.seg.cnt, s.writer.xfrs + 1⟩ }
  | drain (pc : s.writer.pc = .drain) (present : s.sems.removed = false)
      (free : 0 < s.sems.value .writeSem) :
      WriterMove s ({ s with sems := s.sems.set .writeSem (s.sems.value .writeSem - 1) }.writerAt .remove)
  | remove (pc : s.writer.pc = .remove) :
      WriterMove s ({ s with sems := { s.sems with removed := true } }.writerAt .done)

/-- The steps of the reader. -/
inductive ReaderMove (s : State) : State → Prop
  | lost (gone : s.sems.removed = true) : ReaderMove s (s.readerAt .failed)
  | reserve (pc : s.reader.pc = .reserve) (present : s.sems.removed = false)
      (free : 0 < s.sems.value .readSem) :
      ReaderMove s ({ s with sems := s.sems.set .readSem (s.sems.value .readSem - 1) }.readerAt .test)
  | more (pc : s.reader.pc = .test) (nonzero : s.seg.cnt ≠ 0) : ReaderMove s (s.readerAt .total)
  | stop (pc : s.reader.pc = .test) (zero : s.seg.cnt = 0) : ReaderMove s (s.readerAt .finish)
  | total (pc : s.reader.pc = .total) :
      ReaderMove s { s with reader := ⟨.write, s.reader.bytes + s.seg.cnt, s.reader.xfrs⟩ }
  | write (pc : s.reader.pc = .write) :
      ReaderMove s ({ s with stdout := s.stdout ++ s.seg.firstBytes s.seg.cnt }.readerAt .release)
  | release (pc : s.reader.pc = .release) (present : s.sems.removed = false) :
      ReaderMove s { s with
        sems := s.sems.set .writeSem (s.sems.value .writeSem + 1)
        reader := ⟨.reserve, s.reader.bytes, s.reader.xfrs + 1⟩ }
  | finish (pc : s.reader.pc = .finish) (present : s.sems.removed = false) :
      ReaderMove s ({ s with
        sems := s.sems.set .writeSem (s.sems.value .writeSem + 1) }.readerAt .done)

theorem stepWriter_move {s t : State} (taken : stepWriter s = some t) : WriterMove s t := by
  unfold stepWriter at taken
  split at taken
  case h_1 pc =>
    rcases reserveSem_andThen.mp taken with ⟨gone, rfl⟩ | ⟨present, free, rfl⟩
    · exact .lost (.inl pc) gone
    · exact .reserve pc present free
  case h_2 pc =>
    split at taken
    · next ended => cases taken; exact .eof pc ended
    · next block rest input => cases taken; exact .read pc block rest input
  case h_3 n pc => cases taken; exact .store n pc
  case h_4 pc =>
    rcases releaseSem_andThen.mp taken with ⟨gone, rfl⟩ | ⟨present, rfl⟩
    · exact .lost (.inr (.inl pc)) gone
    · exact .release pc present
  case h_5 pc =>
    cases taken
    by_cases zero : s.seg.cnt = 0
    · rw [if_neg (not_not.mpr zero)]; exact .stop pc zero
    · rw [if_pos zero]; exact .more pc zero
  case h_6 pc => cases taken; exact .total pc
  case h_7 pc =>
    rcases reserveSem_andThen.mp taken with ⟨gone, rfl⟩ | ⟨present, free, rfl⟩
    · exact .lost (.inr (.inr pc)) gone
    · exact .drain pc present free
  case h_8 pc => cases taken; exact .remove pc
  all_goals contradiction

theorem stepReader_move {s t : State} (taken : stepReader s = some t) : ReaderMove s t := by
  unfold stepReader at taken
  split at taken
  case h_1 pc =>
    rcases reserveSem_andThen.mp taken with ⟨gone, rfl⟩ | ⟨present, free, rfl⟩
    · exact .lost gone
    · exact .reserve pc present free
  case h_2 pc =>
    cases taken
    by_cases zero : s.seg.cnt = 0
    · rw [if_pos zero]; exact .stop pc zero
    · rw [if_neg zero]; exact .more pc zero
  case h_3 pc => cases taken; exact .total pc
  case h_4 pc => cases taken; exact .write pc
  case h_5 pc =>
    rcases releaseSem_andThen.mp taken with ⟨gone, rfl⟩ | ⟨present, rfl⟩
    · exact .lost gone
    · exact .release pc present
  case h_6 pc =>
    rcases releaseSem_andThen.mp taken with ⟨gone, rfl⟩ | ⟨present, rfl⟩
    · exact .lost gone
    · exact .finish pc present
  all_goals contradiction

/-- The reader's steps change neither the segment nor anything the writer owns. -/
theorem ReaderMove.frame {s t : State} (move : ReaderMove s t) :
    t.writer = s.writer ∧ t.seg = s.seg ∧ t.stdin = s.stdin ∧ t.taken = s.taken ∧
      t.stored = s.stored ∧ t.published = s.published ∧ t.sems.removed = s.sems.removed := by
  cases move <;> exact ⟨rfl, rfl, rfl, rfl, rfl, rfl, rfl⟩

/-! ## The token -/

/-- The writer owns the turn it reserved and has not passed on. -/
def WriterPc.holds : WriterPc → ℕ
  | .read | .store _ | .release | .remove => 1
  | .reserve | .test | .total | .drain | .done | .failed => 0

def ReaderPc.holds : ReaderPc → ℕ
  | .test | .total | .write | .release | .finish => 1
  | .reserve | .done | .failed => 0

/-- How many units of the token there are: in the semaphores and in the critical sections. -/
def State.tokens (s : State) : ℕ :=
  s.sems.value .writeSem + s.sems.value .readSem + s.writer.pc.holds + s.reader.pc.holds

/-- One token moves between the semaphores and the critical sections until the set is removed. -/
structure Sync (s : State) : Prop where
  token : s.sems.removed = false → s.tokens = 1
  gone : s.sems.removed = true → s.tokens = 0 ∧ s.writer.pc = .done
  alive : s.writer.pc ≠ .failed

theorem start_sync (seg : Shmseg) (blocks : List Block) : Sync (start seg blocks) where
  token := by simp [State.tokens, start, initSemInUse, initSemAvailable, WriterPc.holds, ReaderPc.holds]
  gone := by simp [start, initSemInUse, initSemAvailable]
  alive := by simp [start]

/-- Only a writer that has ended can have removed the set. -/
theorem Sync.present {s : State} (inv : Sync s) (running : s.writer.pc ≠ .done) :
    s.sems.removed = false := by
  cases removed : s.sems.removed with
  | false => rfl
  | true => exact (running (inv.gone removed).2).elim

theorem WriterMove.sync {s t : State} (move : WriterMove s t) (inv : Sync s) : Sync t := by
  cases move with
  | lost pc gone => simp [(inv.gone gone).2] at pc
  | reserve pc present free | drain pc present free | release pc present =>
    have token := inv.token present
    simp only [State.tokens, pc, WriterPc.holds] at token
    refine ⟨fun _ => ?_, by simp [State.writerAt, present], by simp [State.writerAt]⟩
    simp only [State.tokens, State.writerAt, SemSet.set_value, WriterPc.holds, reduceCtorEq,
      if_false, if_true]
    omega
  | eof pc _ | read pc _ _ _ | store _ pc | more pc _ | stop pc _ =>
    have present := inv.present (by simp [pc])
    refine ⟨fun _ => ?_, by simp [State.writerAt, present], by simp [State.writerAt]⟩
    simpa [State.tokens, State.writerAt, pc, WriterPc.holds] using inv.token present
  | total pc =>
    have present := inv.present (by simp [pc])
    have token := inv.token present
    simp only [State.tokens, pc, WriterPc.holds] at token
    by_cases wrapped : s.writer.bytes + s.seg.cnt = 0
    · rw [if_neg (not_not.mpr wrapped)]
      exact ⟨fun _ => token, by simp [present], by simp⟩
    · rw [if_pos wrapped]
      exact ⟨fun _ => token, by simp [present], by simp⟩
  | remove pc =>
    have token := inv.token (inv.present (by simp [pc]))
    simp only [State.tokens, pc, WriterPc.holds] at token
    refine ⟨by simp [State.writerAt], fun _ => ⟨?_, rfl⟩, by simp [State.writerAt]⟩
    simp only [State.tokens, State.writerAt, WriterPc.holds]
    omega

theorem ReaderMove.sync {s t : State} (move : ReaderMove s t) (inv : Sync s) : Sync t := by
  obtain ⟨writer, -, -, -, -, -, removed⟩ := move.frame
  have tokens : t.tokens = s.tokens := by
    cases move with
    | lost gone =>
      have token := (inv.gone gone).1
      simp only [State.tokens, State.readerAt, ReaderPc.holds] at token ⊢
      omega
    | more pc _ | stop pc _ | total pc | write pc =>
      simp [State.tokens, State.readerAt, pc, ReaderPc.holds]
    | reserve pc present free | release pc present | finish pc present =>
      simp only [State.tokens, pc, State.readerAt, SemSet.set_value, ReaderPc.holds, reduceCtorEq,
        if_false, if_true]
      omega
  exact ⟨by rw [tokens, removed]; exact inv.token,
    by rw [tokens, removed, writer]; exact inv.gone, by rw [writer]; exact inv.alive⟩

theorem step_sync (s : State) (party : Party) (t : State) (inv : Sync s)
    (taken : step s party = some t) : Sync t := by
  cases party with
  | writer => exact (stepWriter_move taken).sync inv
  | reader => exact (stepReader_move taken).sync inv

end SystemProgramming.SharedTransfer
