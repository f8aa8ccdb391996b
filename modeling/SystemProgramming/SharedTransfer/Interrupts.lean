import SystemProgramming.SharedTransfer.Delivery

/-! # The transfer with `SIGINT`

Both programs install a handler that releases the writer's semaphore and exits, whatever the program
was doing. A session is one writer and one reader after another, with the signal delivered to either
at any point between its set-up and its exit. The turn is a single unit shared by the semaphores, the
processes and the handlers under way; a handler adds a unit unless its process had the turn.

`pending` and `overwritten` are history: no step reads them.
-/

namespace SystemProgramming.SharedTransfer

open Lib

/-- How far a process is; the writer unlinks the segment in its handler too. -/
inductive Life where
  | running
  | handling
  | unlinking
  | ended
deriving DecidableEq, Repr

/-- `pending`: the block published last has not been consumed. `overwritten`: a block was refilled
while it was pending. -/
structure Session where
  base : State
  writer : Life
  reader : Life
  linked : Bool
  pending : Bool
  overwritten : Bool

/-- The writer is set up and there has been no reader. -/
def startSession (seg : Shmseg) (blocks : List Block) : Session where
  base := start seg blocks
  writer := .running
  reader := .ended
  linked := true
  pending := false
  overwritten := false

/-- `WriterMove` for a writer that runs; its last step unlinks the segment and exits. -/
def runWriter (s : Session) : Option Session :=
  if s.base.writer.pc = .done then some { s with writer := .ended, linked := false }
  else (stepWriter s.base).map fun base => { s with
    base := base
    pending := s.pending || (decide (s.base.writer.pc = .release) && decide (base.writer.pc = .test))
    overwritten := s.overwritten || (s.pending && decide (s.base.writer.pc = .read)) }

/-- The reader's next statement consumes the block: it is copied, or seen to be the end. -/
def State.consumes (s : State) : Bool :=
  decide (s.reader.pc = .write) || (decide (s.reader.pc = .test) && decide (s.seg.cnt = 0))

def runReader (s : Session) : Option Session :=
  if s.base.reader.pc = .done then some { s with reader := .ended }
  else (stepReader s.base).map fun base => { s with
    base := base
    pending := s.pending && !s.base.consumes }

/-- `__clean_shmid` of the writer: release, then unlink, unmap and exit. -/
def handleWriter (s : Session) : Option Session :=
  match releaseSem s.base.sems .writeSem with
  | .waits => none
  | .fails => some { s with writer := .ended }
  | .returns sems => some { s with base := { s.base with sems := sems }, writer := .unlinking }

/-- `__clean_shmid` of the reader: release, then unmap and exit. -/
def handleReader (s : Session) : Option Session :=
  match releaseSem s.base.sems .writeSem with
  | .waits => none
  | .fails => some { s with reader := .ended }
  | .returns sems => some { s with base := { s.base with sems := sems }, reader := .ended }

inductive SessionEvent where
  | run (party : Party)
  | sigint (party : Party)
  | newReader
deriving DecidableEq, Repr

/-- The last reader has exited, by itself or because an operation failed. -/
def Session.readerOver (s : Session) : Bool :=
  decide (s.reader = .ended) || (decide (s.reader = .running) && decide (s.base.reader.pc = .failed))

def stepSession (s : Session) : SessionEvent → Option Session
  | .run .writer =>
    match s.writer with
    | .running => runWriter s
    | .handling => handleWriter s
    | .unlinking => some { s with writer := .ended, linked := false }
    | .ended => none
  | .run .reader =>
    match s.reader with
    | .running => runReader s
    | .handling => handleReader s
    | .unlinking => none
    | .ended => none
  | .sigint .writer =>
    if s.writer = .running ∧ s.base.writer.pc ≠ .failed then some { s with writer := .handling }
    else none
  | .sigint .reader =>
    if s.reader = .running ∧ s.base.reader.pc ≠ .failed then some { s with reader := .handling }
    else none
  -- the set-up needs the semaphore set and the name of the segment
  | .newReader =>
    if s.readerOver = true ∧ s.linked = true ∧ s.base.sems.removed = false then
      some { s with base := { s.base with reader := ⟨.reserve, 0, 0⟩ }, reader := .running }
    else none

/-! ## The turn -/

/-- The two semaphores are never up together, and no block is refilled before it is consumed. -/
def KeepsTurn (s : Session) : Prop :=
  s.base.sems.value .writeSem + s.base.sems.value .readSem ≤ 1 ∧ s.overwritten = false

/-- The writer's part of the turn; a handler will pass on a unit, the last turn is never passed on. -/
def Session.writerShare (s : Session) : ℕ :=
  match s.writer with
  | .running => if s.base.writer.pc = .remove then 0 else s.base.writer.pc.holds
  | .handling => 1
  | .unlinking => 0
  | .ended => 0

def Session.readerShare (s : Session) : ℕ :=
  match s.reader with
  | .running => s.base.reader.pc.holds
  | .handling => 1
  | .unlinking => 0
  | .ended => 0

/-- The writer will fill the segment again. -/
def Session.refills (s : Session) : Bool :=
  decide (s.writer = .running) &&
    match s.base.writer.pc with
    | .reserve => true
    | .test => s.base.seg.cnt != 0 && s.base.writer.bytes + s.base.seg.cnt != 0
    | .total => s.base.writer.bytes + s.base.seg.cnt != 0
    | .read | .store _ | .release | .drain | .remove | .done | .failed => false

/-- A signal finds nobody else with the turn, and at a reader also no block that is still to be
consumed before the writer fills the segment again. Once the set is removed it does no harm. -/
def Harmless (s : Session) : SessionEvent → Prop
  | .sigint .writer => s.base.sems.removed = true ∨
      s.base.sems.value .writeSem + s.base.sems.value .readSem + s.readerShare = 0
  | .sigint .reader => s.base.sems.removed = true ∨
      s.base.sems.value .writeSem + s.base.sems.value .readSem + s.writerShare = 0 ∧
        (s.pending = true → s.refills = false)
  | .run _ => True
  | .newReader => True

instance (s : Session) : (e : SessionEvent) → Decidable (Harmless s e)
  | .sigint .writer => inferInstanceAs (Decidable (_ ∨ _))
  | .sigint .reader => inferInstanceAs (Decidable (_ ∨ _))
  | .run _ => isTrue trivial
  | .newReader => isTrue trivial

/-- The reader has the turn and has not consumed the block. -/
def ReaderPc.unread : ReaderPc → Bool
  | .test | .total | .write => true
  | .reserve | .release | .finish | .done | .failed => false

/-- All units of the turn. -/
def Session.shares (s : Session) : ℕ :=
  s.base.sems.value .writeSem + s.base.sems.value .readSem + s.writerShare + s.readerShare

structure Safe (s : Session) : Prop where
  shares : s.base.sems.removed = false → s.shares ≤ 1
  gone : s.base.sems.removed = true → s.base.writer.pc = .done ∧
    s.base.sems.value .writeSem + s.base.sems.value .readSem ≤ 1
  filling : s.writer = .running → s.base.writer.pc.filling = true → s.pending = false
  /-- A block that would be refilled is announced or in a reader's hands. -/
  kept : s.pending = true → s.refills = true →
    0 < s.base.sems.value .readSem ∨ s.reader = .running ∧ s.base.reader.pc.unread = true
  clean : s.overwritten = false

theorem startSession_safe (seg : Shmseg) (blocks : List Block) : Safe (startSession seg blocks) where
  shares := fun _ => le_of_eq rfl
  gone := nofun
  filling := nofun
  kept := nofun
  clean := rfl

theorem Safe.keepsTurn {s : Session} (inv : Safe s) : KeepsTurn s := by
  refine ⟨?_, inv.clean⟩
  cases removed : s.base.sems.removed with
  | true => exact (inv.gone removed).2
  | false =>
    have whole := inv.shares removed
    rw [Session.shares] at whole
    omega

/-! ## What each event keeps -/

theorem Safe.present {s : Session} (inv : Safe s) (running : s.base.writer.pc ≠ .done) :
    s.base.sems.removed = false := by
  cases removed : s.base.sems.removed with
  | false => rfl
  | true => exact absurd (inv.gone removed).1 running

/-- A writer that can reserve its turn has had its last block consumed. -/
theorem Safe.consumed {s : Session} (inv : Safe s) (life : s.writer = .running)
    (pc : s.base.writer.pc = .reserve) (free : 0 < s.base.sems.value .writeSem) :
    s.pending = false := by
  by_contra pending
  have whole := inv.shares (inv.present (by simp [pc]))
  have refills : s.refills = true := by simp [Session.refills, life, pc]
  rw [Session.shares] at whole
  rcases inv.kept (by simpa using pending) refills with up | ⟨reading, unread⟩
  · omega
  · have turn : s.readerShare = 1 := by
      rw [Session.readerShare, reading]
      cases at_ : s.base.reader.pc <;> simp [at_, ReaderPc.unread, ReaderPc.holds] at unread ⊢
    omega

/-- A step that does not remove the set and adds no unit. -/
theorem Safe.of_shares {s t : Session} (inv : Safe s) (present : s.base.sems.removed = false)
    (still : t.base.sems.removed = false) (shares : t.shares ≤ s.shares)
    (filling : t.writer = .running → t.base.writer.pc.filling = true → t.pending = false)
    (kept : t.pending = true → t.refills = true →
      0 < t.base.sems.value .readSem ∨ t.reader = .running ∧ t.base.reader.pc.unread = true)
    (clean : t.overwritten = false) : Safe t where
  shares := fun _ => shares.trans (inv.shares present)
  gone := fun removed => by simp [still] at removed
  filling := filling
  kept := kept
  clean := clean

/-- A step that leaves the semaphores and the writer alone. -/
theorem Safe.of_sems {s t : Session} (inv : Safe s) (sems : t.base.sems = s.base.sems)
    (pc : t.base.writer.pc = s.base.writer.pc) (shares : t.shares ≤ s.shares)
    (filling : t.writer = .running → t.base.writer.pc.filling = true → t.pending = false)
    (kept : t.pending = true → t.refills = true →
      0 < t.base.sems.value .readSem ∨ t.reader = .running ∧ t.base.reader.pc.unread = true)
    (clean : t.overwritten = false) : Safe t where
  shares := fun present => shares.trans (inv.shares (sems ▸ present))
  gone := by
    rw [sems, pc]
    exact inv.gone
  filling := filling
  kept := kept
  clean := clean

/-- The units outside the reader while the writer runs. -/
def State.writerUnits (s : State) : ℕ :=
  s.sems.value .writeSem + s.sems.value .readSem + if s.writer.pc = .remove then 0 else s.writer.pc.holds

/-- A statement of the writer that leaves the set in place and adds no unit. -/
theorem Safe.of_writer {s : Session} (inv : Safe s) (life : s.writer = .running)
    (present : s.base.sems.removed = false) {base : State} {pending overwritten : Bool}
    (reader : base.reader = s.base.reader) (still : base.sems.removed = false)
    (units : base.writerUnits ≤ s.base.writerUnits)
    (filling : base.writer.pc.filling = true → pending = false)
    (kept : pending = true →
      ({ s with base := base, pending := pending, overwritten := overwritten } : Session).refills = true →
      0 < base.sems.value .readSem ∨ s.reader = .running ∧ base.reader.pc.unread = true)
    (clean : overwritten = false) :
    Safe { s with base := base, pending := pending, overwritten := overwritten } := by
  apply inv.of_shares present
  · exact still
  · simp only [Session.shares, Session.writerShare, life, Session.readerShare, reader]
    exact Nat.add_le_add_right units _
  · exact fun _ => filling
  · exact kept
  · exact clean

theorem Safe.runWriter {s t : Session} (inv : Safe s) (life : s.writer = .running)
    (taken : runWriter s = some t) : Safe t := by
  unfold SharedTransfer.runWriter at taken
  split at taken
  · next pc =>
    cases taken
    refine ⟨fun present => ?_, inv.gone, by simp, fun _ refills => ?_, inv.clean⟩
    · have whole := inv.shares present
      simp only [Session.shares, Session.writerShare, Session.readerShare] at whole ⊢
      omega
    · simp [Session.refills] at refills
  · next unfinished =>
    obtain ⟨base, moved, rfl⟩ := Option.map_eq_some_iff.mp taken
    have present := inv.present unfinished
    have kept := inv.kept
    have clean := inv.clean
    cases stepWriter_move moved with
    | lost pc gone => simp [present] at gone
    | reserve pc _ free =>
      have consumed := inv.consumed life pc free
      apply inv.of_writer life present
      · rfl
      · exact present
      · simp [State.writerUnits, pc, State.writerAt, WriterPc.holds]
        omega
      · simp [pc, consumed]
      · simp [pc, consumed]
      · simp [pc, clean]
    | eof pc ended | read pc block rest input =>
      have consumed := inv.filling life (by rw [pc]; rfl)
      apply inv.of_writer life present
      · rfl
      · exact present
      · simp [State.writerUnits, pc, State.writerAt, WriterPc.holds]
      · simp [pc, consumed]
      · simp [pc, consumed]
      · simp [consumed, clean]
    | store n pc =>
      have consumed := inv.filling life (by rw [pc]; rfl)
      apply inv.of_writer life present
      · rfl
      · exact present
      · simp [State.writerUnits, pc, State.writerAt, WriterPc.holds]
      · simp [pc, consumed]
      · simp [pc, consumed]
      · simp [pc, clean]
    | release pc =>
      apply inv.of_writer life present
      · rfl
      · exact present
      · simp [State.writerUnits, pc, State.writerAt, WriterPc.holds]
        omega
      · simp [State.writerAt, WriterPc.filling]
      · exact fun _ _ => .inl (by simp [State.writerAt])
      · simp [pc, clean]
    | more pc nonzero =>
      apply inv.of_writer life present
      · rfl
      · exact present
      · simp [State.writerUnits, pc, State.writerAt, WriterPc.holds]
      · simp [State.writerAt, WriterPc.filling]
      · intro pending refills
        apply kept
        · simpa [pc] using pending
        · have again : s.base.writer.bytes + s.base.seg.cnt ≠ 0 := by
            simpa [Session.refills, State.writerAt, life] using refills
          simpa [Session.refills, life, pc] using And.intro nonzero again
      · simp [pc, clean]
    | stop pc zero | drain pc _ free =>
      apply inv.of_writer life present
      · rfl
      · exact present
      · simp [State.writerUnits, pc, State.writerAt, WriterPc.holds]
      · simp [State.writerAt, WriterPc.filling]
      · simp [Session.refills, State.writerAt]
      · simp [pc, clean]
    | total pc =>
      apply inv.of_writer life present
      · rfl
      · exact present
      · by_cases more : s.base.writer.bytes + s.base.seg.cnt = 0#32 <;>
          simp [State.writerUnits, pc, WriterPc.holds, more]
      · by_cases more : s.base.writer.bytes + s.base.seg.cnt = 0#32 <;> simp [WriterPc.filling, more]
      · intro pending refills
        apply kept
        · simpa [pc] using pending
        · by_cases more : s.base.writer.bytes + s.base.seg.cnt = 0#32
          · simp [Session.refills, more] at refills
          · simp [Session.refills, life, pc, more]
      · simp [pc, clean]
    | remove pc =>
      have whole := inv.shares present
      refine ⟨by simp [State.writerAt], fun _ => ⟨rfl, ?_⟩, ?_, ?_, ?_⟩
      · rw [Session.shares] at whole
        simp only [State.writerAt]
        omega
      · simp [State.writerAt, WriterPc.filling]
      · simp [Session.refills, State.writerAt]
      · simp [pc, clean]

/-- The units after a statement of the reader. -/
theorem shares_of_reader {s : Session} {base : State} (life : s.reader = .running)
    (writer : base.writer = s.base.writer) (pending : Bool) :
    ({ s with base := base, pending := pending } : Session).shares =
      base.sems.value .writeSem + base.sems.value .readSem + s.writerShare +
        base.reader.pc.holds := by
  simp only [Session.shares, Session.readerShare, life, Session.writerShare, writer]

theorem Safe.runReader {s t : Session} (inv : Safe s) (life : s.reader = .running)
    (taken : runReader s = some t) : Safe t := by
  unfold SharedTransfer.runReader at taken
  split at taken
  · next pc =>
    cases taken
    refine ⟨fun present => ?_, inv.gone, inv.filling, fun pending refills => ?_, inv.clean⟩
    · have whole := inv.shares present
      simp only [Session.shares, Session.writerShare, Session.readerShare] at whole ⊢
      omega
    · rcases inv.kept pending refills with up | ⟨-, unread⟩
      · exact .inl up
      · simp [pc, ReaderPc.unread] at unread
  · next unfinished =>
    obtain ⟨base, moved, rfl⟩ := Option.map_eq_some_iff.mp taken
    have move := stepReader_move moved
    have before : s.shares = s.base.sems.value .writeSem + s.base.sems.value .readSem +
        s.writerShare + s.base.reader.pc.holds := shares_of_reader life rfl s.pending
    obtain ⟨writer, seg, -, -, -, -, removed⟩ := move.frame
    have filling : s.writer = .running → base.writer.pc.filling = true →
        (s.pending && !s.base.consumes) = false := by
      intro running fills
      simp [inv.filling running (by rw [← writer]; exact fills)]
    -- the writer's plans do not depend on the reader
    have refills : ({ s with base := base, pending := s.pending && !s.base.consumes } : Session).refills =
        s.refills := by
      simp only [Session.refills, writer, seg]
    have kept (pending : (s.pending && !s.base.consumes) = true) (again : s.refills = true) :=
      inv.kept (Bool.and_eq_true_iff.mp pending).1 again
    cases move with
    | lost gone =>
      refine ⟨fun present => ?_, fun _ => inv.gone gone, filling, fun pending again => ?_, inv.clean⟩
      · rw [removed, gone] at present
        cases present
      · rw [refills] at again
        have finished := (inv.gone gone).1
        simp [Session.refills, finished] at again
    | reserve pc present free =>
      apply inv.of_shares present
      · exact present
      · rw [before, shares_of_reader life]
        · simp [pc, State.readerAt, ReaderPc.holds]
          omega
        · rfl
      · exact filling
      · exact fun _ _ => .inr ⟨life, rfl⟩
      · exact inv.clean
    | more pc nonzero | total pc =>
      apply inv.of_sems
      · rfl
      · rfl
      · rw [before, shares_of_reader life]
        · simp [pc, State.readerAt, ReaderPc.holds]
        · rfl
      · exact filling
      · exact fun _ _ => .inr ⟨life, rfl⟩
      · exact inv.clean
    | stop pc zero | write pc =>
      have consumed : (s.pending && !s.base.consumes) = false := by simp_all [State.consumes]
      apply inv.of_sems
      · rfl
      · rfl
      · rw [before, shares_of_reader life]
        · simp [pc, State.readerAt, ReaderPc.holds]
        · rfl
      · exact filling
      · simp [consumed]
      · exact inv.clean
    | release pc present | finish pc present =>
      apply inv.of_shares present
      · exact present
      · rw [before, shares_of_reader life]
        · simp [pc, State.readerAt, ReaderPc.holds]
          omega
        · rfl
      · exact filling
      · intro pending again
        rw [refills] at again
        rcases kept pending again with up | ⟨-, unread⟩
        · exact .inl up
        · simp [pc, ReaderPc.unread] at unread
      · exact inv.clean

/-! ## Signals -/

/-- The handler's unit becomes the semaphore's. -/
theorem Safe.handleWriter {s t : Session} (inv : Safe s) (life : s.writer = .handling)
    (taken : handleWriter s = some t) : Safe t := by
  unfold SharedTransfer.handleWriter releaseSem at taken
  cases removed : s.base.sems.removed with
  | true =>
    simp only [removed, if_true, Option.some.injEq] at taken
    subst taken
    exact ⟨fun present => by simp [removed] at present, inv.gone, nofun,
      fun _ refills => by simp [Session.refills] at refills, inv.clean⟩
  | false =>
    simp only [removed, Bool.false_eq_true, if_false, Option.some.injEq] at taken
    subst taken
    apply inv.of_shares removed
    · exact removed
    · simp [Session.shares, Session.writerShare, Session.readerShare, life]
      omega
    · nofun
    · simp [Session.refills]
    · exact inv.clean

theorem Safe.handleReader {s t : Session} (inv : Safe s) (life : s.reader = .handling)
    (taken : handleReader s = some t) : Safe t := by
  have announced (pending : s.pending = true) (refills : s.refills = true) :
      0 < s.base.sems.value .readSem := by
    rcases inv.kept pending refills with up | ⟨reading, -⟩
    · exact up
    · simp [life] at reading
  unfold SharedTransfer.handleReader releaseSem at taken
  cases removed : s.base.sems.removed with
  | true =>
    simp only [removed, if_true, Option.some.injEq] at taken
    subst taken
    exact ⟨fun present => by simp [removed] at present, inv.gone, inv.filling,
      fun pending refills => .inl (announced pending refills), inv.clean⟩
  | false =>
    simp only [removed, Bool.false_eq_true, if_false, Option.some.injEq] at taken
    subst taken
    apply inv.of_shares removed
    · exact removed
    · simp [Session.shares, Session.writerShare, Session.readerShare, life]
      omega
    · exact inv.filling
    · exact fun pending refills => .inl (announced pending refills)
    · exact inv.clean

/-- The unit the handler will pass on is added to a turn nobody else has. -/
theorem Safe.interruptWriter {s : Session} (inv : Safe s) (live : s.base.sems.removed = true ∨
    s.base.sems.value .writeSem + s.base.sems.value .readSem + s.readerShare = 0) :
    Safe { s with writer := .handling } where
  shares := by
    intro (present : s.base.sems.removed = false)
    rcases live with removed | free
    · simp [present] at removed
    · simp only [Session.shares, Session.writerShare, Session.readerShare] at free ⊢
      omega
  gone := inv.gone
  filling := nofun
  kept := by simp [Session.refills]
  clean := inv.clean

theorem Safe.interruptReader {s : Session} (inv : Safe s) (live : s.base.sems.removed = true ∨
    s.base.sems.value .writeSem + s.base.sems.value .readSem + s.writerShare = 0 ∧
      (s.pending = true → s.refills = false)) :
    Safe { s with reader := .handling } where
  shares := by
    intro (present : s.base.sems.removed = false)
    rcases live with removed | ⟨free, -⟩
    · simp [present] at removed
    · simp only [Session.shares, Session.writerShare, Session.readerShare] at free ⊢
      omega
  gone := inv.gone
  filling := inv.filling
  kept := by
    intro (pending : s.pending = true) (refills : s.refills = true)
    rcases live with removed | ⟨-, spent⟩
    · have finished := (inv.gone removed).1
      simp [Session.refills, finished] at refills
    · simp [spent pending] at refills
  clean := inv.clean

/-- A reader that is over holds nothing, and neither does the next one. -/
theorem Safe.newReader {s : Session} (inv : Safe s) (idle : s.readerOver = true) :
    Safe { s with base := { s.base with reader := ⟨.reserve, 0, 0⟩ }, reader := .running } where
  shares := by
    intro present
    have whole := inv.shares present
    simp only [Session.shares, Session.writerShare, Session.readerShare, ReaderPc.holds] at whole ⊢
    omega
  gone := inv.gone
  filling := inv.filling
  kept := by
    intro (pending : s.pending = true) (refills : s.refills = true)
    rcases inv.kept pending refills with up | ⟨reading, unread⟩
    · exact .inl up
    · have failed : s.base.reader.pc = .failed := by simpa [Session.readerOver, reading] using idle
      simp [failed, ReaderPc.unread] at unread
  clean := inv.clean

theorem step_safe (s : Session) (e : SessionEvent) (t : Session) (inv : Safe s) (harmless : Harmless s e)
    (taken : stepSession s e = some t) : Safe t := by
  cases e with
  | run party =>
    cases party with
    | writer =>
      cases life : s.writer with
      | running => exact inv.runWriter life (by simpa [stepSession, life] using taken)
      | handling => exact inv.handleWriter life (by simpa [stepSession, life] using taken)
      | unlinking =>
        simp only [stepSession, life, Option.some.injEq] at taken
        subst taken
        apply inv.of_sems
        · rfl
        · rfl
        · simp [Session.shares, Session.writerShare, Session.readerShare, life]
        · nofun
        · simp [Session.refills]
        · exact inv.clean
      | ended => simp [stepSession, life] at taken
    | reader =>
      cases life : s.reader with
      | running => exact inv.runReader life (by simpa [stepSession, life] using taken)
      | handling => exact inv.handleReader life (by simpa [stepSession, life] using taken)
      | unlinking => simp [stepSession, life] at taken
      | ended => simp [stepSession, life] at taken
  | sigint party =>
    cases party with
    | writer =>
      obtain ⟨-, ⟨⟩⟩ := Option.ite_none_right_eq_some.mp taken
      exact inv.interruptWriter harmless
    | reader =>
      obtain ⟨-, ⟨⟩⟩ := Option.ite_none_right_eq_some.mp taken
      exact inv.interruptReader harmless
  | newReader =>
    obtain ⟨⟨idle, -, -⟩, ⟨⟩⟩ := Option.ite_none_right_eq_some.mp taken
    exact inv.newReader idle

/-- As long as every signal is harmless the turn is never doubled and no block is lost. -/
theorem exec_keepsTurn_of_harmless (seg : Shmseg) (blocks : List Block) (es : List SessionEvent)
    (s : Session) (ran : exec stepSession (startSession seg blocks) es = some s)
    (harmless : AllSteps stepSession Harmless (startSession seg blocks) es) : KeepsTurn s := by
  have inv := exec_invariant_of_allSteps step_safe ran harmless (startSession_safe seg blocks)
  exact inv.keepsTurn

/-- The writer is interrupted while it has the turn and a reader waits. -/
theorem exec_keepsTurn_of_harmless_holding : ∃ s, exec stepSession (startSession zeroSeg [])
    [.newReader, .run .writer, .sigint .writer, .run .writer, .run .writer] = some s ∧ KeepsTurn s := by
  have ran : exec stepSession (startSession zeroSeg [])
      [.newReader, .run .writer, .sigint .writer, .run .writer, .run .writer] = some _ :=
    (Option.some_get (by decide +kernel)).symm
  exact ⟨_, ran, exec_keepsTurn_of_harmless zeroSeg [] _ _ ran (by decide +kernel)⟩

/-- A reader interrupted while it waits for its turn adds a second one. -/
theorem not_keepsTurn_waitingReader : ¬ ∀ (seg : Shmseg) (blocks : List Block) (es : List SessionEvent)
    (s : Session), exec stepSession (startSession seg blocks) es = some s → KeepsTurn s := by
  intro keeps
  have ran : exec stepSession (startSession zeroSeg [])
      [.newReader, .sigint .reader, .run .reader] = some _ :=
    (Option.some_get (by decide +kernel)).symm
  have whole := (keeps zeroSeg [] _ _ ran).1
  revert whole
  decide +kernel

end SystemProgramming.SharedTransfer
