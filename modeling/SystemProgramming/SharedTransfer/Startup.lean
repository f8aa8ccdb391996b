import SystemProgramming.SharedTransfer.Ending

/-! # Starting the writer and the reader

The writer creates the semaphores and the segment in six steps, and the reader, which is started at any time, opens
them in three. A set of semaphores may be left from a writer that was interrupted, with any values; its segment is
not, because the handler unlinks it. No step of the set-up waits. A mapping can be used only where the object
reaches, so the reader would be killed for looking into a segment that has no size yet.
-/

namespace SystemProgramming.SharedTransfer.Startup

open Lib

inductive WriterPhase where
  | semget
  | initSemAvailable
  | initSemInUse
  | shmOpen
  | ftruncate
  | mmap
  /-- Behind the set-up: in the transfer loop and up to the removal of the semaphores. -/
  | transfer
  /-- Behind `shm_unlink`. -/
  | ended
deriving DecidableEq, Repr

inductive ReaderPhase where
  | semget
  | shmOpen
  | mmap
  | transfer
  /-- `errExit` in the set-up. -/
  | failed
  /-- By `SIGBUS`. -/
  | killed
deriving DecidableEq, Repr

/-- The two programs and the names of the kernel objects. Both programs of `core` stand before their loops during
their set-up. -/
structure State where
  writer : WriterPhase
  reader : ReaderPhase
  semExists : Bool
  shmExists : Bool
  /-- The segment has its size. -/
  sized : Bool
  core : SharedTransfer.State

/-- What is left of an earlier transfer is at most a set of semaphores. -/
def cold (stale : Option (SemNum → ℕ)) (blocks : List Block) : State where
  writer := .semget
  reader := .semget
  semExists := stale.isSome
  shmExists := false
  sized := false
  core := { start zeroSeg blocks with sems := ⟨stale.getD fun _ => 0, false⟩ }

def State.withSems (s : State) (sems : SemSet) : State := { s with core := { s.core with sems := sems } }

def writerStep (s : State) : Option State :=
  match s.writer with
  | .semget =>
    -- a new set has the values 0
    let s := if s.semExists then s else s.withSems ⟨fun _ => 0, false⟩
    some { s with writer := .initSemAvailable, semExists := true }
  | .initSemAvailable =>
    some { s.withSems (initSemAvailable s.core.sems .writeSem) with writer := .initSemInUse }
  | .initSemInUse => some { s.withSems (initSemInUse s.core.sems .readSem) with writer := .shmOpen }
  | .shmOpen => some { s with writer := .ftruncate, shmExists := true }
  | .ftruncate => some { s with writer := .mmap, sized := true }
  | .mmap => some { s with writer := .transfer }
  | .transfer =>
    if s.core.writer.pc = .done then some { s with writer := .ended, shmExists := false }
    else (stepWriter s.core).map fun core => { s with core := core }
  | .ended => none

/-- The reader is about to look into the segment. -/
def ReaderPc.looks : ReaderPc → Bool
  | .test | .total | .write => true
  | .reserve | .release | .finish | .done | .failed => false

def readerStep (s : State) : Option State :=
  match s.reader with
  | .semget => some { s with reader := if s.semExists && !s.core.sems.removed then .shmOpen else .failed }
  | .shmOpen => some { s with reader := if s.shmExists then .mmap else .failed }
  | .mmap => some { s with reader := .transfer }
  | .transfer =>
    if ReaderPc.looks s.core.reader.pc && !s.sized then some { s with reader := .killed }
    else (stepReader s.core).map fun core => { s with core := core }
  | .failed | .killed => none

def step (s : State) : Party → Option State
  | .writer => writerStep s
  | .reader => readerStep s

/-! ## Up to the loops -/

/-- The reader has not opened the segment. -/
def ReaderPhase.Outside (phase : ReaderPhase) : Prop := phase = .semget ∨ phase = .shmOpen ∨ phase = .failed

/-- How far the two programs are. While there is no segment the reader cannot come to the semaphores. -/
inductive Stage (blocks : List Block) (s : State) : Prop
  | sems (phase : s.writer = .semget ∨ s.writer = .initSemAvailable ∨
        s.writer = .initSemInUse ∧ s.core.sems.value .writeSem = 1)
      (core : ∃ value, s.core = { start zeroSeg blocks with sems := ⟨value, false⟩ })
      (unopened : s.shmExists = false) (outside : s.reader.Outside)
  | segment (phase : s.writer = .shmOpen) (core : s.core = start zeroSeg blocks)
      (unopened : s.shmExists = false) (outside : s.reader.Outside)
  | sizing (phase : s.writer = .ftruncate ∨ s.writer = .mmap ∧ s.sized = true)
      (core : s.core = start zeroSeg blocks) (alive : s.reader ≠ .killed)
  | transfer (phase : s.writer = .transfer ∨
        s.writer = .ended ∧ s.core.writer.pc = .done ∧ s.shmExists = false)
      (sized : s.sized = true) (reached : Reachable SharedTransfer.step (start zeroSeg blocks) s.core)
      (alive : s.reader ≠ .killed)
      (aside : s.reader ≠ .transfer → s.core.reader.pc = .reserve ∧ s.core.stdout = [])

theorem stage_cold (stale : Option (SemNum → ℕ)) (blocks : List Block) : Stage blocks (cold stale blocks) :=
  .sems (.inl rfl) ⟨_, rfl⟩ rfl (.inl rfl)

section

variable {blocks : List Block} {s t : State}

theorem initSemInUse_eq_start (blocks : List Block) {value : SemNum → ℕ} (up : value .writeSem = 1) :
    initSemInUse ⟨value, false⟩ .readSem = (start zeroSeg blocks).sems := by
  simp only [initSemInUse, SemSet.set, start, initSemAvailable, SemSet.mk.injEq, and_true]
  funext other
  cases other
  · simpa using up
  · rfl

theorem Stage.writerStep (stage : Stage blocks s) (taken : writerStep s = some t) : Stage blocks t := by
  cases stage with
  | sems phase core unopened outside =>
    obtain ⟨value, core⟩ := core
    rcases phase with phase | phase | ⟨phase, up⟩
    · simp only [Startup.writerStep, phase, Option.some.injEq] at taken
      subst taken
      split
      · exact .sems (.inr (.inl rfl)) ⟨value, core⟩ unopened outside
      · refine .sems (.inr (.inl rfl)) ⟨fun _ => 0, ?_⟩ unopened outside
        simp [State.withSems, core]
    · simp only [Startup.writerStep, phase, Option.some.injEq] at taken
      subst taken
      refine .sems (.inr (.inr ⟨rfl, ?_⟩)) ⟨(initSemAvailable s.core.sems .writeSem).value, ?_⟩ unopened outside
      · simp [State.withSems, initSemAvailable]
      · simp [State.withSems, core, initSemAvailable, SemSet.set]
    · simp only [Startup.writerStep, phase, Option.some.injEq] at taken
      subst taken
      refine .segment rfl ?_ unopened outside
      rw [core] at up
      simp only [State.withSems, core, initSemInUse_eq_start blocks up]
  | segment phase core unopened outside =>
    simp only [Startup.writerStep, phase, Option.some.injEq] at taken
    subst taken
    refine .sizing (.inl rfl) core ?_
    rintro (killed : s.reader = .killed)
    rw [killed] at outside
    rcases outside with h | h | h
    all_goals cases h
  | sizing phase core alive =>
    rcases phase with phase | ⟨phase, sized⟩
    · simp only [Startup.writerStep, phase, Option.some.injEq] at taken
      subst taken
      exact .sizing (.inr ⟨rfl, rfl⟩) core alive
    · simp only [Startup.writerStep, phase, Option.some.injEq] at taken
      subst taken
      exact .transfer (.inl rfl) sized (core ▸ .refl _) alive fun _ => core ▸ ⟨rfl, rfl⟩
  | transfer phase sized reached alive aside =>
    rcases phase with phase | ⟨phase, -⟩
    · simp only [Startup.writerStep, phase] at taken
      split at taken
      · next done =>
        cases taken
        exact .transfer (.inr ⟨rfl, done, rfl⟩) sized reached alive aside
      · obtain ⟨core, moves, rfl⟩ := Option.map_eq_some_iff.mp taken
        have further : Reachable SharedTransfer.step (start zeroSeg blocks) core :=
          reached.trans (.of_step (e := Party.writer) moves)
        refine .transfer (.inl rfl) sized further alive fun elsewhere => ?_
        obtain ⟨reader, stdout⟩ := (stepWriter_move moves).frame
        rw [show core.reader = s.core.reader from reader, show core.stdout = s.core.stdout from stdout]
        exact aside elsewhere
    · simp only [Startup.writerStep, phase] at taken
      cases taken

/-- Before the loop of the writer the reader waits at its own. -/
theorem stepReader_start (blocks : List Block) : stepReader (start zeroSeg blocks) = none := rfl

/-- What the reader can do: a step of its set-up, which opens the segment only if it exists, a look into a segment
without a size, or a step of its loop. -/
theorem readerStep_cases (taken : readerStep s = some t) :
    (∃ phase, t = { s with reader := phase } ∧ phase ≠ .killed ∧ s.reader ≠ .transfer ∧
        (s.reader.Outside → s.shmExists = false → phase.Outside)) ∨
      s.reader = .transfer ∧ ReaderPc.looks s.core.reader.pc = true ∧ s.sized = false ∨
      s.reader = .transfer ∧ ∃ core, stepReader s.core = some core ∧ t = { s with core := core } := by
  unfold readerStep at taken
  split at taken
  case h_1 reader =>
    refine .inl ⟨_, (Option.some.inj taken).symm, ?_, by simp [reader], fun _ _ => ?_⟩
    · split <;> simp
    · split
      · exact .inr (.inl rfl)
      · exact .inr (.inr rfl)
  case h_2 reader =>
    refine .inl ⟨_, (Option.some.inj taken).symm, ?_, by simp [reader], fun _ unopened => ?_⟩
    · split <;> simp
    · rw [unopened]
      exact .inr (.inr rfl)
  case h_3 reader =>
    refine .inl ⟨_, (Option.some.inj taken).symm, by simp, by simp [reader], fun outside => ?_⟩
    simp [reader, ReaderPhase.Outside] at outside
  case h_4 reader =>
    split at taken
    · next looking =>
      rw [Bool.and_eq_true, Bool.not_eq_true'] at looking
      exact .inr (.inl ⟨reader, looking⟩)
    · obtain ⟨core, moves, rfl⟩ := Option.map_eq_some_iff.mp taken
      exact .inr (.inr ⟨reader, core, moves, rfl⟩)
  all_goals cases taken

theorem ReaderPhase.Outside.ne {phase : ReaderPhase} (outside : phase.Outside) :
    phase ≠ .transfer ∧ phase ≠ .killed := by
  rcases outside with rfl | rfl | rfl
  all_goals simp

theorem Stage.readerStep (stage : Stage blocks s) (taken : readerStep s = some t) : Stage blocks t := by
  have cases := readerStep_cases taken
  cases stage with
  | sems phase core unopened outside =>
    rcases cases with ⟨next, rfl, -, -, stays⟩ | ⟨reader, -⟩ | ⟨reader, -⟩
    · exact .sems phase core unopened (stays outside unopened)
    · exact absurd reader outside.ne.1
    · exact absurd reader outside.ne.1
  | segment phase core unopened outside =>
    rcases cases with ⟨next, rfl, -, -, stays⟩ | ⟨reader, -⟩ | ⟨reader, -⟩
    · exact .segment phase core unopened (stays outside unopened)
    · exact absurd reader outside.ne.1
    · exact absurd reader outside.ne.1
  | sizing phase core alive =>
    rcases cases with ⟨next, rfl, living, -, -⟩ | ⟨-, looking, -⟩ | ⟨-, after, moves, -⟩
    · exact .sizing phase core living
    · rw [core] at looking
      cases looking
    · rw [core, stepReader_start] at moves
      cases moves
  | transfer phase sized reached alive aside =>
    rcases cases with ⟨next, rfl, living, elsewhere, -⟩ | ⟨-, -, unsized⟩ | ⟨reader, core, moves, rfl⟩
    · exact .transfer phase sized reached living fun _ => aside elsewhere
    · rw [sized] at unsized
      cases unsized
    · have further : Reachable SharedTransfer.step (start zeroSeg blocks) core :=
        reached.trans (.of_step (e := Party.reader) moves)
      refine .transfer ?_ sized further alive fun elsewhere => absurd reader elsewhere
      rcases phase with phase | ⟨phase, done, unlinked⟩
      · exact .inl phase
      · refine .inr ⟨phase, ?_, unlinked⟩
        rwa [show core.writer = s.core.writer from (stepReader_move moves).frame.1]

theorem stage_step {party : Party} (stage : Stage blocks s) (taken : step s party = some t) : Stage blocks t := by
  cases party with
  | writer => exact stage.writerStep taken
  | reader => exact stage.readerStep taken

theorem stage_of_reachable {stale : Option (SemNum → ℕ)} (reached : Reachable step (cold stale blocks) s) :
    Stage blocks s :=
  reached.invariant (fun _ _ _ => stage_step) (stage_cold stale blocks)

/-! ## The end -/

def WriterPhase.rank : WriterPhase → ℕ
  | .semget => 8
  | .initSemAvailable => 7
  | .initSemInUse => 5
  | .shmOpen => 4
  | .ftruncate => 3
  | .mmap => 2
  | .transfer => 1
  | .ended => 0

def ReaderPhase.rank : ReaderPhase → ℕ
  | .semget => 4
  | .shmOpen => 3
  | .mmap => 2
  | .transfer => 1
  | .failed | .killed => 0

def State.fuel (s : State) : ℕ := s.writer.rank + s.reader.rank + s.core.fuel

theorem writerStep_fuel (taken : writerStep s = some t) : t.fuel < s.fuel := by
  unfold writerStep at taken
  split at taken
  case h_1 phase =>
    cases taken
    have less : (if s.semExists then s else s.withSems ⟨fun _ => 0, false⟩).core.fuel ≤ s.core.fuel := by
      split
      · exact Nat.le_refl _
      · simp [State.withSems, SharedTransfer.State.fuel]
        omega
    have reader : (if s.semExists then s else s.withSems ⟨fun _ => 0, false⟩).reader = s.reader := by
      split <;> rfl
    simp only [State.fuel, phase, reader, WriterPhase.rank]
    omega
  case h_2 phase =>
    cases taken
    simp only [State.fuel, State.withSems, SharedTransfer.State.fuel, phase, WriterPhase.rank, initSemAvailable,
      SemSet.set_value, reduceCtorEq, if_true, if_false]
    omega
  case h_3 phase =>
    cases taken
    simp only [State.fuel, State.withSems, SharedTransfer.State.fuel, phase, WriterPhase.rank, initSemInUse,
      SemSet.set_value, reduceCtorEq, if_true, if_false]
    omega
  case h_7 phase =>
    split at taken
    · cases taken
      simp only [State.fuel, phase, WriterPhase.rank]
      omega
    · obtain ⟨core, moves, rfl⟩ := Option.map_eq_some_iff.mp taken
      have fewer := (stepWriter_move moves).fuel
      simp only [State.fuel]
      omega
  case h_8 => cases taken
  all_goals
    cases taken
    simp only [State.fuel, *, WriterPhase.rank]
    omega

theorem readerStep_fuel (taken : readerStep s = some t) : t.fuel < s.fuel := by
  unfold readerStep at taken
  split at taken
  case h_4 phase =>
    split at taken
    · cases taken
      simp only [State.fuel, phase, ReaderPhase.rank]
      omega
    · obtain ⟨core, moves, rfl⟩ := Option.map_eq_some_iff.mp taken
      have fewer := stepReader_fuel moves
      simp only [State.fuel]
      omega
  case h_1 phase =>
    cases taken
    simp only [State.fuel, phase]
    split
    all_goals
      simp only [ReaderPhase.rank]
      omega
  case h_2 phase =>
    cases taken
    simp only [State.fuel, phase]
    split
    all_goals
      simp only [ReaderPhase.rank]
      omega
  case h_3 phase =>
    cases taken
    simp only [State.fuel, phase, ReaderPhase.rank]
    omega
  all_goals cases taken

theorem step_fuel (s : State) (party : Party) (t : State) (taken : step s party = some t) : t.fuel < s.fuel := by
  cases party with
  | writer => exact writerStep_fuel taken
  | reader => exact readerStep_fuel taken

/-- In whatever order the two programs are started and go on, the reader is not killed, writes nothing without the
set-up, and has written what the writer has read up to one block. -/
theorem cold_start_safe {stale : Option (SemNum → ℕ)} (reached : Reachable step (cold stale blocks) s) :
    s.reader ≠ .killed ∧ (s.reader ≠ .transfer → s.core.stdout = []) ∧ s.core.stdout <+: s.core.taken ∧
      ¬ (s.core.writer.pc.filling = true ∧ s.core.reader.pc.using = true) := by
  have before (core : s.core.writer.pc = .reserve ∧ s.core.stdout = []) (alive : s.reader ≠ .killed) :
      s.reader ≠ .killed ∧ (s.reader ≠ .transfer → s.core.stdout = []) ∧ s.core.stdout <+: s.core.taken ∧
        ¬ (s.core.writer.pc.filling = true ∧ s.core.reader.pc.using = true) := by
    refine ⟨alive, fun _ => core.2, core.2 ▸ List.nil_prefix, fun both => ?_⟩
    rw [core.1] at both
    cases both.1
  cases stage_of_reachable reached with
  | sems _ core _ outside =>
    obtain ⟨value, core⟩ := core
    exact before (core ▸ ⟨rfl, rfl⟩) outside.ne.2
  | segment _ core _ outside => exact before (core ▸ ⟨rfl, rfl⟩) outside.ne.2
  | sizing _ core alive => exact before (core ▸ ⟨rfl, rfl⟩) alive
  | transfer _ _ reached alive aside =>
    obtain ⟨sync, balance⟩ := reachable_balance reached
    refine ⟨alive, fun elsewhere => (aside elsewhere).2, balance.stdout_prefix, ?_⟩
    rintro ⟨filling, using_⟩
    have outside := (sync.writer_outside (ReaderPc.holds_of_using using_)).1
    rw [WriterPc.holds_of_filling filling] at outside
    cases outside

theorem Stage.transferring (stage : Stage blocks s) (phase : s.writer = .transfer ∨ s.writer = .ended) :
    (s.writer = .ended → s.core.writer.pc = .done ∧ s.shmExists = false) ∧
      Reachable SharedTransfer.step (start zeroSeg blocks) s.core ∧ s.reader ≠ .killed ∧
        (s.reader ≠ .transfer → s.core.reader.pc = .reserve ∧ s.core.stdout = []) := by
  cases stage with
  | sems early => rcases early with early | early | ⟨early, -⟩ <;> simp [early] at phase
  | segment early => simp [early] at phase
  | sizing early => rcases early with early | ⟨early, -⟩ <;> simp [early] at phase
  | transfer closed _ reached alive aside =>
    refine ⟨fun ended => ?_, reached, alive, aside⟩
    rcases closed with transfer | ⟨-, done, unlinked⟩
    · cases ended.symm.trans transfer
    · exact ⟨done, unlinked⟩

/-- No step of the set-up waits. -/
theorem stops_of_terminal (terminal : Terminal step s) :
    (s.writer = .transfer ∧ stepWriter s.core = none ∧ s.core.writer.pc ≠ .done ∨ s.writer = .ended) ∧
      (s.reader = .transfer ∧ stepReader s.core = none ∨ s.reader = .failed ∨ s.reader = .killed) := by
  constructor
  · have stops : writerStep s = none := terminal .writer
    unfold writerStep at stops
    split at stops
    case h_7 phase =>
      split at stops
      · cases stops
      · next running => exact .inl ⟨phase, Option.map_eq_none_iff.mp stops, running⟩
    case h_8 phase => exact .inr phase
    all_goals cases stops
  · have stops : readerStep s = none := terminal .reader
    unfold readerStep at stops
    split at stops
    case h_4 phase =>
      split at stops
      · cases stops
      · exact .inl ⟨phase, Option.map_eq_none_iff.mp stops⟩
    case h_5 phase => exact .inr (.inl phase)
    case h_6 phase => exact .inr (.inr phase)
    all_goals cases stops

/-- Every run comes to an end, and there the reader has either found nothing to open, or everything has been
transferred and nothing is left of the kernel objects. -/
theorem cold_start_completes (stale : Option (SemNum → ℕ)) (noWrap : NoWrap blocks) :
    (∃ bound, ∀ es s, exec step (cold stale blocks) es = some s → es.length ≤ bound) ∧
      ∀ s, Reachable step (cold stale blocks) s → Terminal step s →
        s.reader = .failed ∧ s.core.stdout = [] ∨
          s.writer = .ended ∧ s.core.reader.pc = .done ∧ s.core.stdout = stream blocks ∧
            s.core.sems.removed = true ∧ s.shmExists = false := by
  constructor
  · refine ⟨(cold stale blocks).fuel, fun es s ran => ?_⟩
    have := exec_length_le (μ := State.fuel) step_fuel ran
    omega
  · intro s reached terminal
    obtain ⟨writer, reader⟩ := stops_of_terminal terminal
    obtain ⟨closed, reached, alive, aside⟩ :=
      (stage_of_reachable reached).transferring (writer.imp And.left id)
    obtain ⟨⟨⟨sync, -⟩, -⟩, closing⟩ := reachable_closing noWrap reached
    rcases reader with ⟨-, readerStops⟩ | failed | killed
    · rcases writer with ⟨-, writerStops, running⟩ | ended
      · have stopped : Terminal SharedTransfer.step s.core := by
          rintro (_ | _)
          · exact writerStops
          · exact readerStops
        exact absurd (done_of_terminal stopped sync closing).1 running
      · obtain ⟨done, unlinked⟩ := closed ended
        have removed := closing.removed done
        exact .inr ⟨ended, closing.waited (.inr done), (completes_of_noWrap zeroSeg noWrap s.core reached).2 removed,
          removed, unlinked⟩
    · exact .inl ⟨failed, (aside (by simp [failed])).2⟩
    · exact absurd killed alive

/-- One byte, transferred by a reader that is started while the writer is setting up. -/
def oneByte : List Block :=
  [⟨[.ofNat 65], Nat.le_refl 1, by rw [List.length_singleton, bufSize]; omega⟩]

theorem noWrap_oneByte : NoWrap oneByte := by
  intro k positive bound
  obtain rfl : k = 1 := by
    rw [oneByte, List.length_singleton] at bound
    omega
  decide

theorem oneByte_completes :
    (∃ bound, ∀ es s, exec step (cold none oneByte) es = some s → es.length ≤ bound) ∧
      ∀ s, Reachable step (cold none oneByte) s → Terminal step s →
        s.reader = .failed ∧ s.core.stdout = [] ∨
          s.writer = .ended ∧ s.core.reader.pc = .done ∧ s.core.stdout = stream oneByte ∧
            s.core.sems.removed = true ∧ s.shmExists = false :=
  cold_start_completes none noWrap_oneByte

/-- The reader waits for its turn before the segment has a size. -/
def readerAhead : State :=
  (exec step (cold (some fun _ => 1) oneByte)
    [.writer, .writer, .writer, .reader, .writer, .reader, .reader]).get (by decide +kernel)

theorem readerAhead_safe :
    readerAhead.reader ≠ .killed ∧ (readerAhead.reader ≠ .transfer → readerAhead.core.stdout = []) ∧
      readerAhead.core.stdout <+: readerAhead.core.taken ∧
      ¬ (readerAhead.core.writer.pc.filling = true ∧ readerAhead.core.reader.pc.using = true) :=
  cold_start_safe ⟨[.writer, .writer, .writer, .reader, .writer, .reader, .reader], (Option.some_get _).symm⟩

end

end SystemProgramming.SharedTransfer.Startup
