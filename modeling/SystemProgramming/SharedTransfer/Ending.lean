import SystemProgramming.SharedTransfer.Completion

/-! # How the transfer ends

Every step uses up some of what is left: each block takes the writer six steps and the reader five, and a
semaphore that is up stands for the steps of the party that may take it. The zero count is the last one to be
published; the reader that finds it gives the writer its turn back and has ended before the writer removes the
semaphores. So neither party is left waiting.
-/

namespace SystemProgramming.SharedTransfer

open Lib

/-! ## Every run ends -/

/-- One of two numbers, by whether a count is the last. -/
def byCount (last more : ℕ) (cnt : BitVec 32) : ℕ := if cnt = 0 then last else more

@[simp] theorem byCount_zero (last more : ℕ) : byCount last more 0 = last := rfl

theorem byCount_of_ne {last more : ℕ} {cnt : BitVec 32} (nonzero : cnt ≠ 0) : byCount last more cnt = more :=
  if_neg nonzero

theorem byCount_lt_add {last more last' more' gap : ℕ} (cnt : BitVec 32) (lasts : last + gap < last')
    (mores : more + gap < more') : byCount last more cnt + gap < byCount last' more' cnt := by
  by_cases zero : cnt = 0
  · rw [zero]
    exact lasts
  · rw [byCount_of_ne zero, byCount_of_ne zero]
    exact mores

/-- The steps of the writer up to its next block, or up to its end behind the last count. -/
def WriterPc.fuel (cnt : BitVec 32) : WriterPc → ℕ
  | .reserve | .read => 11
  | .store n => byCount 10 21 n
  | .release => byCount 9 20 cnt
  | .test => byCount 2 13 cnt
  | .total => 12
  | .drain | .remove => 1
  | .done | .failed => 0

def ReaderPc.fuel : ReaderPc → ℕ
  | .test => 6
  | .total => 5
  | .write => 4
  | .release | .finish => 3
  | .reserve => 1
  | .done | .failed => 0

def State.fuel (s : State) : ℕ :=
  11 * s.stdin.length + s.writer.pc.fuel s.seg.cnt + s.reader.pc.fuel + s.sems.value .writeSem +
    6 * s.sems.value .readSem

theorem WriterMove.fuel {s t : State} (move : WriterMove s t) : t.fuel < s.fuel := by
  cases move with
  | lost pc _ =>
    have left : 0 < s.writer.pc.fuel s.seg.cnt := by
      rcases pc with pc | pc | pc
      · simp [pc, WriterPc.fuel]
      · rw [pc]
        exact Nat.zero_lt_of_lt (byCount_lt_add s.seg.cnt (show 0 + 0 < 9 by decide) (show 0 + 0 < 20 by decide))
      · simp [pc, WriterPc.fuel]
    have none : WriterPc.failed.fuel s.seg.cnt = 0 := rfl
    simp only [State.fuel, State.writerAt, none]
    omega
  | reserve pc _ free | drain pc _ free =>
    simp only [State.fuel, State.writerAt, pc, WriterPc.fuel, SemSet.set_value, reduceCtorEq, if_false, if_true]
    omega
  | eof pc ended =>
    simp only [State.fuel, State.writerAt, pc, WriterPc.fuel, byCount_zero]
    omega
  | read pc block rest input =>
    have nonzero := block.length_word_ne_zero
    simp only [State.fuel, State.writerAt, pc, WriterPc.fuel, input, List.length_cons, byCount_of_ne nonzero]
    omega
  | store n pc =>
    have fewer := byCount_lt_add n (show 9 + 0 < 10 by decide) (show 20 + 0 < 21 by decide)
    simp only [State.fuel, State.writerAt, pc, WriterPc.fuel]
    omega
  | release pc _ =>
    have fewer := byCount_lt_add s.seg.cnt (show 2 + 6 < 9 by decide) (show 13 + 6 < 20 by decide)
    simp only [State.fuel, State.writerAt, pc, WriterPc.fuel, SemSet.set_value, reduceCtorEq, if_false, if_true]
    omega
  | more pc nonzero =>
    simp only [State.fuel, State.writerAt, pc, WriterPc.fuel, byCount_of_ne nonzero]
    omega
  | stop pc zero =>
    simp only [State.fuel, State.writerAt, pc, WriterPc.fuel, zero, byCount_zero]
    omega
  | total pc =>
    simp only [State.fuel, pc]
    split
    · simp only [WriterPc.fuel]
      omega
    · simp only [WriterPc.fuel]
      omega
  | remove pc =>
    simp only [State.fuel, State.writerAt, pc, WriterPc.fuel]
    omega

theorem stepReader_running {s t : State} (taken : stepReader s = some t) :
    s.reader.pc ≠ .done ∧ s.reader.pc ≠ .failed := by
  constructor
  · intro done
    simp [stepReader, done] at taken
  · intro failed
    simp [stepReader, failed] at taken

theorem ReaderPc.fuel_pos {pc : ReaderPc} (running : pc ≠ .done ∧ pc ≠ .failed) : 0 < pc.fuel := by
  cases pc with
  | done => exact absurd rfl running.1
  | failed => exact absurd rfl running.2
  | _ => simp [ReaderPc.fuel]

theorem stepReader_fuel {s t : State} (taken : stepReader s = some t) : t.fuel < s.fuel := by
  have left := ReaderPc.fuel_pos (stepReader_running taken)
  cases stepReader_move taken with
  | lost _ =>
    have none : ReaderPc.failed.fuel = 0 := rfl
    simp only [State.fuel, State.readerAt, none]
    omega
  | reserve pc _ free =>
    simp only [State.fuel, State.readerAt, pc, ReaderPc.fuel, SemSet.set_value, reduceCtorEq, if_false, if_true]
    omega
  | more pc _ | stop pc _ | total pc | write pc =>
    simp only [State.fuel, State.readerAt, pc, ReaderPc.fuel]
    omega
  | release pc _ | finish pc _ =>
    simp only [State.fuel, State.readerAt, pc, ReaderPc.fuel, SemSet.set_value, reduceCtorEq, if_false, if_true]
    omega

theorem step_fuel (s : State) (party : Party) (t : State) (taken : step s party = some t) : t.fuel < s.fuel := by
  cases party with
  | writer => exact (stepWriter_move taken).fuel
  | reader => exact stepReader_fuel taken

theorem start_fuel (seg : Shmseg) (blocks : List Block) : (start seg blocks).fuel = 11 * blocks.length + 13 := by
  simp [State.fuel, start, WriterPc.fuel, ReaderPc.fuel, initSemInUse, initSemAvailable]

/-- Whatever the stream, no run goes on for ever. -/
theorem length_le_of_exec {seg : Shmseg} {blocks : List Block} {parties : List Party} {s : State}
    (ran : exec step (start seg blocks) parties = some s) : parties.length ≤ 11 * blocks.length + 13 := by
  have bound := exec_length_le step_fuel ran
  rw [start_fuel] at bound
  omega

/-! ## Neither party waits at the end -/

/-- What the last round leaves to the other party. -/
structure Closing (s : State) : Prop where
  reader : s.reader.pc ≠ .failed
  busy : s.reader.pc = .total ∨ s.reader.pc = .write ∨ s.reader.pc = .release → s.seg.cnt ≠ 0
  /-- A turn of the reader begins with a count. -/
  announced : s.sems.value .readSem = 1 ∨ s.reader.pc.holds = 1 → s.writer.pc = .reserve → s.seg.cnt ≠ 0
  left : s.writer.pc.left = true → s.seg.cnt = 0
  finishing : s.reader.pc = .finish ∨ s.reader.pc = .done →
    s.seg.cnt = 0 ∧ (s.writer.pc = .test ∨ s.writer.pc.left = true)
  closed : s.reader.pc = .done → s.sems.value .readSem = 0
  /-- The writer gets its last turn from a reader that has ended. -/
  last : s.writer.pc = .test ∧ s.seg.cnt = 0 ∨ s.writer.pc = .drain →
    s.sems.value .writeSem = 0 ∨ s.reader.pc = .done
  waited : s.writer.pc = .remove ∨ s.writer.pc = .done → s.reader.pc = .done
  removed : s.writer.pc = .done → s.sems.removed = true

theorem start_closing (seg : Shmseg) (blocks : List Block) : Closing (start seg blocks) := by
  constructor
  all_goals simp [start, initSemInUse, initSemAvailable, ReaderPc.holds, WriterPc.left]

/-- The writer's steps change nothing the reader owns. -/
theorem WriterMove.frame {s t : State} (move : WriterMove s t) : t.reader = s.reader ∧ t.stdout = s.stdout := by
  cases move <;> exact ⟨rfl, rfl⟩

/-- While a party has its turn the other has none, and no semaphore is up. -/
theorem Sync.alone {s : State} (inv : Sync s) (running : s.writer.pc ≠ .done) :
    s.sems.value .writeSem + s.sems.value .readSem + s.writer.pc.holds + s.reader.pc.holds = 1 :=
  inv.token (inv.present running)

/-- A reader that has seen the last count has it from a writer that is through. -/
theorem Closing.not_finishing {s : State} (inv : Closing s) (early : s.writer.pc ≠ .test)
    (inside : s.writer.pc.left = false) : s.reader.pc ≠ .finish ∧ s.reader.pc ≠ .done := by
  have no (closed : s.reader.pc = .finish ∨ s.reader.pc = .done) : False := by
    rcases (inv.finishing closed).2 with test | left
    · exact early test
    · rw [inside] at left
      cases left
  exact ⟨fun finish => no (.inl finish), fun done => no (.inr done)⟩

/-- In the writer's turn the reader is not busy and its semaphore is down. -/
theorem Sync.reader_outside {s : State} (inv : Sync s) (turn : s.writer.pc.holds = 1) :
    s.reader.pc.holds = 0 ∧ s.sems.value .readSem = 0 ∧ s.sems.value .writeSem = 0 := by
  have running : s.writer.pc ≠ .done := by
    intro done
    simp [done, WriterPc.holds] at turn
  have token := inv.alone running
  omega

theorem ReaderPc.not_busy {pc : ReaderPc} (outside : pc.holds = 0) :
    ¬ (pc = .total ∨ pc = .write ∨ pc = .release) := by
  rintro (rfl | rfl | rfl)
  all_goals simp [ReaderPc.holds] at outside

theorem WriterMove.closing {blocks : List Block} {s t : State} (move : WriterMove s t) (noWrap : NoWrap blocks)
    (sync : Sync s) (account : Account blocks s) (inv : Closing s) : Closing t := by
  have reader := inv.reader
  cases move with
  | lost pc gone => simp [(sync.gone gone).2] at pc
  | reserve pc present free =>
    have running := inv.not_finishing (by simp [pc]) (by simp [pc, WriterPc.left])
    constructor
    all_goals simp [State.writerAt, WriterPc.left, reader, running]
    · exact inv.busy
  | eof pc ended =>
    have running := inv.not_finishing (by simp [pc]) (by simp [pc, WriterPc.left])
    constructor
    all_goals simp [State.writerAt, WriterPc.left, reader, running]
    · exact inv.busy
  | read pc block rest input =>
    have running := inv.not_finishing (by simp [pc]) (by simp [pc, WriterPc.left])
    constructor
    all_goals simp [State.writerAt, WriterPc.left, reader, running]
    · exact inv.busy
  | store n pc =>
    have running := inv.not_finishing (by simp [pc]) (by simp [pc, WriterPc.left])
    obtain ⟨outside, -⟩ := sync.reader_outside (by simp [pc, WriterPc.holds])
    constructor
    all_goals simp [State.writerAt, WriterPc.left, reader, running]
    · exact fun busy => absurd busy (ReaderPc.not_busy outside)
  | release pc present =>
    have running := inv.not_finishing (by simp [pc]) (by simp [pc, WriterPc.left])
    obtain ⟨outside, -, down⟩ := sync.reader_outside (by simp [pc, WriterPc.holds])
    constructor
    all_goals simp [State.writerAt, WriterPc.left, reader, running, down]
    · exact inv.busy
  | more pc nonzero =>
    have running : s.reader.pc ≠ .finish ∧ s.reader.pc ≠ .done :=
      ⟨fun finish => nonzero (inv.finishing (.inl finish)).1, fun done => nonzero (inv.finishing (.inr done)).1⟩
    constructor
    all_goals simp [State.writerAt, WriterPc.left, reader, running]
    · exact inv.busy
  | stop pc zero =>
    have idle : ¬ (s.reader.pc = .total ∨ s.reader.pc = .write ∨ s.reader.pc = .release) :=
      fun busy => inv.busy busy zero
    constructor
    all_goals simp [State.writerAt, WriterPc.left, reader, zero]
    · simpa using idle
    · exact inv.closed
    · exact inv.last (.inl ⟨pc, zero⟩)
  | total pc =>
    have nonzero := account.counting pc
    have running := inv.not_finishing (by simp [pc]) (by simp [pc, WriterPc.left])
    rw [if_pos (account.total_ne_zero noWrap pc)]
    constructor
    all_goals simp [WriterPc.left, reader, running]
    · exact fun _ => nonzero
    · exact fun _ => nonzero
  | drain pc present free =>
    have zero := inv.left (by simp [pc, WriterPc.left])
    have done : s.reader.pc = .done := (inv.last (.inr pc)).resolve_left (by omega)
    constructor
    all_goals simp [State.writerAt, WriterPc.left, zero, done]
    · exact inv.closed done
  | remove pc =>
    have zero := inv.left (by simp [pc, WriterPc.left])
    have done := inv.waited (.inl pc)
    constructor
    all_goals simp [State.writerAt, WriterPc.left, zero, done]
    · exact inv.closed done

theorem stepReader_closing {blocks : List Block} {s t : State} (taken : stepReader s = some t)
    (sync : Sync s) (account : Account blocks s) (inv : Closing s) : Closing t := by
  obtain ⟨undone, unfailed⟩ := stepReader_running taken
  have early : s.writer.pc ≠ .remove ∧ s.writer.pc ≠ .done :=
    ⟨fun remove => undone (inv.waited (.inl remove)), fun done => undone (inv.waited (.inr done))⟩
  cases stepReader_move taken with
  | lost gone => exact absurd (sync.gone gone).2 early.2
  | reserve pc present free =>
    have token := sync.alone early.2
    constructor
    all_goals simp [State.readerAt, early]
    · intro _
      exact inv.announced (.inl (by omega))
    · exact inv.left
    · intro closing
      exact (inv.last closing).resolve_right undone
  | more pc nonzero =>
    constructor
    all_goals simp [State.readerAt, ReaderPc.holds, early]
    · exact nonzero
    · exact inv.announced (.inr (by simp [pc, ReaderPc.holds]))
    · exact inv.left
    · exact fun closing => (inv.last closing).resolve_right undone
  | stop pc zero =>
    have turn : s.reader.pc.holds = 1 := by simp [pc, ReaderPc.holds]
    have through : s.writer.pc = .test ∨ s.writer.pc.left = true := by
      have outside := (sync.writer_outside turn).1
      cases at_ : s.writer.pc with
      | reserve => exact absurd zero (inv.announced (.inr turn) at_)
      | total => exact absurd zero (account.counting at_)
      | failed => exact absurd at_ sync.alive
      | test => exact .inl rfl
      | read | store _ | release => simp [at_, WriterPc.holds] at outside
      | drain | remove | done => exact .inr rfl
    constructor
    all_goals simp [State.readerAt, ReaderPc.holds, early]
    · exact inv.announced (.inr turn)
    · exact inv.left
    · exact ⟨zero, through⟩
    · exact fun closing => (inv.last closing).resolve_right undone
  | total pc | write pc =>
    constructor
    all_goals simp [State.readerAt, ReaderPc.holds, early]
    · exact inv.busy (by simp [pc])
    · exact inv.announced (.inr (by simp [pc, ReaderPc.holds]))
    · exact inv.left
    · exact fun closing => (inv.last closing).resolve_right undone
  | release pc present =>
    have nonzero := inv.busy (.inr (.inr pc))
    constructor
    all_goals simp [ReaderPc.holds, early]
    · exact fun _ _ => nonzero
    · exact inv.left
    · exact ⟨fun _ => nonzero, fun drain => nonzero (inv.left (by simp [drain, WriterPc.left]))⟩
  | finish pc present =>
    have token := sync.alone early.2
    simp only [pc, ReaderPc.holds] at token
    have closed := inv.finishing (.inl pc)
    constructor
    all_goals simp [State.readerAt, ReaderPc.holds, early]
    · intro up
      omega
    · exact inv.left
    · exact closed
    · omega

/-! ## Complete runs -/

theorem step_closing {blocks : List Block} (noWrap : NoWrap blocks) (s : State) (party : Party) (t : State)
    (inv : ((Sync s ∧ Balance s) ∧ Account blocks s) ∧ Closing s) (taken : step s party = some t) :
    ((Sync t ∧ Balance t) ∧ Account blocks t) ∧ Closing t := by
  refine ⟨step_account noWrap s party t inv.1 taken, ?_⟩
  cases party with
  | writer => exact (stepWriter_move taken).closing noWrap inv.1.1.1 inv.1.2 inv.2
  | reader => exact stepReader_closing taken inv.1.1.1 inv.1.2 inv.2

theorem reserveSem_andThen_eq_none {sems : SemSet} {semNum : SemNum} {failure : State} {next : SemSet → State}
    (waits : (reserveSem sems semNum).andThen failure next = none) : sems.value semNum = 0 := by
  rw [Option.eq_none_iff_forall_ne_some] at waits
  by_contra up
  cases removed : sems.removed with
  | true => exact waits _ (reserveSem_andThen.mpr (.inl ⟨removed, rfl⟩))
  | false => exact waits _ (reserveSem_andThen.mpr (.inr ⟨removed, Nat.pos_of_ne_zero up, rfl⟩))

theorem releaseSem_andThen_ne_none (sems : SemSet) (semNum : SemNum) (failure : State) (next : SemSet → State) :
    (releaseSem sems semNum).andThen failure next ≠ none := by
  rw [Option.ne_none_iff_exists']
  cases removed : sems.removed with
  | true => exact ⟨_, releaseSem_andThen.mpr (.inl ⟨removed, rfl⟩)⟩
  | false => exact ⟨_, releaseSem_andThen.mpr (.inr ⟨removed, rfl⟩)⟩

/-- Where a writer can stop. -/
theorem writer_stops {s : State} (stops : stepWriter s = none) (sync : Sync s) :
    s.writer.pc = .done ∨ (s.writer.pc = .reserve ∨ s.writer.pc = .drain) ∧ s.sems.value .writeSem = 0 := by
  unfold stepWriter at stops
  split at stops
  case h_1 pc => exact .inr ⟨.inl pc, reserveSem_andThen_eq_none stops⟩
  case h_2 pc =>
    split at stops
    all_goals cases stops
  case h_4 pc => exact absurd stops (releaseSem_andThen_ne_none _ _ _ _)
  case h_7 pc => exact .inr ⟨.inr pc, reserveSem_andThen_eq_none stops⟩
  case h_9 pc => exact .inl pc
  case h_10 pc => exact absurd pc sync.alive
  all_goals cases stops

theorem reader_stops {s : State} (stops : stepReader s = none) (closing : Closing s) :
    s.reader.pc = .done ∨ s.reader.pc = .reserve ∧ s.sems.value .readSem = 0 := by
  unfold stepReader at stops
  split at stops
  case h_1 pc => exact .inr ⟨pc, reserveSem_andThen_eq_none stops⟩
  case h_5 pc => exact absurd stops (releaseSem_andThen_ne_none _ _ _ _)
  case h_6 pc => exact absurd stops (releaseSem_andThen_ne_none _ _ _ _)
  case h_7 pc => exact .inl pc
  case h_8 pc => exact absurd pc closing.reader
  all_goals cases stops

theorem done_of_terminal {s : State} (terminal : Terminal step s) (sync : Sync s) (closing : Closing s) :
    s.writer.pc = .done ∧ s.reader.pc = .done := by
  rcases writer_stops (terminal .writer) sync with done | ⟨waits, down⟩
  · exact ⟨done, closing.waited (.inr done)⟩
  · exfalso
    have running : s.writer.pc ≠ .done := by
      rcases waits with reserve | drain
      · simp [reserve]
      · simp [drain]
    have token := sync.alone running
    have outside : s.writer.pc.holds = 0 := by
      rcases waits with reserve | drain
      · simp [reserve, WriterPc.holds]
      · simp [drain, WriterPc.holds]
    rcases reader_stops (terminal .reader) closing with done | ⟨reserve, none⟩
    · have down' := closing.closed done
      simp only [done, ReaderPc.holds] at token
      omega
    · simp only [reserve, ReaderPc.holds] at token
      omega

/-- The invariants of all interleavings of a stream that does not wrap. -/
theorem reachable_closing {seg : Shmseg} {blocks : List Block} (noWrap : NoWrap blocks) {s : State}
    (reached : Reachable step (start seg blocks) s) :
    ((Sync s ∧ Balance s) ∧ Account blocks s) ∧ Closing s :=
  reached.invariant (step_closing noWrap)
    ⟨⟨⟨start_sync seg blocks, start_balance seg blocks⟩, start_account seg blocks⟩, start_closing seg blocks⟩

end SystemProgramming.SharedTransfer
