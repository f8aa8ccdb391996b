import SystemProgramming.Threads.Moves
import Mathlib.Data.List.TakeDrop

/-! # The threads in turns

As long as both threads test the semaphore at the right moment, at most one block lies between them, and the
thread that is not about to use the buffer leaves it alone.
-/

namespace SystemProgramming.Threads

open Lib

/-- The block `reader` is about to post. -/
def Reader.held : Reader → List (List UInt8)
  | .semGetvalue my_buf | .semWait my_buf | .memcpy my_buf | .setLen my_buf | .semPost my_buf => [my_buf]
  | .read | .returned => []

/-- The block `writer` is about to write. -/
def Writer.held (buf : List UInt8) : Writer → List (List UInt8)
  | .memcpy len => [buf.take len.toNat]
  | .write my_buf => [my_buf]
  | .semGetvalue | .semWait | .getLen | .test | .returned => []

/-- The block between the threads. -/
def State.between (s : State) : List (List UInt8) :=
  if s.fresh then [s.arg.buf.take s.arg.len.toNat] else []

/-- What `read` has returned. -/
structure Fetched (s : State) (my_buf : List UInt8) : Prop where
  fits : my_buf.length ≤ bufSize
  ended : my_buf = [] → s.stdin = []

/-- What `reader` relies on before its next statement. -/
def ReaderTurn (s : State) : Reader → Prop
  | .read => s.arg.len ≠ 0
  | .semGetvalue my_buf => Fetched s my_buf ∧ s.arg.len ≠ 0
  | .semWait my_buf => Fetched s my_buf ∧ s.arg.len ≠ 0 ∧ s.fresh = false ∧ s.arg.sem = 1 ∧
      (my_buf ≠ [] → ∀ len, s.writer ≠ .memcpy len)
  | .memcpy my_buf => Fetched s my_buf ∧ s.arg.len ≠ 0 ∧ s.fresh = false ∧ s.arg.sem = 0 ∧
      ∀ len, s.writer ≠ .memcpy len
  | .setLen my_buf => Fetched s my_buf ∧ s.arg.len ≠ 0 ∧ s.fresh = false ∧ s.arg.sem = 0 ∧
      s.arg.buf.take my_buf.length = my_buf
  | .semPost my_buf => Fetched s my_buf ∧ s.arg.len = BitVec.ofNat 32 my_buf.length ∧ s.fresh = false ∧
      s.arg.sem = 0 ∧ s.arg.buf.take my_buf.length = my_buf
  | .returned => s.arg.len = 0 ∧ s.stdin = []

/-- What `writer` relies on before its next statement. -/
def WriterTurn (s : State) : Writer → Prop
  | .semGetvalue => s.reader = .returned → s.fresh = true
  | .semWait => (s.fresh = true ↔ s.arg.sem = 1) ∧ (s.reader = .returned → s.fresh = true)
  | .getLen => s.fresh = true
  | .memcpy len => len.toNat ≤ bufSize
  | .write _ | .test => True
  | .returned => s.arg.len = 0

structure Inv (input : List UInt8) (s : State) : Prop where
  stream : s.blocks.flatten ++ s.stdin = input
  blocks : s.blocks = s.writes ++ s.writer.held s.arg.buf ++ s.between ++ s.reader.held
  size : s.arg.buf.length = bufSize
  sem : s.arg.sem ≤ 1
  len : s.arg.sem ≠ 0 ∨ s.fresh = true → s.arg.len.toNat ≤ bufSize
  fresh : s.fresh = true → s.arg.sem = 1 ∨ s.writer = .getLen
  reader : ReaderTurn s s.reader
  writer : WriterTurn s s.writer

section

variable {input : List UInt8} {s t : State}

theorem inv_start (input : List UInt8) : Inv input (start input) where
  stream := rfl
  blocks := rfl
  size := List.length_replicate
  sem := Nat.zero_le 1
  len := by simp [start]
  fresh := by simp [start]
  reader := show (-1 : BitVec 32) ≠ 0 by decide
  writer := by simp [WriterTurn, start]

/-! ## What one thread does to the other -/

/-- While a block lies in the buffer, `reader` relies on nothing that `writer` changes. -/
theorem ReaderTurn.of_fresh {r : Reader} (turn : ReaderTurn s r) (fresh : s.fresh = true)
    (stdin : t.stdin = s.stdin) (len : t.arg.len = s.arg.len) : ReaderTurn t r := by
  cases r with
  | read => simpa only [ReaderTurn, len] using turn
  | semGetvalue my_buf =>
    obtain ⟨⟨fits, ended⟩, stored⟩ := turn
    exact ⟨⟨fits, fun empty => stdin.trans (ended empty)⟩, by rwa [len]⟩
  | semWait my_buf => simp [ReaderTurn, fresh] at turn
  | memcpy my_buf => simp [ReaderTurn, fresh] at turn
  | setLen my_buf => simp [ReaderTurn, fresh] at turn
  | semPost my_buf => simp [ReaderTurn, fresh] at turn
  | returned => simpa only [ReaderTurn, len, stdin] using turn

/-- `writer` moves on and is not about to copy. -/
theorem ReaderTurn.goesOn {r : Reader} {w : Writer} (turn : ReaderTurn s r) (idle : ∀ len, w ≠ .memcpy len)
    (writes : List (List UInt8)) : ReaderTurn { s with writer := w, writes := writes } r := by
  cases r with
  | read => exact turn
  | semGetvalue my_buf => exact ⟨⟨turn.1.fits, turn.1.ended⟩, turn.2⟩
  | semWait my_buf =>
    obtain ⟨⟨fits, ended⟩, len, fresh, sem, -⟩ := turn
    exact ⟨⟨fits, ended⟩, len, fresh, sem, fun _ => idle⟩
  | memcpy my_buf =>
    obtain ⟨⟨fits, ended⟩, len, fresh, sem, -⟩ := turn
    exact ⟨⟨fits, ended⟩, len, fresh, sem, idle⟩
  | setLen my_buf => exact ⟨⟨turn.1.fits, turn.1.ended⟩, turn.2⟩
  | semPost my_buf => exact ⟨⟨turn.1.fits, turn.1.ended⟩, turn.2⟩
  | returned => exact turn

/-- `reader` moves on and leaves the semaphore and the length alone. -/
theorem WriterTurn.goesOn {w : Writer} (turn : WriterTurn s w) (fresh : t.fresh = s.fresh)
    (sem : t.arg.sem = s.arg.sem) (len : t.arg.len = s.arg.len) (goes : t.reader ≠ .returned) :
    WriterTurn t w := by
  cases w with
  | semGetvalue => exact fun ended => absurd ended goes
  | semWait =>
    constructor
    · simpa only [fresh, sem] using turn.1
    · exact fun ended => absurd ended goes
  | getLen => simpa only [WriterTurn, fresh] using turn
  | memcpy _ => exact turn
  | write _ => exact turn
  | test => exact turn
  | returned => simpa only [WriterTurn, len] using turn

/-! ## One step -/

theorem Inv.read (inv : Inv input s) {n : ℕ} (taken : Threads.read s n = some t) : Inv input t := by
  simp only [Threads.read, Option.ite_none_right_eq_some, Option.some.injEq] at taken
  obtain ⟨⟨pc, less, fits, ended⟩, rfl⟩ := taken
  have blocks := inv.blocks
  have turn := inv.reader
  rw [pc] at blocks turn
  exact {
    inv with
    stream := by simpa using inv.stream
    blocks := by simp [blocks, Reader.held, State.between]
    reader := by
      refine ⟨⟨Nat.le_trans (List.length_take_le _ _) fits, fun empty => ?_⟩, turn⟩
      rcases List.take_eq_nil_iff.mp empty with zero | none_
      · simp [ended zero]
      · simp [none_]
    writer := inv.writer.goesOn rfl rfl rfl (by simp) }

/-- Behind the test and the wait the semaphore is taken. -/
theorem Inv.taken (inv : Inv input s) {my_buf : List UInt8} (held : s.reader.held = [my_buf])
    (fetched : Fetched s my_buf) (len : s.arg.len ≠ 0) (fresh : s.fresh = false)
    (idle : my_buf ≠ [] → ∀ len, s.writer ≠ .memcpy len) (writer : s.writer ≠ .semWait ∨ s.arg.sem = 0) :
    Inv input { s with arg := { s.arg with sem := 0 }, reader := Reader.taken my_buf } := by
  have blocks := inv.blocks
  rw [held] at blocks
  have goes : Reader.taken my_buf ≠ .returned := by
    unfold Reader.taken
    split <;> simp
  exact {
    inv with
    blocks := by
      rw [blocks]
      unfold Reader.taken
      split <;> rfl
    sem := Nat.zero_le 1
    len := by simp [fresh]
    fresh := by simp [fresh]
    reader := by
      unfold Reader.taken
      split
      · next empty => exact ⟨⟨fetched.fits, fetched.ended⟩, len, fresh, rfl, by simp [empty]⟩
      · next more => exact ⟨⟨fetched.fits, fetched.ended⟩, len, fresh, rfl, idle more⟩
    writer := by
      rcases writer with other | zero
      · cases pc : s.writer with
        | semWait => exact absurd pc other
        | semGetvalue => exact fun ended => absurd ended goes
        | getLen => simpa [pc, WriterTurn] using inv.writer
        | memcpy len => simpa [pc, WriterTurn] using inv.writer
        | write my_buf => trivial
        | test => trivial
        | returned => simpa [pc, WriterTurn] using inv.writer
      · exact inv.writer.goesOn rfl zero.symm rfl goes }

theorem Inv.busy (inv : Inv input s) {my_buf : List UInt8} (pc : s.reader = .semGetvalue my_buf)
    (up : s.arg.sem ≠ 0) (fresh : s.fresh = false) (idle : my_buf ≠ [] → ∀ len, s.writer ≠ .memcpy len) :
    Inv input { s with reader := .semWait my_buf } := by
  have turn := inv.reader
  have sem : s.arg.sem = 1 := by
    have := inv.sem
    omega
  rw [pc] at turn
  obtain ⟨⟨fits, ended⟩, len⟩ := turn
  exact {
    inv with
    blocks := by rw [inv.blocks, pc]; rfl
    reader := ⟨⟨fits, ended⟩, len, fresh, sem, idle⟩
    writer := inv.writer.goesOn rfl rfl rfl (by simp) }

/-- While `reader` copies, nothing that `writer` needs lies in the buffer. -/
theorem Inv.copied (inv : Inv input s) {my_buf : List UInt8} (pc : s.reader = .memcpy my_buf) :
    Inv input { s with
      arg := { s.arg with buf := my_buf ++ s.arg.buf.drop my_buf.length }
      reader := .setLen my_buf } := by
  have turn := inv.reader
  rw [pc] at turn
  obtain ⟨⟨fits, ended⟩, len, fresh, sem, idle⟩ := turn
  have held : s.writer.held (my_buf ++ s.arg.buf.drop my_buf.length) = s.writer.held s.arg.buf := by
    cases w : s.writer with
    | memcpy len => exact absurd w (idle len)
    | semGetvalue | semWait | getLen | write _ | test | returned => rfl
  exact {
    inv with
    blocks := by
      rw [inv.blocks, pc]
      simp [State.between, fresh, Reader.held, held]
    size := by
      have size := inv.size
      simp
      omega
    fresh := inv.fresh
    reader := ⟨⟨fits, ended⟩, len, fresh, sem, by simp⟩
    writer := inv.writer.goesOn rfl rfl rfl (by simp) }

theorem Inv.stored (inv : Inv input s) {my_buf : List UInt8} (pc : s.reader = .setLen my_buf) :
    Inv input { s with
      arg := { s.arg with len := BitVec.ofNat 32 my_buf.length }
      reader := .semPost my_buf } := by
  have turn := inv.reader
  have writer := inv.writer
  rw [pc] at turn
  obtain ⟨⟨fits, ended⟩, len, fresh, sem, copied⟩ := turn
  exact {
    inv with
    blocks := by
      rw [inv.blocks, pc]
      simp [State.between, fresh, Reader.held]
    len := by simp [fresh, sem]
    fresh := by simp [fresh]
    reader := ⟨⟨fits, ended⟩, rfl, fresh, sem, copied⟩
    writer := by
      cases w : s.writer with
      | returned =>
        rw [w] at writer
        exact absurd writer len
      | semGetvalue | write _ | test => simp [WriterTurn]
      | semWait | getLen | memcpy _ =>
        rw [w] at writer
        simpa [WriterTurn, pc] using writer }

/-- The length in the shared record is that of the block. -/
theorem toNat_len {my_buf : List UInt8} (fits : my_buf.length ≤ bufSize) :
    (BitVec.ofNat 32 my_buf.length).toNat = my_buf.length := by
  rw [BitVec.toNat_ofNat]
  exact Nat.mod_eq_of_lt (Nat.lt_of_le_of_lt fits (by decide))

/-- The block is posted; `r` is what `reader` does next. -/
theorem Inv.posted (inv : Inv input s) {my_buf : List UInt8} {r : Reader} (pc : s.reader = .semPost my_buf)
    (free : r.held = []) (turn : ReaderTurn { s with reader := r } r) :
    Inv input { s with arg := { s.arg with sem := s.arg.sem + 1 }, reader := r, fresh := true } := by
  have before := inv.reader
  have writer := inv.writer
  rw [pc] at before
  obtain ⟨⟨fits, -⟩, len, fresh, sem, copied⟩ := before
  have length := toNat_len fits
  rw [← len] at length
  exact {
    inv with
    blocks := by
      rw [inv.blocks, pc, free]
      simp [State.between, fresh, length, copied, Reader.held]
    sem := by simp [sem]
    len := fun _ => length ▸ fits
    fresh := fun _ => .inl (by simp [sem])
    reader := by
      cases r with
      | read => exact turn
      | returned => exact turn
      | semGetvalue _ | semWait _ | memcpy _ | setLen _ | semPost _ => simp [Reader.held] at free
    writer := by
      cases w : s.writer with
      | semGetvalue => exact fun _ => rfl
      | semWait => exact ⟨by simp [sem], fun _ => rfl⟩
      | getLen => rfl
      | memcpy n | write _ | test | returned =>
        rw [w] at writer
        exact writer }

theorem Inv.readerMove (inv : Inv input s) (right : Right s .reader) (move : ReaderMove s t) : Inv input t := by
  have turn := inv.reader
  cases move with
  | free pc down =>
    obtain ⟨fresh, idle⟩ := right _ pc
    rw [pc] at turn
    have inv := inv.taken (congrArg Reader.held pc) turn.1 turn.2 fresh idle (.inr down)
    simpa only [← down] using inv
  | busy pc up =>
    obtain ⟨fresh, idle⟩ := right _ pc
    exact inv.busy pc up fresh idle
  | takes pc up =>
    have writer := inv.writer
    rw [pc] at turn
    obtain ⟨fetched, len, fresh, sem, idle⟩ := turn
    have other : s.writer ≠ .semWait := by
      intro waits
      rw [waits] at writer
      simp [WriterTurn, fresh, sem] at writer
    rw [sem]
    exact inv.taken (congrArg Reader.held pc) fetched len fresh idle (.inl other)
  | copies pc => exact inv.copied pc
  | stores pc => exact inv.stored pc
  | @posts my_buf pc more =>
    rw [pc] at turn
    obtain ⟨⟨fits, -⟩, len, -⟩ := turn
    have length := toNat_len fits
    apply inv.posted pc rfl
    intro zero
    rw [← len, zero] at length
    exact more (List.eq_nil_of_length_eq_zero length.symm)
  | ends pc =>
    rw [pc] at turn
    obtain ⟨⟨-, ended⟩, len, -⟩ := turn
    exact inv.posted pc rfl ⟨by rw [len]; rfl, ended rfl⟩

/-- A step of `writer` that leaves the shared record alone. -/
theorem Inv.goesOn_writer (inv : Inv input s) {w : Writer} {writes : List (List UInt8)}
    (idle : ∀ len, w ≠ .memcpy len) (held : writes ++ w.held s.arg.buf = s.writes ++ s.writer.held s.arg.buf)
    (fresh : s.fresh = true → s.arg.sem = 1 ∨ w = .getLen)
    (turn : WriterTurn { s with writer := w, writes := writes } w) :
    Inv input { s with writer := w, writes := writes } where
  stream := inv.stream
  blocks := by
    rw [held]
    exact inv.blocks
  size := inv.size
  sem := inv.sem
  len := inv.len
  fresh := fresh
  reader := inv.reader.goesOn idle writes
  writer := turn

/-- `writer` has got through its test or wait. -/
theorem Inv.ready (inv : Inv input s) {sem : ℕ} (free : s.writer.held s.arg.buf = []) (fresh : s.fresh = true)
    (less : sem ≤ s.arg.sem) : Inv input { s with arg := { s.arg with sem := sem }, writer := .getLen } where
  stream := inv.stream
  blocks := by
    rw [inv.blocks, free]
    rfl
  size := inv.size
  sem := Nat.le_trans less inv.sem
  len _ := inv.len (.inr fresh)
  fresh _ := .inr rfl
  reader := inv.reader.of_fresh fresh rfl rfl
  writer := fresh

theorem Inv.writerMove (inv : Inv input s) (right : Right s .writer) (move : WriterMove s t) : Inv input t := by
  have turn := inv.writer
  cases move with
  | waits pc down =>
    have stale : s.fresh = false := by
      by_contra! fresh
      simpa [down, pc] using inv.fresh (by simpa using fresh)
    rw [pc] at turn
    exact inv.goesOn_writer (by simp) (by rw [pc]; rfl) (by simp [stale]) ⟨by simp [stale, down], turn⟩
  | ready pc up =>
    have fresh := (right pc).resolve_left up
    exact inv.ready (by rw [pc]; rfl) fresh (Nat.le_refl _)
  | takes pc up =>
    rw [pc] at turn
    have fresh : s.fresh = true := by
      have := inv.sem
      exact turn.1.mpr (by omega)
    exact inv.ready (by rw [pc]; rfl) fresh (Nat.sub_le _ _)
  | fetches pc =>
    rw [pc] at turn
    have fresh : s.fresh = true := turn
    exact {
      inv with
      blocks := by
        rw [inv.blocks, pc]
        simp [State.between, fresh, Writer.held]
      len := fun _ => inv.len (.inr fresh)
      fresh := by simp
      reader := inv.reader.of_fresh fresh rfl rfl
      writer := inv.len (.inr fresh) }
  | copies pc fits =>
    have fresh := inv.fresh
    exact inv.goesOn_writer (by simp) (by rw [pc]; rfl) (by simpa [pc] using fresh) trivial
  | writes pc =>
    have fresh := inv.fresh
    exact inv.goesOn_writer (by simp) (by rw [pc]; simp [Writer.held]) (by simpa [pc] using fresh) trivial
  | again pc more =>
    have fresh := inv.fresh
    have reader := inv.reader
    apply inv.goesOn_writer (by simp) (by rw [pc]; rfl) (by simpa [pc] using fresh)
    intro ended
    rw [show s.reader = .returned from ended] at reader
    exact absurd reader.1 more
  | ends pc zero =>
    have fresh := inv.fresh
    exact inv.goesOn_writer (by simp) (by rw [pc]; rfl) (by simpa [pc] using fresh) zero

theorem Inv.step {e : Event} (inv : Inv input s) (right : Right s e) (taken : Threads.step s e = some t) :
    Inv input t := by
  cases e with
  | read n => exact inv.read taken
  | reader => exact inv.readerMove right (reader_move taken)
  | writer => exact inv.writerMove right (writer_move taken)

theorem Inv.rank_lt {e : Event} (inv : Inv input s) (taken : Threads.step s e = some t) : t.rank < s.rank := by
  cases e with
  | read n => exact rank_lt_of_read taken
  | reader => exact (reader_move taken).rank_lt
  | writer =>
    apply (writer_move taken).rank_lt
    intro pc
    have turn := inv.writer
    rw [pc] at turn
    exact turn

/-! ## Where the threads can go on -/

/-- `writer` can go on where it need not wait. -/
theorem Inv.writer_goes (inv : Inv input s) (alive : s.writer ≠ .returned)
    (ready : s.fresh = true ∨ s.writer ≠ .semGetvalue ∧ s.writer ≠ .semWait) :
    ∃ t, Threads.step s .writer = some t ∧ Right s .writer := by
  have turn := inv.writer
  have right : Right s .writer := fun pc => .inr (ready.resolve_right fun off => off.1 pc)
  refine Option.isSome_iff_exists.mp ?_ |>.imp fun t taken => ⟨taken, right⟩
  simp only [Threads.step, Threads.writer]
  cases pc : s.writer with
  | returned => exact absurd pc alive
  | semGetvalue | getLen | write _ | test => rfl
  | semWait =>
    have fresh : s.fresh = true := ready.resolve_right fun off => off.2 pc
    rw [pc] at turn
    simp [turn.1.mp fresh]
  | memcpy len =>
    rw [pc] at turn
    have fits : len.toNat ≤ bufSize := turn
    simp [fits]

/-- `reader` can go on where it neither tests the semaphore nor has returned. -/
theorem Inv.reader_goes (inv : Inv input s) (alive : s.reader ≠ .returned)
    (ready : ∀ my_buf, s.reader ≠ .semGetvalue my_buf) : ∃ e t, Threads.step s e = some t ∧ Right s e := by
  by_cases pc : s.reader = .read
  · obtain ⟨n, t, taken⟩ := exists_read pc
    exact ⟨.read n, t, taken, trivial⟩
  · obtain ⟨t, taken⟩ := exists_reader pc alive fun my_buf waits => by
      have turn := inv.reader
      rw [waits] at turn
      simp [turn.2.2.2.1]
    exact ⟨.reader, t, taken, fun my_buf pc => absurd pc (ready my_buf)⟩

/-- One of the threads can go on until both have returned. -/
theorem Inv.goesOn (inv : Inv input s) : s.Finished ∨ ∃ e t, Threads.step s e = some t ∧ Right s e := by
  have turn := inv.reader
  have writer := inv.writer
  have byWriter (alive : s.writer ≠ .returned)
      (ready : s.fresh = true ∨ s.writer ≠ .semGetvalue ∧ s.writer ≠ .semWait) :
      s.Finished ∨ ∃ e t, Threads.step s e = some t ∧ Right s e := by
    obtain ⟨t, taken, right⟩ := inv.writer_goes alive ready
    exact .inr ⟨.writer, t, taken, right⟩
  cases pc : s.reader with
  | returned =>
    cases w : s.writer with
    | returned => exact .inl ⟨pc, w⟩
    | semGetvalue =>
      rw [w] at writer
      exact byWriter (by simp [w]) (.inl (writer pc))
    | semWait =>
      rw [w] at writer
      exact byWriter (by simp [w]) (.inl (writer.2 pc))
    | getLen | memcpy _ | write _ | test => exact byWriter (by simp [w]) (.inr (by simp [w]))
  | semGetvalue my_buf =>
    rw [pc] at turn
    have alive : s.writer ≠ .returned := by
      intro w
      rw [w] at writer
      exact turn.2 writer
    cases fresh : s.fresh with
    | true => exact byWriter alive (.inl fresh)
    | false =>
      by_cases copies : ∃ len, s.writer = .memcpy len
      · obtain ⟨len, w⟩ := copies
        exact byWriter alive (.inr (by simp [w]))
      · obtain ⟨t, taken⟩ := exists_reader (s := s) (by simp [pc]) (by simp [pc]) (by simp [pc])
        refine .inr ⟨.reader, t, taken, fun _ _ => ⟨fresh, fun _ len w => ?_⟩⟩
        exact copies ⟨len, w⟩
  | read | semWait my_buf | memcpy my_buf | setLen my_buf | semPost my_buf =>
    exact .inr (inv.reader_goes (by simp [pc]) (by simp [pc]))

/-! ## Whole runs -/

/-- In the end everything has been written. -/
theorem Inv.finished (inv : Inv input s) (finished : s.Finished) : s.writes.flatten = input := by
  obtain ⟨reader, writer⟩ := finished
  have turn := inv.reader
  rw [reader] at turn
  obtain ⟨len, stdin⟩ : s.arg.len = 0 ∧ s.stdin = [] := turn
  have between : s.between.flatten = [] := by
    unfold State.between
    split <;> simp [len]
  have stream := inv.stream
  rw [inv.blocks, reader, writer] at stream
  simpa [Reader.held, Writer.held, between, stdin] using stream

/-- Each block that has been read is written once and in order, both threads return after a bounded number
of steps, and in the end the output is the input. -/
structure Promise (input : List UInt8) (es : List Event) (s : State) : Prop where
  read : s.blocks.flatten ++ s.stdin = input
  order : s.writes <+: s.blocks
  exact : s.Finished → s.writes.flatten = input
  goesOn : s.Finished ∨ ∃ e t, step s e = some t ∧ Right s e
  ends : es.length ≤ 12 * input.length + 13

theorem promise_of_right {es : List Event} (ran : exec step (start input) es = some s)
    (met : AllSteps step Right (start input) es) : Promise input es s := by
  have inv : Inv input s :=
    exec_invariant_of_allSteps (fun _ _ _ inv right taken => inv.step right taken) ran met (inv_start input)
  have length := exec_length_le_of_allSteps (fun _ _ _ inv right taken => inv.step right taken)
    (fun _ _ _ inv _ taken => inv.rank_lt taken) ran met (inv_start input)
  exact {
    read := inv.stream
    order := ⟨_, by rw [inv.blocks, List.append_assoc, List.append_assoc]⟩
    exact := inv.finished
    goesOn := inv.goesOn
    ends := by
      have : (start input).rank = 12 * input.length + 13 := rfl
      omega }

end

/-- One block, which `writer` copies without taking the semaphore; the end reaches it in its loop test. -/
def oneBlock : List Event :=
  [.read 1, .reader, .reader, .reader, .reader, .writer, .writer, .writer, .writer, .read 0, .reader, .reader,
    .reader, .writer, .reader]

theorem promise_oneBlock : ∃ s, exec step (start [97]) oneBlock = some s ∧ Promise [97] oneBlock s := by
  refine ⟨_, rfl, @promise_of_right [97] _ oneBlock rfl ?_⟩
  have off {s : State} (pc : s.writer ≠ .semGetvalue) : Right s .writer := fun here => absurd here pc
  have busy {s : State} (pc : ∀ my_buf, s.reader ≠ .semGetvalue my_buf) : Right s .reader :=
    fun my_buf here => absurd here (pc my_buf)
  refine ⟨trivial, ?_⟩
  rintro _ ⟨⟩
  refine ⟨fun _ _ => ⟨rfl, fun _ _ => by simp [start]⟩, ?_⟩
  rintro _ ⟨⟩
  iterate 3
    refine ⟨busy (by simp [start, Reader.taken]), ?_⟩
    rintro _ ⟨⟩
  refine ⟨fun _ => .inr rfl, ?_⟩
  rintro _ ⟨⟩
  iterate 3
    refine ⟨off (by simp [start]), ?_⟩
    rintro _ ⟨⟩
  refine ⟨trivial, ?_⟩
  rintro _ ⟨⟩
  refine ⟨fun _ _ => ⟨rfl, fun _ _ => by simp⟩, ?_⟩
  rintro _ ⟨⟩
  iterate 2
    refine ⟨busy (by simp [Reader.taken]), ?_⟩
    rintro _ ⟨⟩
  refine ⟨off (by simp), ?_⟩
  rintro _ ⟨⟩
  refine ⟨busy (by simp), ?_⟩
  rintro _ ⟨⟩
  trivial

/-- `writer` tests the semaphore before `reader` has taken it again. -/
def twice : List Event :=
  [.read 1, .reader, .reader, .reader, .reader] ++ List.replicate 10 .writer ++
    [.read 0, .reader, .reader, .reader, .reader] ++ List.replicate 5 .writer

theorem not_exact_twice : ∃ s, exec step (start [97]) twice = some s ∧ s.Finished ∧ s.writes.flatten = [97, 97] :=
  ⟨_, rfl, by decide, rfl⟩

end SystemProgramming.Threads
