import SystemProgramming.Threads.Turns

/-! # Tests at the wrong moment

A thread that tests the semaphore at any other moment goes on although it is not its turn. From there `writer`
can write the same block again and again, and `reader` can run to the end of the stream before `writer` copies
anything.
-/

namespace SystemProgramming.Threads

open Lib

/-- What has been written is no beginning of what has been read, or is not all of it in the end. -/
def Wrong (input : List UInt8) (s : State) : Prop :=
  ¬ s.writes <+: s.blocks ∨ s.Finished ∧ s.writes.flatten ≠ input

section

variable {input : List UInt8} {s t : State}

/-! ## `writer` alone -/

/-- One round of `writer` behind its test, while the semaphore stays up and the length is not zero. -/
theorem exec_round (pc : s.writer = .getLen) (up : s.arg.sem ≠ 0) (len : s.arg.len ≠ 0)
    (fits : s.arg.len.toNat ≤ bufSize) : exec step s (List.replicate 5 .writer) =
      some { s with writes := s.writes ++ [s.arg.buf.take s.arg.len.toNat], fresh := false } := by
  obtain ⟨stdin, ⟨buf, sem, n⟩, reader, w, writes, blocks, fresh⟩ := s
  dsimp only at pc up len fits
  subst pc
  have len : ¬ n = 0#32 := len
  simp [exec, step, writer, up, len, fits, List.replicate_succ]

/-- What `writer` still writes once the length is zero. -/
def Writer.rest : Writer → ℕ
  | .memcpy len => len.toNat
  | .write my_buf => my_buf.length
  | .semGetvalue | .semWait | .getLen | .test | .returned => 0

/-- Behind the end of the stream `writer` returns without fetching another block. -/
theorem exists_exec_writer (reader : s.reader = .returned) (up : s.arg.sem ≠ 0) (len : s.arg.len = 0)
    (fits : ∀ n, s.writer = .memcpy n → n.toNat ≤ bufSize) : ∃ es u, exec step s es = some u ∧ u.Finished ∧
      u.writes.flatten.length ≤ s.writes.flatten.length + s.writer.rest := by
  obtain ⟨stdin, ⟨buf, sem, n⟩, r, w, writes, blocks, fresh⟩ := s
  dsimp only at reader up len fits
  subst reader len
  cases w with
  | semGetvalue =>
    refine ⟨List.replicate 5 .writer,
      ⟨stdin, ⟨buf, sem, 0⟩, .returned, .returned, writes ++ [[]], blocks, false⟩, ?_, ⟨rfl, rfl⟩, ?_⟩
    · simp [exec, step, writer, up, List.replicate_succ]
    · simp [Writer.rest]
  | semWait =>
    refine ⟨List.replicate 5 .writer,
      ⟨stdin, ⟨buf, sem - 1, 0⟩, .returned, .returned, writes ++ [[]], blocks, false⟩, ?_, ⟨rfl, rfl⟩, ?_⟩
    · simp [exec, step, writer, up, List.replicate_succ]
    · simp [Writer.rest]
  | getLen =>
    refine ⟨List.replicate 4 .writer,
      ⟨stdin, ⟨buf, sem, 0⟩, .returned, .returned, writes ++ [[]], blocks, false⟩, ?_, ⟨rfl, rfl⟩, ?_⟩
    · simp [exec, step, writer, List.replicate_succ]
    · simp [Writer.rest]
  | memcpy m =>
    refine ⟨List.replicate 3 .writer,
      ⟨stdin, ⟨buf, sem, 0⟩, .returned, .returned, writes ++ [buf.take m.toNat], blocks, fresh⟩, ?_, ⟨rfl, rfl⟩, ?_⟩
    · simp [exec, step, writer, fits, List.replicate_succ]
    · simp only [Writer.rest, List.flatten_append, List.flatten_singleton, List.length_append, List.length_take]
      omega
  | write my_buf =>
    refine ⟨List.replicate 2 .writer,
      ⟨stdin, ⟨buf, sem, 0⟩, .returned, .returned, writes ++ [my_buf], blocks, fresh⟩, ?_, ⟨rfl, rfl⟩, ?_⟩
    · simp [exec, step, writer, List.replicate_succ]
    · simp [Writer.rest]
  | test =>
    exact ⟨[.writer], ⟨stdin, ⟨buf, sem, 0⟩, .returned, .returned, writes, blocks, fresh⟩,
      by simp [exec, step, writer], ⟨rfl, rfl⟩, by simp⟩
  | returned => exact ⟨[], _, rfl, ⟨rfl, rfl⟩, by simp⟩

/-! ## `reader` alone -/

/-- `reader` has got through its test, or will, and the length it stores at the end is zero. -/
def Passes (s : State) : Reader → Prop
  | .semWait _ => s.arg.sem ≠ 0
  | .semPost my_buf => my_buf = [] → s.arg.len = 0
  | .returned => s.arg.sem ≠ 0 ∧ s.arg.len = 0
  | .read | .semGetvalue _ | .memcpy _ | .setLen _ => True

/-- What `reader` leaves alone. -/
structure Alone (s t : State) : Prop where
  writer : t.writer = s.writer
  writes : t.writes = s.writes
  passes : Passes t t.reader

theorem alone_taken {my_buf : List UInt8} : Passes s (Reader.taken my_buf) := by
  unfold Reader.taken
  split <;> trivial

theorem Alone.read {u : State} {n : ℕ} (alone : Alone s t) (taken : Threads.read t n = some u) : Alone s u := by
  simp only [Threads.read, Option.ite_none_right_eq_some, Option.some.injEq] at taken
  obtain ⟨-, rfl⟩ := taken
  exact ⟨alone.writer, alone.writes, trivial⟩

theorem Alone.reader {u : State} (alone : Alone s t) (move : ReaderMove t u) : Alone s u := by
  obtain ⟨same, writes, passes⟩ := alone
  cases move with
  | free pc down => exact ⟨same, writes, alone_taken⟩
  | busy pc up => exact ⟨same, writes, up⟩
  | takes pc up => exact ⟨same, writes, alone_taken⟩
  | copies pc => exact ⟨same, writes, trivial⟩
  | stores pc => exact ⟨same, writes, fun empty => by simp [empty]⟩
  | posts pc more => exact ⟨same, writes, trivial⟩
  | ends pc =>
    rw [pc] at passes
    exact ⟨same, writes, by simp, passes rfl⟩

/-- Left alone, `reader` gets to its end. -/
theorem exists_exec_reader (passes : Passes s s.reader) :
    ∃ es u, exec step s es = some u ∧ Alone s u ∧ u.reader = .returned := by
  apply exists_exec_of_progress (μ := State.rank)
  · intro t alone busy
    by_cases reads : t.reader = .read
    · obtain ⟨n, u, taken⟩ := exists_read reads
      exact ⟨.read n, u, taken, alone.read taken, rank_lt_of_read taken⟩
    · obtain ⟨u, taken⟩ := exists_reader reads busy fun my_buf waits => by
        have passes := alone.passes
        rw [waits] at passes
        exact passes
      exact ⟨.reader, u, taken, alone.reader (reader_move taken), (reader_move taken).rank_lt⟩
  · exact ⟨rfl, rfl, passes⟩

/-- Once `reader` has got through its test, what `writer` has not copied can be lost. -/
theorem exists_exec_lost (passes : Passes s s.reader) (fits : ∀ n, s.writer = .memcpy n → n.toNat ≤ bufSize) :
    ∃ es u, exec step s es = some u ∧ u.Finished ∧
      u.writes.flatten.length ≤ s.writes.flatten.length + s.writer.rest := by
  obtain ⟨first, t, ran, alone, ended⟩ := exists_exec_reader passes
  have passed := alone.passes
  rw [ended] at passed
  obtain ⟨second, u, rest, finished, short⟩ := exists_exec_writer ended passed.1 passed.2 (alone.writer ▸ fits)
  refine ⟨first ++ second, u, exec_append.mpr ⟨t, ran, rest⟩, finished, ?_⟩
  rwa [alone.writer, alone.writes] at short

/-! ## A step out of turn -/

/-- `writer` writes the block posted last again and again. -/
theorem Inv.wrong_of_writer (inv : Inv input s) (pc : s.writer = .semGetvalue) (up : s.arg.sem ≠ 0)
    (stale : s.fresh = false) (taken : Threads.step s .writer = some t) :
    ∃ es u, exec Threads.step t es = some u ∧ Wrong input u := by
  have len : s.arg.len ≠ 0 := by
    have turn := inv.reader
    have writer := inv.writer
    rw [pc] at writer
    cases r : s.reader with
    | returned => simp [writer r] at stale
    | read =>
      rw [r] at turn
      exact turn
    | semGetvalue my_buf =>
      rw [r] at turn
      exact turn.2
    | semWait my_buf =>
      rw [r] at turn
      exact turn.2.1
    | memcpy my_buf | setLen my_buf | semPost my_buf =>
      rw [r] at turn
      exact absurd turn.2.2.2.1 up
  have fits := inv.len (.inl up)
  have t_eq : t = { s with writer := .getLen } := by simpa [Threads.step, Threads.writer, pc, up] using taken.symm
  have first := exec_round (s := t) (by rw [t_eq]) (by rwa [t_eq]) (by rwa [t_eq]) (by rwa [t_eq])
  have second := exec_round (s := { t with writes := t.writes ++ [t.arg.buf.take t.arg.len.toNat], fresh := false })
    (by rw [t_eq]) (by rwa [t_eq]) (by rwa [t_eq]) (by rwa [t_eq])
  refine ⟨_, _, exec_append.mpr ⟨_, first, second⟩, .inl fun order => ?_⟩
  have longer := order.length_le
  have blocks := inv.blocks
  have held : s.reader.held.length ≤ 1 := by cases s.reader <;> simp [Reader.held]
  rw [pc] at blocks
  simp only [t_eq, blocks, State.between, stale, Writer.held, List.length_append, List.length_singleton,
    List.length_nil, Bool.false_eq_true, if_false] at longer
  omega

theorem Writer.length_held {w : Writer} {buf : List UInt8} (size : buf.length = bufSize)
    (fits : ∀ n, w = .memcpy n → n.toNat ≤ bufSize) : (w.held buf).flatten.length = w.rest := by
  cases w with
  | memcpy n =>
    have := fits n rfl
    simp only [Writer.held, Writer.rest, List.flatten_singleton, List.length_take]
    omega
  | semGetvalue | semWait | getLen | write _ | test | returned => simp [Writer.held, Writer.rest]

/-- `reader` goes on before `writer` has what it needs of the block posted last. -/
theorem Inv.wrong_of_reader (inv : Inv input s) {my_buf : List UInt8} (pc : s.reader = .semGetvalue my_buf)
    (early : s.fresh = true ∨ my_buf ≠ [] ∧ ∃ len, s.writer = .memcpy len)
    (taken : Threads.step s .reader = some t) : ∃ es u, exec Threads.step t es = some u ∧ Wrong input u := by
  have fits (n : BitVec 32) (w : s.writer = .memcpy n) : n.toNat ≤ bufSize := by
    have writer := inv.writer
    rw [w] at writer
    exact writer
  have alone : Alone s t := Alone.reader ⟨rfl, rfl, by rw [pc]; trivial⟩ (reader_move taken)
  obtain ⟨es, u, ran, finished, short⟩ := exists_exec_lost alone.passes (alone.writer ▸ fits)
  refine ⟨es, u, ran, .inr ⟨finished, fun same => ?_⟩⟩
  rw [same, alone.writer, alone.writes] at short
  have turn := inv.reader
  rw [pc] at turn
  have lost : 0 < s.between.flatten.length + my_buf.length := by
    rcases early with fresh | ⟨nonempty, -⟩
    · have small := inv.len (.inr fresh)
      have size := inv.size
      have some_ : s.arg.len.toNat ≠ 0 := fun zero => turn.2 (BitVec.eq_of_toNat_eq zero)
      simp only [State.between, fresh, if_true, List.flatten_singleton, List.length_take]
      omega
    · have := List.length_pos_iff.mpr nonempty
      omega
  have stream := congrArg List.length inv.stream
  rw [inv.blocks, pc] at stream
  simp only [Reader.held, List.flatten_append, List.flatten_singleton, List.length_append,
    Writer.length_held inv.size fits] at stream
  omega

/-- A run that takes a step out of turn can go on to a wrong output. -/
theorem exists_wrong {es : List Event} {e : Event} (ran : exec step (start input) es = some s)
    (met : AllSteps step Right (start input) es) (taken : step s e = some t) (wrong : ¬ Right s e) :
    ∃ more u, exec step t more = some u ∧ Wrong input u := by
  have inv : Inv input s :=
    exec_invariant_of_allSteps (fun _ _ _ inv right taken => inv.step right taken) ran met (inv_start input)
  cases e with
  | read n => exact absurd trivial wrong
  | writer =>
    simp only [Right, not_forall, not_or, Bool.not_eq_true] at wrong
    obtain ⟨pc, up, stale⟩ := wrong
    exact inv.wrong_of_writer pc up stale taken
  | reader =>
    simp only [Right, not_forall, not_and_or, Bool.not_eq_false, ne_eq, not_not] at wrong
    obtain ⟨my_buf, pc, early⟩ := wrong
    exact inv.wrong_of_reader pc (by simpa using early) taken

end

end SystemProgramming.Threads
