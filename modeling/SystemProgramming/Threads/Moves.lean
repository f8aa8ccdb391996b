import SystemProgramming.Threads.Model

/-! # What one statement does

The steps of the two threads with the condition under which each is taken, and how they bring the threads closer
to their ends.
-/

namespace SystemProgramming.Threads

/-- The steps of `reader` but for `read`. -/
inductive ReaderMove (s : State) : State → Prop
  | free {my_buf : List UInt8} (pc : s.reader = .semGetvalue my_buf) (down : s.arg.sem = 0) :
      ReaderMove s { s with reader := Reader.taken my_buf }
  | busy {my_buf : List UInt8} (pc : s.reader = .semGetvalue my_buf) (up : s.arg.sem ≠ 0) :
      ReaderMove s { s with reader := .semWait my_buf }
  | takes {my_buf : List UInt8} (pc : s.reader = .semWait my_buf) (up : s.arg.sem ≠ 0) :
      ReaderMove s { s with arg := { s.arg with sem := s.arg.sem - 1 }, reader := Reader.taken my_buf }
  | copies {my_buf : List UInt8} (pc : s.reader = .memcpy my_buf) :
      ReaderMove s { s with
        arg := { s.arg with buf := my_buf ++ s.arg.buf.drop my_buf.length }
        reader := .setLen my_buf }
  | stores {my_buf : List UInt8} (pc : s.reader = .setLen my_buf) :
      ReaderMove s { s with
        arg := { s.arg with len := BitVec.ofNat 32 my_buf.length }
        reader := .semPost my_buf }
  | posts {my_buf : List UInt8} (pc : s.reader = .semPost my_buf) (more : my_buf ≠ []) :
      ReaderMove s { s with arg := { s.arg with sem := s.arg.sem + 1 }, reader := .read, fresh := true }
  | ends (pc : s.reader = .semPost []) :
      ReaderMove s { s with arg := { s.arg with sem := s.arg.sem + 1 }, reader := .returned, fresh := true }

/-- The steps of `writer`. -/
inductive WriterMove (s : State) : State → Prop
  | waits (pc : s.writer = .semGetvalue) (down : s.arg.sem = 0) : WriterMove s { s with writer := .semWait }
  | ready (pc : s.writer = .semGetvalue) (up : s.arg.sem ≠ 0) : WriterMove s { s with writer := .getLen }
  | takes (pc : s.writer = .semWait) (up : s.arg.sem ≠ 0) :
      WriterMove s { s with arg := { s.arg with sem := s.arg.sem - 1 }, writer := .getLen }
  | fetches (pc : s.writer = .getLen) :
      WriterMove s { s with writer := .memcpy s.arg.len, fresh := false }
  | copies {len : BitVec 32} (pc : s.writer = .memcpy len) (fits : len.toNat ≤ bufSize) :
      WriterMove s { s with writer := .write (s.arg.buf.take len.toNat) }
  | writes {my_buf : List UInt8} (pc : s.writer = .write my_buf) :
      WriterMove s { s with writer := .test, writes := s.writes ++ [my_buf] }
  | again (pc : s.writer = .test) (more : s.arg.len ≠ 0) : WriterMove s { s with writer := .semGetvalue }
  | ends (pc : s.writer = .test) (zero : s.arg.len = 0) : WriterMove s { s with writer := .returned }

section

variable {s t : State}

theorem reader_move (taken : reader s = some t) : ReaderMove s t := by
  unfold reader at taken
  split at taken
  case h_1 | h_2 => cases taken
  case h_3 my_buf pc =>
    cases taken
    by_cases down : s.arg.sem = 0
    · simpa only [down, if_true] using ReaderMove.free pc down
    · simpa only [down, if_false] using ReaderMove.busy pc down
  case h_4 my_buf pc =>
    obtain ⟨up, taken⟩ := Option.ite_none_left_eq_some.mp taken
    cases taken
    exact .takes pc up
  case h_5 my_buf pc =>
    cases taken
    exact .copies pc
  case h_6 my_buf pc =>
    cases taken
    exact .stores pc
  case h_7 my_buf pc =>
    cases taken
    by_cases empty : my_buf = []
    · subst empty
      exact .ends pc
    · simpa only [empty, if_false] using ReaderMove.posts pc empty

theorem writer_move (taken : writer s = some t) : WriterMove s t := by
  unfold writer at taken
  split at taken
  case h_1 pc =>
    cases taken
    by_cases down : s.arg.sem = 0
    · simpa only [down, if_true] using WriterMove.waits pc down
    · simpa only [down, if_false] using WriterMove.ready pc down
  case h_2 pc =>
    obtain ⟨up, taken⟩ := Option.ite_none_left_eq_some.mp taken
    cases taken
    exact .takes pc up
  case h_3 pc =>
    cases taken
    exact .fetches pc
  case h_4 len pc =>
    obtain ⟨fits, taken⟩ := Option.ite_none_right_eq_some.mp taken
    cases taken
    exact .copies pc fits
  case h_5 my_buf pc =>
    cases taken
    exact .writes pc
  case h_6 pc =>
    cases taken
    by_cases zero : s.arg.len = 0
    · simpa only [zero, if_true] using WriterMove.ends pc zero
    · simpa only [zero, if_false] using WriterMove.again pc zero
  case h_7 => cases taken

/-! ## Where a thread can go on -/

theorem exists_reader (reads : s.reader ≠ .read) (alive : s.reader ≠ .returned)
    (free : ∀ my_buf, s.reader = .semWait my_buf → s.arg.sem ≠ 0) : ∃ t, step s .reader = some t := by
  apply Option.isSome_iff_exists.mp
  simp only [step, reader]
  cases pc : s.reader with
  | read => exact absurd pc reads
  | returned => exact absurd pc alive
  | semWait my_buf => simp [free my_buf pc]
  | semGetvalue my_buf | memcpy my_buf | setLen my_buf | semPost my_buf => rfl

theorem exists_read (pc : s.reader = .read) : ∃ n t, step s (.read n) = some t := by
  cases input : s.stdin with
  | nil => exact ⟨0, by simp [step, read, pc, input]⟩
  | cons byte rest => exact ⟨1, by simp [step, read, pc, input, bufSize]⟩

/-! ## Termination -/

/-- The steps each statement of `reader` is followed by, those of `writer` for its block included. -/
def Reader.rank : Reader → ℕ
  | .read => 11
  | .semGetvalue my_buf => if my_buf = [] then 10 else 22
  | .semWait my_buf => if my_buf = [] then 9 else 21
  | .memcpy _ => 20
  | .setLen my_buf => if my_buf = [] then 8 else 19
  | .semPost my_buf => if my_buf = [] then 7 else 18
  | .returned => 0

def Writer.rank : Writer → ℕ
  | .memcpy _ => 5
  | .write _ => 4
  | .test => 3
  | .semGetvalue => 2
  | .semWait => 1
  | .getLen | .returned => 0

def State.rank (s : State) : ℕ :=
  12 * s.stdin.length + s.reader.rank + (if s.fresh then 6 else 0) + s.writer.rank

theorem Reader.rank_taken (my_buf : List UInt8) :
    (Reader.taken my_buf).rank < (Reader.semWait my_buf).rank := by
  unfold Reader.taken
  split <;> simp_all [Reader.rank]

theorem Reader.rank_semWait (my_buf : List UInt8) :
    (Reader.semWait my_buf).rank < (Reader.semGetvalue my_buf).rank := by
  simp only [Reader.rank]
  split <;> omega

theorem rank_lt_of_read {n : ℕ} (taken : read s n = some t) : t.rank < s.rank := by
  simp only [read, Option.ite_none_right_eq_some, Option.some.injEq] at taken
  obtain ⟨⟨pc, less, fits, ended⟩, rfl⟩ := taken
  simp only [State.rank, pc, Reader.rank, List.length_drop]
  split
  · omega
  · next some_ =>
    have : n ≠ 0 := fun zero => some_ (by simp [zero])
    omega

theorem ReaderMove.rank_lt (move : ReaderMove s t) : t.rank < s.rank := by
  cases move with
  | @free my_buf pc _ =>
    have := Reader.rank_taken my_buf
    have := Reader.rank_semWait my_buf
    simp only [State.rank, pc]
    omega
  | @busy my_buf pc _ =>
    have := Reader.rank_semWait my_buf
    simp only [State.rank, pc]
    omega
  | @takes my_buf pc _ =>
    have := Reader.rank_taken my_buf
    simp only [State.rank, pc]
    omega
  | copies pc =>
    simp only [State.rank, pc, Reader.rank]
    split <;> omega
  | stores pc =>
    simp only [State.rank, pc, Reader.rank]
    split <;> omega
  | posts pc more =>
    simp only [State.rank, pc, Reader.rank, more, if_true, if_false]
    omega
  | ends pc =>
    simp only [State.rank, pc, Reader.rank, if_true]
    omega

/-- A step of `writer` comes closer to its end if there is a block where it fetches one. -/
theorem WriterMove.rank_lt (move : WriterMove s t) (full : s.writer = .getLen → s.fresh = true) :
    t.rank < s.rank := by
  cases move with
  | fetches pc => simp [State.rank, pc, Writer.rank, full pc]
  | waits pc _ | ready pc _ | takes pc _ | copies pc _ | writes pc | again pc _ | ends pc _ =>
    simp [State.rank, pc, Writer.rank]

end

end SystemProgramming.Threads
