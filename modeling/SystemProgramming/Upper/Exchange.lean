import SystemProgramming.Upper.Model
import Mathlib.Data.List.TakeDrop

/-! # One block at a time

Between two reads of the standard input one block travels from the parent to the child and, upper-cased, back
to the parent and out. All that is ever on its way is that block.
-/

namespace SystemProgramming.Upper

open Lib

/-- The child has no block. -/
def Child.Idle (c : Child) : Prop := c = .closeP2c1 ∨ c = .closeC2p0 ∨ c = .read

/-- Where a block is on its way: the next call of the parent, the first pipe, the child and the second pipe. -/
inductive Place (chunk : List UInt8) : Parent → List UInt8 → Child → List UInt8 → Prop
  | leaving {c : Child} (idle : c.Idle) : Place chunk (.write chunk) [] c []
  | sent {c : Child} (idle : c.Idle) : Place chunk .readChild chunk c []
  | received : Place chunk .readChild [] (.toupper chunk) []
  | upper : Place chunk .readChild [] (.write (chunk.map toupper)) []
  | answered {c : Child} (idle : c.Idle) : Place chunk .readChild [] c (chunk.map toupper)
  | back {c : Child} (idle : c.Idle) : Place chunk (.writeStdout (chunk.map toupper)) [] c []

/-- No block is on its way. -/
structure Quiet (s : State) : Prop where
  p2c : s.p2c = []
  c2p : s.c2p = []
  writes : s.writes = s.chunks.map (·.map toupper)

/-- The parent is about to read, or a block is on its way, or the stream is over. -/
inductive Phase (s : State) : Prop
  | reads (quiet : Quiet s) (idle : s.child.Idle)
      (parent : s.parent = .closeP2c0 ∨ s.parent = .closeC2p1 ∨ s.parent = .readStdin)
  | busy (before : List (List UInt8)) (chunk : List UInt8) (chunks : s.chunks = before ++ [chunk])
      (writes : s.writes = before.map (·.map toupper)) (place : Place chunk s.parent s.p2c s.child s.c2p)
  | ended (quiet : Quiet s) (child : s.child.Idle ∨ s.child = .exited) (parent : s.parent = .exited)
      (stdin : s.stdin = [])

structure Inv (input : List UInt8) (s : State) : Prop where
  stream : s.chunks.flatten ++ s.stdin = input
  sizes : ∀ chunk ∈ s.chunks, chunk ≠ [] ∧ chunk.length ≤ bufSize
  phase : Phase s

section

variable {capacity : Capacity} {input : List UInt8} {s t : State} {chunk : List UInt8}

theorem inv_start (input : List UInt8) : Inv input (start input) where
  stream := rfl
  sizes := by simp [start]
  phase := .reads ⟨rfl, rfl, rfl⟩ (.inl rfl) (.inl rfl)

theorem Child.Idle.held {c : Child} (idle : c.Idle) : c.held = [] := by
  rcases idle with rfl | rfl | rfl <;> rfl

theorem Child.Idle.not_exited {c : Child} (idle : c.Idle) : c ≠ .exited := by
  rcases idle with rfl | rfl | rfl <;> simp

/-! ## One step -/

theorem Inv.readStdin (inv : Inv input s) {n : ℕ} (taken : Upper.readStdin s n = some t) : Inv input t := by
  simp only [Upper.readStdin, Option.ite_none_right_eq_some] at taken
  obtain ⟨⟨pc, less, fits, ended⟩, taken⟩ := taken
  cases inv.phase with
  | busy before chunk chunks writes place =>
    rw [pc] at place
    cases place
  | ended quiet child parent stdin => simp [parent] at pc
  | reads quiet idle parent =>
    split at taken
    · next zero =>
      cases taken
      exact ⟨inv.stream, inv.sizes, .ended ⟨quiet.p2c, quiet.c2p, quiet.writes⟩ (.inl idle) rfl (ended zero)⟩
    · next some_ =>
      cases taken
      refine ⟨by simpa using inv.stream, ?_, ?_⟩
      · intro chunk member
        rcases List.mem_append.mp member with old | new
        · exact inv.sizes chunk old
        · rw [List.mem_singleton.mp new]
          have length : (s.stdin.take n).length = n := List.length_take_of_le less
          constructor
          · intro empty
            exact some_ (by simpa [empty] using length.symm)
          · omega
      · refine .busy s.chunks _ rfl quiet.writes ?_
        simp only [quiet.p2c, quiet.c2p]
        exact .leaving idle

theorem length_map_le (small : chunk.length ≤ bufSize) : (chunk.map toupper).length ≤ bufSize := by
  rwa [List.length_map]

theorem Inv.parent_step (inv : Inv input s) (taken : Upper.parent capacity s = some t) : Inv input t := by
  obtain ⟨stream, sizes, phase⟩ := inv
  unfold Upper.parent at taken
  cases phase with
  | ended quiet child parent stdin => simp [parent] at taken
  | reads quiet idle parent =>
    rcases parent with pc | pc | pc
    · simp only [pc, Option.some.injEq] at taken
      rw [← taken]
      exact ⟨stream, sizes, .reads ⟨quiet.p2c, quiet.c2p, quiet.writes⟩ idle (.inr (.inl rfl))⟩
    · simp only [pc, Option.some.injEq] at taken
      rw [← taken]
      exact ⟨stream, sizes, .reads ⟨quiet.p2c, quiet.c2p, quiet.writes⟩ idle (.inr (.inr rfl))⟩
    · simp [pc] at taken
  | busy before chunk chunks writes place =>
    obtain ⟨nonempty, small⟩ := sizes chunk (by simp [chunks])
    obtain ⟨stdin, p2c, c2p, parent, child, ws, cs⟩ := s
    dsimp only at place chunks writes
    cases place with
    | leaving idle =>
      have readers : State.p2cReaders ⟨stdin, [], [], .write chunk, child, ws, cs⟩ := .inr idle.not_exited
      have room : ([] : List UInt8).length + chunk.length ≤ capacity.bytes := by
        have := capacity.holds
        simp only [List.length_nil]
        omega
      simp only [readers, not_true_eq_false, if_false, room, if_true, Option.some.injEq] at taken
      rw [← taken]
      exact ⟨stream, sizes, .busy before chunk chunks writes (.sent idle)⟩
    | sent idle => simp [State.c2pWriters, idle.not_exited] at taken
    | received => simp [State.c2pWriters] at taken
    | upper => simp [State.c2pWriters] at taken
    | answered idle =>
      have here : chunk.map toupper ≠ [] := by simpa using nonempty
      simp only [here, false_and, if_false, Option.some.injEq, List.take_of_length_le (length_map_le small),
        List.drop_of_length_le (length_map_le small)] at taken
      rw [← taken]
      exact ⟨stream, sizes, .busy before chunk chunks writes (.back idle)⟩
    | back idle =>
      simp only [Option.some.injEq] at taken
      rw [← taken]
      exact ⟨stream, sizes, .reads ⟨rfl, rfl, by simp [writes, chunks]⟩ idle (.inr (.inr rfl))⟩

/-- A child without a block closes its ends and then takes the block from the pipe or, once the parent is gone,
ends. -/
theorem child_of_idle (idle : s.child.Idle) (small : s.p2c.length ≤ bufSize)
    (taken : Upper.child capacity s = some t) :
    (∃ c : Child, c.Idle ∧ t = { s with child := c }) ∨
      s.p2c = [] ∧ s.parent = .exited ∧ t = { s with child := .exited } ∨
      s.p2c ≠ [] ∧ t = { s with p2c := [], child := .toupper s.p2c } := by
  unfold Upper.child at taken
  rcases idle with pc | pc | pc
  · simp only [pc, Option.some.injEq] at taken
    exact .inl ⟨.closeC2p0, .inr (.inl rfl), taken.symm⟩
  · simp only [pc, Option.some.injEq] at taken
    exact .inl ⟨.read, .inr (.inr rfl), taken.symm⟩
  · simp only [pc] at taken
    split at taken
    · next empty =>
      simp only [Option.ite_none_left_eq_some, Option.some.injEq] at taken
      obtain ⟨gone, taken⟩ := taken
      refine .inr (.inl ⟨empty, ?_, taken.symm⟩)
      by_contra alive
      exact gone (.inl alive)
    · next some_ =>
      simp only [List.take_of_length_le small, List.drop_of_length_le small, Option.some.injEq] at taken
      exact .inr (.inr ⟨some_, taken.symm⟩)

theorem Inv.child_step (inv : Inv input s) (taken : Upper.child capacity s = some t) : Inv input t := by
  obtain ⟨stream, sizes, phase⟩ := inv
  have idle_step (idle : s.child.Idle) (empty : s.p2c = []) (alive : s.parent ≠ .exited) :
      ∃ c : Child, c.Idle ∧ t = { s with child := c } := by
    rcases child_of_idle idle (by simp [empty]) taken with goes | ⟨-, gone, -⟩ | ⟨some_, -⟩
    · exact goes
    · exact absurd gone alive
    · exact absurd empty some_
  cases phase with
  | reads quiet idle parent =>
    obtain ⟨c, idle, rfl⟩ := idle_step idle quiet.p2c (by rcases parent with pc | pc | pc <;> simp [pc])
    exact ⟨stream, sizes, .reads ⟨quiet.p2c, quiet.c2p, quiet.writes⟩ idle parent⟩
  | ended quiet child parent stdin =>
    rcases child with idle | gone
    · rcases child_of_idle idle (by simp [quiet.p2c]) taken with ⟨c, idle, rfl⟩ | ⟨-, -, rfl⟩ | ⟨some_, -⟩
      · exact ⟨stream, sizes, .ended ⟨quiet.p2c, quiet.c2p, quiet.writes⟩ (.inl idle) parent stdin⟩
      · exact ⟨stream, sizes, .ended ⟨quiet.p2c, quiet.c2p, quiet.writes⟩ (.inr rfl) parent stdin⟩
      · exact absurd quiet.p2c some_
    · simp [Upper.child, gone] at taken
  | busy before chunk chunks writes place =>
    obtain ⟨nonempty, small⟩ := sizes chunk (by simp [chunks])
    obtain ⟨stdin, p2c, c2p, parent, child, ws, cs⟩ := s
    dsimp only at place chunks writes
    cases place with
    | leaving idle =>
      obtain ⟨c, idle, rfl⟩ := idle_step idle rfl (by simp)
      exact ⟨stream, sizes, .busy before chunk chunks writes (.leaving idle)⟩
    | answered idle =>
      obtain ⟨c, idle, rfl⟩ := idle_step idle rfl (by simp)
      exact ⟨stream, sizes, .busy before chunk chunks writes (.answered idle)⟩
    | back idle =>
      obtain ⟨c, idle, rfl⟩ := idle_step idle rfl (by simp)
      exact ⟨stream, sizes, .busy before chunk chunks writes (.back idle)⟩
    | sent idle =>
      rcases child_of_idle idle small taken with ⟨c, idle, rfl⟩ | ⟨empty, -⟩ | ⟨-, rfl⟩
      · exact ⟨stream, sizes, .busy before chunk chunks writes (.sent idle)⟩
      · exact absurd empty nonempty
      · exact ⟨stream, sizes, .busy before chunk chunks writes .received⟩
    | received =>
      simp only [Upper.child, Option.some.injEq] at taken
      rw [← taken]
      exact ⟨stream, sizes, .busy before chunk chunks writes .upper⟩
    | upper =>
      have readers : State.c2pReaders ⟨stdin, [], [], .readChild, .write (chunk.map toupper), ws, cs⟩ :=
        .inl (by simp)
      have room : ([] : List UInt8).length + (chunk.map toupper).length ≤ capacity.bytes := by
        have := capacity.holds
        have := length_map_le small
        simp only [List.length_nil]
        omega
      simp only [Upper.child, readers, not_true_eq_false, if_false, room, if_true, Option.some.injEq] at taken
      rw [← taken]
      exact ⟨stream, sizes, .busy before chunk chunks writes (.answered (.inr (.inr rfl)))⟩

theorem Inv.step {e : Event} (inv : Inv input s) (taken : Upper.step capacity s e = some t) : Inv input t := by
  cases e with
  | readStdin n => exact inv.readStdin taken
  | parent => exact inv.parent_step taken
  | child => exact inv.child_step taken

/-! ## Termination -/

/-- The calls still to come, those of the other process for the same bytes included. -/
def Parent.rank : Parent → ℕ
  | .closeP2c0 => 3
  | .closeC2p1 => 2
  | .readStdin => 1
  | .write buf1 => 3 * buf1.length + 4
  | .readChild => 3
  | .writeStdout _ => 2
  | .exited => 0

def Child.rank : Child → ℕ
  | .closeP2c1 => 3
  | .closeC2p0 => 2
  | .read => 1
  | .toupper _ => 3
  | .write _ => 2
  | .exited => 0

def State.rank (s : State) : ℕ :=
  7 * s.stdin.length + 3 * s.p2c.length + s.parent.rank + s.child.rank

theorem rank_lt (s : State) (e : Event) (t : State) (taken : Upper.step capacity s e = some t) :
    t.rank < s.rank := by
  cases e with
  | readStdin n =>
    simp only [Upper.step, Upper.readStdin, Option.ite_none_right_eq_some] at taken
    obtain ⟨⟨pc, less, fits, ended⟩, taken⟩ := taken
    split at taken
    · cases taken
      simp [State.rank, pc, Parent.rank]
    · next some_ =>
      cases taken
      simp only [State.rank, pc, Parent.rank, List.length_drop, List.length_take]
      omega
  | parent =>
    simp only [Upper.step, Upper.parent] at taken
    cases pc : s.parent with
    | readStdin => simp [pc] at taken
    | exited => simp [pc] at taken
    | closeP2c0 | closeC2p1 | writeStdout _ =>
      simp only [pc, Option.some.injEq] at taken
      simp [← taken, State.rank, pc, Parent.rank]
    | write buf1 =>
      simp only [pc] at taken
      split at taken
      · cases taken
        simp [State.rank, pc, Parent.rank]
      · obtain ⟨-, taken⟩ := Option.ite_none_right_eq_some.mp taken
        cases taken
        simp only [State.rank, pc, Parent.rank, List.length_append]
        omega
    | readChild =>
      simp only [pc, Option.ite_none_left_eq_some, Option.some.injEq] at taken
      simp [← taken.2, State.rank, pc, Parent.rank]
  | child =>
    simp only [Upper.step, Upper.child] at taken
    cases pc : s.child with
    | exited => simp [pc] at taken
    | closeP2c1 | closeC2p0 | toupper _ =>
      simp only [pc, Option.some.injEq] at taken
      simp [← taken, State.rank, pc, Child.rank]
    | read =>
      simp only [pc] at taken
      split at taken
      · simp only [Option.ite_none_left_eq_some, Option.some.injEq] at taken
        simp [← taken.2, State.rank, pc, Child.rank]
      · next some_ =>
        have : s.p2c.length ≠ 0 := by simpa using some_
        have : 0 < bufSize := by decide
        cases taken
        simp only [State.rank, pc, Child.rank, List.length_drop]
        omega
    | write buf2 =>
      simp only [pc] at taken
      split at taken
      · cases taken
        simp [State.rank, pc, Child.rank]
      · obtain ⟨-, taken⟩ := Option.ite_none_right_eq_some.mp taken
        cases taken
        simp [State.rank, pc, Child.rank]

theorem exists_readStdin (capacity : Capacity) (pc : s.parent = .readStdin) :
    ∃ n t, Upper.step capacity s (.readStdin n) = some t := by
  cases input : s.stdin with
  | nil => exact ⟨0, by simp [Upper.step, Upper.readStdin, pc, input]⟩
  | cons byte rest => exact ⟨1, by simp [Upper.step, Upper.readStdin, pc, input, bufSize]⟩

/-- A child without a block goes on where there is a block in the pipe or the parent is gone. -/
theorem exists_child (idle : s.child.Idle) (ready : s.p2c ≠ [] ∨ s.parent = .exited) :
    ∃ t, Upper.step capacity s .child = some t := by
  apply Option.isSome_iff_exists.mp
  simp only [Upper.step, Upper.child]
  rcases idle with pc | pc | pc
  · simp [pc]
  · simp [pc]
  · rcases ready with some_ | gone
    · simp [pc, some_]
    · by_cases empty : s.p2c = [] <;> simp [pc, empty, State.p2cWriters, gone]

/-- One of the processes can go on until both have ended. -/
theorem Inv.goesOn (inv : Inv input s) : s.Finished ∨ ∃ e t, Upper.step capacity s e = some t := by
  cases inv.phase with
  | reads quiet idle parent =>
    right
    rcases parent with pc | pc | pc
    · exact ⟨.parent, by simp [Upper.step, Upper.parent, pc]⟩
    · exact ⟨.parent, by simp [Upper.step, Upper.parent, pc]⟩
    · obtain ⟨n, t, taken⟩ := exists_readStdin capacity pc
      exact ⟨.readStdin n, t, taken⟩
  | ended quiet child parent stdin =>
    rcases child with idle | gone
    · exact .inr ⟨.child, exists_child idle (.inr parent)⟩
    · exact .inl ⟨parent, gone⟩
  | busy before chunk chunks writes place =>
    right
    obtain ⟨nonempty, small⟩ := inv.sizes chunk (by simp [chunks])
    have holds := capacity.holds
    obtain ⟨stdin, p2c, c2p, parent, child, ws, cs⟩ := s
    dsimp only at place
    cases place with
    | leaving idle =>
      have room : chunk.length ≤ capacity.bytes := by omega
      exact ⟨.parent, by simp [Upper.step, Upper.parent, State.p2cReaders, idle.not_exited, room]⟩
    | sent idle => exact ⟨.child, exists_child idle (.inl nonempty)⟩
    | received => exact ⟨.child, by simp [Upper.step, Upper.child]⟩
    | upper =>
      have room : chunk.length ≤ capacity.bytes := by omega
      exact ⟨.child, by simp [Upper.step, Upper.child, State.c2pReaders, room]⟩
    | answered idle => exact ⟨.parent, by simp [Upper.step, Upper.parent, nonempty]⟩
    | back idle => exact ⟨.parent, by simp [Upper.step, Upper.parent]⟩

/-! ## Whole runs -/

/-- Nothing is on its way, or it is the block read last, whole and in one place. -/
def OneInFlight (s : State) : Prop :=
  s.inFlight = [] ∨ ∃ chunk ∈ s.chunks.getLast?, s.inFlight = [chunk] ∨ s.inFlight = [chunk.map toupper]

theorem Quiet.inFlight (quiet : Quiet s) (held : s.child.held = []) : s.inFlight = [] := by
  simp [State.inFlight, quiet.p2c, quiet.c2p, held]

theorem Inv.oneInFlight (inv : Inv input s) : OneInFlight s := by
  cases inv.phase with
  | reads quiet idle parent => exact .inl (quiet.inFlight idle.held)
  | ended quiet child parent stdin =>
    rcases child with idle | gone
    · exact .inl (quiet.inFlight idle.held)
    · exact .inl (quiet.inFlight (by rw [gone]; rfl))
  | busy before chunk chunks writes place =>
    obtain ⟨nonempty, -⟩ := inv.sizes chunk (by simp [chunks])
    obtain ⟨stdin, p2c, c2p, parent, child, ws, cs⟩ := s
    dsimp only at place chunks
    have last : chunk ∈ cs.getLast? := by simp [chunks]
    cases place with
    | leaving idle => exact .inl (by simp [State.inFlight, idle.held])
    | back idle => exact .inl (by simp [State.inFlight, idle.held])
    | sent idle => exact .inr ⟨chunk, last, .inl (by simp [State.inFlight, idle.held, nonempty])⟩
    | received => exact .inr ⟨chunk, last, .inl (by simp [State.inFlight, Child.held, nonempty])⟩
    | upper => exact .inr ⟨chunk, last, .inr (by simp [State.inFlight, Child.held, nonempty])⟩
    | answered idle => exact .inr ⟨chunk, last, .inr (by simp [State.inFlight, idle.held, nonempty])⟩

/-- Each block is written once, upper-cased and in order. -/
theorem Inv.order (inv : Inv input s) : s.writes <+: s.chunks.map (·.map toupper) := by
  cases inv.phase with
  | reads quiet _ _ => exact ⟨[], by rw [quiet.writes, List.append_nil]⟩
  | ended quiet _ _ _ => exact ⟨[], by rw [quiet.writes, List.append_nil]⟩
  | busy before chunk chunks writes _ =>
    rw [writes, chunks, List.map_append]
    exact List.prefix_append _ _

theorem Inv.finished (inv : Inv input s) (finished : s.Finished) : s.writes.flatten = input.map toupper := by
  have stream := inv.stream
  cases inv.phase with
  | reads quiet idle parent => exact absurd finished.2 idle.not_exited
  | busy before chunk chunks writes place =>
    rw [finished.1] at place
    cases place
  | ended quiet child parent stdin =>
    rw [stdin, List.append_nil] at stream
    rw [quiet.writes, ← stream, List.map_flatten]

/-- What the parent writes is the stream upper-cased, block by block, both processes end after a bounded
number of calls, and at most one block is ever between them. -/
structure Promise (capacity : Capacity) (input : List UInt8) (es : List Event) (s : State) : Prop where
  read : s.chunks.flatten ++ s.stdin = input
  order : s.writes <+: s.chunks.map (·.map toupper)
  exact : s.Finished → s.writes.flatten = input.map toupper
  oneInFlight : OneInFlight s
  goesOn : s.Finished ∨ ∃ e t, step capacity s e = some t
  ends : es.length ≤ 7 * input.length + 6

theorem promise_of_schedule {es : List Event} (ran : exec (step capacity) (start input) es = some s) :
    Promise capacity input es s := by
  have inv : Inv input s := exec_invariant (fun _ _ _ inv taken => inv.step taken) ran (inv_start input)
  have length := exec_length_le rank_lt ran
  exact {
    read := inv.stream
    order := inv.order
    exact := inv.finished
    oneInFlight := inv.oneInFlight
    goesOn := inv.goesOn
    ends := by
      have : (start input).rank = 7 * input.length + 6 := rfl
      omega }

end

/-- `a` and the end, with the two processes in turns. -/
def oneByte : List Event :=
  [.parent, .child, .parent, .child, .readStdin 1, .parent, .child, .child, .child, .parent, .parent,
    .readStdin 0, .child]

theorem promise_oneByte : ∃ s, exec (step ⟨65536, by decide⟩) (start [97]) oneByte = some s ∧
    s.writes = [[65]] ∧ Promise ⟨65536, by decide⟩ [97] oneByte s :=
  ⟨_, rfl, rfl, promise_of_schedule rfl⟩

end SystemProgramming.Upper
