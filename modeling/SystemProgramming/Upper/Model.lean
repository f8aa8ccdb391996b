import SystemProgramming.Lib.Run

/-! # Upper-casing through a child (`hw5/1`)

The parent sends what it reads to a child through one pipe and takes the answer from another. Each system call
of the two processes is one step, so a list of events is a schedule. Memory pages and `PIPE_BUF` are 4096
bytes: a `write` of a block to a pipe waits for room and then puts all of it there, a `read` waits for bytes or
for the last writing end to be closed. Other calls succeed; `perror` is left out.

The field `chunks` is history: no step reads it.
-/

namespace SystemProgramming.Upper

/-- `getpagesize()`, the value of `BUF_SIZE`. -/
def bufSize : ℕ := 4096

/-- How much a pipe holds; an atomic `write` must fit. -/
structure Capacity where
  bytes : ℕ
  holds : bufSize ≤ bytes

/-- `toupper` in the locale `C`. A negative `char` comes back as it is. -/
def toupper (c : UInt8) : UInt8 := if 97 ≤ c ∧ c ≤ 122 then c - 32 else c

/-- The next call of the parent. -/
inductive Parent where
  | closeP2c0
  | closeC2p1
  | readStdin
  | write (buf1 : List UInt8)
  | readChild
  | writeStdout (buf2 : List UInt8)
  | exited
deriving DecidableEq

/-- The next call of the child; `toupper` is its inner loop. -/
inductive Child where
  | closeP2c1
  | closeC2p0
  | read
  | toupper (buf1 : List UInt8)
  | write (buf2 : List UInt8)
  | exited
deriving DecidableEq

structure State where
  stdin : List UInt8
  p2c : List UInt8
  c2p : List UInt8
  parent : Parent
  child : Child
  /-- What the parent has written to the standard output. -/
  writes : List (List UInt8)
  /-- What the parent has read from the standard input. -/
  chunks : List (List UInt8)

/-- Both processes right after `fork`. -/
def start (input : List UInt8) : State where
  stdin := input
  p2c := []
  c2p := []
  parent := .closeP2c0
  child := .closeP2c1
  writes := []
  chunks := []

/-! ## The processes that hold the ends of the pipes -/

def State.p2cReaders (s : State) : Prop := s.parent = .closeP2c0 ∨ s.child ≠ .exited

def State.p2cWriters (s : State) : Prop := s.parent ≠ .exited ∨ s.child = .closeP2c1

def State.c2pReaders (s : State) : Prop := s.parent ≠ .exited ∨ s.child = .closeP2c1 ∨ s.child = .closeC2p0

def State.c2pWriters (s : State) : Prop := s.parent = .closeP2c0 ∨ s.parent = .closeC2p1 ∨ s.child ≠ .exited

instance (s : State) : Decidable s.p2cReaders := inferInstanceAs (Decidable (_ ∨ _))
instance (s : State) : Decidable s.p2cWriters := inferInstanceAs (Decidable (_ ∨ _))
instance (s : State) : Decidable s.c2pReaders := inferInstanceAs (Decidable (_ ∨ _ ∨ _))
instance (s : State) : Decidable s.c2pWriters := inferInstanceAs (Decidable (_ ∨ _ ∨ _))

/-! ## The two programs -/

/-- `read(STDIN_FILENO, buf1, BUF_SIZE)` returns `n`. -/
def readStdin (s : State) (n : ℕ) : Option State :=
  if s.parent = .readStdin ∧ n ≤ s.stdin.length ∧ n ≤ bufSize ∧ (n = 0 → s.stdin = []) then
    if n = 0 then some { s with parent := .exited }
    else some { s with
      stdin := s.stdin.drop n
      parent := .write (s.stdin.take n)
      chunks := s.chunks ++ [s.stdin.take n] }
  else none

/-- The other calls of `parent` and of `main` before it. Without a reader `SIGPIPE` ends the process. -/
def parent (capacity : Capacity) (s : State) : Option State :=
  match s.parent with
  | .readStdin | .exited => none
  | .closeP2c0 => some { s with parent := .closeC2p1 }
  | .closeC2p1 => some { s with parent := .readStdin }
  | .write buf1 =>
    if ¬ s.p2cReaders then some { s with parent := .exited }
    else if s.p2c.length + buf1.length ≤ capacity.bytes then
      some { s with p2c := s.p2c ++ buf1, parent := .readChild }
    else none
  | .readChild =>
    if s.c2p = [] ∧ s.c2pWriters then none
    else some { s with c2p := s.c2p.drop bufSize, parent := .writeStdout (s.c2p.take bufSize) }
  | .writeStdout buf2 => some { s with parent := .readStdin, writes := s.writes ++ [buf2] }

/-- The calls of `child` and of `main` before it. -/
def child (capacity : Capacity) (s : State) : Option State :=
  match s.child with
  | .exited => none
  | .closeP2c1 => some { s with child := .closeC2p0 }
  | .closeC2p0 => some { s with child := .read }
  | .read =>
    if s.p2c = [] then if s.p2cWriters then none else some { s with child := .exited }
    else some { s with p2c := s.p2c.drop bufSize, child := .toupper (s.p2c.take bufSize) }
  | .toupper buf1 => some { s with child := .write (buf1.map toupper) }
  | .write buf2 =>
    if ¬ s.c2pReaders then some { s with child := .exited }
    else if s.c2p.length + buf2.length ≤ capacity.bytes then
      some { s with c2p := s.c2p ++ buf2, child := .read }
    else none

inductive Event where
  | readStdin (n : ℕ)
  | parent
  | child
deriving DecidableEq

def step (capacity : Capacity) (s : State) : Event → Option State
  | .readStdin n => readStdin s n
  | .parent => parent capacity s
  | .child => child capacity s

def State.Finished (s : State) : Prop := s.parent = .exited ∧ s.child = .exited

/-! ## What is on its way -/

/-- The block the child has in its buffer. -/
def Child.held : Child → List UInt8
  | .toupper buf1 => buf1
  | .write buf2 => buf2
  | .closeP2c1 | .closeC2p0 | .read | .exited => []

/-- What has left the parent and has not come back, place by place. -/
def State.inFlight (s : State) : List (List UInt8) := [s.p2c, s.child.held, s.c2p].filter (· ≠ [])

end SystemProgramming.Upper
