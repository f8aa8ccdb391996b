import SystemProgramming.Lib.Run

/-! # The two threads of `test/3`

`reader` reads the standard input into a buffer shared with `writer`, which writes it to the standard output.
One semaphore, which both test with `sem_getvalue` before they wait for it, is to make them take turns. Each
call and each access to the fields of `struct Arg` is one step. Calls succeed, `write` writes everything and
`read` returns at least one byte before the end of the stream.

Of the local buffers only the first `len` bytes are kept. The fields `blocks` and `fresh` are history: no step
reads them.
-/

namespace SystemProgramming.Threads

/-- `BUFSIZE`. -/
def bufSize : ℕ := 4096

/-- `struct Arg`; `sem` is the value of the semaphore. -/
structure Arg where
  buf : List UInt8
  sem : ℕ
  len : BitVec 32

/-- The next statement of `reader`, with the block in `my_buf`. Behind the loop the block is empty. -/
inductive Reader where
  | read
  | semGetvalue (my_buf : List UInt8)
  | semWait (my_buf : List UInt8)
  | memcpy (my_buf : List UInt8)
  | setLen (my_buf : List UInt8)
  | semPost (my_buf : List UInt8)
  | returned
deriving DecidableEq

/-- The next statement of `writer`. -/
inductive Writer where
  | semGetvalue
  | semWait
  | getLen
  | memcpy (len : BitVec 32)
  | write (my_buf : List UInt8)
  | test
  | returned
deriving DecidableEq

structure State where
  stdin : List UInt8
  arg : Arg
  reader : Reader
  writer : Writer
  /-- What the calls of `write` have written. -/
  writes : List (List UInt8)
  /-- What the calls of `read` have returned. -/
  blocks : List (List UInt8)
  /-- `writer` has yet to fetch the length of the block posted last. -/
  fresh : Bool

/-- `main` starts both threads. -/
def start (input : List UInt8) : State where
  stdin := input
  arg := { buf := List.replicate bufSize 0, sem := 0, len := -1 }
  reader := .read
  writer := .semGetvalue
  writes := []
  blocks := []
  fresh := false

/-- `read(STDIN_FILENO, my_buf, BUFSIZE)` returns `n`. -/
def read (s : State) (n : ℕ) : Option State :=
  if s.reader = .read ∧ n ≤ s.stdin.length ∧ n ≤ bufSize ∧ (n = 0 → s.stdin = []) then
    some { s with
      stdin := s.stdin.drop n
      reader := .semGetvalue (s.stdin.take n)
      blocks := s.blocks ++ [s.stdin.take n] }
  else none

/-- The test and the wait are over. Behind the loop nothing is copied. -/
def Reader.taken (my_buf : List UInt8) : Reader := if my_buf = [] then .setLen my_buf else .memcpy my_buf

/-- The other statements of `reader`. -/
def reader (s : State) : Option State :=
  match s.reader with
  | .read | .returned => none
  | .semGetvalue my_buf =>
    some { s with reader := if s.arg.sem = 0 then Reader.taken my_buf else .semWait my_buf }
  | .semWait my_buf =>
    if s.arg.sem = 0 then none
    else some { s with arg := { s.arg with sem := s.arg.sem - 1 }, reader := Reader.taken my_buf }
  | .memcpy my_buf =>
    some { s with
      arg := { s.arg with buf := my_buf ++ s.arg.buf.drop my_buf.length }
      reader := .setLen my_buf }
  | .setLen my_buf =>
    some { s with arg := { s.arg with len := BitVec.ofNat 32 my_buf.length }, reader := .semPost my_buf }
  | .semPost my_buf =>
    some { s with
      arg := { s.arg with sem := s.arg.sem + 1 }
      reader := if my_buf = [] then .returned else .read
      fresh := true }

/-- The statements of `writer`. A copy that leaves the buffers has no result. -/
def writer (s : State) : Option State :=
  match s.writer with
  | .semGetvalue => some { s with writer := if s.arg.sem = 0 then .semWait else .getLen }
  | .semWait =>
    if s.arg.sem = 0 then none
    else some { s with arg := { s.arg with sem := s.arg.sem - 1 }, writer := .getLen }
  | .getLen => some { s with writer := .memcpy s.arg.len, fresh := false }
  | .memcpy len =>
    if len.toNat ≤ bufSize then some { s with writer := .write (s.arg.buf.take len.toNat) } else none
  | .write my_buf => some { s with writer := .test, writes := s.writes ++ [my_buf] }
  | .test => some { s with writer := if s.arg.len = 0 then .returned else .semGetvalue }
  | .returned => none

inductive Event where
  | read (n : ℕ)
  | reader
  | writer
deriving DecidableEq

def step (s : State) : Event → Option State
  | .read n => read s n
  | .reader => reader s
  | .writer => writer s

def State.Finished (s : State) : Prop := s.reader = .returned ∧ s.writer = .returned

instance (s : State) : Decidable s.Finished := inferInstanceAs (Decidable (_ ∧ _))

/-- `writer` tests the semaphore while it is taken or the block posted last is still to be fetched. `reader`
tests it when the length of the block posted last has been fetched and, if another block follows, the bytes
have been copied. -/
def Right (s : State) : Event → Prop
  | .read _ => True
  | .reader => ∀ my_buf, s.reader = .semGetvalue my_buf →
      s.fresh = false ∧ (my_buf ≠ [] → ∀ len, s.writer ≠ .memcpy len)
  | .writer => s.writer = .semGetvalue → s.arg.sem = 0 ∨ s.fresh = true

end SystemProgramming.Threads
