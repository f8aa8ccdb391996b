import SystemProgramming.Lib.Run

/-! # The shared-memory transfer of `hw9/54-1`

A writer copies its standard input block by block into a System V shared segment and a reader
copies the segment to its standard output. Two binary semaphores pass the turn between them. Each
statement of the two loops that touches a semaphore, the segment or a stream is one step, so a list
of parties is an interleaving of the two programs. `int` values are 32-bit words, the kernel
objects exist on entry, and no signal is delivered. Printing and unmapping at the end are left out.

The fields `taken`, `stored` and `published` are history: no step reads them.
-/

namespace SystemProgramming.SharedTransfer

/-- `BUF_SIZE`. -/
def bufSize : ℕ := 1024

/-- `struct shmseg`. -/
structure Shmseg where
  cnt : BitVec 32
  buf : List UInt8
  size : buf.length = bufSize

/-- What one successful `read(STDIN_FILENO, shmp->buf, BUF_SIZE)` before end of file delivers. -/
structure Block where
  bytes : List UInt8
  nonempty : 1 ≤ bytes.length
  fits : bytes.length ≤ bufSize

/-- The complete stream behind a sequence of blocks. -/
def stream (blocks : List Block) : List UInt8 := blocks.flatMap Block.bytes

/-- The store of `read`: the block lands at the start of the buffer, the rest keeps its bytes. -/
def Shmseg.fill (seg : Shmseg) (block : Block) : Shmseg where
  cnt := seg.cnt
  buf := block.bytes ++ seg.buf.drop block.bytes.length
  size := by
    have fits := block.fits
    simp only [List.length_append, List.length_drop, seg.size]
    omega

/-- The bytes `write(STDOUT_FILENO, shmp->buf, n)` copies. -/
def Shmseg.firstBytes (seg : Shmseg) (n : BitVec 32) : List UInt8 := seg.buf.take n.toNat

/-! ## Binary semaphores (`binary_sems.c`) -/

inductive SemNum where
  | writeSem
  | readSem
deriving DecidableEq, Repr

/-- A semaphore set and whether `semctl(semid, 0, IPC_RMID)` has removed it. -/
structure SemSet where
  value : SemNum → ℕ
  removed : Bool

/-- How a semaphore operation ends: it waits, it returns -1, or it returns 0. -/
inductive Semop where
  | waits
  | fails
  | returns (sems : SemSet)

def SemSet.set (sems : SemSet) (semNum : SemNum) (val : ℕ) : SemSet :=
  { sems with value := fun other => if other = semNum then val else sems.value other }

def initSemAvailable (sems : SemSet) (semNum : SemNum) : SemSet := sems.set semNum 1

def initSemInUse (sems : SemSet) (semNum : SemNum) : SemSet := sems.set semNum 0

/-- Decrement by one; on a removed set `semop` fails with an `errno` other than `EINTR`. -/
def reserveSem (sems : SemSet) (semNum : SemNum) : Semop :=
  if sems.removed then .fails
  else if sems.value semNum = 0 then .waits
  else .returns (sems.set semNum (sems.value semNum - 1))

/-- Increment by one. -/
def releaseSem (sems : SemSet) (semNum : SemNum) : Semop :=
  if sems.removed then .fails
  else .returns (sems.set semNum (sems.value semNum + 1))

/-! ## The two programs -/

/-- Where the writer is; `store n` holds the value `read` returned. -/
inductive WriterPc where
  | reserve
  | read
  | store (n : BitVec 32)
  | release
  | test
  | total
  | drain
  | remove
  | done
  | failed
deriving DecidableEq, Repr

inductive ReaderPc where
  | reserve
  | test
  | total
  | write
  | release
  | finish
  | done
  | failed
deriving DecidableEq, Repr

/-- The writer's locals `bytes` and `xfrs`. -/
structure Writer where
  pc : WriterPc
  bytes : BitVec 32
  xfrs : BitVec 32

/-- The reader's locals `bytes` and `xfrs`. -/
structure Reader where
  pc : ReaderPc
  bytes : BitVec 32
  xfrs : BitVec 32

structure State where
  writer : Writer
  reader : Reader
  sems : SemSet
  seg : Shmseg
  stdin : List Block
  stdout : List UInt8
  taken : List UInt8
  stored : BitVec 32
  published : List (BitVec 32)

/-- Both programs stand before their loops; an older segment may hold anything. -/
def start (seg : Shmseg) (blocks : List Block) : State where
  writer := ⟨.reserve, 0, 0⟩
  reader := ⟨.reserve, 0, 0⟩
  sems := initSemInUse (initSemAvailable ⟨fun _ => 0, false⟩ .writeSem) .readSem
  seg := seg
  stdin := blocks
  stdout := []
  taken := []
  stored := seg.cnt
  published := []

/-- Continue after a semaphore operation wrapped in `EE`: a failure ends the program. -/
def Semop.andThen (op : Semop) (failure : State) (next : SemSet → State) : Option State :=
  match op with
  | .waits => none
  | .fails => some failure
  | .returns sems => some (next sems)

def State.writerAt (s : State) (pc : WriterPc) : State := { s with writer := { s.writer with pc := pc } }

def State.readerAt (s : State) (pc : ReaderPc) : State := { s with reader := { s.reader with pc := pc } }

/-- The next statement of `svshm_xfr_writer.c`. -/
def stepWriter (s : State) : Option State :=
  match s.writer.pc with
  | .reserve => (reserveSem s.sems .writeSem).andThen (s.writerAt .failed) fun sems =>
      { s with sems := sems }.writerAt .read
  | .read =>
    match s.stdin with
    | [] => some (s.writerAt (.store 0))
    | block :: rest =>
      some ({ s with
        seg := s.seg.fill block
        stdin := rest
        taken := s.taken ++ block.bytes }.writerAt (.store (BitVec.ofNat 32 block.bytes.length)))
  | .store n => some ({ s with seg := { s.seg with cnt := n }, stored := n }.writerAt .release)
  | .release => (releaseSem s.sems .readSem).andThen (s.writerAt .failed) fun sems =>
      { s with sems := sems, published := s.published ++ [s.seg.cnt] }.writerAt .test
  -- `!!(shmp->cnt) && (++xfrs, bytes += shmp->cnt)`: both operands are truth values
  | .test => some (s.writerAt (if s.seg.cnt ≠ 0 then .total else .drain))
  | .total =>
    let bytes := s.writer.bytes + s.seg.cnt
    some { s with writer := ⟨if bytes ≠ 0 then .reserve else .drain, bytes, s.writer.xfrs + 1⟩ }
  | .drain => (reserveSem s.sems .writeSem).andThen (s.writerAt .failed) fun sems =>
      { s with sems := sems }.writerAt .remove
  | .remove => some ({ s with sems := { s.sems with removed := true } }.writerAt .done)
  | .done => none
  | .failed => none

/-- The next statement of `svshm_xfr_reader.c`. -/
def stepReader (s : State) : Option State :=
  match s.reader.pc with
  | .reserve => (reserveSem s.sems .readSem).andThen (s.readerAt .failed) fun sems =>
      { s with sems := sems }.readerAt .test
  | .test => some (s.readerAt (if s.seg.cnt = 0 then .finish else .total))
  | .total => some { s with reader := ⟨.write, s.reader.bytes + s.seg.cnt, s.reader.xfrs⟩ }
  | .write => some ({ s with stdout := s.stdout ++ s.seg.firstBytes s.seg.cnt }.readerAt .release)
  | .release => (releaseSem s.sems .writeSem).andThen (s.readerAt .failed) fun sems =>
      { s with sems := sems, reader := ⟨.reserve, s.reader.bytes, s.reader.xfrs + 1⟩ }
  | .finish => (releaseSem s.sems .writeSem).andThen (s.readerAt .failed) fun sems =>
      { s with sems := sems }.readerAt .done
  | .done => none
  | .failed => none

inductive Party where
  | writer
  | reader
deriving DecidableEq, Repr

def step (s : State) : Party → Option State
  | .writer => stepWriter s
  | .reader => stepReader s

/-- The writer is between reserving its turn and releasing the reader's. -/
def WriterPc.filling : WriterPc → Bool
  | .read => true
  | .store _ => true
  | .release => true
  | .reserve | .test | .total | .drain | .remove | .done | .failed => false

/-- The writer has left the transfer loop. -/
def WriterPc.left : WriterPc → Bool
  | .drain | .remove | .done => true
  | .reserve | .read | .store _ | .release | .test | .total | .failed => false

/-- The reader is between reserving its turn and releasing the writer's. -/
def ReaderPc.using : ReaderPc → Bool
  | .test | .total | .write | .release | .finish => true
  | .reserve | .done | .failed => false

end SystemProgramming.SharedTransfer
