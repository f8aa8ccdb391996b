import SystemProgramming.Lib.CString
import SystemProgramming.Lib.Run
import Mathlib.Data.Nat.Digits.Defs

/-! # The character device of `hw12/demo.c`

Any number of processes open, read and release the device; the files are numbered in the order in which
`atomic_cmpxchg` succeeded. `device_open` takes two steps, the exchange and the formatting, and
`device_read` one for each round of its loop, so a list of events is an interleaving of all callers. The
kernel releases a file once, when no call is in progress on it. User buffers are valid; module reference
counts are left out.

The fields `told` and `answers` are history: no step reads them.
-/

namespace SystemProgramming.CharDevice

open Lib

/-- `BUF_LEN` -/
def bufLen : ℕ := 80

/-- Where the calls on one open file are. -/
inductive Phase where
  /-- In `device_open`, before `sprintf`. -/
  | opening
  | idle
  /-- In the loop of `device_read`; `msgPtr` is an index into `msg`. -/
  | reading (length msgPtr bytesRead : ℕ) (buffer : List UInt8)
  | released
deriving DecidableEq, Repr

structure File where
  phase : Phase
  offset : ℕ
  /-- `msg` when `device_open` returned. -/
  told : Field bufLen
  /-- What the completed calls of `device_read` copied. -/
  answers : List (List UInt8)

/-- `alreadyOpen`: `already_open` is `CDEV_EXCLUSIVE_OPEN`. -/
structure State where
  alreadyOpen : Bool
  counter : BitVec 32
  msg : Field bufLen
  files : List File

def start : State where
  alreadyOpen := false
  counter := 0
  msg := Field.init bufLen []
  files := []

/-- The decimal digits of `%d`. -/
def decimal (n : ℕ) : List UInt8 :=
  if n = 0 then [48] else (Nat.digits 10 n).reverse.map fun digit => 48 + digit.toUInt8

def formatInt (value : ℤ) : List UInt8 :=
  if value < 0 then 45 :: decimal value.natAbs else decimal value.natAbs

/-- "I already told you " -/
def beforeCount : List UInt8 :=
  [73, 32, 97, 108, 114, 101, 97, 100, 121, 32, 116, 111, 108, 100, 32, 121, 111, 117, 32]

/-- " times Hello world!\n" -/
def afterCount : List UInt8 :=
  [32, 116, 105, 109, 101, 115, 32, 72, 101, 108, 108, 111, 32, 119, 111, 114, 108, 100, 33, 10]

def message (count : ℤ) : List UInt8 := beforeCount ++ formatInt count ++ afterCount

inductive Event where
  | open
  | sprintf (file : ℕ)
  | read (file length : ℕ)
  | copy (file : ℕ)
  | release (file : ℕ)
deriving DecidableEq, Repr

/-- `atomic_cmpxchg(&already_open, CDEV_NOT_USED, CDEV_EXCLUSIVE_OPEN)`; an open that fails with
`-EBUSY` leaves everything as it is. -/
def State.open (s : State) : State :=
  if s.alreadyOpen then s
  else
    let file : File := { phase := .opening, offset := 0, told := Field.init bufLen [], answers := [] }
    { s with alreadyOpen := true, files := s.files ++ [file] }

/-- `sprintf(msg, …, counter++)` and the return from `device_open`. -/
def State.sprintf (s : State) (i : ℕ) (file : File) : Option State :=
  (s.msg.strcpy (message s.counter.toInt)).map fun msg =>
    { s with
      counter := s.counter + 1
      msg := msg
      files := s.files.set i { file with phase := .idle, told := msg } }

/-- The test at the start of `device_read`; an access outside `msg` has no result. -/
def State.read (s : State) (i : ℕ) (file : File) (length : ℕ) : Option State :=
  s.msg.bytes[file.offset]?.map fun byte =>
    if byte = 0 then
      { s with files := s.files.set i { file with offset := 0, answers := file.answers ++ [[]] } }
    else { s with files := s.files.set i { file with phase := .reading length file.offset 0 [] } }

/-- One round of the loop of `device_read`, or the return behind it. -/
def State.copy (s : State) (i : ℕ) (file : File) (length msgPtr bytesRead : ℕ) (buffer : List UInt8) :
    Option State :=
  let done := { s with
    files := s.files.set i { file with
      phase := .idle
      offset := file.offset + bytesRead
      answers := file.answers ++ [buffer] } }
  if length = 0 then some done
  else s.msg.bytes[msgPtr]?.map fun byte =>
    if byte = 0 then done
    else { s with
      files := s.files.set i { file with
        phase := .reading (length - 1) (msgPtr + 1) (bytesRead + 1) (buffer ++ [byte]) } }

def step (s : State) : Event → Option State
  | .open => some s.open
  | .sprintf i =>
    match s.files[i]? with
    | some file => if file.phase = .opening then s.sprintf i file else none
    | none => none
  | .read i length =>
    match s.files[i]? with
    | some file => if file.phase = .idle ∧ 0 < length then s.read i file length else none
    | none => none
  | .copy i =>
    match s.files[i]? with
    | some file =>
      match file.phase with
      | .reading length msgPtr bytesRead buffer => s.copy i file length msgPtr bytesRead buffer
      | _ => none
    | none => none
  | .release i =>
    match s.files[i]? with
    | some file =>
      if file.phase = .idle then
        some { s with alreadyOpen := false, files := s.files.set i { file with phase := .released } }
      else none
    | none => none

/-! ## What the device promises -/

/-- A successful open that has not been released. -/
def Outstanding (s : State) (i : ℕ) : Prop := ∃ file, s.files[i]? = some file ∧ file.phase ≠ .released

/-- `device_open` has returned success for the file, and the file has not been released. -/
def Holds (s : State) (i : ℕ) : Prop :=
  ∃ file, s.files[i]? = some file ∧ file.phase ≠ .opening ∧ file.phase ≠ .released

/-- What a holder has read until the first return of 0. -/
def File.readOut (file : File) : List UInt8 := (file.answers.takeWhile (· ≠ [])).flatten

/-- The state of the device after any number of calls. -/
structure Promise (s : State) : Prop where
  exclusive : ∀ i j, Outstanding s i → Outstanding s j → i = j
  numbered : ∀ (k : ℕ) file, s.files[k]? = some file → file.phase ≠ .opening → k < 2 ^ 31 →
    file.told.string = message k
  intact : ∀ later t i, exec step s later = some t → Holds s i → Holds t i → t.msg = s.msg
  exact : ∀ file ∈ s.files, [] ∈ file.answers → file.readOut = file.told.string
  ends : ∀ file ∈ s.files, file.told.string.length < file.answers.length → [] ∈ file.answers
  answers : ∀ i, Outstanding s i → (step s (.sprintf i)).isSome ∨ (step s (.copy i)).isSome ∨
    ∀ length, 0 < length → (step s (.read i length)).isSome

end SystemProgramming.CharDevice
