import SystemProgramming.Lib.MappedFiles

/-! # `struct SM` of `hw9/49-1`

A file that is mapped as a whole, as long as it is not empty. `argv` is the list of names the copying
`main` gets; the addresses at which the kernel puts new mappings are arguments. Objects are numbered
in the order in which they are made.
-/

namespace SystemProgramming.MappedFile

open Lib

variable {ν : Type} [DecidableEq ν]

abbrev World (ν : Type) := Space ν ℕ

/-- `ptr` is `none` for `NULL`. -/
structure SM where
  fd : ℕ
  ptr : Option ℕ
  len : ℕ
  deriving DecidableEq

def newSm (w : World ν) (filename : ν) (flag : Space.Flag) (owner address : ℕ) :
    Except Failure (SM × World ν) := do
  let (fd, w) ← w.openFile filename flag
  let size ← w.fstat fd
  if size = 0 then return (⟨fd, none, size⟩, w)
  else
    let (ptr, w) ← w.mmap size fd address owner
    return (⟨fd, some ptr, size⟩, w)

/-- The descriptor and the mapping go together. -/
def deleteSm (w : World ν) (this : Option SM) : Except Failure (World ν) :=
  match this with
  | some ⟨fd, some ptr, len⟩ => (w.close fd).munmap ptr len
  | _ => .ok w

def setLen (w : World ν) (this : SM) (s owner address : ℕ) : Except Failure (SM × World ν) := do
  let w ← w.ftruncate this.fd s
  match this.ptr with
  | none =>
    if s = 0 then return ({ this with ptr := none, len := s }, w)
    else
      let (ptr, w) ← w.mmap s this.fd address owner
      return ({ this with ptr := some ptr, len := s }, w)
  | some old =>
    if s = 0 then return ({ this with ptr := none, len := s }, w)
    else
      let (ptr, w) ← w.mremap old this.len s address
      return ({ this with ptr := some ptr, len := s }, w)

/-- `O_RDWR`, and `O_CREAT` for the target. -/
def main (w : World ν) (argv : ν × ν) (address : ℕ → ℕ) : Except Failure (World ν) := do
  let (src, w) ← newSm w argv.1 ⟨false, false⟩ 0 (address 0)
  let (dst, w) ← newSm w argv.2 ⟨true, false⟩ 1 (address 1)
  let (dst, w) ← setLen w dst src.len 1 (address 2)
  let w ← w.memcpy dst.ptr src.ptr src.len
  let w ← deleteSm w (some src)
  deleteSm w (some dst)

/-! ## A program that uses objects -/

/-- The objects made so far; a deleted one is `none`. -/
structure State (ν : Type) where
  world : World ν
  objects : List (Option SM)

namespace State

def live (st : State ν) (i : ℕ) : Option SM := st.objects[i]?.join

def pointer (st : State ν) (i : ℕ) : Option ℕ := (st.live i).bind SM.ptr

end State

def start (files : ν → Option (List UInt8)) (fds : FdTable ν) : State ν :=
  ⟨⟨files, fds, fun _ => none⟩, []⟩

/-- A call and the address the kernel chooses. -/
inductive Event (ν : Type)
  | newSm (filename : ν) (flag : Space.Flag) (address : ℕ)
  | setLen (i s address : ℕ)
  | deleteSm (i : ℕ)

/-- All system calls of the function succeed. -/
def step (st : State ν) : Event ν → Option (State ν)
  | .newSm filename flag address => do
    let (sm, w) ← (newSm st.world filename flag st.objects.length address).toOption
    some ⟨w, st.objects ++ [some sm]⟩
  | .setLen i s address => do
    let this ← st.live i
    let (sm, w) ← (setLen st.world this s i address).toOption
    some ⟨w, st.objects.set i (some sm)⟩
  | .deleteSm i => do
    let this ← st.live i
    let w ← (deleteSm st.world (some this)).toOption
    some ⟨w, st.objects.set i none⟩

end SystemProgramming.MappedFile
