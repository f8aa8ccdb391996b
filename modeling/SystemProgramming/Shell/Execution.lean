import SystemProgramming.Lib.Filters
import SystemProgramming.Shell.Pipeline

/-! # Pipelines that run

The processes of a pipeline from `execvp` on, while others are still forked. A program reads its standard input
and writes its standard output byte by byte. A pipe has room for `capacity` bytes: a read of an empty pipe waits as
long as a process has the other end open, and a write into a pipe that no process can read ends the program.
-/

namespace SystemProgramming.Shell

open Lib Filters

variable {ρ σ : Type*}

/-- Whatever programs there are. `execvp` that fails goes on with the rest of `run_command`, another program that
writes a message and exits. -/
structure Machine (σ : Type*) where
  act : σ → Action UInt8 σ
  execvp : List Bytes → σ
  capacity : ℕ

inductive Image (σ : Type*) where
  /-- Before `execvp`, or not forked yet. -/
  | loading
  | running (program : σ)
  | exited

def Image.alive : Image σ → Bool
  | .loading => true
  | .running _ => true
  | .exited => false

/-- `input` is what is left of the shell's standard input, `output` what has been written to its standard
output. -/
structure Running (ρ σ : Type*) where
  shell : State ρ
  images : ℕ → Image σ
  pipes : ℕ → Bytes
  input : Bytes
  output : Bytes

def Running.start (input : Bytes) : Running ρ σ where
  shell := Shell.start
  images _ := .loading
  pipes _ := []
  input := input
  output := []

def Process.holds (p : Process ρ) (id : ℕ) (write : Bool) : Bool :=
  (List.range p.fds.bound).any fun fd =>
    match p.fds.get fd with
    | some (.pipe other kind) => other == id && kind == write
    | _ => false

/-- Some process has this end of the pipe open. -/
def Running.held (r : Running ρ σ) (id : ℕ) (write : Bool) : Bool :=
  r.shell.procs.zipIdx.any fun (p, j) => (r.images j).alive && p.holds id write

def Running.goTo (r : Running ρ σ) (j : ℕ) (image : Image σ) : Running ρ σ :=
  { r with images := Function.update r.images j image }

def Running.setPipe (r : Running ρ σ) (id : ℕ) (content : Bytes) : Running ρ σ :=
  { r with pipes := Function.update r.pipes id content }

/-- A byte or the end of the stream from what descriptor 0 refers to, if there is one. -/
def Running.read (r : Running ρ σ) : Option (Handle ρ) → Option (Option UInt8 × Running ρ σ)
  | some (.shell _) =>
    match r.input with
    | [] => some (none, r)
    | byte :: rest => some (some byte, { r with input := rest })
  | some (.pipe id false) =>
    match r.pipes id with
    | [] => if r.held id true then none else some (none, r)
    | byte :: rest => some (some byte, r.setPipe id rest)
  -- not without redirections
  | some (.pipe _ true) | some (.file _ _) | none => none

/-- A byte to what descriptor 1 refers to; no state is left where the write ends the program. -/
def Running.write (m : Machine σ) (r : Running ρ σ) (byte : UInt8) : Option (Handle ρ) → Option (Option (Running ρ σ))
  | some (.shell _) => some (some { r with output := r.output ++ [byte] })
  | some (.pipe id true) =>
    if r.held id false then
      if (r.pipes id).length < m.capacity then some (some (r.setPipe id (r.pipes id ++ [byte]))) else none
    else some none
  | some (.pipe _ false) | some (.file _ _) | none => none

inductive RunEvent where
  | setUp (e : Event)
  | execvp (j : ℕ)
  | program (j : ℕ)

variable (x : Call ρ) (m : Machine σ)

def runProgram (r : Running ρ σ) (j : ℕ) (p : Process ρ) (program : σ) : Option (Running ρ σ) :=
  match m.act program with
  | .exit => some (r.goTo j .exited)
  | .read next => (r.read (p.fds.get 0)).map fun (byte, after) => after.goTo j (.running (next byte))
  | .write byte next => (r.write m byte (p.fds.get 1)).map fun written =>
      match written with
      | some after => after.goTo j (.running next)
      | none => r.goTo j .exited

def runStep (r : Running ρ σ) : RunEvent → Option (Running ρ σ)
  | .setUp e => (step x r.shell e).map fun shell => { r with shell := shell }
  | .execvp j =>
    match r.shell.procs[j]?, r.images j with
    | some p, .loading =>
      match p.pc with
      | .execvp arg => some (r.goTo j (.running (m.execvp arg)))
      | _ => none
    | _, _ => none
  | .program j =>
    match r.shell.procs[j]?, r.images j with
    | some p, .running program => runProgram m r j p program
    | _, _ => none

end SystemProgramming.Shell
