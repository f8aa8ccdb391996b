import SystemProgramming.Lib.Run

/-! # The two processes of `sig_speed_sigsuspend.c`

A process sends, or goes to wait, in one event, and returns from the wait in another, so a list of events is an
interleaving of parent and child. `TESTSIG` is the only signal in the model; the kernel keeps one pending for
each process. An unblocked pending signal is delivered before the process does anything else.

`kills` is history: no step reads it.
-/

namespace SystemProgramming.SigSpeed

open Lib

/-- What the name `sigsuspend` stands for: the system call, or `my_sigwaitinfo` of `hook.c`. -/
inductive Wait where
  | sigsuspend
  | sigwaitinfo
deriving DecidableEq, Repr

inductive Role where
  | parent
  | child
deriving DecidableEq, Repr

def Role.other : Role → Role
  | parent => child
  | child => parent

/-- The next thing a process does; the argument is `scnt`. -/
inductive Pc where
  | sigaction
  | sigprocmask
  | fork
  | kill (scnt : ℕ)
  | sigsuspend (scnt : ℕ)
  /-- In `sigsuspend`. -/
  | waiting (scnt : ℕ)
  /-- `exit(EXIT_SUCCESS)` -/
  | exited
  /-- `errExit("kill")` -/
  | failed
  /-- By a signal without a handler. -/
  | killed
deriving DecidableEq, Repr

structure Proc where
  pc : Pc
  /-- The handler is installed. -/
  caught : Bool
  blocked : Bool
  pending : Bool
deriving DecidableEq, Repr

/-- The child exists after the fork. A call of `kill` is recorded with its caller, and whether the signal
becomes pending at the other process. -/
structure State where
  parent : Proc
  child : Option Proc
  kills : List (Role × Bool)
deriving DecidableEq, Repr

/-- The parent at the start of `main`; whether the signal is blocked is inherited. -/
def start (blocked : Bool) : State := ⟨⟨.sigaction, false, blocked, false⟩, none, []⟩

/-- What a step does outside the process. -/
inductive Effect where
  | nothing
  | fork
  | kill
deriving DecidableEq, Repr

variable (wait : Wait) (numSigs : ℕ)

/-- The head of the loop. -/
def Role.loop (role : Role) (scnt : ℕ) : Pc :=
  if scnt < numSigs then
    match role with
    | parent => .sigsuspend scnt
    | child => .kill scnt
  else .exited

/-- Behind `kill`. -/
def Role.sent (role : Role) (scnt : ℕ) : Pc :=
  match role with
  | parent => role.loop numSigs (scnt + 1)
  | child => .sigsuspend scnt

/-- Behind `sigsuspend`. -/
def Role.woken (role : Role) (scnt : ℕ) : Pc :=
  match role with
  | parent => .kill scnt
  | child => role.loop numSigs (scnt + 1)

/-- The handler returns, and `sigsuspend` with it, which restores the mask. -/
def Proc.handle (p : Proc) (role : Role) : Proc :=
  if p.caught then
    match p.pc with
    | .waiting scnt => { p with pending := false, blocked := true, pc := role.woken numSigs scnt }
    | _ => { p with pending := false }
  else { p with pc := .killed }

def Proc.act (p : Proc) (role : Role) : Option (Proc × Effect) :=
  if p.pc = .exited ∨ p.pc = .failed ∨ p.pc = .killed then none
  else if p.pending && !p.blocked then some (p.handle numSigs role, .nothing)
  else
    match p.pc with
    | .sigaction => some ({ p with caught := true, pc := .sigprocmask }, .nothing)
    | .sigprocmask => some ({ p with blocked := true, pc := .fork }, .nothing)
    | .fork => some ({ p with pc := role.loop numSigs 0 }, .fork)
    | .kill scnt => some ({ p with pc := role.sent numSigs scnt }, .kill)
    | .sigsuspend scnt =>
      match wait with
      | .sigsuspend => some ({ p with blocked := false, pc := .waiting scnt }, .nothing)
      | .sigwaitinfo => some ({ p with pc := .waiting scnt }, .nothing)
    | .waiting scnt =>
      if wait = .sigwaitinfo ∧ p.pending then
        some ({ p with pending := false, pc := role.woken numSigs scnt }, .nothing)
      else none
    | .exited | .failed | .killed => none

def State.proc (s : State) : Role → Option Proc
  | .parent => some s.parent
  | .child => s.child

def State.setProc (s : State) (role : Role) (p : Proc) : State :=
  match role with
  | .parent => { s with parent := p }
  | .child => { s with child := some p }

def Proc.alive (p : Proc) : Bool := !(p.pc == .exited || p.pc == .failed || p.pc == .killed)

/-- `fork`: the child has the mask and the handler of its parent, and nothing pending. -/
def State.forked (s : State) : State :=
  { s with child := some ⟨Role.child.loop numSigs 0, s.parent.caught, s.parent.blocked, false⟩ }

/-- `kill(childPid, TESTSIG)` and `kill(getppid(), TESTSIG)`. A child that has ended is a zombie and takes the
signal without effect; a child whose parent has ended would send it to another process, which fails. -/
def State.kill (s : State) (role : Role) : State :=
  match s.proc role.other with
  | none => { s with kills := s.kills ++ [(role, false)] }
  | some p =>
    if p.alive then
      { s.setProc role.other { p with pending := true } with kills := s.kills ++ [(role, !p.pending)] }
    else
      match role with
      | .parent => { s with kills := s.kills ++ [(role, false)] }
      | .child =>
        { s with
          kills := s.kills ++ [(role, false)]
          child := s.child.map fun p => { p with pc := .failed } }

def step (s : State) (role : Role) : Option State :=
  (s.proc role).bind fun p => (p.act wait numSigs role).map fun (next, effect) =>
    match effect with
    | .nothing => s.setProc role next
    | .fork => (s.setProc role next).forked numSigs
    | .kill => (s.setProc role next).kill role

/-- The calls of `kill` in the order the comment of the program shows. -/
def turns (rounds : ℕ) : List Role := (List.replicate rounds [Role.child, Role.parent]).flatten

/-- Both processes have ended well, with every signal sent, received and nothing left over. -/
structure State.Complete (s : State) : Prop where
  parent : s.parent.pc = .exited
  child : ∃ p, s.child = some p ∧ p.pc = .exited
  kills : s.kills = (turns numSigs).map fun role => (role, true)
  quiet : ∀ role p, s.proc role = some p → p.pending = false

end SystemProgramming.SigSpeed
