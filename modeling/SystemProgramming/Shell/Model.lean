import SystemProgramming.Lib.Run
import SystemProgramming.Lib.CString
import SystemProgramming.Lib.Descriptor
import SystemProgramming.Lib.Words

/-! # The pipelines of `hw4/part2`

`run_command` from the shell's fork to the calls of `execvp`. A process is its copy of the variables
with its descriptors; the tree that grows by forking is the list of processes in the order of their
creation, any of which may act next. `pipe` and `fork` succeed. Whether `fopen` succeeds is up to the
environment at each call; a failed one is dereferenced by `fileno` and ends the process. Nothing is known of a
process whose `getArgs` has written outside its array.
-/

namespace SystemProgramming.Shell

open Lib

/-! ## Words and redirections -/

def isspace (b : UInt8) : Bool := b == 32 || (9 ≤ b && b ≤ 13)

/-- `" \t\n"`. -/
def delim (b : UInt8) : Bool := b == 32 || b == 9 || b == 10

/-- `junk` is what `malloc(0)` happens to point to. -/
def getArgs (junk : Bytes) (command : Bytes) : List Bytes :=
  match words delim (command.dropWhile isspace) with
  | [] => [junk]
  | first :: rest => first :: rest.takeWhile fun tok => tok.head? != some 38

/-- `ARGV_DEFAULT_SIZE` -/
def argvDefaultSize : ℕ := 512

/-- The two modes of `__redirect_to`: `<` and `>`. -/
inductive Io
  | input
  | output
  deriving DecidableEq

def Io.mode : Io → UInt8
  | .input => 60
  | .output => 62

/-- The descriptor, `(mode >> 1) & 1`. -/
def Io.fd : Io → ℕ
  | .input => 0
  | .output => 1

/-- The file `__redirect_to` opens and the words it leaves, if it finds an operator with a target. -/
def redirection (mode : UInt8) : List Bytes → Option (Bytes × List Bytes)
  | [] => none
  | tok :: rest =>
    if tok.head? = some mode then
      match rest with
      | [] => none
      | file :: tail => some (file, tail)
    else (redirection mode rest).map fun (file, left) => (file, tok :: left)

/-- The words after `__redirect_to`. -/
def unredirected (mode : UInt8) (arg : List Bytes) : List Bytes :=
  ((redirection mode arg).map Prod.snd).getD arg

/-! ## Processes -/

variable {ρ : Type*}

/-- What a descriptor refers to: something of the shell's, an end of a pipe, or a file. -/
inductive Handle (ρ : Type*)
  | shell (target : ρ)
  | pipe (id : ℕ) (write : Bool)
  | file (name : Bytes) (io : Io)

/-- Where a process is in `run_command`, with `fd` once it is set. -/
inductive Pc
  /-- `while (--index)`. -/
  | loop
  | fork (r w : ℕ)
  | parentClose1 (r w : ℕ)
  | parentDup2 (r : ℕ)
  | parentClose0 (r : ℕ)
  | childClose0 (r w : ℕ)
  | childDup2 (w : ℕ)
  | childClose1 (w : ℕ)
  | getArgs
  | redirect (io : Io) (arg : List Bytes)
  | execvp (arg : List Bytes)
  | crashed
  | undefined
  deriving DecidableEq

/-- `redirect` calls `__redirect_to` for `<` and then for `>`. -/
def Io.next (arg : List Bytes) : Io → Pc
  | .input => .redirect .output arg
  | .output => .execvp arg

structure Process (ρ : Type*) where
  index : ℕ
  pc : Pc
  fds : FdTable (Handle ρ)
  /-- The descriptors before `redirect`. -/
  before : Option (FdTable (Handle ρ))

/-- A call of `run_command` in a shell with descriptors 0, 1 and 2 open. -/
structure Call (ρ : Type*) where
  commands : List Bytes
  nonempty : commands ≠ []
  fds : FdTable ρ
  standard : ∀ fd < 3, (fds.get fd).isSome
  junk : Bytes

variable (x : Call ρ)

/-- The process after its next action, the processes it forks and the number of pipes. -/
def Process.act (pipes : ℕ) (opened : Bool) (p : Process ρ) :
    Option (Process ρ × List (Process ρ) × ℕ) :=
  match p.pc with
  | .loop =>
    if p.index - 1 = 0 then
      some ({ p with index := p.index - 1, pc := .getArgs, before := some p.fds }, [], pipes)
    else
      let ((r, w), fds) := p.fds.pipe (.pipe pipes false) (.pipe pipes true)
      some ({ p with index := p.index - 1, pc := .fork r w, fds := fds }, [], pipes + 1)
  | .fork r w => some ({ p with pc := .parentClose1 r w }, [{ p with pc := .childClose0 r w }], pipes)
  | .parentClose1 r w => some ({ p with pc := .parentDup2 r, fds := p.fds.close w }, [], pipes)
  | .parentDup2 r => some ({ p with pc := .parentClose0 r, fds := p.fds.dup2 r 0 }, [], pipes)
  | .parentClose0 r =>
    some ({ p with pc := .getArgs, fds := p.fds.close r, before := some (p.fds.close r) }, [], pipes)
  | .childClose0 r w => some ({ p with pc := .childDup2 w, fds := p.fds.close r }, [], pipes)
  | .childDup2 w => some ({ p with pc := .childClose1 w, fds := p.fds.dup2 w 1 }, [], pipes)
  | .childClose1 w => some ({ p with pc := .loop, fds := p.fds.close w }, [], pipes)
  | .getArgs =>
    (x.commands[p.index]?).map fun command =>
      -- behind the last argument a null pointer is stored, and `realloc` shrinks an array that is full
      if (getArgs x.junk command).length < argvDefaultSize then
        ({ p with pc := .redirect .input (getArgs x.junk command) }, [], pipes)
      else ({ p with pc := .undefined }, [], pipes)
  | .redirect io arg =>
    match redirection io.mode arg with
    | none => some ({ p with pc := io.next arg }, [], pipes)
    | some (name, left) =>
      if opened then
        let fds := p.fds.install (.file name io)
        some ({ p with pc := io.next left, fds := fds.dup2 p.fds.lowest io.fd }, [], pipes)
      else some ({ p with pc := .crashed }, [], pipes)
  | .execvp _ => none
  | .crashed => none
  | .undefined => none

/-- The processes in order of creation, the number of pipes and the shell's `pid`. -/
structure State (ρ : Type*) where
  procs : List (Process ρ)
  pipes : ℕ
  pid : Option ℕ

def start : State ρ := ⟨[], 0, none⟩

inductive Event
  /-- The shell forks. -/
  | shell
  /-- A process acts; the flag is the success of `fopen` if it calls it. -/
  | act (proc : ℕ) (opened : Bool)

def step (s : State ρ) : Event → Option (State ρ)
  | .shell =>
    match s.pid with
    | none => some ⟨[⟨x.commands.length, .loop, x.fds.map .shell, none⟩], s.pipes, some 0⟩
    | some _ => none
  | .act j opened =>
    (s.procs[j]?).bind fun p => (p.act x s.pipes opened).map fun (next, forked, pipes) =>
      { s with procs := s.procs.set j next ++ forked, pipes := pipes }

/-- The shell forks once. -/
theorem step_shell_eq_some_iff {s t : State ρ} : step x s .shell = some t ↔
    s.pid = none ∧ t = ⟨[⟨x.commands.length, .loop, x.fds.map .shell, none⟩], s.pipes, some 0⟩ := by
  cases forked : s.pid with
  | none => simp [step, forked, eq_comm]
  | some pid => simp [step, forked]

theorem step_act_eq_some_iff {s t : State ρ} {j : ℕ} {opened : Bool} :
    step x s (.act j opened) = some t ↔ ∃ p next forked pipes, s.procs[j]? = some p ∧
      p.act x s.pipes opened = some (next, forked, pipes) ∧
      t = { s with procs := s.procs.set j next ++ forked, pipes := pipes } := by
  rw [step, Option.bind_eq_some_iff]
  constructor
  · rintro ⟨p, here, acts⟩
    obtain ⟨⟨next, forked, pipes⟩, acted, rfl⟩ := Option.map_eq_some_iff.mp acts
    exact ⟨p, next, forked, pipes, here, acted, rfl⟩
  · rintro ⟨p, next, forked, pipes, here, acted, rfl⟩
    exact ⟨p, here, Option.map_eq_some_iff.mpr ⟨_, acted, rfl⟩⟩

/-- There is room for the arguments of every command, and the null pointer behind them. -/
def Call.Fits : Prop := ∀ command ∈ x.commands, (getArgs x.junk command).length < argvDefaultSize

instance : Decidable x.Fits := inferInstanceAs (Decidable (∀ command ∈ x.commands, _))

/-- The environment lets `fopen` succeed if the event is a call of it. -/
def Opens (s : State ρ) : Event → Prop
  | .shell => True
  | .act j opened => ∀ p io arg, s.procs[j]? = some p → p.pc = .redirect io arg →
      (redirection io.mode arg).isSome → opened = true

end SystemProgramming.Shell
