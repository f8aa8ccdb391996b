import SystemProgramming.Lib.Run
import SystemProgramming.Lib.CString
import SystemProgramming.Lib.Descriptor
import Mathlib.Logic.Function.Basic
import Mathlib.Data.Int.Notation

/-! # `my_popen` and `my_pclose` of `hw5/2`

The parent calls the two functions and `fwrite` in any order; each child it forks drops the streams it
inherited, moves its end of the pipe to the standard descriptor and becomes the command. `my_popen`
is one event of the parent, whose descriptors the child copies at the fork; `my_pclose` closes
the stream in one event and then waits. `pipe` and `fdopen` succeed. Pipes have unbounded capacity,
writing to one that nobody reads any more is no error, and stdio may write any part of a buffer at
any `fwrite`.
-/

namespace SystemProgramming.Popen

open Lib

variable {ρ : Type*}

/-- What a descriptor refers to: something from before, or an end of a pipe. -/
inductive Handle (ρ : Type*)
  | other (target : ρ)
  | pipe (id : ℕ) (write : Bool)

/-- A `FILE`: its descriptor, its mode and the bytes not yet written. -/
structure File where
  fd : ℕ
  write : Bool
  buffer : Bytes
  /-- The pipe and the child of the `my_popen` that returned the stream. -/
  pipe : ℕ
  child : Option ℕ

/-- What is in a pipe, what was ever put in it, and what was ever written to its stream. -/
structure Pipe where
  content : Bytes
  sent : Bytes
  written : Bytes

def Pipe.empty : Pipe := ⟨[], [], []⟩

def Pipe.put (bytes : Bytes) (p : Pipe) : Pipe :=
  { p with content := p.content ++ bytes, sent := p.sent ++ bytes }

/-! ## The dictionary -/

/-- `std::unordered_map<FILE *, int>`. -/
abbrev Dict := List (ℕ × ℤ)

/-- The member function of the same name keeps an existing entry. -/
def insert (pid : ℤ) (fp : ℕ) (dict : Dict) : Dict :=
  match dict.lookup fp with
  | none => (fp, pid) :: dict
  | some _ => dict

def erase (fp : ℕ) (dict : Dict) : Dict := dict.filter fun entry => entry.1 != fp

def getPid (fp : ℕ) (dict : Dict) : Option ℤ := dict.lookup fp

/-! ## Processes -/

/-- Where a child is; an exit is possible everywhere. -/
inductive ChildPc
  /-- In `drop`. -/
  | drop
  | close
  | dup2
  /-- The command runs. -/
  | execl
  | exited (status : ℕ)
  deriving DecidableEq

structure Child (ρ : Type*) where
  pid : ℕ
  write : Bool
  pipe : ℕ
  r : ℕ
  w : ℕ
  pc : ChildPc
  fds : FdTable (Handle ρ)
  files : ℕ → Option File
  /-- The entries `drop` has not reached. -/
  dict : Dict
  /-- What the command has read from its stdin. -/
  received : Bytes
  reaped : Bool

/-- `my_pclose` in its loop: the variable `pid`, and the child whose stream was closed. -/
structure Wait where
  pid : ℤ
  owner : Option ℕ
  deriving DecidableEq

/-- A call of `my_pclose` that has returned: whose stream it closed, which child it reaped and what it
returned. -/
structure Result where
  owner : Option ℕ
  reaped : Option ℕ
  pstat : ℕ
  deriving DecidableEq

structure State (ρ : Type*) where
  fds : FdTable (Handle ρ)
  files : ℕ → Option File
  dict : Dict
  wait : Option Wait
  results : List Result
  children : List (Child ρ)
  pipes : ℕ → Pipe
  /-- The number of pipes made so far. -/
  made : ℕ

/-- The parent before its first call. -/
def start (fds : FdTable ρ) : State ρ where
  fds := fds.map .other
  files _ := none
  dict := []
  wait := none
  results := []
  children := []
  pipes _ := .empty
  made := 0

/-- `write` to a descriptor. -/
def writeTo (handle : Option (Handle ρ)) (bytes : Bytes) (pipes : ℕ → Pipe) : ℕ → Pipe :=
  match handle with
  | some (.pipe id true) => Function.update pipes id ((pipes id).put bytes)
  | some (.pipe _ false) => pipes
  | some (.other _) => pipes
  | none => pipes

/-! ## Events -/

inductive Event
  /-- `my_popen` with the pointer `fdopen` returns and the pid of the child. -/
  | myPopen (write : Bool) (fp : ℕ) (pid : ℕ)
  /-- `my_popen` whose `fork` fails. -/
  | myPopenUnforked (write : Bool) (fp : ℕ)
  /-- `fwrite`, after which stdio writes some bytes of the buffer. -/
  | fwrite (fp : ℕ) (bytes : Bytes) (flushed : ℕ)
  /-- `my_pclose` up to its loop. -/
  | myPclose (fp : ℕ)
  /-- `waitpid` fails with EINTR. -/
  | interrupted
  /-- `waitpid` returns a child. -/
  | reaps (child : ℕ)
  /-- `waitpid` fails with ECHILD. -/
  | noChild
  /-- A child closes one stream in `drop`. -/
  | drop (child fp : ℕ)
  /-- A child takes its next step. -/
  | act (child : ℕ)
  /-- The command of a child reads from its stdin. -/
  | read (child n : ℕ)
  | exit (child status : ℕ)

/-- The descriptors of the parent and of the child and the new stream of a `my_popen`. -/
def State.popen (s : State ρ) (write : Bool) (fp : ℕ) (child : Option ℕ) (pid : ℤ) :
    State ρ :=
  let ((r, w), fds) := s.fds.pipe (.pipe s.made false) (.pipe s.made true)
  { s with
    fds := fds.close (if write then r else w)
    files := Function.update s.files fp (some ⟨if write then w else r, write, [], s.made, child⟩)
    dict := insert pid fp s.dict
    pipes := Function.update s.pipes s.made .empty
    made := s.made + 1 }

/-- The child at the fork. -/
def State.forked (s : State ρ) (write : Bool) (pid : ℕ) : Child ρ :=
  let ((r, w), fds) := s.fds.pipe (.pipe s.made false) (.pipe s.made true)
  ⟨pid, write, s.made, r, w, .drop, fds, s.files, s.dict, [], false⟩

/-- `waitpid(pid, ...)` waits for this child. -/
def Child.matches_ (pid : ℤ) (c : Child ρ) : Bool := !c.reaped && (pid == -1 || pid == c.pid)

def Child.hasExited (c : Child ρ) : Bool :=
  match c.pc with
  | .exited _ => true
  | .drop => false
  | .close => false
  | .dup2 => false
  | .execl => false

/-- The end the child keeps, the one it closes, and the standard descriptor it moves its end to. -/
def Child.own (c : Child ρ) : ℕ := if c.write then c.r else c.w

def Child.parents (c : Child ρ) : ℕ := if c.write then c.w else c.r

def Child.standard (c : Child ρ) : ℕ := if c.write then 0 else 1

/-- A step of a child that does not depend on the others. -/
def Child.act (c : Child ρ) : Option (Child ρ) :=
  match c.pc with
  | .drop => if c.dict = [] then some { c with pc := .close } else none
  | .close => some { c with pc := .dup2, fds := c.fds.close c.parents }
  | .dup2 =>
    if c.own = c.standard then some { c with pc := .execl }
    else some { c with pc := .execl, fds := (c.fds.dup2 c.own c.standard).close c.own }
  | .execl => none
  | .exited _ => none

def State.setChild (s : State ρ) (i : ℕ) (c : Child ρ) : State ρ :=
  { s with children := s.children.set i c }

def step (s : State ρ) : Event → Option (State ρ)
  | .myPopen write fp pid =>
    if s.wait.isNone ∧ s.files fp = none ∧ 0 < pid ∧ ∀ c ∈ s.children, c.pid = pid → c.reaped then
      some { s.popen write fp (some s.children.length) pid with
        children := s.children ++ [s.forked write pid] }
    else none
  | .myPopenUnforked write fp =>
    if s.wait.isNone ∧ s.files fp = none then some (s.popen write fp none (-1)) else none
  | .fwrite fp bytes flushed =>
    if s.wait.isNone then
      (s.files fp).bind fun file =>
        if file.write then
          let buffer := file.buffer ++ bytes
          let pipes := Function.update s.pipes file.pipe
            { s.pipes file.pipe with written := (s.pipes file.pipe).written ++ bytes }
          some { s with
            files := Function.update s.files fp (some { file with buffer := buffer.drop flushed })
            pipes := writeTo (s.fds.get file.fd) (buffer.take flushed) pipes }
        else none
    else none
  | .myPclose fp =>
    if s.wait.isNone then
      (s.files fp).bind fun file => (getPid fp s.dict).map fun pid =>
        { s with
          fds := s.fds.close file.fd
          files := Function.update s.files fp none
          dict := erase fp s.dict
          pipes := writeTo (s.fds.get file.fd) file.buffer s.pipes
          wait := some ⟨pid, file.child⟩ }
    else none
  | .interrupted =>
    s.wait.bind fun wait =>
      if s.children.any (Child.matches_ wait.pid) ∧
          ∀ c ∈ s.children, c.matches_ wait.pid → c.hasExited = false then
        some { s with wait := some { wait with pid := -1 } }
      else none
  | .reaps child =>
    s.wait.bind fun wait => (s.children[child]?).bind fun c =>
      match c.pc with
      | .exited status =>
        if c.matches_ wait.pid then
          some { s.setChild child { c with reaped := true } with
            wait := none
            results := s.results ++ [⟨wait.owner, some child, status⟩] }
        else none
      | .drop => none
      | .close => none
      | .dup2 => none
      | .execl => none
  | .noChild =>
    s.wait.bind fun wait =>
      if s.children.any (Child.matches_ wait.pid) then none
      else some { s with wait := none, results := s.results ++ [⟨wait.owner, none, 0⟩] }
  | .drop child fp =>
    (s.children[child]?).bind fun c =>
      match c.pc with
      | .drop =>
        if (c.dict.lookup fp).isSome then
          (c.files fp).map fun file =>
            { s.setChild child { c with
                fds := c.fds.close file.fd
                files := Function.update c.files fp none
                dict := erase fp c.dict } with
              pipes := writeTo (c.fds.get file.fd) file.buffer s.pipes }
        else none
      | .close => none
      | .dup2 => none
      | .execl => none
      | .exited _ => none
  | .act child => (s.children[child]?).bind fun c => c.act.map fun c => s.setChild child c
  | .read child n =>
    (s.children[child]?).bind fun c =>
      match c.pc, c.fds.get 0 with
      | .execl, some (.pipe id false) =>
        some { s.setChild child { c with received := c.received ++ (s.pipes id).content.take n } with
          pipes := Function.update s.pipes id
            { s.pipes id with content := (s.pipes id).content.drop n } }
      | _, _ => none
  | .exit child status =>
    (s.children[child]?).bind fun c =>
      if c.hasExited then none else some (s.setChild child { c with pc := .exited status })

/-! ## What an event can do -/

section

variable {s t : State ρ} {fp i : ℕ}

theorem step_myPopen {write : Bool} {pid : ℕ} (taken : step s (.myPopen write fp pid) = some t) :
    s.wait = none ∧ s.files fp = none ∧ 0 < pid ∧
      (∀ c ∈ s.children, c.pid = pid → c.reaped = true) ∧
      t = { s.popen write fp (some s.children.length) pid with
        children := s.children ++ [s.forked write pid] } := by
  simp only [step] at taken
  split_ifs at taken with enabled
  obtain ⟨waiting, free, positive, fresh⟩ := enabled
  exact ⟨Option.isNone_iff_eq_none.mp waiting, free, positive, fresh, (Option.some.inj taken).symm⟩

theorem step_myPopenUnforked {write : Bool} (taken : step s (.myPopenUnforked write fp) = some t) :
    s.wait = none ∧ s.files fp = none ∧ t = s.popen write fp none (-1) := by
  simp only [step] at taken
  split_ifs at taken with enabled
  exact ⟨Option.isNone_iff_eq_none.mp enabled.1, enabled.2, (Option.some.inj taken).symm⟩

theorem step_fwrite {bytes : Bytes} {flushed : ℕ}
    (taken : step s (.fwrite fp bytes flushed) = some t) :
    ∃ file, s.files fp = some file ∧ file.write = true ∧
      t = { s with
        files := Function.update s.files fp
          (some { file with buffer := (file.buffer ++ bytes).drop flushed })
        pipes := writeTo (s.fds.get file.fd) ((file.buffer ++ bytes).take flushed)
          (Function.update s.pipes file.pipe
            { s.pipes file.pipe with written := (s.pipes file.pipe).written ++ bytes }) } := by
  simp only [step] at taken
  split_ifs at taken
  obtain ⟨file, here, taken⟩ := Option.bind_eq_some_iff.mp taken
  split_ifs at taken with write
  exact ⟨file, here, write, (Option.some.inj taken).symm⟩

theorem step_myPclose (taken : step s (.myPclose fp) = some t) :
    s.wait = none ∧ ∃ file pid, s.files fp = some file ∧ getPid fp s.dict = some pid ∧
      t = { s with
        fds := s.fds.close file.fd
        files := Function.update s.files fp none
        dict := erase fp s.dict
        pipes := writeTo (s.fds.get file.fd) file.buffer s.pipes
        wait := some ⟨pid, file.child⟩ } := by
  simp only [step] at taken
  split_ifs at taken with free
  obtain ⟨file, here, taken⟩ := Option.bind_eq_some_iff.mp taken
  obtain ⟨pid, known, result⟩ := Option.map_eq_some_iff.mp taken
  exact ⟨Option.isNone_iff_eq_none.mp free, file, pid, here, known, result.symm⟩

theorem step_interrupted (taken : step s .interrupted = some t) :
    ∃ wait, s.wait = some wait ∧ t = { s with wait := some { wait with pid := -1 } } := by
  obtain ⟨wait, waiting, taken⟩ := Option.bind_eq_some_iff.mp taken
  split_ifs at taken
  exact ⟨wait, waiting, (Option.some.inj taken).symm⟩

theorem step_reaps (taken : step s (.reaps i) = some t) :
    ∃ wait c status, s.wait = some wait ∧ s.children[i]? = some c ∧ c.pc = .exited status ∧
      c.matches_ wait.pid = true ∧
      t = { s.setChild i { c with reaped := true } with
        wait := none
        results := s.results ++ [⟨wait.owner, some i, status⟩] } := by
  obtain ⟨wait, waiting, taken⟩ := Option.bind_eq_some_iff.mp taken
  obtain ⟨c, here, taken⟩ := Option.bind_eq_some_iff.mp taken
  split at taken
  case h_1 status place =>
    split_ifs at taken with matching
    exact ⟨wait, c, status, waiting, here, place, matching, (Option.some.inj taken).symm⟩
  all_goals nomatch taken

theorem step_noChild (taken : step s .noChild = some t) :
    ∃ wait, s.wait = some wait ∧ (∀ c ∈ s.children, c.matches_ wait.pid = false) ∧
      t = { s with wait := none, results := s.results ++ [⟨wait.owner, none, 0⟩] } := by
  obtain ⟨wait, waiting, taken⟩ := Option.bind_eq_some_iff.mp taken
  split_ifs at taken with any
  rw [Bool.not_eq_true, List.any_eq_false] at any
  exact ⟨wait, waiting, fun c member => Bool.not_eq_true _ ▸ any c member,
    (Option.some.inj taken).symm⟩

theorem step_drop (taken : step s (.drop i fp) = some t) :
    ∃ c file, s.children[i]? = some c ∧ c.pc = .drop ∧ c.files fp = some file ∧
      t = { s.setChild i { c with
          fds := c.fds.close file.fd
          files := Function.update c.files fp none
          dict := erase fp c.dict } with
        pipes := writeTo (c.fds.get file.fd) file.buffer s.pipes } := by
  obtain ⟨c, here, taken⟩ := Option.bind_eq_some_iff.mp taken
  split at taken
  case h_1 place =>
    split_ifs at taken
    obtain ⟨file, open_, result⟩ := Option.map_eq_some_iff.mp taken
    exact ⟨c, file, here, place, open_, result.symm⟩
  all_goals nomatch taken

theorem step_act (taken : step s (.act i) = some t) :
    ∃ c next, s.children[i]? = some c ∧ c.act = some next ∧ t = s.setChild i next := by
  obtain ⟨c, here, taken⟩ := Option.bind_eq_some_iff.mp taken
  obtain ⟨next, acts, result⟩ := Option.map_eq_some_iff.mp taken
  exact ⟨c, next, here, acts, result.symm⟩

theorem step_read {n : ℕ} (taken : step s (.read i n) = some t) :
    ∃ c id, s.children[i]? = some c ∧ c.pc = .execl ∧ c.fds.get 0 = some (.pipe id false) ∧
      t = { s.setChild i { c with received := c.received ++ (s.pipes id).content.take n } with
        pipes := Function.update s.pipes id
          { s.pipes id with content := (s.pipes id).content.drop n } } := by
  obtain ⟨c, here, taken⟩ := Option.bind_eq_some_iff.mp taken
  split at taken
  case h_1 id place stdin => exact ⟨c, id, here, place, stdin, (Option.some.inj taken).symm⟩
  case h_2 => nomatch taken

theorem step_exit {status : ℕ} (taken : step s (.exit i status) = some t) :
    ∃ c, s.children[i]? = some c ∧ c.hasExited = false ∧
      t = s.setChild i { c with pc := .exited status } := by
  obtain ⟨c, here, taken⟩ := Option.bind_eq_some_iff.mp taken
  split_ifs at taken with ended
  exact ⟨c, here, Bool.not_eq_true _ ▸ ended, (Option.some.inj taken).symm⟩

end

end SystemProgramming.Popen
