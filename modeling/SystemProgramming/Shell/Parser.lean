import SystemProgramming.Shell.Model
import SystemProgramming.Lib.Traced

/-! # The parser of `hw4/part2`

`pipe_spliter`, `getArgs`, `is_builtin` and `do_builtin` with the calls of `strdup` and `strcmp` and the
writes to the arrays they make. A pointer to a string is the string, `none` where it is null or where the
string has not been written. Memory does not run out. What is written outside an array is lost.
-/

namespace SystemProgramming.Shell.CommandLine

open Lib Traced

/-- What can go wrong. `room` is the number of pointers an array was allocated for. -/
inductive Access where
  | strdup (string : Option Bytes)
  | strcmp (token : Option Bytes)
  | store (index room : ℕ)
deriving DecidableEq, Repr

/-- No null pointer is copied, no unwritten token compared, and no write is outside its array. -/
def Access.Ok : Access → Prop
  | .strdup string => string ≠ none
  | .strcmp token => token ≠ none
  | .store index room => index < room

instance : DecidablePred Access.Ok
  | .strdup string => inferInstanceAs (Decidable (string ≠ none))
  | .strcmp token => inferInstanceAs (Decidable (token ≠ none))
  | .store index room => inferInstanceAs (Decidable (index < room))

abbrev Call := Traced Access

def strdup : Option Bytes → Call Bytes
  | some string => do
    tell (.strdup (some string))
    return string
  | none => do
    tell (.strdup none)
    stop

/-- `"|"` -/
def bar (b : UInt8) : Bool := b == 124

/-- `MAX_PIPE_NUM` -/
def maxPipeNum : ℕ := 512

/-- The loop of `pipe_spliter`, with `cmd` from the last call of `strtok` and the null pointer at the end. -/
def splitLoop (cmd : Option Bytes) (rest : Bytes) (count : ℕ) : Call (List Bytes) := do
  let copy ← strdup cmd
  tell (.store count maxPipeNum)
  match _found : nextWord bar rest with
  | (some next, rest) =>
    let commands ← splitLoop (some next) rest (count + 1)
    return copy :: commands
  | (none, _) =>
    tell (.store (count + 1) maxPipeNum)
    return [copy]
termination_by rest.length
decreasing_by exact length_nextWord_lt _found

def pipeSpliter (input : Bytes) : Call (List Bytes) :=
  let (cmd, rest) := nextWord bar input
  splitLoop cmd rest 0

/-- `sizeof(char *)` -/
def pointerSize : ℕ := 8

/-- `*tok == '&'` -/
def background (tok : Bytes) : Bool := tok.head? == some 38

/-- The loop of `getArgs`; `cap` is `new_argv_cap`, which `realloc` takes for a number of bytes. -/
def argvLoop (tok : Option Bytes) (rest : Bytes) (count cap room : ℕ) : Call (List Bytes) := do
  let newRoom ← strdup tok
  let (cap, room) := if cap ≤ count then (cap <<< 1, (cap <<< 1) / pointerSize) else (cap, room)
  tell (.store count room)
  match _found : nextWord delim rest with
  | (some next, rest) =>
    if background next then
      tell (.store (count + 1) room)
      return [newRoom]
    else
      let argv ← argvLoop (some next) rest (count + 1) cap room
      return newRoom :: argv
  | (none, _) =>
    tell (.store (count + 1) room)
    return [newRoom]
termination_by rest.length
decreasing_by exact length_nextWord_lt _found

/-- A blank command has one argument, which is not written. -/
def getArgs (command : Bytes) : Call (List (Option Bytes)) :=
  let command := command.dropWhile isspace
  if command = [] then do
    tell (.store 0 2)
    tell (.store 1 2)
    return [none]
  else do
    let (tok, rest) := nextWord delim command
    let argv ← argvLoop tok rest 0 argvDefaultSize argvDefaultSize
    return argv.map some

/-- "builtin", "echo", "quit", "exit", "bye", "logout", "cd", "pwd", "hostname" and "id" -/
inductive Keyword where
  | builtin
  | echo
  | quit
  | exit
  | bye
  | logout
  | cd
  | pwd
  | hostname
  | id
deriving DecidableEq, Repr

def Keyword.text : Keyword → Bytes
  | .builtin => [98, 117, 105, 108, 116, 105, 110]
  | .echo => [101, 99, 104, 111]
  | .quit => [113, 117, 105, 116]
  | .exit => [101, 120, 105, 116]
  | .bye => [98, 121, 101]
  | .logout => [108, 111, 103, 111, 117, 116]
  | .cd => [99, 100]
  | .pwd => [112, 119, 100]
  | .hostname => [104, 111, 115, 116, 110, 97, 109, 101]
  | .id => [105, 100]

def inbuilts : List Keyword :=
  [.builtin, .echo, .quit, .exit, .bye, .logout, .cd, .pwd, .hostname, .id]

/-- The entry of `inbuilts` for a token. -/
def findBuiltin (tok : Bytes) : Option Keyword := inbuilts.find? fun keyword => keyword.text = tok

/-- `is_builtin(cmd)`, which looks at `cmd[0]` only; the result is what it leaves in `this`. -/
def isBuiltin : Option Bytes → Call (Option Keyword)
  | some command => do
    let cmds ← getArgs command
    match cmds.head?.join with
    | some tok =>
      tell (.strcmp (some tok))
      return findBuiltin tok
    | none =>
      tell (.strcmp none)
      stop
  | none => stop

/-- What a line comes to. -/
inductive Action where
  | exits
  | builtin
  | runs (commands : List Bytes)
deriving DecidableEq, Repr

/-- `do_builtin`. Of the builtins only `bi_builtin` calls the parser, for its own argument, and four end the
shell. -/
def doBuiltin (keyword : Keyword) (command : Bytes) : Call Action := do
  let argv ← getArgs command
  match keyword with
  | .builtin =>
    let _ ← isBuiltin (argv[1]?).join
    return .builtin
  | .quit | .exit | .bye | .logout => return .exits
  | .echo | .cd | .pwd | .hostname | .id => return .builtin

/-- The body of the loop of `main` for a line, as far as the shell parses it. -/
def handle (line : Bytes) : Call Action := do
  let commands ← pipeSpliter line
  match commands with
  | [] => stop
  | command :: commands =>
    match ← isBuiltin (some command) with
    | some keyword => doBuiltin keyword command
    | none => return .runs (command :: commands)

/-- `getArgs` in the processes of `run_command`, one for each stage. -/
def runCommand : List Bytes → Call Unit
  | [] => return ()
  | command :: commands => do
    let _ ← getArgs command
    runCommand commands

/-- All that is parsed for a line. -/
def evaluate (line : Bytes) : Call Unit := do
  match ← handle line with
  | .exits | .builtin => return ()
  | .runs commands => runCommand commands

/-! ## What the parser is for -/

/-- The stages of a line. -/
def stages (line : Bytes) : List Bytes := words bar line

/-- The words of a stage, up to one behind the first that begins with `&`. -/
def arguments (stage : Bytes) : List Bytes :=
  match words delim (stage.dropWhile isspace) with
  | [] => []
  | first :: later => first :: later.takeWhile fun tok => !background tok

/-- The stage has something besides blanks. -/
def Visible (stage : Bytes) : Prop := ∃ b ∈ stage, isspace b = false

instance (stage : Bytes) : Decidable (Visible stage) := inferInstanceAs (Decidable (∃ b ∈ stage, _))

end SystemProgramming.Shell.CommandLine
