import SystemProgramming.Popen.Model
import SystemProgramming.Lib.CString
import SystemProgramming.Lib.TracedFuel
import SystemProgramming.Lib.Words

/-! # The tests that read in `driver.c`

`read_##cmd` joins its variadic arguments to one line for `sh -c` and copies the output of the child to
`stdout`. Every access to a variadic argument is recorded, by its position in the call; what stands behind the
terminating `NULL` is arbitrary. `popen` and `fwrite` succeed, and a buffer that is too small has no result.
-/

namespace SystemProgramming.Popen.Driver

open Lib

/-- `PAGE_SIZE` -/
def pageSize : ℕ := 4096

/-- The instances `DECLARE_TESTS(cmd, r)`. -/
inductive Command where
  | ls
  | chmod
  | bash
  | rm
  | date
deriving DecidableEq, Repr

/-- `#cmd` -/
def Command.name : Command → Bytes
  | ls => [108, 115]
  | chmod => [99, 104, 109, 111, 100]
  | bash => [98, 97, 115, 104]
  | rm => [114, 109]
  | date => [100, 97, 116, 101]

/-- An argument that is not `NULL`. -/
structure Arg where
  string : Bytes
  proper : 0 ∉ string

/-- The arguments of a call by their position: the list, the `NULL` behind it, and whatever comes next. -/
def call (args : List Arg) (behind : ℕ → Option Arg) (i : ℕ) : Option Arg :=
  if i ≤ args.length then args[i]? else behind i

/-- `std::string(" ") + std::string(tok) + std::string(" ")` -/
def spaced (tok : Arg) : Bytes := 32 :: tok.string ++ [32]

def formatCmd (cmd : Field pageSize) : Option Arg → Option (Field pageSize)
  | none => some cmd
  | some tok => cmd.strcat (spaced tok)

/-- The loop over the arguments; position `i` holds `tok`. -/
def joinArgs (arg : ℕ → Option Arg) : ℕ → ℕ → Option Arg → Field pageSize → Traced ℕ (Field pageSize)
  | 0, _, _, _ => .stop
  | fuel + 1, i, tok, cmd => do
    let cmd ← .ofOption (formatCmd cmd tok)
    .tell (i + 1)
    match arg (i + 1) with
    | none => pure cmd
    | some tok => joinArgs arg fuel (i + 1) (some tok) cmd

/-- What `fread` gets from a stream, and what is left: a piece that ends early is followed by the next. -/
def fread : ℕ → List Bytes → Bytes × List Bytes
  | _, [] => ([], [])
  | size, piece :: pieces =>
    if size < piece.length then (piece.take size, piece.drop size :: pieces)
    else (piece ++ (fread (size - piece.length) pieces).1, (fread (size - piece.length) pieces).2)

/-- The loop that copies: what goes to `stdout` and what stays in `buf`. Each round writes all of `buf`. -/
def copyOut : ℕ → Field pageSize → List Bytes → Traced ℕ (Bytes × Field pageSize)
  | 0, _, _ => .stop
  | fuel + 1, buf, pieces =>
    let read := fread pageSize pieces
    if read.1 = [] then pure ([], buf)
    else do
      let buf := buf.fill read.1
      let copied ← copyOut fuel buf read.2
      pure (buf.bytes ++ copied.1, copied.2)

/-- What a test does: the line it has `sh` run, what it prints, and its `static` buffer afterwards. -/
structure Ran where
  command : Bytes
  stdout : Bytes
  buf : Field pageSize

/-- `read_##cmd`; the child delivers its output in pieces. -/
def readCmd (cmd : Command) (arg : ℕ → Option Arg) (pieces : List Bytes) (buf : Field pageSize) (fuel : ℕ) :
    Traced ℕ Ran := do
  let line ← .ofOption ((Field.init pageSize []).strcat cmd.name)
  let line ← joinArgs arg fuel 0 (arg 0) line
  let copied ← copyOut fuel buf pieces
  pure ⟨line.string, copied.1, copied.2⟩

/-! ## The shell -/

/-- The blanks between the words of a command. -/
def isBlank (byte : UInt8) : Bool := byte == 32 || byte == 9

/-- Newline, the three quotes, the backslash and `$&()*;<>?[{|`. -/
def special : Bytes := [10, 34, 36, 38, 39, 40, 41, 42, 59, 60, 62, 63, 91, 92, 96, 123, 124]

/-- Nothing in the word has a meaning of its own; `#` and `~` have one at its start. -/
def Ordinary (word : Bytes) : Prop :=
  (∀ byte ∈ word, byte ∉ special) ∧ word.head? ≠ some 35 ∧ word.head? ≠ some 126

instance : DecidablePred Ordinary := fun word =>
  inferInstanceAs (Decidable ((∀ byte ∈ word, byte ∉ special) ∧ word.head? ≠ some 35 ∧ word.head? ≠ some 126))

/-- A word that a shell takes as it is. -/
def Plain (word : Bytes) : Prop := word ≠ [] ∧ (∀ byte ∈ word, isBlank byte = false) ∧ Ordinary word

instance : DecidablePred Plain := fun word =>
  inferInstanceAs (Decidable (word ≠ [] ∧ (∀ byte ∈ word, isBlank byte = false) ∧ Ordinary word))

/-- A shell, as far as it is known: the words of the one command a line runs, if it runs a single command and
nothing else. A command of ordinary words is run with these words. -/
structure Sh where
  read : Bytes → Option (List Bytes)
  plain : ∀ (cmd : Command) (args : List Bytes) (line : Bytes), words isBlank line = cmd.name :: args →
    (∀ arg ∈ args, Ordinary arg) → read line = some (cmd.name :: args)

/-- The command is run with the arguments, nothing behind the `NULL` is read, and the output is copied. -/
def Faithful (cmd : Command) (args : List Arg) (behind : ℕ → Option Arg) (pieces : List Bytes)
    (buf : Field pageSize) : Prop :=
  ∃ ran, Settles (· ≤ args.length) (readCmd cmd (call args behind) pieces buf) ran ∧
    (∀ sh : Sh, sh.read ran.command = some (cmd.name :: args.map Arg.string)) ∧ ran.stdout = pieces.flatten

/-- The joined command. -/
def joined (cmd : Command) (args : List Arg) : Bytes := cmd.name ++ (args.map spaced).flatten

end SystemProgramming.Popen.Driver
