import SystemProgramming.Lib.CString
import SystemProgramming.Lib.Stdio

/-! # The dictionary file: `convert` and the linear search through it

`convert` turns a text of headwords and definitions into records of fixed size, and `lookup` searches the
records for a word. Loops that may not end have a fuel argument; `none` is no result, because the fuel is
used up or because the behaviour is undefined: a write in front of the line buffer or behind a field, a
null pointer passed to a string function, a read behind the line buffer.

A `getline` that finds nothing leaves `fresh` of the line buffer when its size argument is 0, since the
C library then takes a new buffer of any content first, and `kept` of it otherwise.
-/

namespace SystemProgramming.Dictionary

open Lib

def wordSize : ℕ := 32
def textSize : ℕ := 480

def space : UInt8 := 32

structure Dictrec where
  word : Field wordSize
  text : Field textSize
deriving DecidableEq

inductive Result where
  | found
  | notFound
  | unavail
deriving DecidableEq, Repr

/-! ## `convert` -/

/-- `line[strlen(line) - 1] = byte` -/
def setLast (byte : UInt8) (line : LineBuffer) : LineBuffer :=
  line.bind fun line =>
    if cstr line = [] then none else some (line.set ((cstr line).length - 1) byte)

/-- The loop over the lines of a definition, which ends with a line of length 1. -/
def convertDefinition (kept : LineBuffer → LineBuffer) : ℕ → Stream → LineBuffer → Field textSize →
    Option (Stream × LineBuffer × Field textSize)
  | 0, _, _, _ => none
  | fuel + 1, input, line, text =>
    let got := getline kept input line
    if got.count = some 1 then some (got.stream, got.line, text)
    else do
      let line ← setLast 0 got.line
      let text ← text.strcat (cstr line)
      convertDefinition kept fuel got.stream (some line) text

def Dictrec.write (rec : Dictrec) : List UInt8 := rec.word.bytes ++ rec.text.bytes ++ [newline]

/-- The main loop, where `len` is 0; the result is what is written to the output. -/
def convert (fresh kept : LineBuffer → LineBuffer) : ℕ → Stream → LineBuffer → Option (List UInt8)
  | 0, _, _ => none
  | fuel + 1, input, line =>
    if input.eof then some []
    else do
      let got := getline fresh input line
      let line ← got.line
      -- `continue`: nothing has been read
      if cstr line = [] then convert fresh kept fuel got.stream (some line)
      else
        let line ← setLast space (some line)
        let word ← (Field.init wordSize []).strcpy (cstr line)
        let (input, line, text) ←
          convertDefinition kept fuel got.stream (some line) (Field.init textSize [])
        let written ← convert fresh kept fuel input line
        some ((Dictrec.mk word text).write ++ written)

/-! ## `lookup` of lookup1 -/

/-- The first token behind spaces: where it starts, and the buffer with its end marked. -/
def strtok (buffer : List UInt8) : Option (ℕ × List UInt8) :=
  let start := (buffer.takeWhile (· == space)).length
  let token := (cstr (buffer.drop start)).takeWhile (· != space)
  if token = [] then none else some (start, buffer.set (start + token.length) 0)

/-- A line of the resource against the word sought; the text is copied when they agree. -/
def compareLine (buffer : List UInt8) (sought : Dictrec) : Option (Option Dictrec) := do
  let (start, buffer) ← strtok buffer
  let word := cstr (buffer.drop start)
  if word = sought.word.string then
    -- the pointer starts from `buf`, passes the NULs and is advanced once more before the copy
    match (buffer.drop word.length).dropWhile (· == 0) with
    | [] => none
    | _ :: text => (sought.text.strcpy (cstr text)).map fun text => some { sought with text := text }
  else some none

def search (atEnd : LineBuffer → LineBuffer) : ℕ → Stream → Dictrec → Option (Result × Dictrec)
  | 0, _, _ => none
  | fuel + 1, resource, sought =>
    if resource.eof then some (.notFound, sought)
    else
      let got := getline atEnd resource none
      if got.count = none then search atEnd fuel got.stream sought
      else do
        let buffer ← got.line
        match ← compareLine buffer sought with
        | some answer => some (.found, answer)
        | none => search atEnd fuel got.stream sought

/-- `resource` is `none` when it cannot be opened: `feof` is then called with a null pointer. -/
def lookup (atEnd : LineBuffer → LineBuffer) (resource : Option (List UInt8)) (sought : Dictrec)
    (fuel : ℕ) : Option (Result × Dictrec) :=
  if sought.word.string.length = 1 then some (.unavail, sought)
  else do
    let file ← resource
    search atEnd fuel ⟨file, false⟩ sought

end SystemProgramming.Dictionary
