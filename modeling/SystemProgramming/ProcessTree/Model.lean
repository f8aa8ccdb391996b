import SystemProgramming.Lib.CString
import Mathlib.Data.List.Infix
import Mathlib.Data.List.FinRange
import Mathlib.Logic.Function.Basic

/-! # The process tree of `hw3/part2.c`

The process table is a function on `0..NProc-1`; the links `parent`, `child` and `sister`, which the
source stores as indices with -1 for none, are optional indices, so that no link leaves the table.
The loops that follow links and the recursions over them take a fuel argument and answer `none`
when it runs out. Strings are the bytes before their NUL. The readers fill an entry with the data
of one process and leave it without links and marks.
-/

namespace SystemProgramming.ProcessTree

open Lib

/-- `MAXLINE`. -/
def maxLine : ℕ := 8192

/-- `snprintf` into a buffer of `size` bytes, one of them for the NUL. -/
def snprintf (size : ℕ) (text : Bytes) : Bytes := text.take (size - 1)

/-- `%ld`. -/
def decimal (value : ℤ) : Bytes :=
  bytes (if value < 0 then '-' :: Nat.toDigits 10 value.natAbs else Nat.toDigits 10 value.natAbs)

/-- A field width pads with spaces on the left. -/
def padLeft (width : ℕ) (text : Bytes) : Bytes :=
  List.replicate (width - text.length) 32 ++ text

/-- `struct Proc`; `long` is an integer, a link of -1 is `none`. -/
structure Proc (NProc : ℕ) where
  uid : ℤ
  pid : ℤ
  ppid : ℤ
  pgid : ℤ
  name : Bytes
  cmd : Bytes
  print : Bool
  selected : Bool
  hidden : Bool
  parent : Option (Fin NProc)
  child : Option (Fin NProc)
  sister : Option (Fin NProc)
  thcount : ℕ

/-- The array `P`. -/
abbrev Table (NProc : ℕ) := Fin NProc → Proc NProc

/-- What the readers take from the system for one process. -/
structure Entry where
  uid : ℤ
  pid : ℤ
  ppid : ℤ
  pgid : ℤ
  name : Bytes
  cmd : Bytes
  thcount : ℕ

/-- An entry as the readers leave it: no links, not printed, selected or hidden. -/
def Entry.toProc (NProc : ℕ) (entry : Entry) : Proc NProc where
  uid := entry.uid
  pid := entry.pid
  ppid := entry.ppid
  pgid := entry.pgid
  name := entry.name
  cmd := entry.cmd
  print := false
  selected := false
  hidden := false
  parent := none
  child := none
  sister := none
  thcount := entry.thcount

/-- The table after `GetProcesses` or `GetProcessesDirect`. -/
def getProcesses {NProc : ℕ} (entries : Fin NProc → Entry) : Table NProc :=
  fun i => (entries i).toProc NProc

/-- `struct TreeChars`. -/
structure TreeChars where
  s2 : Bytes
  p : Bytes
  pgl : Bytes
  npgl : Bytes
  barc : Bytes
  bar : Bytes
  barl : Bytes
  sg : Bytes
  eg : Bytes

/-- `TreeChars[G_ASCII]`. -/
def TreeChars.ascii : TreeChars :=
  ⟨bytes ['-', '-'], bytes ['-', '+'], bytes ['='], bytes ['-'], bytes ['|'], bytes ['|'],
    bytes ['\\'], [], []⟩

/-- `TreeChars[G_PC850]`. -/
def TreeChars.pc850 : TreeChars :=
  ⟨[0o304, 0o304], [0o304, 0o302], [0o372], [0o304], [0o303], [0o263], [0o300], [], []⟩

/-- `TreeChars[G_VT100]`. -/
def TreeChars.vt100 : TreeChars :=
  ⟨bytes ['q', 'q'], bytes ['q', 'w'], [0o140], bytes ['q'], bytes ['t'], bytes ['x'],
    bytes ['m'], [0o16], [0o17]⟩

/-- `TreeChars[G_UTF8]`. -/
def TreeChars.utf8 : TreeChars :=
  ⟨[0o342, 0o224, 0o200, 0o342, 0o224, 0o200], [0o342, 0o224, 0o200, 0o342, 0o224, 0o254],
    bytes ['='], [0o342, 0o224, 0o200], [0o342, 0o224, 0o234], [0o342, 0o224, 0o202],
    [0o342, 0o224, 0o224], [], []⟩

/-- The globals the options set, with `MyPid` and the graphics set `C`. -/
structure Options where
  showall : Bool := true
  soption : Bool := false
  Uoption : Bool := false
  Hoption : Bool := false
  noption : Bool := false
  roption : Bool := false
  name : Bytes := []
  str : Bytes := []
  ipid : ℤ := -1
  myPid : ℤ := 0
  maxLdepth : ℕ := 100
  columns : ℕ := 8191
  chars : TreeChars := .utf8

variable {NProc : ℕ}

/-- Overwrite one entry. -/
def Table.set (P : Table NProc) (idx : Fin NProc) (proc : Proc NProc) : Table NProc :=
  Function.update P idx proc

/-- The search runs from the last entry down. -/
def getPidIndex (P : Table NProc) (pid : ℤ) : Option (Fin NProc) :=
  (List.finRange NProc).reverse.find? fun me => (P me).pid == pid

/-! ## `MakeTree` -/

/-- The loop that stops at the sister without a sister. -/
def lastSister (P : Table NProc) : ℕ → Fin NProc → Option (Fin NProc)
  | 0, _ => none
  | fuel + 1, sister =>
    match (P sister).sister with
    | none => some sister
    | some next => lastSister P fuel next

/-- One pass of the loop of `MakeTree`. -/
def linkParent (fuel : ℕ) (P : Table NProc) (me : Fin NProc) : Option (Table NProc) :=
  match getPidIndex P (P me).ppid with
  | none => some P
  | some parent =>
    if parent = me then some P
    else
      let P := P.set me { P me with parent := some parent }
      match (P parent).child with
      | none => some (P.set parent { P parent with child := some me })
      | some first =>
        (lastSister P fuel first).map fun sister =>
          P.set sister { P sister with sister := some me }

def makeTree (fuel : ℕ) (P : Table NProc) : Option (Table NProc) :=
  (List.finRange NProc).foldlM (linkParent fuel) P

/-! ## `MarkProcs` -/

mutual

/-- `MarkChildren`: the entry itself, then each of its children. -/
def markChildren : ℕ → Table NProc → Fin NProc → Option (Table NProc)
  | 0, _, _ => none
  | fuel + 1, P, me =>
    let P := P.set me { P me with print := true }
    markSisters fuel P (P me).child

/-- The loop of `MarkChildren` over the children. -/
def markSisters : ℕ → Table NProc → Option (Fin NProc) → Option (Table NProc)
  | 0, _, _ => none
  | _ + 1, P, none => some P
  | fuel + 1, P, some child =>
    (markChildren fuel P child).bind fun P => markSisters fuel P (P child).sister

end

/-- The loop that marks the parents, hiding them under `-H`. -/
def markParents (hide : Bool) : ℕ → Table NProc → Option (Fin NProc) → Option (Table NProc)
  | 0, _, _ => none
  | _ + 1, P, none => some P
  | fuel + 1, P, some parent =>
    let P := P.set parent
      { P parent with print := true, hidden := (P parent).hidden || hide }
    markParents hide fuel P (P parent).parent

/-- The condition for `-u`, `-U`, `-p` and `-s`. -/
def Options.selects (o : Options) (proc : Proc NProc) : Bool :=
  proc.name == o.name || (o.Uoption && proc.name != bytes ['r', 'o', 'o', 't']) ||
    proc.pid == o.ipid || (o.soption && decide (o.str <:+: proc.cmd) && proc.pid != o.myPid)

/-- One pass of the loop of `MarkProcs`. -/
def markProc (o : Options) (fuel : ℕ) (P : Table NProc) (me : Fin NProc) : Option (Table NProc) :=
  if o.showall then some (P.set me { P me with print := true })
  else if o.selects (P me) then
    let P := P.set me { P me with selected := true }
    (markParents o.Hoption fuel P (P me).parent).bind fun P => markChildren fuel P me
  else some P

def markProcs (o : Options) (fuel : ℕ) (P : Table NProc) : Option (Table NProc) :=
  (List.finRange NProc).foldlM (markProc o fuel) P

/-! ## `DropProcs` -/

/-- The loop that skips the entries that will not print. -/
def firstPrinted (P : Table NProc) : ℕ → Option (Fin NProc) → Option (Option (Fin NProc))
  | 0, _ => none
  | _ + 1, none => some none
  | fuel + 1, some child =>
    if (P child).print then some (some child) else firstPrinted P fuel (P child).sister

/-- One pass of the loop of `DropProcs`. -/
def dropProc (o : Options) (fuel : ℕ) (P : Table NProc) (me : Fin NProc) : Option (Table NProc) :=
  if (P me).print then
    (firstPrinted P fuel (P me).child).bind fun child =>
      let P := P.set me { P me with child := child }
      (firstPrinted P fuel (P me).sister).bind fun sister =>
        let P := P.set me { P me with sister := sister }
        some (if o.roption && (P me).pid == 1 then P.set me { P me with hidden := true } else P)
  else some P

def dropProcs (o : Options) (fuel : ℕ) (P : Table NProc) : Option (Table NProc) :=
  (List.finRange NProc).foldlM (dropProc o fuel) P

/-! ## `PrintTree` -/

/-- One line of output and the entry it was printed for. -/
structure Row (NProc : ℕ) where
  idx : Fin NProc
  line : Bytes

/-- The global `atLdepth` and the rows printed so far. -/
structure Screen (NProc : ℕ) where
  atLdepth : ℕ
  rows : List (Row NProc)

/-- The text of a row, cut at the window width. -/
def rowLine (o : Options) (P : Table NProc) (idx : Fin NProc) (head : Bytes) : Bytes :=
  let thread :=
    if (P idx).thcount > 1 then
      snprintf 16 (bytes ['['] ++ decimal (P idx).thcount ++ bytes [']'])
    else []
  (snprintf (4 * maxLine)
    (o.chars.sg ++ head ++
      (if head = [] then [] else if (P idx).sister.isSome then o.chars.barc else o.chars.barl) ++
      (if (P idx).child.isSome then o.chars.p else o.chars.s2) ++
      (if (P idx).pid = (P idx).pgid then o.chars.pgl else o.chars.npgl) ++ o.chars.eg ++
      bytes [' '] ++ padLeft 5 (decimal (P idx).pid) ++ bytes [' '] ++
      (if o.noption then [] else (P idx).name) ++ bytes [' '] ++ thread ++ (P idx).cmd)).take
    (o.columns - 1)

/-- The head of the rows below. -/
def childHead (o : Options) (P : Table NProc) (idx : Fin NProc) (head : Bytes) : Bytes :=
  snprintf maxLine
    (head ++ (if head = [] then [] else if (P idx).sister.isSome then o.chars.bar else bytes [' ']) ++
      bytes [' '])

mutual

def printTree (o : Options) (P : Table NProc) :
    ℕ → Fin NProc → Bytes → Screen NProc → Option (Screen NProc)
  | 0, _, _, _ => none
  | fuel + 1, idx, head, screen =>
    if head = [] ∧ (P idx).print = false then some screen
    else if screen.atLdepth = o.maxLdepth then some screen
    else
      let hide := (P idx).hidden && !(P idx).selected
      let nhead := if hide then snprintf maxLine head else childHead o P idx head
      let rows := if hide then screen.rows else screen.rows ++ [⟨idx, rowLine o P idx head⟩]
      (printSisters o P fuel (P idx).child nhead ⟨screen.atLdepth + 1, rows⟩).map fun screen =>
        { screen with atLdepth := screen.atLdepth - 1 }

/-- The loop of `PrintTree` over the children. -/
def printSisters (o : Options) (P : Table NProc) :
    ℕ → Option (Fin NProc) → Bytes → Screen NProc → Option (Screen NProc)
  | 0, _, _, _ => none
  | _ + 1, none, _, screen => some screen
  | fuel + 1, some child, head, screen =>
    (printTree o P fuel child head screen).bind fun screen =>
      printSisters o P fuel (P child).sister head screen

end

/-- The three passes over the table, then `PrintTree(root, "")`. -/
def pstree (o : Options) (fuel : ℕ) (P : Table NProc) (root : Fin NProc) :
    Option (List (Row NProc)) :=
  (makeTree fuel P).bind fun P => (markProcs o fuel P).bind fun P =>
    (dropProcs o fuel P).bind fun P =>
      (printTree o P fuel root [] ⟨0, []⟩).map Screen.rows

end SystemProgramming.ProcessTree
