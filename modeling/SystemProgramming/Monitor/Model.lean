import SystemProgramming.Lib.Run
import Mathlib.Algebra.Ring.Int.Defs
import Mathlib.Logic.Function.Basic

/-! # The directory monitor of `hw6/1`

`nftw` puts a watch on every file below the root, then the main loop adds one for every file that is
created in or moved into a watched directory. Other processes create files and move them in at any time;
nothing is removed. A file is known by the names on the way from the root to it, and the monitor sees the
path that this spells. There are no symbolic links, and a path that is not that of a file below the root
names nothing. `readdir` returns at least what a directory held when it was opened.
-/

namespace SystemProgramming.Monitor

open Lib

abbrev Text := List UInt8

def slash : UInt8 := 47

structure Name where
  text : Text
  nonempty : text ≠ []
  whole : slash ∉ text
deriving DecidableEq

/-- A file by the names that lead to it. -/
abbrev Path := List Name

/-- The argument of the monitor, which does not end with a slash. -/
structure Root where
  text : Text
  nonempty : text ≠ []
  whole : text.getLast? ≠ some slash

/-- The part of the argument that `ftwbuf->base` is the offset of. -/
def Root.name (root : Root) : Text := (root.text.reverse.takeWhile (· ≠ slash)).reverse

def text (root : Root) (path : Path) : Text := root.text ++ path.flatMap fun name => slash :: name.text

/-- The last name of a path. -/
def lastName (root : Root) (path : Path) : Text := (path.getLast?.map Name.text).getD root.name

/-- `ftwbuf->base` -/
def base (root : Root) (path : Path) : ℕ := (text root path).length - (lastName root path).length

structure File where
  path : Path
  isDir : Bool
deriving DecidableEq

/-- The files below the root, the root itself and every directory on the way included. -/
structure Tree where
  files : List File
  root : ⟨[], true⟩ ∈ files
  closed : ∀ file ∈ files, file.path ≠ [] → ⟨file.path.dropLast, true⟩ ∈ files

/-- What comes with a file that is moved in, by the paths below it. -/
def Comes (isDir : Bool) (contents : List File) : Prop :=
  ∀ file ∈ contents, file.path ≠ [] ∧
    (file.path.dropLast = [] ∧ isDir = true ∨ ⟨file.path.dropLast, true⟩ ∈ contents)

instance (isDir : Bool) (contents : List File) : Decidable (Comes isDir contents) :=
  inferInstanceAs (Decidable (∀ _ ∈ contents, _))

/-- The events that are acted on. -/
inductive Mask where
  | inCreate
  | inMovedTo
deriving DecidableEq, Repr

/-- `struct inotify_event` -/
structure Inotify where
  wd : ℤ
  mask : Mask
  name : Name
deriving DecidableEq

/-- The entries of a directory that `nftw` has to return, and those it has returned. -/
structure Listing where
  held : List Name
  seen : List Name
deriving DecidableEq

/-- A directory that `nftw` is in; `reported` when the callback has been called for it. -/
structure Frame where
  dir : Path
  listing : Option Listing
  reported : Bool
deriving DecidableEq

/-- `watches` are the kernel's; the first one has descriptor 1. `walk` is the stack of `nftw`, innermost
directory first, `none` before the call and empty behind it. -/
structure State where
  files : List File
  watches : List Path
  queue : List Inotify
  wdMapDir : ℤ → Text
  walk : Option (List Frame)

def start (tree : Tree) : State where
  files := tree.files
  watches := []
  queue := []
  wdMapDir := fun _ => []
  walk := none

/-! ## `lib.cpp` -/

/-- `path.substr(0, base + 3)` -/
def getDir (path : Text) (base : ℕ) : Text := path.take (base + 3)

def State.addWatchFile (s : State) (path : Text) (base : ℕ) (wd : ℤ) : State :=
  { s with wdMapDir := Function.update s.wdMapDir wd (getDir path base) }

def concat (s1 s2 : Text) : Text := s1 ++ slash :: s2

/-! ## `main.c` -/

/-- A file that has a watch keeps it. -/
def State.inotifyAddWatch (s : State) (root : Root) (path : Text) : ℤ × State :=
  match s.files.find? fun file => text root file.path = path with
  | some file =>
    (s.watches.idxOf file.path + 1,
      if file.path ∈ s.watches then s else { s with watches := s.watches ++ [file.path] })
  | none => (-1, s)

/-- The watches when there is one on the file. -/
def State.watch (s : State) (path : Path) : List Path :=
  if path ∈ s.watches then s.watches else s.watches ++ [path]

def State.addNotify (s : State) (root : Root) (path : Text) (base : ℕ) : State :=
  let (wd, s) := s.inotifyAddWatch root path
  s.addWatchFile path base wd

/-- `__add_watch_file`, the callback of `nftw`. -/
def State.callback (s : State) (root : Root) (path : Path) : State :=
  s.addNotify root (text root path) (base root path)

/-- The body of the loop over the events. -/
def State.handle (s : State) (root : Root) (e : Inotify) : State :=
  let dir := s.wdMapDir e.wd
  match e.mask with
  | .inCreate => s.addNotify root (concat dir e.name.text) dir.length
  | .inMovedTo => s.addNotify root (concat dir e.name.text) dir.length

/-! ## The system -/

/-- The kernel queues an event when the directory is watched. -/
def State.notify (s : State) (dir : Path) (mask : Mask) (name : Name) : State :=
  if dir ∈ s.watches then
    { s with queue := s.queue ++ [⟨s.watches.idxOf dir + 1, mask, name⟩] }
  else s

/-- The names of the files in a directory. -/
def State.entries (s : State) (dir : Path) : List Name :=
  s.files.filterMap fun file =>
    match file.path.getLast? with
    | some name => if file.path = dir ++ [name] then some name else none
    | none => none

inductive Event where
  | create (dir : Path) (name : Name) (isDir : Bool)
  | moveIn (dir : Path) (name : Name) (isDir : Bool) (contents : List File)
  | nftw
  | opendir
  | report
  | readdir (name : Name)
  | closedir
  | readEvent
deriving DecidableEq

/-- `depth` is the flag `FTW_DEPTH`. -/
def step (root : Root) (depth : Bool) (s : State) : Event → Option State
  | .create dir name isDir =>
    if ⟨dir, true⟩ ∈ s.files ∧ ∀ file ∈ s.files, file.path ≠ dir ++ [name] then
      some (State.notify { s with files := ⟨dir ++ [name], isDir⟩ :: s.files } dir .inCreate name)
    else none
  | .moveIn dir name isDir contents =>
    if ⟨dir, true⟩ ∈ s.files ∧ (∀ file ∈ s.files, file.path ≠ dir ++ [name]) ∧ Comes isDir contents then
      let moved := contents.map fun file => ⟨dir ++ [name] ++ file.path, file.isDir⟩
      some (State.notify { s with files := ⟨dir ++ [name], isDir⟩ :: moved ++ s.files } dir .inMovedTo name)
    else none
  | .nftw =>
    match s.walk with
    | none => some { s with walk := some [⟨[], none, false⟩] }
    | some _ => none
  | .opendir =>
    match s.walk with
    | some (⟨dir, none, reported⟩ :: stack) =>
      some { s with walk := some (⟨dir, some ⟨s.entries dir, []⟩, reported⟩ :: stack) }
    | _ => none
  | .report =>
    match s.walk with
    | some (⟨dir, some listing, false⟩ :: stack) =>
      if depth then none
      else some ({ s with walk := some (⟨dir, some listing, true⟩ :: stack) }.callback root dir)
    | _ => none
  | .readdir name =>
    match s.walk with
    | some (⟨dir, some listing, reported⟩ :: stack) =>
      if (depth ∨ reported) ∧ name ∉ listing.seen ∧ name ∈ s.entries dir then
        let frame : Frame := ⟨dir, some ⟨listing.held, name :: listing.seen⟩, reported⟩
        if ⟨dir ++ [name], true⟩ ∈ s.files then
          some { s with walk := some (⟨dir ++ [name], none, false⟩ :: frame :: stack) }
        else some ({ s with walk := some (frame :: stack) }.callback root (dir ++ [name]))
      else none
    | _ => none
  | .closedir =>
    match s.walk with
    | some (⟨dir, some listing, reported⟩ :: stack) =>
      if listing.held ⊆ listing.seen then
        if depth then some ({ s with walk := some stack }.callback root dir)
        else if reported then some { s with walk := some stack }
        else none
      else none
    | _ => none
  | .readEvent =>
    match s.walk, s.queue with
    | some [], e :: queue => some ({ s with queue := queue }.handle root e)
    | _, _ => none

end SystemProgramming.Monitor
