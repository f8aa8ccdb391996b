import SystemProgramming.Monitor.Files

/-! # What `wd2dir` returns

`get_dir` cuts the stored directory out of the path: three bytes behind the offset it is given. From `nftw`
the offset is that of the last name, from the main loop it is that of the slash in front of it.
-/

namespace SystemProgramming.Monitor

open Lib

/-- `wd2dir` gives the path of every watched directory, and what `concat` makes of it and a name is the path
of the file with that name. -/
def Right (root : Root) (s : State) : Prop :=
  ∀ (i : ℕ) dir, s.watches[i]? = some dir → ⟨dir, true⟩ ∈ s.files →
    s.wdMapDir (i + 1) = text root dir ∧
      ∀ name : Name, concat (s.wdMapDir (i + 1)) name.text = text root (dir ++ [name])

/-- A directory that gets a watch has a name of at most three bytes when it comes from `nftw`, and of at
most two when it comes from an event. -/
def Short (root : Root) (depth : Bool) (s : State) : Event → Prop
  | .report => ∀ frame stack, s.walk = some (frame :: stack) → (lastName root frame.dir).length ≤ 3
  | .closedir => depth = true →
      ∀ frame stack, s.walk = some (frame :: stack) → (lastName root frame.dir).length ≤ 3
  | .readEvent => ∀ e queue, s.queue = e :: queue → ∀ (i : ℕ) dir, e.wd = i + 1 →
      s.watches[i]? = some dir → ⟨dir ++ [e.name], true⟩ ∈ s.files → e.name.text.length ≤ 2
  | .create .. | .moveIn .. | .nftw | .opendir | .readdir _ => True

section

variable {root : Root} {depth : Bool} {s t : State} {path : Path}

/-- New files are not watched yet. -/
theorem Right.create (right : Right root s) (inv : Sound s) (files : List File)
    (new : ∀ file ∈ files, ¬ s.Has file.path) (dir : Path) (mask : Mask) (name : Name) :
    Right root (State.notify { s with files := files ++ s.files } dir mask name) := by
  have grown : Right root { s with files := files ++ s.files } := by
    intro i dir there isDir
    rcases List.mem_append.mp isDir with fresh | old
    · exact absurd (inv.watched dir (List.mem_of_getElem? there)) (new _ fresh)
    · exact right i dir there old
  rw [State.notify]
  split_ifs
  · exact grown
  · exact grown

end

/-- `.` -/
def dot : Root := ⟨[46], by decide, by decide⟩

/-- A root with one directory in it. -/
def oneDir (name : Name) : Tree where
  files := [⟨[], true⟩, ⟨[name], true⟩]
  root := by simp
  closed := by simp

def ab : Name := ⟨[97, 98], by decide, by decide⟩

def abcd : Name := ⟨[97, 98, 99, 100], by decide, by decide⟩

/-- `nftw` goes through a root with the directory `ab`, where a directory of the same name is created. -/
def nested : List Event :=
  [.nftw, .opendir, .report, .readdir ab, .opendir, .report, .closedir, .closedir, .create [ab] ab true,
    .readEvent]

end SystemProgramming.Monitor
