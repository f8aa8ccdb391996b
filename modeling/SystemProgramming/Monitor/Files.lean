import SystemProgramming.Monitor.Model
import SystemProgramming.Lib.Update
import Mathlib.Data.List.Induction

/-! # Files, their paths and their watches

What the kernel keeps right by itself, however the monitor uses it.
-/

namespace SystemProgramming.Monitor

open Lib

/-! ## Paths -/

section

variable {root : Root} {path other dir : Path} {name : Name}

@[simp] theorem text_concat (root : Root) (dir : Path) (name : Name) :
    text root (dir ++ [name]) = concat (text root dir) name.text := by
  simp [text, concat]

/-- Behind a name the text ends or goes on with a slash. -/
theorem takeWhile_name (name : Name) (path : Path) :
    (name.text ++ path.flatMap fun name => slash :: name.text).takeWhile (· ≠ slash) = name.text := by
  rw [List.takeWhile_append_of_pos]
  · cases path <;> simp
  · intro byte inside
    simpa using ne_of_mem_of_not_mem inside name.whole

theorem Name.ext_text {name other : Name} (same : name.text = other.text) : name = other := by
  cases name
  cases other
  cases same
  rfl

/-- Different files have different paths. -/
theorem text_injective (root : Root) : Function.Injective (text root) := by
  intro path other same
  have rest := List.append_cancel_left same
  clear same
  induction path generalizing other with
  | nil =>
    cases other with
    | nil => rfl
    | cons _ _ => cases rest
  | cons name path ih =>
    cases other with
    | nil => cases rest
    | cons first other =>
      simp only [List.flatMap_cons, List.cons_append, List.cons.injEq, true_and] at rest
      have heads := congrArg (List.takeWhile (· ≠ slash)) rest
      rw [takeWhile_name, takeWhile_name] at heads
      obtain rfl := Name.ext_text heads
      rw [ih (List.append_cancel_left rest)]

end

/-! ## Watches -/

/-- There is a file with this path. -/
def State.Has (s : State) (path : Path) : Prop := ∃ file ∈ s.files, file.path = path

section

variable {s t : State} {root : Root} {path other dir : Path} {name : Name} {i : ℕ}

theorem addNotify_eq (here : s.Has path) (base : ℕ) :
    s.addNotify root (text root path) base = { s with
      watches := s.watch path
      wdMapDir := Function.update s.wdMapDir (s.watches.idxOf path + 1) (getDir (text root path) base) } := by
  obtain ⟨file, member, rfl⟩ := here
  obtain ⟨found, search⟩ : ∃ found, s.files.find? (fun other => text root other.path = text root file.path) =
      some found := Option.isSome_iff_exists.mp (List.find?_isSome.mpr ⟨file, member, by simp⟩)
  have same : found.path = file.path := text_injective root (by simpa using List.find?_some search)
  rw [State.addNotify, State.inotifyAddWatch, search]
  simp only [same, State.addWatchFile, State.watch]
  split_ifs <;> rfl

/-- A path that is not that of a file gets the descriptor -1. -/
theorem addNotify_eq_of_unknown {asked : Text} (unknown : ∀ file ∈ s.files, text root file.path ≠ asked) (base : ℕ) :
    s.addNotify root asked base = s.addWatchFile asked base (-1) := by
  have search : s.files.find? (fun file => text root file.path = asked) = none := by
    simpa using unknown
  rw [State.addNotify, State.inotifyAddWatch, search]

theorem mem_watch : other ∈ s.watch path ↔ other ∈ s.watches ∨ other = path := by
  rw [State.watch]
  split_ifs with watched
  · exact (or_iff_left_of_imp fun same => same ▸ watched).symm
  · simp

theorem getElem?_watch_of_some (here : s.watches[i]? = some other) : (s.watch path)[i]? = some other := by
  rw [State.watch]
  split_ifs
  · exact here
  · exact getElem?_append_of_some here

/-- What `add_notify` leaves alone. -/
structure Keeps (s t : State) : Prop where
  files : t.files = s.files
  queue : t.queue = s.queue
  walk : t.walk = s.walk
  watches : ∀ (i : ℕ) path, s.watches[i]? = some path → t.watches[i]? = some path

theorem keeps_addNotify (s : State) (root : Root) (asked : Text) (base : ℕ) :
    Keeps s (s.addNotify root asked base) := by
  rcases Classical.em (∃ path, s.Has path ∧ text root path = asked) with ⟨path, here, rfl⟩ | unknown
  · rw [addNotify_eq here]
    exact ⟨rfl, rfl, rfl, fun _ _ there => getElem?_watch_of_some there⟩
  · rw [addNotify_eq_of_unknown (fun file member same => unknown ⟨file.path, ⟨file, member, rfl⟩, same⟩)]
    exact ⟨rfl, rfl, rfl, fun _ _ there => there⟩

theorem mem_watches_addNotify (here : s.Has path) (base : ℕ) :
    path ∈ (s.addNotify root (text root path) base).watches := by
  rw [addNotify_eq here]
  exact mem_watch.mpr (.inr rfl)

end

/-! ## The file system and the queue -/

/-- Every file is in a directory, watches and queued events are for files, and `nftw` is in directories. -/
structure Sound (s : State) : Prop where
  root : ⟨[], true⟩ ∈ s.files
  closed : ∀ file ∈ s.files, file.path ≠ [] → ⟨file.path.dropLast, true⟩ ∈ s.files
  watched : ∀ path ∈ s.watches, s.Has path
  queued : ∀ e ∈ s.queue, ∃ (i : ℕ) (dir : Path), e.wd = i + 1 ∧ s.watches[i]? = some dir ∧ s.Has (dir ++ [e.name])
  walked : ∀ stack, s.walk = some stack → ∀ frame ∈ stack, ⟨frame.dir, true⟩ ∈ s.files

theorem sound_start (tree : Tree) : Sound (start tree) where
  root := tree.root
  closed := tree.closed
  watched := by simp [start]
  queued := by simp [start]
  walked := by simp [start]

section

variable {s t : State} {root : Root} {path other dir : Path} {name : Name} {i : ℕ}

theorem Sound.isDir_dropLast (inv : Sound s) (here : s.Has (dir ++ [name])) : ⟨dir, true⟩ ∈ s.files := by
  obtain ⟨file, member, same⟩ := here
  have parent := inv.closed file member (by simp [same])
  rwa [same, List.dropLast_concat] at parent

/-- What is on the way to a file is a directory. -/
theorem Sound.isDir_of_append (inv : Sound s) {rest : Path} (here : s.Has (dir ++ rest)) (below : rest ≠ []) :
    ⟨dir, true⟩ ∈ s.files := by
  induction rest using List.reverseRecOn with
  | nil => exact absurd rfl below
  | append_singleton rest name ih =>
    rw [← List.append_assoc] at here
    have parent := inv.isDir_dropLast here
    cases rest with
    | nil => simpa using parent
    | cons first rest => exact ih ⟨_, parent, rfl⟩ (by simp)

theorem Sound.addNotify (inv : Sound s) (asked : Text) (base : ℕ) : Sound (s.addNotify root asked base) := by
  rcases Classical.em (∃ path, s.Has path ∧ text root path = asked) with ⟨path, here, rfl⟩ | unknown
  · rw [addNotify_eq here]
    refine ⟨inv.root, inv.closed, fun other watched => ?_, fun e queued => ?_, inv.walked⟩
    · rcases mem_watch.mp watched with watched | rfl
      · exact inv.watched other watched
      · exact here
    · obtain ⟨i, dir, wd, there, has⟩ := inv.queued e queued
      exact ⟨i, dir, wd, getElem?_watch_of_some there, has⟩
  · rw [addNotify_eq_of_unknown (fun file member same => unknown ⟨file.path, ⟨file, member, rfl⟩, same⟩)]
    exact ⟨inv.root, inv.closed, inv.watched, inv.queued, inv.walked⟩

theorem Sound.walkTo (inv : Sound s) {stack : List Frame} (dirs : ∀ frame ∈ stack, ⟨frame.dir, true⟩ ∈ s.files) :
    Sound { s with walk := some stack } where
  root := inv.root
  closed := inv.closed
  watched := inv.watched
  queued := inv.queued
  walked := by
    rintro other ⟨⟩
    exact dirs

theorem Sound.readEvent (inv : Sound s) {e : Inotify} {queue : List Inotify} (next : s.queue = e :: queue) :
    Sound { s with queue := queue } where
  root := inv.root
  closed := inv.closed
  watched := inv.watched
  queued := fun other queued => inv.queued other (next ▸ List.mem_cons_of_mem e queued)
  walked := inv.walked

/-- New files in a directory, of which the first is announced to those who watch it. -/
theorem Sound.create (inv : Sound s) (files : List File) (first : ∃ file ∈ files, file.path = dir ++ [name])
    (closed : ∀ file ∈ files, ⟨file.path.dropLast, true⟩ ∈ files ++ s.files) (mask : Mask) :
    Sound (State.notify { s with files := files ++ s.files } dir mask name) := by
  have grown : Sound { s with files := files ++ s.files } := by
    have more : ∀ {path}, s.Has path → State.Has { s with files := files ++ s.files } path := by
      rintro path ⟨file, member, same⟩
      exact ⟨file, List.mem_append_right _ member, same⟩
    refine ⟨List.mem_append_right _ inv.root, fun file member below => ?_,
      fun path watched => more (inv.watched path watched), fun e queued => ?_,
      fun stack same frame member => List.mem_append_right _ (inv.walked stack same frame member)⟩
    · rcases List.mem_append.mp member with new | old
      · exact closed file new
      · exact List.mem_append_right _ (inv.closed file old below)
    · obtain ⟨i, dir, wd, there, has⟩ := inv.queued e queued
      exact ⟨i, dir, wd, there, more has⟩
  obtain ⟨file, new, same⟩ := first
  rw [State.notify]
  split_ifs with watched
  · refine ⟨grown.root, grown.closed, grown.watched, fun e queued => ?_, grown.walked⟩
    rcases List.mem_append.mp queued with queued | last
    · exact grown.queued e queued
    · rw [List.mem_singleton.mp last]
      exact ⟨_, dir, rfl, List.getElem?_idxOf watched, file, List.mem_append_left _ new, same⟩
  · exact grown

end

/-! ## What one step does -/

inductive Move (root : Root) (depth : Bool) (s : State) : Event → State → Prop where
  | create {dir name isDir} : ⟨dir, true⟩ ∈ s.files → (∀ file ∈ s.files, file.path ≠ dir ++ [name]) →
      Move root depth s (.create dir name isDir)
        (State.notify { s with files := ⟨dir ++ [name], isDir⟩ :: s.files } dir .inCreate name)
  | moveIn {dir name isDir contents} : ⟨dir, true⟩ ∈ s.files →
      (∀ file ∈ s.files, file.path ≠ dir ++ [name]) → Comes isDir contents →
      Move root depth s (.moveIn dir name isDir contents) (State.notify { s with
        files := ⟨dir ++ [name], isDir⟩ ::
          contents.map (fun file => ⟨dir ++ [name] ++ file.path, file.isDir⟩) ++ s.files } dir .inMovedTo name)
  | begins : s.walk = none → Move root depth s .nftw { s with walk := some [⟨[], none, false⟩] }
  | opens {dir reported stack} : s.walk = some (⟨dir, none, reported⟩ :: stack) →
      Move root depth s .opendir { s with walk := some (⟨dir, some ⟨s.entries dir, []⟩, reported⟩ :: stack) }
  | reports {dir listing stack} : depth = false → s.walk = some (⟨dir, some listing, false⟩ :: stack) →
      Move root depth s .report
        (State.callback { s with walk := some (⟨dir, some listing, true⟩ :: stack) } root dir)
  | descends {dir listing reported stack name} : s.walk = some (⟨dir, some listing, reported⟩ :: stack) →
      ⟨dir ++ [name], true⟩ ∈ s.files →
      Move root depth s (.readdir name) { s with walk := some (⟨dir ++ [name], none, false⟩ ::
        ⟨dir, some ⟨listing.held, name :: listing.seen⟩, reported⟩ :: stack) }
  | passes {dir listing reported stack name} : s.walk = some (⟨dir, some listing, reported⟩ :: stack) →
      name ∈ s.entries dir → ⟨dir ++ [name], true⟩ ∉ s.files →
      Move root depth s (.readdir name) (State.callback { s with
        walk := some (⟨dir, some ⟨listing.held, name :: listing.seen⟩, reported⟩ :: stack) } root (dir ++ [name]))
  | closesLast {dir listing reported stack} : depth = true →
      s.walk = some (⟨dir, some listing, reported⟩ :: stack) → listing.held ⊆ listing.seen →
      Move root depth s .closedir (State.callback { s with walk := some stack } root dir)
  | closes {dir listing stack} : depth = false → s.walk = some (⟨dir, some listing, true⟩ :: stack) →
      listing.held ⊆ listing.seen → Move root depth s .closedir { s with walk := some stack }
  | handles {e queue} : s.walk = some [] → s.queue = e :: queue →
      Move root depth s .readEvent (State.handle { s with queue := queue } root e)

section

variable {s t : State} {root : Root} {depth : Bool} {e : Event}

theorem move_of_step (taken : step root depth s e = some t) : Move root depth s e t := by
  cases e with
  | create dir name isDir =>
    obtain ⟨⟨parent, new⟩, same⟩ := Option.ite_none_right_eq_some.mp taken
    cases same
    exact .create parent new
  | moveIn dir name isDir contents =>
    obtain ⟨⟨parent, new, comes⟩, same⟩ := Option.ite_none_right_eq_some.mp taken
    cases same
    exact .moveIn parent new comes
  | nftw =>
    simp only [step] at taken
    split at taken
    · cases taken
      exact .begins ‹_›
    · cases taken
  | opendir =>
    simp only [step] at taken
    split at taken
    · cases taken
      exact .opens ‹_›
    · cases taken
  | report =>
    simp only [step] at taken
    split at taken
    · obtain ⟨early, same⟩ := Option.ite_none_left_eq_some.mp taken
      cases same
      exact .reports (by simpa using early) ‹_›
    · cases taken
  | readdir name =>
    simp only [step] at taken
    split at taken
    · obtain ⟨⟨-, -, entry⟩, same⟩ := Option.ite_none_right_eq_some.mp taken
      split_ifs at same with isDir
      · cases same
        exact .descends ‹_› isDir
      · cases same
        exact .passes ‹_› entry isDir
    · cases taken
  | closedir =>
    simp only [step] at taken
    split at taken
    · obtain ⟨all, same⟩ := Option.ite_none_right_eq_some.mp taken
      split_ifs at same with late reported
      · cases same
        exact .closesLast late ‹_› all
      · cases same
        subst reported
        exact .closes (by simpa using late) ‹_› all
    · cases taken
  | readEvent =>
    simp only [step] at taken
    split at taken
    · cases taken
      exact .handles ‹_› ‹_›
    · cases taken

theorem mem_entries {dir : Path} {name : Name} : name ∈ s.entries dir ↔ s.Has (dir ++ [name]) := by
  rw [State.entries, List.mem_filterMap]
  constructor
  · rintro ⟨file, member, found⟩
    split at found
    · obtain ⟨same, last⟩ := Option.ite_none_right_eq_some.mp found
      cases last
      exact ⟨file, member, same⟩
    · cases found
  · rintro ⟨file, member, same⟩
    exact ⟨file, member, by simp [same]⟩

theorem handle_eq (s : State) (root : Root) (e : Inotify) : s.handle root e =
    s.addNotify root (concat (s.wdMapDir e.wd) e.name.text) (s.wdMapDir e.wd).length := by
  cases masked : e.mask <;> simp [State.handle, masked]

/-- The files of a move stay together. -/
theorem moved_closed {dir : Path} {name : Name} {isDir : Bool} {contents : List File}
    (parent : ⟨dir, true⟩ ∈ s.files) (comes : Comes isDir contents) :
    ∀ file ∈ (⟨dir ++ [name], isDir⟩ : File) ::
      contents.map (fun file => ⟨dir ++ [name] ++ file.path, file.isDir⟩), ⟨file.path.dropLast, true⟩ ∈
        ((⟨dir ++ [name], isDir⟩ : File) ::
          contents.map (fun file => ⟨dir ++ [name] ++ file.path, file.isDir⟩)) ++ s.files := by
  intro file member
  rcases List.mem_cons.mp member with rfl | member
  · rw [List.dropLast_concat]
    exact List.mem_append_right _ parent
  · obtain ⟨inner, listed, rfl⟩ := List.mem_map.mp member
    obtain ⟨below, place⟩ := comes inner listed
    apply List.mem_append_left
    rw [List.dropLast_append_of_ne_nil below]
    rcases place with ⟨top, rfl⟩ | nested
    · simp [top]
    · exact List.mem_cons_of_mem _ (List.mem_map.mpr ⟨_, nested, rfl⟩)

theorem Sound.step (inv : Sound s) (taken : step root depth s e = some t) : Sound t := by
  have frames : ∀ {dir listing reported stack}, s.walk = some (⟨dir, listing, reported⟩ :: stack) →
      ⟨dir, true⟩ ∈ s.files ∧ ∀ frame ∈ stack, ⟨frame.dir, true⟩ ∈ s.files := by
    intro dir listing reported stack walk
    exact List.forall_mem_cons.mp (inv.walked _ walk)
  cases move_of_step taken with
  | create parent new =>
    refine inv.create [_] ⟨_, List.mem_singleton_self _, rfl⟩ (fun file member => ?_) .inCreate
    rw [List.mem_singleton.mp member, List.dropLast_concat]
    exact List.mem_append_right _ parent
  | moveIn parent new comes =>
    exact inv.create _ ⟨_, List.mem_cons_self, rfl⟩ (moved_closed parent comes) .inMovedTo
  | begins walk =>
    apply inv.walkTo
    simpa using inv.root
  | opens walk =>
    apply inv.walkTo
    exact List.forall_mem_cons.mpr (frames walk)
  | reports _ walk =>
    apply Sound.addNotify
    exact inv.walkTo (List.forall_mem_cons.mpr (frames walk))
  | descends walk isDir =>
    apply inv.walkTo
    exact List.forall_mem_cons.mpr ⟨isDir, List.forall_mem_cons.mpr (frames walk)⟩
  | passes walk =>
    apply Sound.addNotify
    exact inv.walkTo (List.forall_mem_cons.mpr (frames walk))
  | closesLast _ walk =>
    apply Sound.addNotify
    exact inv.walkTo (frames walk).2
  | closes _ walk => exact inv.walkTo (frames walk).2
  | handles _ next =>
    rw [handle_eq]
    exact (inv.readEvent next).addNotify _ _

end

end SystemProgramming.Monitor
