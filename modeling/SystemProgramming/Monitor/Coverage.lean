import SystemProgramming.Monitor.Descriptors

/-! # Which directories get a watch

A directory is found by `nftw`, or by the event of its creation if the directory around it has a watch by
then. Between the opening of a directory and its watch both can fail.
-/

namespace SystemProgramming.Monitor

open Lib

/-- The walk is over and all events have been handled. -/
def Drained (s : State) : Prop := s.walk = some [] ∧ s.queue = []

/-- Once the monitor waits, every directory has a watch. -/
def Complete (s : State) : Prop := Drained s → ∀ dir, ⟨dir, true⟩ ∈ s.files → dir ∈ s.watches

/-- `nftw` has still to open the directory when it has to open this one and what is below, or when the
directory is on the way from an entry that it has to return. -/
def Frame.Opens (frame : Frame) (dir : Path) : Prop :=
  frame.listing = none ∧ frame.dir <+: dir ∨
    ∃ listing, frame.listing = some listing ∧
      ∃ name ∈ listing.held, name ∉ listing.seen ∧ frame.dir ++ [name] <+: dir

/-- `nftw` has still to open the directory, or to begin. -/
def WillOpen (s : State) (dir : Path) : Prop := ∀ stack, s.walk = some stack → ∃ frame ∈ stack, frame.Opens dir

/-- A directory is created only where the directory around it has a watch or has still to be opened by
`nftw`, and the event of a directory is handled only when the path of the directory around it is stored.
Other files are created at any time; nothing is moved in. -/
def InTime (root : Root) (s : State) : Event → Prop
  | .create dir _ isDir => isDir = true → dir ∈ s.watches ∨ WillOpen s dir
  | .moveIn .. => False
  | .readEvent => ∀ e queue, s.queue = e :: queue → ∀ (i : ℕ) dir, e.wd = i + 1 →
      s.watches[i]? = some dir → ⟨dir ++ [e.name], true⟩ ∈ s.files → s.wdMapDir e.wd = text root dir
  | .nftw | .opendir | .report | .readdir _ | .closedir => True

/-- `nftw` has still to call the callback for the directory. -/
def Frame.Leads (frame : Frame) (dir : Path) : Prop :=
  frame.Opens dir ∨ frame.reported = false ∧ frame.dir = dir

def WillReport (s : State) (dir : Path) : Prop := ∀ stack, s.walk = some stack → ∃ frame ∈ stack, frame.Leads dir

/-- The directory has a watch or an event that leads to one. -/
def Found (s : State) (dir : Path) : Prop :=
  dir ∈ s.watches ∨ ∃ e ∈ s.queue, ∃ (i : ℕ) (parent : Path),
    e.wd = i + 1 ∧ s.watches[i]? = some parent ∧ dir = parent ++ [e.name]

structure Inv (s : State) : Prop where
  sound : Sound s
  covered : ∀ dir, ⟨dir, true⟩ ∈ s.files → Found s dir ∨ WillReport s dir
  /-- Before it is opened a directory has not been reported. -/
  fresh : ∀ stack, s.walk = some stack → ∀ frame ∈ stack, frame.listing = none → frame.reported = false

section

variable {root : Root} {depth : Bool} {s t : State} {dir path : Path} {frame : Frame} {stack : List Frame}

theorem inv_start (tree : Tree) : Inv (start tree) where
  sound := sound_start tree
  covered dir _ := .inr (by simp [WillReport, start])
  fresh := by simp [start]

/-- In the end only watches are left. -/
theorem Inv.complete (inv : Inv s) : Complete s := by
  rintro ⟨walk, queue⟩ dir isDir
  rcases inv.covered dir isDir with (watched | ⟨e, queued, -⟩) | reports
  · exact watched
  · simp [queue] at queued
  · obtain ⟨frame, member, -⟩ := reports [] walk
    cases member

/-! ## One step -/

/-- What has been found stays found while watches and events are added. -/
theorem Found.mono (found : Found s dir) (kept : ∀ (i : ℕ) path, s.watches[i]? = some path → t.watches[i]? = some path)
    (queued : s.queue ⊆ t.queue) : Found t dir := by
  rcases found with watched | ⟨e, member, i, parent, wd, there, same⟩
  · obtain ⟨i, there⟩ := List.mem_iff_getElem?.mp watched
    exact .inl (List.mem_of_getElem? (kept i dir there))
  · exact .inr ⟨e, queued member, i, parent, wd, kept i parent there, same⟩

theorem Found.keeps (found : Found s dir) (keeps : Keeps s t) : Found t dir :=
  found.mono keeps.watches (keeps.queue ▸ List.Subset.refl _)

theorem Found.callback (found : Found s dir) (walk : Option (List Frame)) (path : Path) :
    Found (State.callback { s with walk := walk } root path) dir := by
  have same : Found { s with walk := walk } dir := found
  exact same.keeps (keeps_addNotify _ root _ _)

theorem found_callback (walk : Option (List Frame)) (here : s.Has path) :
    Found (State.callback { s with walk := walk } root path) path := by
  have same : State.Has { s with walk := walk } path := here
  exact .inl (mem_watches_addNotify same _)

/-- A step of the walk that replaces the innermost directory. -/
theorem Inv.covered_of_walk (inv : Inv s) (walk : s.walk = some (frame :: stack)) (frames : List Frame)
    (after : t.walk = some (frames ++ stack)) (found : ∀ dir, Found s dir → Found t dir)
    (leads : ∀ dir, ⟨dir, true⟩ ∈ s.files → frame.Leads dir → Found t dir ∨ ∃ other ∈ frames, other.Leads dir)
    (isDir : ⟨dir, true⟩ ∈ s.files) : Found t dir ∨ WillReport t dir := by
  have reports : ∀ {other}, other ∈ frames ++ stack → other.Leads dir → WillReport t dir := by
    intro other member leads all same
    cases after.symm.trans same
    exact ⟨other, member, leads⟩
  rcases inv.covered dir isDir with was | reported
  · exact .inl (found dir was)
  · obtain ⟨other, member, way⟩ := reported _ walk
    rcases List.mem_cons.mp member with rfl | member
    · rcases leads dir isDir way with now | ⟨next, member, way⟩
      · exact .inl now
      · exact .inr (reports (List.mem_append_left _ member) way)
    · exact .inr (reports (List.mem_append_right _ member) way)

theorem Inv.opens (inv : Inv s) {reported : Bool} (walk : s.walk = some (⟨path, none, reported⟩ :: stack))
    (isDir : ⟨dir, true⟩ ∈ s.files) (leads : Frame.Leads ⟨path, none, reported⟩ dir) :
    Frame.Leads ⟨path, some ⟨s.entries path, []⟩, reported⟩ dir := by
  rcases leads with (⟨-, rest, rfl⟩ | ⟨listing, some_, -⟩) | same
  · cases rest with
    | nil => exact .inr ⟨inv.fresh _ walk ⟨path, none, reported⟩ List.mem_cons_self rfl, by simp⟩
    | cons name rest =>
      have split : path ++ name :: rest = path ++ [name] ++ rest := by simp
      have entry : s.Has (path ++ [name]) := by
        cases rest with
        | nil => exact ⟨_, isDir, rfl⟩
        | cons first rest =>
          rw [split] at isDir
          exact ⟨_, inv.sound.isDir_of_append ⟨_, isDir, rfl⟩ (by simp), rfl⟩
      refine .inl (.inr ⟨_, rfl, name, mem_entries.mpr entry, by simp, ?_⟩)
      exact ⟨rest, split.symm⟩
  · cases some_
  · exact .inr same

/-- The entry that is returned is no longer to come, the others are. -/
theorem Frame.Leads.readdir {listing : Listing} {reported : Bool} (name : Name)
    (leads : Frame.Leads ⟨path, some listing, reported⟩ dir) :
    path ++ [name] <+: dir ∨ Frame.Leads ⟨path, some ⟨listing.held, name :: listing.seen⟩, reported⟩ dir := by
  rcases leads with (⟨none_, -⟩ | ⟨_, ⟨⟩, other, held, unseen, way⟩) | same
  · cases none_
  · by_cases hit : other = name
    · exact .inl (hit ▸ way)
    · exact .inr (.inl (.inr ⟨_, rfl, other, held, by simp [hit, unseen], way⟩))
  · exact .inr (.inr same)

/-- A directory that has been read leads to itself only. -/
theorem Frame.Leads.closedir {listing : Listing} {reported : Bool} (all : listing.held ⊆ listing.seen)
    (leads : Frame.Leads ⟨path, some listing, reported⟩ dir) : reported = false ∧ path = dir := by
  rcases leads with (⟨none_, -⟩ | ⟨_, ⟨⟩, other, held, unseen, -⟩) | same
  · cases none_
  · exact absurd (all held) unseen
  · exact same

theorem Sound.isDir_of_prefix (inv : Sound s) (isDir : ⟨dir, true⟩ ∈ s.files) (above : path <+: dir) :
    ⟨path, true⟩ ∈ s.files := by
  obtain ⟨rest, rfl⟩ := above
  cases rest with
  | nil => simpa using isDir
  | cons first rest => exact inv.isDir_of_append ⟨_, isDir, rfl⟩ (by simp)

/-- A new file is announced or still to come in the walk. -/
theorem Inv.create (inv : Inv s) {name : Name} {isDir : Bool}
    (inTime : isDir = true → path ∈ s.watches ∨ WillOpen s path) (mask : Mask)
    (new : ⟨dir, true⟩ ∈ (⟨path ++ [name], isDir⟩ : File) :: s.files) :
    let t := State.notify { s with files := ⟨path ++ [name], isDir⟩ :: s.files } path mask name
    Found t dir ∨ WillReport t dir := by
  have walk : (State.notify { s with files := ⟨path ++ [name], isDir⟩ :: s.files } path mask name).walk = s.walk := by
    rw [State.notify]
    split_ifs <;> rfl
  dsimp only
  rcases List.mem_cons.mp new with same | old
  · obtain ⟨rfl, rfl⟩ := File.mk.inj same
    rcases inTime rfl with watched | opens
    · left; right
      rw [State.notify, if_pos watched]
      exact ⟨_, List.mem_concat_self, _, path, rfl, List.getElem?_idxOf watched, rfl⟩
    · right
      intro stack same
      obtain ⟨frame, member, way⟩ := opens stack (walk ▸ same)
      refine ⟨frame, member, .inl ?_⟩
      rcases way with ⟨none_, above⟩ | ⟨listing, some_, other, held, unseen, above⟩
      · exact .inl ⟨none_, above.trans (List.prefix_append _ _)⟩
      · exact .inr ⟨listing, some_, other, held, unseen, above.trans (List.prefix_append _ _)⟩
  · rcases inv.covered dir old with found | reports
    · left
      rw [State.notify]
      split_ifs
      · exact found.mono (fun _ _ there => there) (List.subset_append_left _ _)
      · exact found
    · right
      intro stack same
      exact reports stack (walk ▸ same)

theorem Inv.handle (inv : Inv s) {e : Inotify} {queue : List Inotify} (next : s.queue = e :: queue)
    (walk : s.walk = some []) (inTime : InTime root s .readEvent) (isDir : ⟨dir, true⟩ ∈ s.files) :
    Found (State.handle { s with queue := queue } root e) dir := by
  have keeps := keeps_addNotify { s with queue := queue } root (concat (s.wdMapDir e.wd) e.name.text)
    (s.wdMapDir e.wd).length
  rw [handle_eq]
  rcases inv.covered dir isDir with (watched | ⟨event, member, i, parent, wd, there, rfl⟩) | reports
  · have still : Found { s with queue := queue } dir := .inl watched
    exact still.keeps keeps
  · rw [next] at member
    rcases List.mem_cons.mp member with rfl | member
    · have stored := inTime event queue next i parent wd there isDir
      have here : State.Has { s with queue := queue } (parent ++ [event.name]) := ⟨_, isDir, rfl⟩
      left
      dsimp only
      rw [stored, ← text_concat]
      exact mem_watches_addNotify here _
    · have still : Found { s with queue := queue } (parent ++ [event.name]) :=
        .inr ⟨event, member, i, parent, wd, there, rfl⟩
      exact still.keeps keeps
  · obtain ⟨frame, member, -⟩ := reports [] walk
    cases member

/-- A step of the walk that calls the callback for a file in or below the innermost directory. -/
theorem Inv.callback (inv : Inv s) (walk : s.walk = some (frame :: stack)) (frames : List Frame)
    (sound : Sound (State.callback { s with walk := some (frames ++ stack) } root path))
    (leads : ∀ dir, ⟨dir, true⟩ ∈ s.files → frame.Leads dir → dir = path ∨ ∃ other ∈ frames, other.Leads dir)
    (fresh : ∀ other ∈ frames, other.listing = none → other.reported = false) (here : s.Has path) :
    Inv (State.callback { s with walk := some (frames ++ stack) } root path) := by
  have keeps := keeps_addNotify { s with walk := some (frames ++ stack) } root (text root path) (base root path)
  refine ⟨sound, fun dir isDir => ?_, fun other same member unopened => ?_⟩
  · rw [State.callback, keeps.files] at isDir
    apply inv.covered_of_walk walk frames keeps.walk
    · exact fun _ found => found.callback _ _
    · intro dir isDir way
      rcases leads dir isDir way with rfl | next
      · exact .inl (found_callback _ here)
      · exact .inr next
    · exact isDir
  · rw [State.callback, keeps.walk, Option.some.injEq] at same
    subst same
    intro unlisted
    rcases List.mem_append.mp unopened with new | old
    · exact fresh _ new unlisted
    · exact inv.fresh _ walk _ (List.mem_cons_of_mem _ old) unlisted

theorem Inv.step {e : Event} (inv : Inv s) (inTime : InTime root s e) (taken : step root depth s e = some t) :
    Inv t := by
  have sound := inv.sound.step taken
  have fresh : ∀ {frame stack}, s.walk = some (frame :: stack) →
      ∀ other ∈ stack, other.listing = none → other.reported = false := by
    intro frame stack walk other member
    exact inv.fresh _ walk other (List.mem_cons_of_mem _ member)
  cases move_of_step taken with
  | @create path name isDir parent new =>
    refine ⟨sound, fun dir member => ?_, fun stack same => ?_⟩
    · have files : (State.notify { s with files := ⟨path ++ [name], isDir⟩ :: s.files } path .inCreate name).files =
          ⟨path ++ [name], isDir⟩ :: s.files := by
        rw [State.notify]
        split_ifs <;> rfl
      exact inv.create inTime .inCreate (files ▸ member)
    · apply inv.fresh stack
      rw [State.notify] at same
      split_ifs at same <;> exact same
  | moveIn => exact inTime.elim
  | begins walk =>
    refine ⟨sound, fun dir _ => .inr ?_, ?_⟩
    · rintro stack ⟨⟩
      exact ⟨_, List.mem_singleton_self _, .inl (.inl ⟨rfl, List.nil_prefix⟩)⟩
    · rintro stack ⟨⟩ frame member -
      rw [List.mem_singleton.mp member]
  | opens walk =>
    refine ⟨sound, fun dir isDir => ?_, ?_⟩
    · exact inv.covered_of_walk walk [_] rfl (fun _ found => found)
        (fun dir isDir leads => .inr ⟨_, List.mem_singleton_self _, inv.opens walk isDir leads⟩) isDir
    · rintro _ ⟨⟩
      exact List.forall_mem_cons.mpr ⟨by simp, fresh walk⟩
  | reports _ walk =>
    have here := inv.sound.walked _ walk _ List.mem_cons_self
    refine inv.callback walk [_] sound (fun dir _ leads => ?_) (by simp) ⟨_, here, rfl⟩
    rcases leads with opens | ⟨-, same⟩
    · exact .inr ⟨_, List.mem_singleton_self _, .inl opens⟩
    · exact .inl same.symm
  | descends walk _ =>
    refine ⟨sound, fun dir isDir => ?_, ?_⟩
    · refine inv.covered_of_walk walk [_, _] rfl (fun _ found => found) (fun dir _ leads => .inr ?_) isDir
      rcases leads.readdir _ with below | still
      · exact ⟨_, List.mem_cons_self, .inl (.inl ⟨rfl, below⟩)⟩
      · exact ⟨_, List.mem_cons_of_mem _ (List.mem_singleton_self _), still⟩
    · rintro _ ⟨⟩
      exact List.forall_mem_cons.mpr ⟨fun _ => rfl, List.forall_mem_cons.mpr ⟨by simp, fresh walk⟩⟩
  | passes walk entry file =>
    refine inv.callback walk [_] sound (fun dir isDir leads => ?_) (by simp) (mem_entries.mp entry)
    rcases leads.readdir _ with below | still
    · exact absurd (inv.sound.isDir_of_prefix isDir below) file
    · exact .inr ⟨_, List.mem_singleton_self _, still⟩
  | closesLast _ walk all =>
    have here := inv.sound.walked _ walk _ List.mem_cons_self
    refine inv.callback walk [] sound (fun dir _ leads => ?_) (by simp) ⟨_, here, rfl⟩
    exact .inl (leads.closedir all).2.symm
  | closes _ walk all =>
    refine ⟨sound, fun dir isDir => ?_, ?_⟩
    · refine inv.covered_of_walk walk [] rfl (fun _ found => found) (fun dir _ leads => ?_) isDir
      cases (leads.closedir all).1
    · rintro _ ⟨⟩
      exact fresh walk
  | @handles e queue walk next =>
    have keeps := keeps_addNotify { s with queue := queue } root (concat (s.wdMapDir e.wd) e.name.text)
      (s.wdMapDir e.wd).length
    rw [← handle_eq { s with queue := queue } root e] at keeps
    refine ⟨sound, fun dir isDir => .inl (inv.handle next walk inTime (keeps.files ▸ isDir)), ?_⟩
    intro stack same
    exact inv.fresh stack (keeps.walk.symm.trans same)

end

/-- If every directory is created in time, all have a watch whenever the monitor waits for events. -/
theorem complete_of_inTime {root : Root} {depth : Bool} {tree : Tree} {es : List Event} {s : State}
    (ran : exec (step root depth) (start tree) es = some s)
    (met : AllSteps (step root depth) (InTime root) (start tree) es) : Complete s :=
  (exec_invariant_of_allSteps (fun _ _ _ inv inTime taken => inv.step inTime taken) ran met
    (inv_start tree)).complete

/-- The second `ab` is created when the first one has a watch. -/
theorem complete_nested : ∃ s, exec (step dot false) (start (oneDir ab)) nested = some s ∧ Complete s := by
  refine ⟨_, rfl, @complete_of_inTime dot false (oneDir ab) nested _ rfl ?_⟩
  -- nothing is created during the walk
  iterate 8
    refine ⟨trivial, ?_⟩
    rintro _ ⟨⟩
  refine ⟨fun _ => .inl (by decide), ?_⟩
  rintro _ ⟨⟩
  refine ⟨?_, fun _ _ => trivial⟩
  rintro e queue ⟨⟩ i dir wd there -
  obtain rfl : i = 1 := by
    have number : ((List.idxOf [ab] [[], [ab]] : ℕ) : ℤ) + 1 = i + 1 := wd
    have first : List.idxOf [ab] [[], [ab]] = 1 := by decide
    omega
  cases there
  rfl

/-- A directory `ab` and a directory in it are created before the event of the first is handled. -/
theorem not_complete_early : ¬ ∀ (root : Root) (depth : Bool) (tree : Tree) (es : List Event) (s : State),
    exec (step root depth) (start tree) es = some s → Complete s := by
  intro all
  have complete := all dot false (oneDir ab) [.nftw, .opendir, .report, .readdir ab, .opendir, .report, .closedir,
    .closedir, .create [] abcd true, .create [abcd] ab true, .readEvent] _ rfl
  exact absurd (complete ⟨rfl, rfl⟩ [abcd, ab] (by decide)) (by decide)

end SystemProgramming.Monitor
