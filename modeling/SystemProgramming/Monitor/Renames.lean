import SystemProgramming.Monitor.Model
import Mathlib.Data.List.Basic

/-! # Rename reports of `hw6/1`

The main loop puts the path of the last `IN_MOVED_FROM` into `fname` and that of the last `IN_MOVED_TO`
into `tname`, and prints both at an `IN_MOVE_SELF`. Both are variables of one batch. Events come in any
order and a batch ends anywhere. A rename is known by the cookie in its two move events; it may have only
one of them, and `inotify_add_watch` may return anything.

The field `moves` is history: no step reads it.
-/

namespace SystemProgramming.Monitor.Renames

open Lib

inductive Mask where
  | inCreate
  | inDelete
  | inMovedTo
  | inMovedFrom
  | inMoveSelf
  | other
deriving DecidableEq, Repr

/-- `struct inotify_event` -/
structure Inotify where
  wd : ℤ
  mask : Mask
  cookie : ℕ
  name : Text
deriving DecidableEq

inductive Line where
  | created (newName dir : Text)
  | deleted (name : Text)
  | moveIn (tname : Text)
  | moveOut (fname : Text)
  /-- `printf` makes "(null)" of a null pointer. -/
  | renamed (fname tname : Option Text)
deriving DecidableEq, Repr

/-- An event and what `wd2dir` returned for it. -/
structure Seen where
  event : Inotify
  dir : Text

/-- `moves`: the move events of the batch behind the last `IN_MOVE_SELF`, the latest first. -/
structure State where
  wdMapDir : ℤ → Text
  fname : Option Text
  tname : Option Text
  printed : List Line
  moves : List Seen

def start (wdMapDir : ℤ → Text) : State := ⟨wdMapDir, none, none, [], []⟩

/-- `add_notify`, when `inotify_add_watch` returns `wd`. -/
def State.addNotify (s : State) (path : Text) (base : ℕ) (wd : ℤ) : State :=
  { s with wdMapDir := Function.update s.wdMapDir wd (getDir path base) }

def State.print (s : State) (line : Line) : State := { s with printed := s.printed ++ [line] }

def State.handle (s : State) (e : Inotify) (wd : ℤ) : State :=
  let dir := s.wdMapDir e.wd
  match e.mask with
  | .inCreate => (s.addNotify (concat dir e.name) dir.length wd).print (.created e.name dir)
  | .inDelete => s.print (.deleted e.name)
  | .inMovedTo =>
    let tname := concat dir e.name
    let s := { s with tname := some tname, moves := ⟨e, dir⟩ :: s.moves }
    (s.addNotify tname dir.length wd).print (.moveIn tname)
  | .inMovedFrom =>
    let fname := concat dir e.name
    let s := { s with fname := some fname, moves := ⟨e, dir⟩ :: s.moves }
    s.print (.moveOut fname)
  | .inMoveSelf =>
    let s := s.print (.renamed s.fname s.tname)
    { s with fname := none, tname := none, moves := [] }
  | .other => s

/-- `read` returns a batch; then its events are handled one by one, `wd` being the descriptor of the
watch that is added, if one is. -/
inductive Event where
  | read
  | handle (e : Inotify) (wd : ℤ)
deriving DecidableEq

def step (s : State) : Event → Option State
  | .read => some { s with fname := none, tname := none, moves := [] }
  | .handle e wd => some (s.handle e wd)

/-! ## Renames -/

structure Rename where
  oldDir : Text
  oldName : Text
  newDir : Text
  newName : Text

def Rename.old (r : Rename) : Text := concat r.oldDir r.oldName

def Rename.new (r : Rename) : Text := concat r.newDir r.newName

/-- The two move events of a rename have its cookie and its names. -/
def Reports (renames : ℕ → Option Rename) (e : Inotify) : Prop :=
  match e.mask with
  | .inMovedFrom => ∃ r, renames e.cookie = some r ∧ e.name = r.oldName
  | .inMovedTo => ∃ r, renames e.cookie = some r ∧ e.name = r.newName
  | _ => True

def Delivered (renames : ℕ → Option Rename) : Event → Prop
  | .read => True
  | .handle e _ => Reports renames e

/-- The line is right if it is about a rename at all. -/
def Right (renames : ℕ → Option Rename) : Line → Prop
  | .renamed fname tname => ∃ cookie r, renames cookie = some r ∧ fname = some r.old ∧ tname = some r.new
  | _ => True

def last (mask : Mask) (moves : List Seen) : Option Seen := moves.find? fun seen => seen.event.mask = mask

/-- At an `IN_MOVE_SELF` the last two moves of the batch are of one rename, and when they were handled `wd2dir`
returned the paths of its directories: the watch of each had been stored last under the path the directory has at
the rename, and not cut. -/
def Paired (renames : ℕ → Option Rename) (s : State) : Event → Prop
  | .handle e _ => e.mask = .inMoveSelf → ∃ source target r,
      last .inMovedFrom s.moves = some source ∧ last .inMovedTo s.moves = some target ∧
      source.event.cookie = target.event.cookie ∧ renames source.event.cookie = some r ∧
      source.dir = r.oldDir ∧ target.dir = r.newDir
  | .read => True

section

variable {renames : ℕ → Option Rename} {s t : State} {e : Inotify}

/-- What the two variables and the lines printed so far come from. -/
structure Sound (renames : ℕ → Option Rename) (s : State) : Prop where
  fname : s.fname = (last .inMovedFrom s.moves).map fun seen => concat seen.dir seen.event.name
  tname : s.tname = (last .inMovedTo s.moves).map fun seen => concat seen.dir seen.event.name
  reports : ∀ seen ∈ s.moves, Reports renames seen.event
  right : ∀ line ∈ s.printed, Right renames line

theorem sound_start (wdMapDir : ℤ → Text) : Sound renames (start wdMapDir) where
  fname := rfl
  tname := rfl
  reports _ member := by cases member
  right _ member := by cases member

/-- A step that prints a line keeps the lines right if this one is. -/
theorem Sound.print (sound : Sound renames s) (line : Line) (right : Right renames line) :
    Sound renames (s.print line) where
  fname := sound.fname
  tname := sound.tname
  reports := sound.reports
  right other member := by
    rcases List.mem_append.mp member with before | now
    · exact sound.right other before
    · cases List.mem_singleton.mp now
      exact right

/-- The watches do not matter for the lines. -/
theorem Sound.addNotify (sound : Sound renames s) (path : Text) (base : ℕ) (wd : ℤ) :
    Sound renames (s.addNotify path base wd) :=
  ⟨sound.fname, sound.tname, sound.reports, sound.right⟩

theorem Sound.reset (sound : Sound renames s) :
    Sound renames { s with fname := none, tname := none, moves := [] } where
  fname := rfl
  tname := rfl
  reports _ member := by cases member
  right := sound.right

theorem last_spec {mask : Mask} {moves : List Seen} {seen : Seen} (found : last mask moves = some seen) :
    seen ∈ moves ∧ seen.event.mask = mask := by
  constructor
  · exact List.mem_of_find?_eq_some found
  · simpa using List.find?_some found

theorem last_cons (mask : Mask) (seen : Seen) (moves : List Seen) :
    last mask (seen :: moves) = if seen.event.mask = mask then some seen else last mask moves := by
  rw [last, List.find?_cons]
  split_ifs with same <;> simp [same, last]

/-- The line printed at an `IN_MOVE_SELF` after two moves of one rename. -/
theorem right_renamed (sound : Sound renames s) {source target : Seen} {r : Rename}
    (lastFrom : last .inMovedFrom s.moves = some source) (lastTo : last .inMovedTo s.moves = some target)
    (one : source.event.cookie = target.event.cookie) (known : renames source.event.cookie = some r)
    (oldDir : source.dir = r.oldDir) (newDir : target.dir = r.newDir) :
    Right renames (.renamed s.fname s.tname) := by
  obtain ⟨sourceMember, sourceMask⟩ := last_spec lastFrom
  obtain ⟨targetMember, targetMask⟩ := last_spec lastTo
  have sourceReports := sound.reports source sourceMember
  have targetReports := sound.reports target targetMember
  rw [Reports, sourceMask] at sourceReports
  rw [Reports, targetMask] at targetReports
  obtain ⟨r', known', oldName⟩ := sourceReports
  cases known.symm.trans known'
  obtain ⟨r'', known'', newName⟩ := targetReports
  rw [← one, known] at known''
  cases known''
  refine ⟨source.event.cookie, r, known, ?_, ?_⟩
  · rw [sound.fname, lastFrom, Option.map_some, oldDir, oldName, Rename.old]
  · rw [sound.tname, lastTo, Option.map_some, newDir, newName, Rename.new]

/-- A move event is what its variable holds from now on. -/
theorem Sound.move (sound : Sound renames s) (reports : Reports renames e) (dir : Text)
    {fname tname : Option Text}
    (source : fname = if e.mask = .inMovedFrom then some (concat dir e.name) else s.fname)
    (target : tname = if e.mask = .inMovedTo then some (concat dir e.name) else s.tname) :
    Sound renames { s with fname := fname, tname := tname, moves := ⟨e, dir⟩ :: s.moves } where
  fname := by
    rw [source, last_cons]
    split_ifs
    · rfl
    · exact sound.fname
  tname := by
    rw [target, last_cons]
    split_ifs
    · rfl
    · exact sound.tname
  reports := List.forall_mem_cons.mpr ⟨reports, sound.reports⟩
  right := sound.right

theorem sound_step {event : Event} (sound : Sound renames s) (delivered : Delivered renames event)
    (paired : Paired renames s event) (taken : step s event = some t) : Sound renames t := by
  cases event with
  | read =>
    cases taken
    exact sound.reset
  | handle e wd =>
    cases taken
    rw [State.handle]
    cases mask : e.mask with
    | inCreate => exact (sound.addNotify _ _ wd).print _ trivial
    | inDelete => exact sound.print _ trivial
    | inMovedTo =>
      have moved := sound.move delivered (s.wdMapDir e.wd) (by simp [mask]; rfl) (by simp [mask]; rfl)
      exact (moved.addNotify _ _ wd).print _ trivial
    | inMovedFrom =>
      have moved := sound.move delivered (s.wdMapDir e.wd) (by simp [mask]; rfl) (by simp [mask]; rfl)
      exact moved.print _ trivial
    | inMoveSelf =>
      obtain ⟨source, target, r, lastFrom, lastTo, one, known, oldDir, newDir⟩ := paired mask
      exact (sound.print _ (right_renamed sound lastFrom lastTo one known oldDir newDir)).reset
    | other => exact sound

theorem sound_exec {es : List Event} (sound : Sound renames s) (ran : exec step s es = some t)
    (delivered : ∀ event ∈ es, Delivered renames event) (paired : AllSteps step (Paired renames) s es) :
    Sound renames t := by
  induction es generalizing s with
  | nil =>
    cases ran
    exact sound
  | cons event es ih =>
    obtain ⟨middle, taken, rest⟩ := exec_cons_eq_some.mp ran
    rw [List.forall_mem_cons] at delivered
    exact ih (sound_step sound delivered.1 paired.1 taken) rest delivered.2 (paired.2 middle taken)

/-- Over any events and any batches, while each `IN_MOVE_SELF` comes behind the two moves of one rename. -/
theorem renamed_right {wdMapDir : ℤ → Text} {es : List Event} (ran : exec step (start wdMapDir) es = some t)
    (delivered : ∀ event ∈ es, Delivered renames event)
    (paired : AllSteps step (Paired renames) (start wdMapDir) es) {fname tname : Option Text}
    (line : .renamed fname tname ∈ t.printed) :
    ∃ cookie r, renames cookie = some r ∧ fname = some r.old ∧ tname = some r.new :=
  (sound_exec (sound_start wdMapDir) ran delivered paired).right _ line

end

/-- `mv d/a d/b`, where `d` is the directory with descriptor 1 and the file has descriptor 2. -/
theorem renamed_right_mv :
    let renames : ℕ → Option Rename := fun cookie => if cookie = 1 then some ⟨[100], [97], [100], [98]⟩ else none
    ∃ cookie r, renames cookie = some r ∧ some [100, 47, 97] = some r.old ∧ some [100, 47, 98] = some r.new := by
  intro renames
  let es : List Event := [.read, .handle ⟨1, .inMovedFrom, 1, [97]⟩ 0, .handle ⟨1, .inMovedTo, 1, [98]⟩ 2,
    .handle ⟨2, .inMoveSelf, 0, []⟩ 0]
  have ran : ∃ t, exec step (start fun _ => [100]) es = some t ∧
      .renamed (some [100, 47, 97]) (some [100, 47, 98]) ∈ t.printed := ⟨_, rfl, by decide⟩
  obtain ⟨t, ran, line⟩ := ran
  refine renamed_right ran ?_ ?_ line
  · simp [es, Delivered, Reports, renames]
  · refine ⟨trivial, ?_⟩
    rintro _ ⟨⟩
    refine ⟨fun mask => (by cases mask), ?_⟩
    rintro _ ⟨⟩
    refine ⟨fun mask => (by cases mask), ?_⟩
    rintro _ ⟨⟩
    exact ⟨fun _ => ⟨_, _, _, rfl, rfl, rfl, rfl, rfl, rfl⟩, fun _ _ => trivial⟩

/-- `mv d/a elsewhere`: only one of the two move events comes, and "(null)" is printed for the other. -/
theorem not_renamed_right_out :
    let renames : ℕ → Option Rename :=
      fun cookie => if cookie = 1 then some ⟨[100], [97], [101], [97]⟩ else none
    let es : List Event := [.read, .handle ⟨1, .inMovedFrom, 1, [97]⟩ 0, .handle ⟨2, .inMoveSelf, 0, []⟩ 0]
    ∃ t, exec step (start fun _ => [100]) es = some t ∧ (∀ event ∈ es, Delivered renames event) ∧
      .renamed (some [100, 47, 97]) none ∈ t.printed ∧
      ¬ ∃ cookie r, renames cookie = some r ∧ some [100, 47, 97] = some r.old ∧ none = some r.new := by
  intro renames es
  refine ⟨_, rfl, ?_, by decide, ?_⟩
  · simp [es, Delivered, Reports, renames]
  · rintro ⟨cookie, r, -, -, null⟩
    cases null

end SystemProgramming.Monitor.Renames
