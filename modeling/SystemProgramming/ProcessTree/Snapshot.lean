import SystemProgramming.ProcessTree.Users
import SystemProgramming.Lib.Scanf

/-! # Reading `/proc`

`GetProcessesDirect` scans the `stat` file of a process with conversions that end at blanks, although the
command in it may contain blanks itself. Then the numbers behind it are taken from the command, or not found
at all; an entry keeps what was in its slot before, which is 0 or comes from a process that vanished between
the two files.
-/

namespace SystemProgramming.ProcessTree

open Lib

/-- The beginning of a `stat` file; process ids are `pid_t`, and the state is shown as a letter. -/
structure StatLine where
  pid : BitVec 32
  comm : Bytes
  state : UInt8
  ppid : BitVec 32
  pgrp : BitVec 32
  rest : Bytes
  state_letter : 65 ≤ state

/-- What comes behind the command and its parenthesis. -/
def StatLine.behind (line : StatLine) : Bytes :=
  32 :: line.state :: 32 :: (signedDigits line.ppid.toInt ++
    32 :: (signedDigits line.pgrp.toInt ++ 32 :: line.rest))

/-- `pid (comm) state ppid pgrp ...` -/
def StatLine.text (line : StatLine) : Bytes :=
  signedDigits line.pid.toInt ++ 32 :: 40 :: (line.comm ++ 41 :: line.behind)

/-- What the reader finds of a process: its `stat` file with the owner, and its `cmdline` file, unless the
process had vanished before they were opened. -/
structure Snapshot where
  stat : Option (StatLine × Uid)
  cmdline : Option Bytes

/-- `fscanf` with `"%ld %s %*c %ld %ld"`: what follows a failed conversion stays as it was. -/
def scanStat (text : Bytes) (slot : Entry) : Entry :=
  match scanLong text with
  | none => slot
  | some (pid, text) =>
    match scanWord text with
    | none => { slot with pid := pid }
    | some (cmd, text) =>
      match scanChar (skipBlank text) with
      | none => { slot with pid := pid, cmd := cmd }
      | some (_, text) =>
        match scanLong text with
        | none => { slot with pid := pid, cmd := cmd }
        | some (ppid, text) =>
          match scanLong text with
          | none => { slot with pid := pid, cmd := cmd, ppid := ppid }
          | some (pgid, _) => { slot with pid := pid, cmd := cmd, ppid := ppid, pgid := pgid }

/-- The entries before `j`, the entry `P[j]`, and the table of `uid2user`. -/
structure Reading where
  done : List Entry
  slot : Entry
  un : NameCache

/-- An entry as `calloc` returns it. -/
def clearedSlot : Entry := ⟨0, 0, 0, 0, [], [], 0⟩

/-- One pass of the loop. -/
def readProcess (getpwuid : UserDatabase) (r : Reading) (process : Snapshot) : Reading :=
  match process.stat with
  | none => r
  | some (line, uid) =>
    let slot := { scanStat line.text r.slot with uid := uid.toNat, thcount := 1 }
    match process.cmdline with
    | none => { r with slot := slot }
    | some cmdline =>
      let cmd := (cmdline.take (maxLine - 1)).map fun c => if c = 0 then 32 else c
      let (name, un) := uid2user getpwuid uid 32 r.un
      ⟨r.done ++ [{ slot with cmd := if cmd = [] then slot.cmd else cmd, name := name }],
        clearedSlot, un⟩

/-- The entries `GetProcessesDirect` returns; `glob` lists the processes in the order of `gl_pathv`. -/
def getProcessesDirect (getpwuid : UserDatabase) (glob : List Snapshot) : List Entry :=
  (glob.reverse.foldl (readProcess getpwuid) ⟨[], clearedSlot, []⟩).done

/-- The `stat` line of a process that was there for both files. -/
def Snapshot.line? (process : Snapshot) : Option StatLine :=
  process.cmdline.bind fun _ => process.stat.map Prod.fst

def StatLine.fields (line : StatLine) : ℤ × ℤ × ℤ :=
  (line.pid.toInt, line.ppid.toInt, line.pgrp.toInt)

def Entry.fields (entry : Entry) : ℤ × ℤ × ℤ := (entry.pid, entry.ppid, entry.pgid)

/-- One entry for each process that was there for both files, with the numbers of its own line. -/
def ReadsOwnLines (getpwuid : UserDatabase) (glob : List Snapshot) : Prop :=
  (getProcessesDirect getpwuid glob).map Entry.fields =
    (glob.reverse.filterMap Snapshot.line?).map StatLine.fields

/-- The command has no blank in it. -/
def StatLine.Unbroken (line : StatLine) : Prop := ∀ byte ∈ line.comm, isBlank byte = false

/-- The numbers in a command behind its first blank and one more byte, if there are any. -/
def StatLine.strays (line : StatLine) : Option ℤ × Option ℤ :=
  match scanLong (skipBlank (line.comm.dropWhile fun byte => !isBlank byte)).tail with
  | none => (none, none)
  | some (first, rest) => (some first, (scanLong rest).map Prod.fst)

instance (line : StatLine) : Decidable line.Unbroken :=
  inferInstanceAs (Decidable (∀ byte ∈ line.comm, isBlank byte = false))

/-- The two numbers in a slot that had `left` in it, after the line was scanned. -/
def StatLine.leaves (line : StatLine) (left : ℤ × ℤ) : ℤ × ℤ :=
  if line.Unbroken then (line.ppid.toInt, line.pgrp.toInt)
  else (line.strays.1.getD left.1, line.strays.2.getD left.2)

/-- In the order of reading, with `left` in the slot: no process that is there for both files has a blank in
its command, unless the numbers that are found instead happen to be its own. -/
def Legible : ℤ × ℤ → List Snapshot → Prop
  | _, [] => True
  | left, process :: rest =>
    match process.stat, process.cmdline with
    | none, _ => Legible left rest
    | some (line, _), none => Legible (line.leaves left) rest
    | some (line, _), some _ =>
      (line.Unbroken ∨ (line.strays.1.getD left.1 = line.ppid.toInt ∧
        line.strays.2.getD left.2 = line.pgrp.toInt)) ∧ Legible (0, 0) rest

section

variable {line : StatLine} {slot : Entry}

theorem scanLong_pid (pid : BitVec 32) (rest : Bytes) :
    scanLong (signedDigits pid.toInt ++ 32 :: rest) = some (pid.toInt, 32 :: rest) := by
  have low := BitVec.le_toInt pid
  have high := BitVec.toInt_lt (x := pid)
  exact scanLong_signedDigits (by omega) (by omega) (by simp [isDigit])

theorem state_plain (line : StatLine) :
    isBlank line.state = false ∧ isDigit line.state = false ∧ line.state ≠ 45 ∧ line.state ≠ 43 := by
  have letter := line.state_letter
  rw [UInt8.le_iff_toNat_le] at letter
  change 65 ≤ line.state.toNat at letter
  have apart (other : UInt8) (below : other.toNat < 65) : line.state ≠ other := by
    intro same
    rw [same] at letter
    omega
  have above (other : UInt8) (below : other.toNat < 65) : ¬ line.state ≤ other := by
    rw [UInt8.le_iff_toNat_le]
    omega
  refine ⟨?_, ?_, apart 45 (by decide), apart 43 (by decide)⟩
  · simp [isBlank, apart 32 (by decide), above 13 (by decide)]
  · simp [isDigit, above 57 (by decide)]

/-- The letter of the state is no number. -/
theorem scanLong_behind (line : StatLine) : scanLong line.behind = none := by
  obtain ⟨solid, stop, minus, plus⟩ := state_plain line
  rw [StatLine.behind, scanLong_cons_of_blank (by decide)]
  exact scanLong_append_cons solid stop minus plus []

/-- Without a blank in the command all numbers are found. -/
theorem scanStat_of_unbroken (unbroken : line.Unbroken) (slot : Entry) :
    (scanStat line.text slot).fields = line.fields := by
  have word : scanWord (32 :: 40 :: (line.comm ++ 41 :: line.behind)) =
      some (40 :: line.comm ++ [41], line.behind) := by
    rw [scanWord_cons_of_blank (by decide)]
    have solid : ∀ byte ∈ 40 :: line.comm ++ [41], isBlank byte = false := by
      intro byte inside
      rcases List.mem_append.mp inside with front | last
      · rcases List.mem_cons.mp front with rfl | inside
        · decide
        · exact unbroken byte inside
      · obtain rfl := List.mem_singleton.mp last
        decide
    have found (rest : Bytes) : scanWord (40 :: line.comm ++ [41] ++ 32 :: rest) =
        some (40 :: line.comm ++ [41], 32 :: rest) :=
      scanWord_append (List.cons_ne_nil _ _) solid (by decide)
    simpa [StatLine.behind] using found (line.state :: 32 :: (signedDigits line.ppid.toInt ++
      32 :: (signedDigits line.pgrp.toInt ++ 32 :: line.rest)))
  have state : skipBlank line.behind = line.behind.tail := by
    rw [StatLine.behind, skipBlank_cons_of_blank (by decide)]
    exact skipBlank_cons_of_not (state_plain line).1
  rw [scanStat, StatLine.text, scanLong_pid]
  simp only [word, state]
  simp only [StatLine.behind, List.tail_cons, scanChar]
  simp only [scanLong_cons_of_blank (show isBlank 32 = true by decide), scanLong_pid]
  rfl

theorem exists_blank (broken : ¬ line.Unbroken) : ∃ word blank more,
    line.comm = word ++ blank :: more ∧ (∀ byte ∈ word, isBlank byte = false) ∧
      isBlank blank = true := by
  cases found : line.comm.find? isBlank with
  | none =>
    rw [List.find?_eq_none] at found
    exact absurd (fun byte inside => by simpa using found byte inside) broken
  | some blank =>
    obtain ⟨isBlank, word, more, split, solid⟩ := List.find?_eq_some_iff_append.mp found
    exact ⟨word, blank, more, split, by simpa using solid, isBlank⟩

/-- With a blank in it, the numbers are looked for in the command. -/
theorem scanStat_of_broken (broken : ¬ line.Unbroken) (slot : Entry) :
    (scanStat line.text slot).fields = (line.pid.toInt,
      line.strays.1.getD slot.ppid, line.strays.2.getD slot.pgid) := by
  obtain ⟨word, blank, more, split, solid, isBlank⟩ := exists_blank broken
  have found : scanWord (32 :: 40 :: (line.comm ++ 41 :: line.behind)) =
      some (40 :: word, blank :: more ++ 41 :: line.behind) := by
    rw [scanWord_cons_of_blank (by decide), split, List.append_assoc]
    refine scanWord_append (List.cons_ne_nil 40 word) ?_ isBlank
    exact List.forall_mem_cons.mpr ⟨by decide, solid⟩
  have strays : line.comm.dropWhile (fun byte => !Lib.isBlank byte) = blank :: more := by
    rw [split, List.dropWhile_append_of_pos (by simpa using solid),
      List.dropWhile_cons_of_neg (by simp [isBlank])]
  -- behind the command comes a parenthesis, where every conversion ends
  have behind (text : Bytes) : scanLong (text ++ 41 :: line.behind) =
      (scanLong text).map fun taken => (taken.1, taken.2 ++ 41 :: line.behind) :=
    scanLong_append_cons (by decide) (by decide) (by decide) (by decide) text
  rw [scanStat, StatLine.text, scanLong_pid, StatLine.strays, strays]
  simp only [found, skipBlank_append_cons (show Lib.isBlank 41 = false by decide)]
  cases skipBlank (blank :: more) with
  | nil =>
    simp only [List.nil_append, scanChar, scanLong_behind, List.tail_nil]
    rfl
  | cons first tail =>
    simp only [List.cons_append, scanChar, behind, List.tail_cons]
    cases scanLong tail with
    | none => rfl
    | some ppid =>
      simp only [Option.map_some, behind]
      cases scanLong ppid.2 <;> rfl

/-- What one scan leaves in the slot. -/
theorem scanStat_fields (line : StatLine) (slot : Entry) :
    (scanStat line.text slot).fields = (line.pid.toInt, line.leaves (slot.ppid, slot.pgid)) := by
  rw [StatLine.leaves]
  split_ifs with unbroken
  · exact scanStat_of_unbroken unbroken slot
  · exact scanStat_of_broken unbroken slot

end

/-- The numbers of the entries, read off the lines. -/
def entriesOf : ℤ × ℤ → List Snapshot → List (ℤ × ℤ × ℤ)
  | _, [] => []
  | left, process :: rest =>
    match process.stat, process.cmdline with
    | none, _ => entriesOf left rest
    | some (line, _), none => entriesOf (line.leaves left) rest
    | some (line, _), some _ => (line.pid.toInt, line.leaves left) :: entriesOf (0, 0) rest

/-- The loop, from any state. -/
theorem fields_foldl (getpwuid : UserDatabase) (processes : List Snapshot) (r : Reading) :
    (processes.foldl (readProcess getpwuid) r).done.map Entry.fields =
      r.done.map Entry.fields ++ entriesOf (r.slot.ppid, r.slot.pgid) processes := by
  induction processes generalizing r with
  | nil => simp [entriesOf]
  | cons process rest ih =>
    rw [List.foldl_cons, ih, readProcess, entriesOf]
    cases process.stat with
    | none => rfl
    | some stat =>
      have scanned := scanStat_fields stat.1 r.slot
      obtain ⟨pid, numbers⟩ := Prod.ext_iff.mp scanned
      cases process.cmdline with
      | none => exact congrArg (fun left => _ ++ entriesOf left rest) numbers
      | some cmdline =>
        dsimp only
        rw [List.map_append, List.append_assoc]
        exact congrArg (fun fields => _ ++ fields :: entriesOf (0, 0) rest) scanned

theorem entriesOf_eq_iff (left : ℤ × ℤ) (processes : List Snapshot) :
    entriesOf left processes = (processes.filterMap Snapshot.line?).map StatLine.fields ↔
      Legible left processes := by
  induction processes generalizing left with
  | nil => simp [entriesOf, Legible]
  | cons process rest ih =>
    rw [entriesOf, Legible]
    cases stat : process.stat with
    | none =>
      have gone : process.line? = none := by simp [Snapshot.line?, stat]
      simp only [List.filterMap_cons, gone]
      exact ih left
    | some stat' =>
      cases cmdline : process.cmdline with
      | none =>
        have gone : process.line? = none := by simp [Snapshot.line?, cmdline]
        simp only [List.filterMap_cons, gone]
        exact ih _
      | some bytes =>
        have there : process.line? = some stat'.1 := by simp [Snapshot.line?, stat, cmdline]
        simp only [List.filterMap_cons, there, List.map_cons, List.cons.injEq, ih, StatLine.fields,
          StatLine.leaves, Prod.mk.injEq, true_and]
        apply and_congr_left'
        split_ifs with unbroken <;> simp [unbroken]

/-- The entries have the numbers of their own lines exactly when no process that is there for both files has
a blank in its command, coincidences apart. -/
theorem readsOwnLines_iff (getpwuid : UserDatabase) (glob : List Snapshot) :
    ReadsOwnLines getpwuid glob ↔ Legible (0, 0) glob.reverse := by
  rw [ReadsOwnLines, getProcessesDirect, fields_foldl]
  exact entriesOf_eq_iff (0, 0) glob.reverse

/-- In particular they have them when no such command has a blank. -/
theorem legible_of_unbroken {processes : List Snapshot}
    (unbroken : ∀ process ∈ processes, ∀ line ∈ process.line?, line.Unbroken) (left : ℤ × ℤ) :
    Legible left processes := by
  induction processes generalizing left with
  | nil => trivial
  | cons process rest ih =>
    rw [List.forall_mem_cons] at unbroken
    have later := ih unbroken.2
    rw [Legible]
    cases stat : process.stat with
    | none => exact later left
    | some stat' =>
      cases cmdline : process.cmdline with
      | none => exact later _
      | some bytes =>
        have there : process.line? = some stat'.1 := by simp [Snapshot.line?, stat, cmdline]
        exact ⟨.inl (unbroken.1 stat'.1 there), later (0, 0)⟩

/-- `12 (tmux: server) S 1 12 ...` -/
def tmuxServer : StatLine where
  pid := 12
  comm := bytes ['t', 'm', 'u', 'x', ':', ' ', 's', 'e', 'r', 'v', 'e', 'r']
  state := 83
  ppid := 1
  pgrp := 12
  rest := []
  state_letter := by decide

/-- Its parent gets lost. -/
theorem tmuxServer_misread :
    ¬ ReadsOwnLines (fun _ => none) [⟨some (tmuxServer, 0), some []⟩] := by
  rw [ReadsOwnLines]
  decide +kernel

end SystemProgramming.ProcessTree
