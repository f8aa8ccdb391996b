import SystemProgramming.ProcDir.Model

/-! # What the listings show

The first lines of a `status` file are those of the kernel: the name, seven lines that are not looked at, and
the four user ids of the process, the second of which is the effective one. The listing shows the processes
whose effective user id is that of the user, unless a process ends after `readdir` has returned its name: then
its file is gone and the program fails.
-/

namespace SystemProgramming.ProcDir

open Lib

/-- The beginning of a `status` file. -/
structure Status where
  name : Bytes
  between : List Bytes
  real : Uid
  effective : Uid
  saved : Uid
  fs : Uid
  rest : Bytes
  name_line : newline ∉ name
  name_string : 0 ∉ name
  name_length : name.length < 249
  between_length : between.length = 7
  between_lines : ∀ line ∈ between, newline ∉ line

namespace Status

def nameLine (s : Status) : Bytes := bytes ['N', 'a', 'm', 'e', ':', '\t'] ++ s.name

def idLine (s : Status) : Bytes :=
  bytes ['U', 'i', 'd', ':'] ++ 9 :: (digits s.real.toNat ++ 9 :: (digits s.effective.toNat ++
    9 :: (digits s.saved.toNat ++ 9 :: digits s.fs.toNat)))

def text (s : Status) : Bytes :=
  s.nameLine ++ newline :: (s.between.flatMap (· ++ [newline]) ++ (s.idLine ++ newline :: s.rest))

/-- What the listing shows of a process. -/
def shown (user : Uid) (s : Status) : Bytes :=
  if s.effective = user then uidLine (s.nameLine ++ [newline]) s.effective else []

end Status

/-- The path of a `status` file. -/
def statusPath (name : Bytes) : Bytes := genSubdir procPath name ++ bytes ['/', 's', 't', 'a', 't', 'u', 's']

/-- The files of the processes, as far as they are still there when they are opened. -/
def Kernel (files : Bytes → Option Bytes) (status : Bytes → Option Status) (dir : List Bytes) : Prop :=
  ∀ name ∈ dir, isNumeric name = true → name.length ≤ 242 ∧ files (statusPath name) = (status name).map Status.text

section

variable {body : Bytes → Option Bytes} {out : Bytes → Bytes} {names dir : List Bytes} {name line rest buf : Bytes}
  {user : Uid} {left : ℕ}

/-! ## The loops over a directory -/

theorem isNumeric_iff : isNumeric name = true ↔ name = [] ∨ ∃ value, Denotes 10 name value := by
  rw [isNumeric, beq_iff_eq]
  constructor
  · intro whole
    by_cases empty : name = []
    · exact .inl empty
    · exact .inr (exists_denotes (by decide) empty whole)
  · rintro (rfl | ⟨value, denotes⟩)
    · rfl
    · rw [strtol_of_denotes (by decide) denotes]

theorem forNumeric_eq_some (each : ∀ name ∈ names, isNumeric name = true → body name = some (out name)) :
    forNumeric body names = some ((names.filter isNumeric).flatMap out) := by
  induction names with
  | nil => rfl
  | cons name names ih =>
    rw [List.forall_mem_cons] at each
    rw [forNumeric, ih each.2]
    split_ifs with numeric
    · rw [each.1 numeric, List.filter_cons_of_pos numeric, List.flatMap_cons]
      rfl
    · rw [List.filter_cons_of_neg numeric]

theorem forNumeric_eq_none (member : name ∈ names) (numeric : isNumeric name = true) (fails : body name = none) :
    forNumeric body names = none := by
  induction names with
  | nil => cases member
  | cons first names ih =>
    rw [forNumeric]
    rcases List.mem_cons.mp member with rfl | later
    · rw [if_pos numeric, fails]
      rfl
    · rw [ih later]
      split_ifs
      · cases body first with
        | none => rfl
        | some text => rfl
      · rfl

/-! ## A status file -/

theorem showLines_append (whole : newline ∉ line) :
    showLines user (left + 1) ⟨line ++ newline :: rest, false⟩ buf =
      if ¬ 10 - left < 10 then some []
      else if 10 - left = 1 then
        if (cstr (line ++ [newline])).length < 256 then
          showLines user left ⟨rest, false⟩ (cstr (line ++ [newline])) else none
      else if 10 - left = 9 then do
        let word ← thirdWord (line ++ [newline])
        let behind ← showLines user left ⟨rest, false⟩ buf
        some ((if atoi word = user then uidLine buf (atoi word) else []) ++ behind)
      else showLines user left ⟨rest, false⟩ buf := by
  rw [showLines, getline_append rest id none whole]

/-- The tenth line is read and ends the loop. -/
theorem showLines_one (stream : Stream) : showLines user 1 stream buf = some [] := by
  rw [showLines]
  dsimp only
  split
  · rfl
  · rfl

theorem showLines_between (user : Uid) (left : ℕ) (rest buf : Bytes) {between : List Bytes}
    (lines : ∀ line ∈ between, newline ∉ line) (low : 2 ≤ left) (high : left + between.length ≤ 9) :
    showLines user (left + between.length) ⟨between.flatMap (· ++ [newline]) ++ rest, false⟩ buf =
      showLines user left ⟨rest, false⟩ buf := by
  induction between with
  | nil => rfl
  | cons line between ih =>
    rw [List.forall_mem_cons] at lines
    rw [List.length_cons] at high
    rw [List.length_cons, ← Nat.add_assoc, List.flatMap_cons, List.append_assoc, List.append_assoc,
      List.singleton_append, showLines_append lines.1, if_neg (by omega), if_neg (by omega), if_neg (by omega)]
    exact ih lines.2 (by omega)

theorem thirdWord_of_words {first second third : Bytes} {more : List Bytes}
    (all : words delim (cstr line) = first :: second :: third :: more) : thirdWord line = some third := by
  obtain ⟨rest, next, later⟩ := nextWord_of_words_eq_cons all
  obtain ⟨rest', next', later'⟩ := nextWord_of_words_eq_cons later
  obtain ⟨rest'', next'', -⟩ := nextWord_of_words_eq_cons later'
  rw [thirdWord, next]
  simp only [next', next'']

theorem plain_of_mem_digits {n : ℕ} : ∀ byte ∈ digits n, delim byte = false ∧ byte ≠ 0 ∧ byte ≠ newline := by
  intro byte member
  have digit := isDigit_of_mem_digits member
  have apart (other : UInt8) (solid : isDigit other = false) : byte ≠ other := by
    rintro rfl
    rw [digit] at solid
    cases solid
  exact ⟨by simp [delim, apart 32 rfl, apart 9 rfl, apart 10 rfl], apart 0 rfl, apart 10 rfl⟩

/-- An id is printed without a sign, and read as an `int`. -/
theorem atoi_digits (uid : Uid) : atoi (digits uid.toNat) = uid := by
  have printed : signedDigits uid.toNat = digits uid.toNat := by
    rw [signedDigits, if_neg (by omega), Int.natAbs_natCast]
  have small := uid.isLt
  have read : scanLong (signedDigits uid.toNat ++ []) = some ((uid.toNat : ℤ), []) :=
    scanLong_signedDigits (by omega) (by omega) (by simp)
  rw [List.append_nil, printed] at read
  rw [atoi, read]
  simp

theorem Status.plain_nameLine (s : Status) : newline ∉ s.nameLine ∧
    cstr (s.nameLine ++ [newline]) = s.nameLine ++ [newline] ∧ (s.nameLine ++ [newline]).length < 256 := by
  have length := s.name_length
  have label : newline ∉ bytes ['N', 'a', 'm', 'e', ':', '\t'] ∧ 0 ∉ bytes ['N', 'a', 'm', 'e', ':', '\t'] := by decide
  refine ⟨?_, cstr_eq_self ?_, ?_⟩
  · rw [nameLine, List.mem_append, not_or]
    exact ⟨label.1, s.name_line⟩
  · rw [nameLine, List.mem_append, List.mem_append, not_or, not_or]
    exact ⟨⟨label.2, s.name_string⟩, by decide⟩
  · simp only [nameLine, bytes, List.length_append, List.length_map, List.length_cons, List.length_nil]
    omega

theorem Status.plain_idLine (s : Status) : newline ∉ s.idLine ∧
    thirdWord (s.idLine ++ [newline]) = some (digits s.effective.toNat) := by
  have label : ∀ byte ∈ bytes ['U', 'i', 'd', ':'], delim byte = false ∧ byte ≠ 0 ∧ byte ≠ newline := by
    decide +kernel
  have plain : ∀ byte ∈ s.idLine, byte ≠ 0 ∧ byte ≠ newline := by
    intro byte member
    simp only [idLine, List.mem_append, List.mem_cons] at member
    rcases member with member | rfl | member | rfl | member | rfl | member | rfl | member
    · exact (label byte member).2
    all_goals first | exact (plain_of_mem_digits byte member).2 | decide
  have whole : newline ∉ s.idLine := fun member => (plain newline member).2 rfl
  have string : 0 ∉ s.idLine ++ [newline] := by
    rw [List.mem_append, not_or]
    exact ⟨fun member => (plain 0 member).1 rfl, by decide⟩
  have number (uid : Uid) (rest : Bytes) {separator : UInt8} (separates : delim separator = true) :
      words delim (digits uid.toNat ++ separator :: rest) = digits uid.toNat :: words delim rest :=
    words_append_cons (digits_ne_nil _) (fun byte member => (plain_of_mem_digits byte member).1) separates
  have all : words delim (cstr (s.idLine ++ [newline])) = [bytes ['U', 'i', 'd', ':'], digits s.real.toNat,
      digits s.effective.toNat, digits s.saved.toNat, digits s.fs.toNat] := by
    rw [cstr_eq_self string, idLine, List.append_assoc, List.cons_append,
      words_append_cons (by decide) (fun byte member => (label byte member).1) (by decide), List.append_assoc,
      List.cons_append, number _ _ (by decide), List.append_assoc, List.cons_append, number _ _ (by decide),
      List.append_assoc, List.cons_append, number _ _ (by decide), number _ _ (by decide), words_nil]
  exact ⟨whole, thirdWord_of_words all⟩

/-- A status file is read to its ninth line. -/
theorem showLines_text (s : Status) : showLines user 10 ⟨s.text, false⟩ [] = some (s.shown user) := by
  obtain ⟨whole, string, short⟩ := s.plain_nameLine
  obtain ⟨wholeIds, ids⟩ := s.plain_idLine
  have middle := showLines_between user 2 (s.idLine ++ newline :: s.rest) (s.nameLine ++ [newline])
    s.between_lines (le_refl 2) (by rw [s.between_length])
  rw [s.between_length] at middle
  rw [Status.text, showLines_append whole, if_neg (by decide), if_pos rfl, string, if_pos short, middle,
    showLines_append wholeIds, if_neg (by decide), if_neg (by decide), if_pos rfl, ids, showLines_one, Status.shown]
  simp only [Option.bind_eq_bind, Option.bind_some, atoi_digits, List.append_nil]

/-! ## The processes of a user -/

variable {files : Bytes → Option Bytes} {status : Bytes → Option Status} {getpwnam : Bytes → Option Uid}
  {self uname : Bytes}

theorem showNameId_eq (getpwnam : Bytes → Option Uid) (uname : Bytes) (kernel : Kernel files status dir)
    (member : name ∈ dir) (numeric : isNumeric name = true) :
    showNameId files getpwnam uname (genSubdir procPath name) =
      (status name).map (Status.shown (userIdFromName getpwnam uname)) := by
  obtain ⟨short, found⟩ := kernel name member numeric
  have fits : (genSubdir procPath name ++ bytes ['/', 's', 't', 'a', 't', 'u', 's']).length < 256 := by
    simp only [genSubdir, procPath, bytes, List.length_append, List.length_map, List.length_cons, List.length_nil]
    omega
  rw [statusPath] at found
  rw [showNameId, filename, if_pos fits, Option.bind_eq_bind, Option.bind_some, found]
  cases status name with
  | none => rfl
  | some s =>
    rw [Option.map_some, Option.map_some, Option.bind_some, showLines_text]

/-- The user a command line asks for: the one with the number, or the one with the login name. -/
def Asked (getpwnam : Bytes → Option Uid) (uname : Bytes) (uid : Uid) : Prop :=
  Denotes 10 uname uid.toNat ∨ (∀ value, ¬ Denotes 10 uname value) ∧ getpwnam uname = some uid

/-- The id of no user is -1. -/
theorem userIdFromName_eq_iff (getpwnam : Bytes → Option Uid) {uid : Uid} (nonempty : uname ≠ []) (real : uid ≠ -1)
    (range : ∀ value, Denotes 10 uname value → 0 ≤ value ∧ value < 2 ^ 32) :
    userIdFromName getpwnam uname = uid ↔ Asked getpwnam uname uid := by
  rw [userIdFromName, if_neg nonempty, Asked]
  by_cases number : ∃ value, Denotes 10 uname value
  · obtain ⟨value, denotes⟩ := number
    obtain ⟨low, high⟩ := range value denotes
    have inLong : max (-2 ^ 63) (min value (2 ^ 63 - 1)) = value := by omega
    rw [strtol_of_denotes (by decide) denotes, if_pos rfl, inLong]
    constructor
    · rintro rfl
      left
      have same : ((BitVec.ofInt 32 value).toNat : ℤ) = value := by
        rw [BitVec.toNat_ofInt]
        omega
      rwa [same]
    · rintro (again | ⟨nothing, -⟩)
      · rw [denotes.unique (by decide) again]
        simp
      · exact absurd denotes (nothing value)
  · rw [if_neg fun whole => number (exists_denotes (by decide) nonempty whole)]
    rw [not_exists] at number
    cases getpwnam uname with
    | none => exact iff_of_false (fun same => real same.symm) (by simp [number])
    | some user => simp [number]

/-- A process that ends before its file is opened ends the program. -/
theorem listUser_eq_none (kernel : Kernel files status dir) (member : name ∈ dir) (numeric : isNumeric name = true)
    (gone : status name = none) : listUser files getpwnam dir [self, uname] = none := by
  have fails := showNameId_eq getpwnam uname kernel member numeric
  rw [gone, Option.map_none] at fails
  rw [listUser, forNumeric_eq_none member numeric fails, Option.map_none]

/-- The listing has a line for each process of the user, in the order of the directory, and no other lines. -/
theorem listUser_shows (kernel : Kernel files status dir) (nonempty : uname ≠ [])
    (range : ∀ value, Denotes 10 uname value → 0 ≤ value ∧ value < 2 ^ 32) {statuses : Bytes → Status}
    (there : ∀ name ∈ dir, isNumeric name = true →
      status name = some (statuses name) ∧ (statuses name).effective ≠ -1) :
    ∃ line : Bytes → Bytes, listUser files getpwnam dir [self, uname] =
        some ((dir.filter isNumeric).flatMap line, 0) ∧
      ∀ name ∈ dir, isNumeric name = true →
        (Asked getpwnam uname (statuses name).effective →
          line name = uidLine ((statuses name).nameLine ++ [newline]) (statuses name).effective) ∧
        (¬ Asked getpwnam uname (statuses name).effective → line name = []) := by
  refine ⟨fun name => (statuses name).shown (userIdFromName getpwnam uname), ?_, fun name member numeric => ?_⟩
  · rw [listUser, forNumeric_eq_some, Option.map_some]
    intro name member numeric
    rw [showNameId_eq getpwnam uname kernel member numeric, (there name member numeric).1, Option.map_some]
  · have same := userIdFromName_eq_iff getpwnam nonempty (there name member numeric).2 range
    constructor
    · intro asked
      exact if_pos (same.mpr asked).symm
    · intro other
      exact if_neg fun equal => other (same.mp equal.symm)

/-- The first process, of the user with the id 0. -/
def initStatus : Status where
  name := bytes ['i', 'n', 'i', 't']
  between := List.replicate 7 []
  real := 0
  effective := 0
  saved := 0
  fs := 0
  rest := []
  name_line := by decide
  name_string := by decide
  name_length := by decide
  between_length := rfl
  between_lines := by decide

/-- A directory with the process and an entry that is no process. -/
def initDir : List Bytes := [bytes ['s', 'e', 'l', 'f'], bytes ['1']]

def initFiles (path : Bytes) : Option Bytes :=
  if path = statusPath (bytes ['1']) then some initStatus.text else none

def rootOnly (name : Bytes) : Option Uid := if name = bytes ['r', 'o', 'o', 't'] then some 0 else none

theorem kernel_init : Kernel initFiles (fun _ => some initStatus) initDir := by
  intro name member numeric
  rcases List.mem_cons.mp member with rfl | member
  · exact absurd numeric (by decide +kernel)
  · obtain rfl := List.mem_singleton.mp member
    exact ⟨by decide, if_pos rfl⟩

theorem listUser_shows_init : ∃ line : Bytes → Bytes,
    listUser initFiles rootOnly initDir [bytes ['a'], bytes ['r', 'o', 'o', 't']] =
      some ((initDir.filter isNumeric).flatMap line, 0) ∧
    ∀ name ∈ initDir, isNumeric name = true →
      (Asked rootOnly (bytes ['r', 'o', 'o', 't']) initStatus.effective →
        line name = uidLine (initStatus.nameLine ++ [newline]) initStatus.effective) ∧
      (¬ Asked rootOnly (bytes ['r', 'o', 'o', 't']) initStatus.effective → line name = []) := by
  refine listUser_shows kernel_init (by decide) ?_ fun name member numeric => ⟨rfl, by decide⟩
  intro value denotes
  exact absurd (isNumeric_iff.mpr (.inr ⟨value, denotes⟩)) (by decide +kernel)

/-! ## The open files -/

/-- The path of the directory with the links. -/
def fdDir (pid : Bytes) : Bytes := genSubdir procPath pid ++ bytes ['/', 'f', 'd']

def fdPath (pid fd : Bytes) : Bytes := fdDir pid ++ bytes ['/'] ++ fd

/-- The names of processes are short, and those of files have at most 255 bytes. -/
structure Named (opendir : Bytes → Option (List Bytes)) (dir : List Bytes) : Prop where
  pid : ∀ pid ∈ dir, isNumeric pid = true → (fdDir pid).length < 256
  fd : ∀ pid ∈ dir, ∀ entries, opendir (fdDir pid) = some entries → ∀ fd ∈ entries, fd.length ≤ 255

/-- The link leads to less than 256 bytes. -/
def Short (readlink : Bytes → Option Bytes) (pid fd : Bytes) : Prop :=
  ∀ target, readlink (fdPath pid fd) = some target → target.length < 256

/-- The numeric entries of the directory of a process; none when it cannot be opened. -/
def fds (opendir : Bytes → Option (List Bytes)) (pid : Bytes) : List Bytes :=
  ((opendir (fdDir pid)).getD []).filter isNumeric

def linkLine (readlink : Bytes → Option Bytes) (pid fd : Bytes) : Bytes :=
  (readlink (fdPath pid fd)).elim [] fun target =>
    fdPath pid fd ++ bytes [' ', '-', '>', ' '] ++ target ++ [newline]

variable {opendir : Bytes → Option (List Bytes)} {readlink : Bytes → Option Bytes} {pid fd : Bytes}

theorem showLink_eq (fits : (fdDir pid).length < 256) (short : fd.length ≤ 255) :
    (Short readlink pid fd → showLink readlink (fdDir pid) fd = some (linkLine readlink pid fd)) ∧
      (¬ Short readlink pid fd → showLink readlink (fdDir pid) fd = none) := by
  have whole : (fdDir pid ++ bytes ['/'] ++ fd).take 511 = fdPath pid fd := by
    apply List.take_of_length_le
    simp only [bytes, List.length_append, List.length_map, List.length_cons, List.length_nil]
    omega
  rw [showLink, whole, linkLine, Short]
  cases target : readlink (fdPath pid fd) with
  | none => simp
  | some target => simp

theorem showFdLink_eq (named : Named opendir dir) (member : pid ∈ dir) (numeric : isNumeric pid = true) :
    ((∀ fd ∈ fds opendir pid, Short readlink pid fd) →
        showFdLink opendir readlink (genSubdir procPath pid) =
          some ((fds opendir pid).flatMap (linkLine readlink pid))) ∧
      ((∃ fd ∈ fds opendir pid, ¬ Short readlink pid fd) →
        showFdLink opendir readlink (genSubdir procPath pid) = none) := by
  have fits := named.pid pid member numeric
  have path : filename (genSubdir procPath pid) (bytes ['/', 'f', 'd']) = some (fdDir pid) := if_pos fits
  rw [showFdLink, path, Option.bind_eq_bind, Option.bind_some, fds]
  cases opened : opendir (fdDir pid) with
  | none => simp
  | some entries =>
    have names := named.fd pid member entries opened
    constructor
    · intro short
      apply forNumeric_eq_some
      intro fd inside number
      exact (showLink_eq fits (names fd inside)).1 (short fd (List.mem_filter.mpr ⟨inside, number⟩))
    · rintro ⟨fd, inside, long⟩
      obtain ⟨inside, number⟩ := List.mem_filter.mp inside
      exact forNumeric_eq_none inside number ((showLink_eq fits (names fd inside)).2 long)

/-- All links of all processes are shown if and only if each of them leads to less than 256 bytes; else the program
prints from a buffer without a NUL. -/
theorem listFds_shows (named : Named opendir dir) :
    (listFds opendir readlink dir = some ((dir.filter isNumeric).flatMap fun pid =>
        (fds opendir pid).flatMap (linkLine readlink pid)) ↔
      ∀ pid ∈ dir, isNumeric pid = true → ∀ fd ∈ fds opendir pid, Short readlink pid fd) ∧
    (listFds opendir readlink dir = none ↔
      ∃ pid ∈ dir, isNumeric pid = true ∧ ∃ fd ∈ fds opendir pid, ¬ Short readlink pid fd) := by
  have shown (short : ∀ pid ∈ dir, isNumeric pid = true → ∀ fd ∈ fds opendir pid, Short readlink pid fd) :
      listFds opendir readlink dir = some ((dir.filter isNumeric).flatMap fun pid =>
        (fds opendir pid).flatMap (linkLine readlink pid)) := by
    rw [listFds]
    apply forNumeric_eq_some
    intro pid member numeric
    exact (showFdLink_eq named member numeric).1 (short pid member numeric)
  have overrun (long : ∃ pid ∈ dir, isNumeric pid = true ∧ ∃ fd ∈ fds opendir pid, ¬ Short readlink pid fd) :
      listFds opendir readlink dir = none := by
    obtain ⟨pid, member, numeric, long⟩ := long
    rw [listFds, forNumeric_eq_none member numeric ((showFdLink_eq named member numeric).2 long)]
  constructor
  · refine ⟨fun shows => ?_, shown⟩
    by_contra long
    push Not at long
    rw [overrun long] at shows
    cases shows
  · refine ⟨fun stops => ?_, overrun⟩
    by_contra short
    push Not at short
    rw [shown short] at stops
    cases stops

/-- A process with one open file, whose link is too long for the buffer. -/
def oneFd : Bytes → Option (List Bytes) := fun _ => some [bytes ['0']]

def longLink : Bytes → Option Bytes := fun _ => some (List.replicate 256 97)

/-- Nothing is there to end what is printed. -/
theorem listFds_longLink : listFds oneFd longLink [bytes ['1']] = none := by
  have named : Named oneFd [bytes ['1']] := by
    constructor
    · decide
    · rintro pid - entries ⟨⟩ fd member
      obtain rfl := List.mem_singleton.mp member
      decide
  refine (listFds_shows named).2.mpr
    ⟨bytes ['1'], List.mem_cons_self, by decide +kernel, bytes ['0'], by decide +kernel, ?_⟩
  intro short
  have length := short _ rfl
  rw [List.length_replicate] at length
  exact absurd length (Nat.lt_irrefl 256)

end

end SystemProgramming.ProcDir
