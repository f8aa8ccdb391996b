import SystemProgramming.Shell.Parser

/-! # What the parser returns

The two loops over `strtok` return the words of what they are given, `getArgs` only those in front of a
`&`.
-/

namespace SystemProgramming.Shell.CommandLine

open Lib Traced

section

variable {cmd tok rest next : Bytes} {later : List Bytes}

@[simp] theorem result_strdup (string : Bytes) : (strdup (some string)).result = some string := rfl

@[simp] theorem always_strdup {P : Access → Prop} {string : Bytes} :
    Always P (strdup (some string)) ↔ P (.strdup (some string)) := by
  simp [strdup]

/-! ## One round of a loop -/

theorem splitLoop_last (none : words bar rest = []) (count : ℕ) :
    splitLoop (some cmd) rest count = (do
      let copy ← strdup (some cmd)
      tell (.store count maxPipeNum)
      tell (.store (count + 1) maxPipeNum)
      return [copy]) := by
  rw [splitLoop, nextWord_of_words_eq_nil none]

theorem splitLoop_next (all : words bar rest = next :: later) : ∃ left, words bar left = later ∧
    ∀ cmd count, splitLoop (some cmd) rest count = (do
      let copy ← strdup (some cmd)
      tell (.store count maxPipeNum)
      let commands ← splitLoop (some next) left (count + 1)
      return copy :: commands) := by
  obtain ⟨left, found, same⟩ := nextWord_of_words_eq_cons all
  refine ⟨left, same, fun cmd count => ?_⟩
  rw [splitLoop, found]

/-- `new_argv_cap` and the room of `new_argv` when the argument with this number is stored. -/
def grown (count cap room : ℕ) : ℕ × ℕ :=
  if cap ≤ count then (cap <<< 1, (cap <<< 1) / pointerSize) else (cap, room)

theorem argvLoop_last (none : (words delim rest).takeWhile (fun tok => !background tok) = [])
    (count cap room : ℕ) : argvLoop (some tok) rest count cap room = (do
      let newRoom ← strdup (some tok)
      tell (.store count (grown count cap room).2)
      tell (.store (count + 1) (grown count cap room).2)
      return [newRoom]) := by
  cases all : words delim rest with
  | nil => rw [argvLoop, nextWord_of_words_eq_nil all, grown]
  | cons next later =>
    obtain ⟨left, found, -⟩ := nextWord_of_words_eq_cons all
    have last : background next = true := by simpa [all, List.takeWhile_eq_nil_iff] using none
    rw [argvLoop, found, grown]
    simp only [last, if_true]

theorem argvLoop_next (all : (words delim rest).takeWhile (fun tok => !background tok) = next :: later) :
    ∃ left, (words delim left).takeWhile (fun tok => !background tok) = later ∧
      ∀ tok count cap room, argvLoop (some tok) rest count cap room = (do
        let newRoom ← strdup (some tok)
        tell (.store count (grown count cap room).2)
        let argv ← argvLoop (some next) left (count + 1) (grown count cap room).1 (grown count cap room).2
        return newRoom :: argv) := by
  cases split : words delim rest with
  | nil => simp [split] at all
  | cons first others =>
    obtain ⟨left, found, same⟩ := nextWord_of_words_eq_cons split
    have more : background first = false := by
      by_contra last
      simp [split, last] at all
    rw [split, List.takeWhile_cons_of_pos (by simp [more])] at all
    obtain ⟨rfl, rfl⟩ := List.cons.inj all
    refine ⟨left, by rw [same], fun tok count cap room => ?_⟩
    rw [argvLoop, found, grown]
    simp only [more, Bool.false_eq_true, if_false]

/-! ## Results -/

theorem result_splitLoop (cmd rest : Bytes) (count : ℕ) :
    (splitLoop (some cmd) rest count).result = some (cmd :: words bar rest) := by
  induction all : words bar rest generalizing cmd rest count with
  | nil =>
    rw [splitLoop_last all]
    simp
  | cons next later ih =>
    obtain ⟨left, same, round⟩ := splitLoop_next all
    rw [round]
    simp [ih next left (count + 1) same]

theorem result_argvLoop (tok rest : Bytes) (count cap room : ℕ) :
    (argvLoop (some tok) rest count cap room).result =
      some (tok :: (words delim rest).takeWhile fun tok => !background tok) := by
  induction all : (words delim rest).takeWhile (fun tok => !background tok)
    generalizing tok rest count cap room with
  | nil =>
    rw [argvLoop_last all]
    simp
  | cons next later ih =>
    obtain ⟨left, same, round⟩ := argvLoop_next all
    rw [round]
    simp [ih next left _ _ _ same]

theorem pipeSpliter_of_stages {line first : Bytes} (all : stages line = first :: later) :
    ∃ rest, words bar rest = later ∧ pipeSpliter line = splitLoop (some first) rest 0 := by
  obtain ⟨rest, found, same⟩ := nextWord_of_words_eq_cons all
  exact ⟨rest, same, by rw [pipeSpliter, found]⟩

theorem result_pipeSpliter {line first : Bytes} (all : stages line = first :: later) :
    (pipeSpliter line).result = some (first :: later) := by
  obtain ⟨rest, same, runs⟩ := pipeSpliter_of_stages all
  rw [runs, result_splitLoop, same]

theorem pipeSpliter_of_stages_eq_nil {line : Bytes} (none : stages line = []) :
    pipeSpliter line = (do
      tell (.strdup .none)
      stop) := by
  rw [pipeSpliter, nextWord_of_words_eq_nil none]
  change splitLoop .none [] 0 = _
  rw [splitLoop]
  rfl

/-- A blank in front of a word is not part of a word. -/
theorem not_delim_of_not_isspace {b : UInt8} (visible : isspace b = false) : delim b = false := by
  rw [isspace, Bool.or_eq_false_iff] at visible
  obtain ⟨notSpace, outside⟩ := visible
  simp only [delim, notSpace, Bool.false_or, Bool.or_eq_false_iff, beq_eq_false_iff_ne]
  constructor
  · rintro rfl
    exact absurd outside (by decide)
  · rintro rfl
    exact absurd outside (by decide)

theorem dropWhile_isspace_eq_nil_iff {stage : Bytes} : stage.dropWhile isspace = [] ↔ ¬ Visible stage := by
  simp [Visible, List.dropWhile_eq_nil_iff]

/-- Behind the leading blanks of a visible stage begins the first argument. -/
theorem arguments_of_visible {stage : Bytes} (visible : Visible stage) : ∃ first later,
    words delim (stage.dropWhile isspace) = first :: later ∧
      arguments stage = first :: later.takeWhile fun tok => !background tok := by
  cases start : stage.dropWhile isspace with
  | nil => exact absurd visible (dropWhile_isspace_eq_nil_iff.mp start)
  | cons b tail =>
    have stopped := List.head?_dropWhile_not isspace stage
    have head : isspace b = false := by simpa [start] using stopped
    have some_ : words delim (b :: tail) ≠ [] :=
      words_ne_nil List.mem_cons_self (not_delim_of_not_isspace head)
    obtain ⟨first, later, all⟩ := List.exists_cons_of_ne_nil some_
    exact ⟨first, later, all, by rw [arguments, start, all]⟩

theorem getArgs_of_visible {stage : Bytes} (visible : Visible stage) : ∃ first later rest,
    arguments stage = first :: later ∧ (words delim rest).takeWhile (fun tok => !background tok) = later ∧
      getArgs stage = (do
        let argv ← argvLoop (some first) rest 0 argvDefaultSize argvDefaultSize
        return argv.map some) := by
  obtain ⟨first, later, all, args⟩ := arguments_of_visible visible
  obtain ⟨rest, found, same⟩ := nextWord_of_words_eq_cons all
  refine ⟨first, _, rest, args, by rw [same], ?_⟩
  rw [getArgs, if_neg (mt dropWhile_isspace_eq_nil_iff.mp (not_not_intro visible)), found]

theorem result_getArgs {stage : Bytes} (visible : Visible stage) :
    (getArgs stage).result = some ((arguments stage).map some) := by
  obtain ⟨first, later, rest, args, same, runs⟩ := getArgs_of_visible visible
  rw [runs, args]
  simp [result_argvLoop, same]

theorem getArgs_of_not_visible {stage : Bytes} (blank : ¬ Visible stage) :
    getArgs stage = (do
      tell (.store 0 2)
      tell (.store 1 2)
      return [none]) := by
  rw [getArgs, if_pos (dropWhile_isspace_eq_nil_iff.mpr blank)]

/-! ## Null pointers -/

/-- Whatever holds of the copies of strings and of the writes holds of all a loop does. -/
theorem always_splitLoop {P : Access → Prop} (copies : ∀ string, P (.strdup (some string)))
    (stores : ∀ index room, P (.store index room)) (cmd rest : Bytes) (count : ℕ) :
    Always P (splitLoop (some cmd) rest count) := by
  induction all : words bar rest generalizing cmd rest count with
  | nil =>
    rw [splitLoop_last all]
    simp [copies, stores]
  | cons next later ih =>
    obtain ⟨left, same, round⟩ := splitLoop_next all
    rw [round]
    simp [copies, stores, ih next left (count + 1) same]

theorem always_argvLoop {P : Access → Prop} (copies : ∀ string, P (.strdup (some string)))
    (stores : ∀ index room, P (.store index room)) (tok rest : Bytes) (count cap room : ℕ) :
    Always P (argvLoop (some tok) rest count cap room) := by
  induction all : (words delim rest).takeWhile (fun tok => !background tok)
    generalizing tok rest count cap room with
  | nil =>
    rw [argvLoop_last all]
    simp [copies, stores]
  | cons next later ih =>
    obtain ⟨left, same, round⟩ := argvLoop_next all
    rw [round]
    simp [copies, stores, ih next left _ _ _ same]

/-- The words of a stage as the processes of a pipeline get them. -/
theorem getArgs_refines (junk stage : Bytes) :
    (getArgs stage).result.map (fun argv => argv.map fun arg => arg.getD junk) =
      some (Shell.getArgs junk stage) := by
  rcases Classical.em (Visible stage) with visible | blank
  · obtain ⟨first, later, all, args⟩ := arguments_of_visible visible
    rw [result_getArgs visible, args, Shell.getArgs, all]
    simp [background, Function.comp_def]
    rfl
  · rw [getArgs_of_not_visible blank, Shell.getArgs, dropWhile_isspace_eq_nil_iff.mpr blank]
    simp

end

/-- The parser returns the stages of a line and the arguments of a stage, and copies no null pointer. -/
theorem parser_exact (line : Bytes) (something : ∃ b ∈ line, bar b = false) :
    (pipeSpliter line).result = some (stages line) ∧ Always (· ≠ .strdup none) (pipeSpliter line) ∧
      ∀ stage ∈ stages line, Visible stage → (getArgs stage).result = some ((arguments stage).map some) ∧
        Always (· ≠ .strdup none) (getArgs stage) := by
  obtain ⟨b, member, part⟩ := something
  obtain ⟨first, later, all⟩ := List.exists_cons_of_ne_nil (words_ne_nil member part)
  obtain ⟨rest, same, runs⟩ := pipeSpliter_of_stages all
  refine ⟨?_, ?_, fun stage _ visible => ⟨result_getArgs visible, ?_⟩⟩
  · rw [result_pipeSpliter all]
    exact congrArg some all.symm
  · rw [runs]
    exact always_splitLoop (by simp) (by simp) first rest 0
  · obtain ⟨first, later, rest, -, -, runs⟩ := getArgs_of_visible visible
    rw [runs]
    simp [always_argvLoop]

/-- ` ls -l | wc &` -/
theorem parser_exact_line : (pipeSpliter [32, 108, 115, 32, 45, 108, 32, 124, 32, 119, 99, 32, 38]).result =
    some [[32, 108, 115, 32, 45, 108, 32], [32, 119, 99, 32, 38]] ∧
      (getArgs [32, 119, 99, 32, 38]).result = some [some [119, 99]] := by
  have parsed := parser_exact [32, 108, 115, 32, 45, 108, 32, 124, 32, 119, 99, 32, 38] (by decide)
  exact ⟨parsed.1.trans (by decide), (parsed.2.2 [32, 119, 99, 32, 38] (by decide) (by decide)).1.trans (by decide)⟩

end SystemProgramming.Shell.CommandLine
