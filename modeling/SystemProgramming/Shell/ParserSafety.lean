import SystemProgramming.Shell.Grammar

/-! # Which lines the parser gets through

The array of stages has 512 slots. The array of arguments has 512 slots too, and when they are used up the
call of `realloc` that should double it shrinks it: its argument is the number of pointers, not of bytes. A
blank first stage makes `is_builtin` compare what `malloc(0)` returned.
-/

namespace SystemProgramming.Shell.CommandLine

open Lib Traced

/-- Nothing goes wrong in `pipe_spliter`, `is_builtin` and `getArgs` for the line. -/
def Safe (line : Bytes) : Prop := Always Access.Ok (evaluate line)

/-- With the null pointer behind them the arguments fit into the array as it was allocated. -/
def Fits (stage : Bytes) : Prop := (arguments stage).length < argvDefaultSize

/-- `is_builtin` has something to compare. -/
def Tests (stage : Bytes) : Prop := Visible stage ∧ Fits stage

/-- The builtin that a stage calls. -/
def keyword (stage : Bytes) : Option Keyword := (arguments stage).head?.bind findBuiltin

/-- What happens after the test of the first stage: `builtin` tests its argument, if it has one, and a
pipeline parses every stage. -/
def Continues (first : Bytes) (later : List Bytes) : Prop :=
  match keyword first with
  | some .builtin => ∀ arg ∈ (arguments first)[1]?, Tests arg
  | some _ => True
  | none => ∀ stage ∈ later, Fits stage

/-- The line has a stage, there is room for all stages and the null pointer behind them, the first one can
be tested, and what follows the test can be parsed. -/
def Accepts (line : Bytes) : Prop :=
  match stages line with
  | [] => False
  | first :: later => later.length + 1 < maxPipeNum ∧ Tests first ∧ Continues first later

/-! ## The loops -/

section

variable {first stage : Bytes} {later : List Bytes}

theorem ok_splitLoop (cmd rest : Bytes) (count : ℕ) : Always Access.Ok (splitLoop (some cmd) rest count) ↔
    count + (words bar rest).length + 1 < maxPipeNum := by
  induction all : words bar rest generalizing cmd rest count with
  | nil =>
    rw [splitLoop_last all]
    simp only [always_bind, always_strdup, always_tell, always_pure, Access.Ok, List.length_nil]
    constructor
    · rintro ⟨-, stores⟩
      exact ((stores cmd rfl).2 () rfl).1
    · intro room
      exact ⟨by simp, fun _ _ => ⟨by omega, fun _ _ => ⟨room, fun _ _ => trivial⟩⟩⟩
  | cons next later ih =>
    obtain ⟨left, same, round⟩ := splitLoop_next all
    rw [round]
    simp only [always_bind, always_strdup, always_tell, always_pure, Access.Ok, ih next left (count + 1) same,
      List.length_cons]
    constructor
    · rintro ⟨-, stores⟩
      have behind := ((stores cmd rfl).2 () rfl).1
      omega
    · intro room
      exact ⟨by simp, fun _ _ => ⟨by omega, fun _ _ => ⟨by omega, fun _ _ => trivial⟩⟩⟩

/-- The first write behind the 512 slots: `realloc` has left room for 128 pointers. -/
theorem not_ok_argvLoop_full (tok rest : Bytes) :
    ¬ Always Access.Ok (argvLoop (some tok) rest argvDefaultSize argvDefaultSize argvDefaultSize) := by
  have shrunk : (grown argvDefaultSize argvDefaultSize argvDefaultSize).2 = 128 := by decide
  have outside : ¬ Access.Ok (.store argvDefaultSize 128) := by decide
  intro ok
  cases all : (words delim rest).takeWhile (fun tok => !background tok) with
  | nil =>
    rw [argvLoop_last all, shrunk] at ok
    simp only [always_bind, always_tell] at ok
    exact outside (ok.2 tok rfl).1
  | cons next later =>
    obtain ⟨left, -, round⟩ := argvLoop_next all
    rw [round, shrunk] at ok
    simp only [always_bind, always_tell] at ok
    exact outside (ok.2 tok rfl).1

theorem grown_of_lt {count : ℕ} (before : count < argvDefaultSize) :
    grown count argvDefaultSize argvDefaultSize = (argvDefaultSize, argvDefaultSize) :=
  if_neg (Nat.not_le_of_lt before)

theorem ok_argvLoop (tok rest : Bytes) {count : ℕ} (start : count ≤ argvDefaultSize) :
    Always Access.Ok (argvLoop (some tok) rest count argvDefaultSize argvDefaultSize) ↔
      count + ((words delim rest).takeWhile fun tok => !background tok).length + 1 < argvDefaultSize := by
  induction all : (words delim rest).takeWhile (fun tok => !background tok)
    generalizing tok rest count with
  | nil =>
    rcases start.eq_or_lt with rfl | before
    · exact iff_of_false (not_ok_argvLoop_full tok rest) (by omega)
    rw [argvLoop_last all, grown_of_lt before]
    simp only [always_bind, always_strdup, always_tell, always_pure, Access.Ok, List.length_nil]
    constructor
    · rintro ⟨-, stores⟩
      exact ((stores tok rfl).2 () rfl).1
    · intro room
      exact ⟨by simp, fun _ _ => ⟨before, fun _ _ => ⟨room, fun _ _ => trivial⟩⟩⟩
  | cons next later ih =>
    rcases start.eq_or_lt with rfl | before
    · exact iff_of_false (not_ok_argvLoop_full tok rest) (by omega)
    obtain ⟨left, same, round⟩ := argvLoop_next all
    rw [round, grown_of_lt before]
    simp only [always_bind, always_strdup, always_tell, always_pure, Access.Ok,
      ih next left (Nat.succ_le_of_lt before) same, List.length_cons]
    constructor
    · rintro ⟨-, stores⟩
      have behind := ((stores tok rfl).2 () rfl).1
      omega
    · intro room
      exact ⟨by simp, fun _ _ => ⟨before, fun _ _ => ⟨by omega, fun _ _ => trivial⟩⟩⟩

/-! ## The functions -/

theorem ok_getArgs (stage : Bytes) : Always Access.Ok (getArgs stage) ↔ Fits stage := by
  rcases Classical.em (Visible stage) with visible | blank
  · obtain ⟨first, later, rest, args, same, runs⟩ := getArgs_of_visible visible
    have loop := ok_argvLoop first rest (Nat.zero_le argvDefaultSize)
    rw [runs, Fits, args, List.length_cons]
    rw [same] at loop
    simp only [always_bind, always_pure, implies_true, and_true, loop, Nat.zero_add]
  · have none_ : arguments stage = [] := by
      rw [arguments, dropWhile_isspace_eq_nil_iff.mpr blank]
      rfl
    rw [getArgs_of_not_visible blank, Fits, none_]
    simp [Access.Ok, argvDefaultSize]

theorem result_getArgs_isSome (stage : Bytes) : ∃ argv, (getArgs stage).result = some argv := by
  rcases Classical.em (Visible stage) with visible | blank
  · exact ⟨_, result_getArgs visible⟩
  · exact ⟨[none], by rw [getArgs_of_not_visible blank]; rfl⟩

theorem ok_isBuiltin (stage : Bytes) : Always Access.Ok (isBuiltin (some stage)) ↔ Tests stage := by
  rw [isBuiltin, always_bind, ok_getArgs]
  rcases Classical.em (Visible stage) with visible | blank
  · obtain ⟨tok, later, -, args⟩ := arguments_of_visible visible
    rw [result_getArgs visible, args]
    simp [Tests, visible, Access.Ok]
  · rw [getArgs_of_not_visible blank]
    simp [Tests, blank, Access.Ok]

theorem result_isBuiltin (visible : Visible stage) :
    (isBuiltin (some stage)).result = some (keyword stage) := by
  obtain ⟨tok, later, -, args⟩ := arguments_of_visible visible
  rw [isBuiltin, result_bind, result_getArgs visible, keyword, args]
  rfl

/-- The test of a blank stage compares what has not been written. -/
theorem result_isBuiltin_of_not_visible (blank : ¬ Visible stage) :
    (isBuiltin (some stage)).result = none := by
  rw [isBuiltin, getArgs_of_not_visible blank]
  rfl

theorem ok_runCommand (commands : List Bytes) :
    Always Access.Ok (runCommand commands) ↔ ∀ stage ∈ commands, Fits stage := by
  induction commands with
  | nil => simp [runCommand]
  | cons command commands ih =>
    obtain ⟨argv, found⟩ := result_getArgs_isSome command
    simp [runCommand, ok_getArgs, found, ih]

theorem ok_isBuiltin_arg (arg : Option Bytes) :
    Always Access.Ok (isBuiltin arg) ↔ ∀ stage ∈ arg, Tests stage := by
  cases arg with
  | none => simp [isBuiltin]
  | some stage => simp [ok_isBuiltin]

theorem ok_doBuiltin (later : List Bytes) (tests : Tests first) {called : Keyword}
    (calls : keyword first = some called) :
    Always Access.Ok (doBuiltin called first) ↔ Continues first later := by
  have second : ((arguments first)[1]?.map some).join = (arguments first)[1]? := by
    cases (arguments first)[1]? <;> rfl
  rw [doBuiltin, always_bind, ok_getArgs, result_getArgs tests.1, Continues, calls]
  cases called <;> simp [tests.2, second, ok_isBuiltin_arg]

/-- A builtin leaves nothing to run. -/
theorem doBuiltin_ne_runs {called : Keyword} {action : Action}
    (done : (doBuiltin called first).result = some action) (commands : List Bytes) :
    action ≠ .runs commands := by
  rintro rfl
  obtain ⟨argv, -, rest⟩ := Option.bind_eq_some_iff.mp (result_bind.symm.trans done)
  cases called with
  | builtin =>
    obtain ⟨found, -, other⟩ := Option.bind_eq_some_iff.mp (result_bind.symm.trans rest)
    cases other
  | _ => cases rest

/-- A line of bars: the first call of `strtok` returns a null pointer, which is copied. -/
theorem not_ok_handle {line : Bytes} (none : stages line = []) : ¬ Always Access.Ok (handle line) := by
  rw [handle, pipeSpliter_of_stages_eq_nil none]
  simp [Access.Ok]

theorem result_handle {line : Bytes} (all : stages line = first :: later) (visible : Visible first) :
    (handle line).result = match keyword first with
      | some called => (doBuiltin called first).result
      | none => some (.runs (first :: later)) := by
  rw [handle, result_bind, result_pipeSpliter all, Option.bind_some, result_bind, result_isBuiltin visible,
    Option.bind_some]
  cases keyword first <;> rfl

theorem ok_handle {line : Bytes} (all : stages line = first :: later) :
    Always Access.Ok (handle line) ↔ later.length + 1 < maxPipeNum ∧ Tests first ∧
      ∀ called ∈ keyword first, Always Access.Ok (doBuiltin called first) := by
  obtain ⟨rest, same, runs⟩ := pipeSpliter_of_stages all
  rw [handle, always_bind, runs, ok_splitLoop, result_splitLoop, same, Nat.zero_add]
  apply and_congr_right
  intro _
  simp only [Option.some.injEq, forall_eq', always_bind, ok_isBuiltin]
  apply and_congr_right
  intro tests
  rw [result_isBuiltin tests.1]
  cases keyword first <;> simp

theorem not_ok_evaluate {line : Bytes} (none : stages line = []) : ¬ Always Access.Ok (evaluate line) := by
  rw [evaluate, always_bind]
  exact fun ok => not_ok_handle none ok.1

/-- What happens to a line that has a stage. -/
theorem ok_evaluate {line : Bytes} (all : stages line = first :: later) : Always Access.Ok (evaluate line) ↔
    later.length + 1 < maxPipeNum ∧ Tests first ∧ Continues first later := by
  rw [evaluate, always_bind, ok_handle all, and_assoc, and_assoc]
  apply and_congr_right
  intro _
  apply and_congr_right
  intro tests
  rw [result_handle all tests.1]
  cases calls : keyword first with
  | some called =>
    rw [← ok_doBuiltin later tests calls]
    constructor
    · rintro ⟨done, -⟩
      exact done called rfl
    · intro done
      refine ⟨fun other same => Option.some.inj same ▸ done, fun action same => ?_⟩
      cases action with
      | runs commands => exact absurd rfl (doBuiltin_ne_runs same commands)
      | exits | builtin => exact always_pure
  | none =>
    rw [Continues, calls]
    simp [ok_runCommand, tests.2]

end

/-- The parser is safe on the lines with a stage, at most 511 stages, a first stage that is not blank, and at
most 511 arguments in each stage that it parses. -/
theorem safe_iff_accepts (line : Bytes) : Safe line ↔ Accepts line := by
  rw [Safe, Accepts]
  cases all : stages line with
  | nil => exact iff_of_false (not_ok_evaluate all) not_false
  | cons first later => exact ok_evaluate all

/-- `|` -/
theorem not_safe_bar : ¬ ∀ line : Bytes, line ≠ [] → Safe line := by
  intro all
  have safe := all [124] (by simp)
  exact not_ok_evaluate (by decide) safe

end SystemProgramming.Shell.CommandLine
