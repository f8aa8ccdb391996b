import SystemProgramming.Shell.ParserSafety
import SystemProgramming.Lib.Scanf

/-! # What the builtins touch

The builtins get an array of words that ends with a null pointer, index it, use its pointers as strings and
write to buffers of their own. Reading outside the array and using a null pointer end the call. `getcwd`, `getpwuid`
and `getgrgid` succeed.
-/

namespace SystemProgramming.Shell.Builtins

open Lib Traced CommandLine

/-- The working directory and the host name, whose lengths the system limits. -/
structure Environment where
  cwd : Bytes
  hostname : Bytes
  cwd_lt : cwd.length < 4096
  hostname_le : hostname.length ≤ 64

inductive Touch
  /-- `argv[index]` is read. -/
  | argv (index : ℤ)
  /-- The string behind a pointer is read. -/
  | string (pointer : Option Bytes)
  /-- The last byte that is written to a buffer. -/
  | write (index size : ℕ)
  | parser (access : Access)

/-- No pointer is read outside the array or used if it is null, and no write is outside its buffer. -/
def Touch.Ok (argc : ℕ) : Touch → Prop
  | .argv index => 0 ≤ index ∧ index ≤ argc
  | .string pointer => pointer ≠ none
  | .write index size => index < size
  | .parser access => access.Ok

abbrev Builtin := Traced Touch

/-- `argv[index]` -/
def read (argv : List Bytes) (index : ℤ) : Builtin (Option Bytes) := do
  tell (.argv index)
  if 0 ≤ index ∧ index ≤ argv.length then return argv[index.toNat]? else stop

/-- The pointer is used as a string. -/
def deref : Option Bytes → Builtin Bytes
  | some string => do
    tell (.string (some string))
    return string
  | none => do
    tell (.string none)
    stop

/-- A call of the parser. -/
def callParser {α : Type} (call : CommandLine.Call α) : Builtin α := ⟨call.log.map .parser, call.result⟩

/-- `FREE_UNTIL_NULL` from index `i` on. -/
def freeUntilNull (argv : List Bytes) (i : ℕ) : Builtin Unit := do
  tell (.argv i)
  if i < argv.length then
    tell (.argv i)
    freeUntilNull argv (i + 1)
  else return ()
termination_by argv.length - i

def biBuiltin (argv : List Bytes) : Builtin Unit := do
  let _ ← read argv 1
  let arg ← deref (← read argv 1)
  let _ ← callParser (isBuiltin (some arg))
  return ()

def biCd (env : Environment) (argv : List Bytes) : Builtin Unit := do
  tell (.write env.cwd.length 4096)
  let arg ← deref (← read argv 1)
  if arg.head? = some 46 then tell (.write (env.cwd.length + arg.length) 4096) else return ()

/-- The loop of `bi_echo`. -/
def echoLoop (argv : List Bytes) (i : ℕ) : Builtin Unit := do
  tell (.argv i)
  if i < argv.length then
    match ← read argv (i + 1) with
    | none => return ()
    | some _ =>
      let _ ← deref (← read argv (i + 1))
      echoLoop argv (i + 1)
  else return ()
termination_by argv.length - i

/-- `argv[1] && strcmp(argv[1], "-n") == 0` -/
def minusN (argv : List Bytes) : Builtin Bool := do
  match ← read argv 1 with
  | none => return false
  | some _ =>
    let first ← deref (← read argv 1)
    return first == [45, 110]

def biEcho (argv : List Bytes) : Builtin Unit := do
  if ← minusN argv then
    let nValue := atoi (← deref (← read argv 2))
    let _ ← deref (← read argv (2 + nValue).toInt)
    return ()
  else echoLoop argv 0

def biHostname (env : Environment) : Builtin Unit := tell (.write env.hostname.length 256)

def biPwd (env : Environment) : Builtin Unit := tell (.write env.cwd.length 4096)

/-- The function in the table, where `exit` ends the call. -/
def doIt (env : Environment) (argv : List Bytes) : Keyword → Builtin Unit
  | .builtin => biBuiltin argv
  | .echo => biEcho argv
  | .quit | .exit | .bye | .logout => do
    freeUntilNull argv 0
    stop
  | .cd => biCd env argv
  | .pwd => biPwd env
  | .hostname => biHostname env
  | .id => return ()

/-- `do_builtin` with the words `getArgs` returns. -/
def doBuiltin (env : Environment) (argv : List Bytes) (called : Keyword) : Builtin Unit := do
  doIt env argv called
  freeUntilNull argv 0

/-- The arguments the builtin needs. -/
def Covers (env : Environment) (argv : List Bytes) : Keyword → Prop
  | .echo => argv[1]? = some [45, 110] →
      ∃ number ∈ argv[2]?, 0 ≤ (2 + atoi number).toInt ∧ (2 + atoi number).toInt < argv.length
  | .cd => ∃ arg ∈ argv[1]?, arg.head? = some 46 → env.cwd.length + arg.length < 4096
  | .builtin => ∃ arg ∈ argv[1]?, Visible arg
  | .quit | .exit | .bye | .logout | .pwd | .hostname | .id => True

section

variable {env : Environment} {argv : List Bytes} {P : Touch → Prop}

/-! ## One step at a time -/

theorem always_tell_bind {α : Type} {event : Touch} {rest : Unit → Builtin α} :
    Always P (tell event >>= rest) ↔ P event ∧ Always P (rest ()) := by
  rw [always_bind, always_tell]
  exact and_congr_right fun _ => ⟨fun all => all () rfl, fun one _ _ => one⟩

theorem always_read_bind {α : Type} {index : ℤ} {rest : Option Bytes → Builtin α}
    (inside : 0 ≤ index ∧ index ≤ argv.length) :
    Always P (read argv index >>= rest) ↔ P (.argv index) ∧ Always P (rest argv[index.toNat]?) := by
  rw [read, if_pos inside]
  simp

/-- A read outside the array ends the call. -/
theorem always_read_bind_outside {α : Type} {index : ℤ} {rest : Option Bytes → Builtin α}
    (outside : ¬ (0 ≤ index ∧ index ≤ argv.length)) :
    Always P (read argv index >>= rest) ↔ P (.argv index) := by
  rw [read, if_neg outside]
  simp

theorem always_deref_bind {α : Type} {pointer : Option Bytes} {rest : Bytes → Builtin α} :
    Always P (deref pointer >>= rest) ↔ P (.string pointer) ∧ ∀ text ∈ pointer, Always P (rest text) := by
  cases pointer <;> simp [deref]

theorem always_callParser {α : Type} {call : CommandLine.Call α} :
    Always P (callParser call) ↔ Always (fun access => P (.parser access)) call := by
  simp [Always, callParser]

theorem ok_freeUntilNull {i : ℕ} (inside : i ≤ argv.length) :
    Always (Touch.Ok argv.length) (freeUntilNull argv i) := by
  induction rest : argv.length - i generalizing i with
  | zero =>
    rw [freeUntilNull, if_neg (by omega)]
    simp [Touch.Ok, inside]
  | succ n ih =>
    rw [freeUntilNull, if_pos (by omega)]
    simp [Touch.Ok, inside, ih (i := i + 1) (by omega) (by omega)]

theorem ok_echoLoop {i : ℕ} (inside : i ≤ argv.length) :
    Always (Touch.Ok argv.length) (echoLoop argv i) := by
  induction rest : argv.length - i generalizing i with
  | zero =>
    rw [echoLoop, if_neg (by omega)]
    simp [Touch.Ok, inside]
  | succ n ih =>
    have next : (0 : ℤ) ≤ (i : ℤ) + 1 ∧ (i : ℤ) + 1 ≤ argv.length := by omega
    have place : ((i : ℤ) + 1).toNat = i + 1 := by omega
    rw [echoLoop, if_pos (by omega), always_tell_bind, always_read_bind next, place]
    refine ⟨by simp [Touch.Ok, inside], next, ?_⟩
    cases word : argv[i + 1]? with
    | none => exact always_pure
    | some text =>
      dsimp only
      rw [always_read_bind next, place, word, always_deref_bind]
      refine ⟨next, Option.some_ne_none _, fun _ _ => ?_⟩
      exact ih (by omega) (by omega)

/-- A pointer at any index, used as a string. -/
theorem ok_deref_index (index : ℤ) :
    Always (Touch.Ok argv.length) (do
      let _ ← deref (← read argv index)
      return ()) ↔ 0 ≤ index ∧ index < argv.length := by
  by_cases inside : 0 ≤ index ∧ index ≤ argv.length
  · have own : Touch.Ok argv.length (.argv index) := inside
    have string : Touch.Ok argv.length (.string argv[index.toNat]?) ↔ index.toNat < argv.length := by
      change argv[index.toNat]? ≠ none ↔ _
      rw [ne_eq, List.getElem?_eq_none_iff, not_le]
    rw [always_read_bind inside, always_deref_bind, and_iff_right own, string,
      and_iff_left fun _ _ => always_pure]
    omega
  · rw [always_read_bind_outside inside]
    exact iff_of_false inside (by omega)

/-- The words are at least the name of the builtin. -/
theorem one_inside (some_ : argv ≠ []) : (0 : ℤ) ≤ 1 ∧ (1 : ℤ) ≤ argv.length := by
  have := List.length_pos_of_ne_nil some_
  omega

/-- The word behind the name, read and used as a string. -/
theorem ok_first_arg {α : Type} (some_ : argv ≠ []) {rest : Bytes → Builtin α} :
    Always (Touch.Ok argv.length) (do deref (← read argv 1) >>= rest) ↔
      ∃ arg ∈ argv[1]?, Always (Touch.Ok argv.length) (rest arg) := by
  have one := one_inside some_
  rw [always_read_bind one, always_deref_bind]
  change _ ∧ argv[1]? ≠ none ∧ (∀ text ∈ argv[1]?, _) ↔ _
  cases argv[1]? with
  | none => simp
  | some arg => simp [Touch.Ok, one]

theorem result_minusN (some_ : argv ≠ []) :
    (minusN argv).result = some (decide (argv[1]? = some [45, 110])) := by
  have one := one_inside some_
  have value : (read argv 1).result = some argv[1]? := by
    rw [read, if_pos one]
    rfl
  rw [minusN, result_bind, value, Option.bind_some]
  cases word : argv[1]? with
  | none => rfl
  | some text =>
    dsimp only
    rw [result_bind, value, Option.bind_some, result_bind, word]
    simp [deref, beq_eq_decide]

theorem ok_minusN (some_ : argv ≠ []) : Always (Touch.Ok argv.length) (minusN argv) := by
  have one := one_inside some_
  rw [minusN, always_read_bind one]
  refine ⟨one, ?_⟩
  cases word : argv[(1 : ℤ).toNat]? with
  | none => exact always_pure
  | some text =>
    dsimp only
    rw [always_read_bind one, always_deref_bind, word]
    exact ⟨one, Option.some_ne_none _, fun _ _ => always_pure⟩

/-! ## The builtins -/

theorem ok_biEcho (some_ : argv ≠ []) :
    Always (Touch.Ok argv.length) (biEcho argv) ↔ Covers env argv .echo := by
  rw [biEcho, always_bind, and_iff_right (ok_minusN some_), result_minusN some_, Covers]
  simp only [Option.some.injEq, forall_eq', decide_eq_true_eq]
  by_cases minus : argv[1]? = some [45, 110]
  · rw [if_pos minus]
    simp only [minus, forall_const]
    have two : (0 : ℤ) ≤ 2 ∧ (2 : ℤ) ≤ argv.length := by
      have := (List.getElem?_eq_some_iff.mp minus).1
      omega
    rw [always_read_bind two, always_deref_bind]
    change Touch.Ok _ _ ∧ argv[2]? ≠ none ∧ (∀ text ∈ argv[2]?, _) ↔ _
    cases argv[2]? with
    | none => simp
    | some number =>
      have second : Touch.Ok argv.length (.argv 2) := two
      simp only [second, true_and, ne_eq, reduceCtorEq, not_false_eq_true, Option.mem_some_iff, forall_eq',
        exists_eq_left']
      exact ok_deref_index (2 + atoi number).toInt
  · rw [if_neg minus]
    exact iff_of_true (ok_echoLoop (Nat.zero_le _)) fun here => absurd here minus

theorem ok_biCd (some_ : argv ≠ []) :
    Always (Touch.Ok argv.length) (biCd env argv) ↔ Covers env argv .cd := by
  have own : Touch.Ok argv.length (.write env.cwd.length 4096) := env.cwd_lt
  rw [biCd, always_tell_bind, and_iff_right own, Covers]
  refine (ok_first_arg some_).trans ?_
  apply exists_congr
  intro arg
  apply and_congr_right
  intro _
  split_ifs with dot
  · rw [always_tell]
    exact ⟨fun fits _ => fits, fun fits => fits dot⟩
  · exact iff_of_true always_pure fun here => absurd here dot

/-- A word is one argument of `getArgs`. -/
theorem fits_of_word {word : Bytes} (whole : ∀ b ∈ word, delim b = false) : CommandLine.Fits word := by
  have whole' : ∀ b ∈ word.dropWhile isspace, delim b = false :=
    fun b member => whole b ((List.dropWhile_suffix isspace).mem member)
  have short : argvDefaultSize = 512 := rfl
  rw [CommandLine.Fits, arguments]
  by_cases empty : word.dropWhile isspace = []
  · rw [empty, words_nil, short]
    exact (by decide : 0 < 512)
  · rw [words_of_forall empty whole', short]
    exact (by decide : 1 < 512)

theorem ok_biBuiltin (some_ : argv ≠ []) (whole : ∀ word ∈ argv, ∀ b ∈ word, delim b = false) :
    Always (Touch.Ok argv.length) (biBuiltin argv) ↔ Covers env argv .builtin := by
  have one := one_inside some_
  rw [biBuiltin, always_read_bind one, and_iff_right (show Touch.Ok argv.length (.argv 1) from one), Covers]
  refine (ok_first_arg some_).trans ?_
  apply exists_congr
  intro arg
  apply and_congr_right
  intro here
  rw [always_bind, always_callParser, and_iff_left fun _ _ => always_pure]
  change Always Access.Ok (isBuiltin (some arg)) ↔ _
  rw [ok_isBuiltin, Tests, and_iff_left (fits_of_word (whole arg (List.mem_of_getElem? here)))]

theorem ok_doIt (some_ : argv ≠ []) (whole : ∀ word ∈ argv, ∀ b ∈ word, delim b = false)
    (called : Keyword) : Always (Touch.Ok argv.length) (doIt env argv called) ↔ Covers env argv called := by
  have leaves : Always (Touch.Ok argv.length) (do
      freeUntilNull argv 0
      (stop : Builtin Unit)) := by
    rw [always_bind]
    exact ⟨ok_freeUntilNull (Nat.zero_le _), fun _ _ => always_stop⟩
  cases called with
  | builtin => exact ok_biBuiltin some_ whole
  | echo => exact ok_biEcho some_
  | cd => exact ok_biCd some_
  | quit | exit | bye | logout => exact iff_of_true leaves trivial
  | pwd => exact iff_of_true (always_tell.mpr env.cwd_lt) trivial
  | hostname => exact iff_of_true (always_tell.mpr (Nat.lt_of_le_of_lt env.hostname_le (by decide))) trivial
  | id => exact iff_of_true always_pure trivial

end

/-- A builtin stays within its words and its buffers exactly if `echo -n` gets the number of a word, `cd` a
path that fits behind the working directory if it begins with a dot, and `builtin` something that is not blank.
The stage is the first of the line. -/
theorem ok_iff_covers {stage : Bytes} {called : Keyword} {argv : List Bytes}
    (test : (isBuiltin (some stage)).result = some (some called))
    (parsed : (CommandLine.getArgs stage).result = some (argv.map some)) (env : Environment) :
    Always (Touch.Ok argv.length) (doBuiltin env argv called) ↔ Covers env argv called := by
  have visible : Visible stage := by
    by_contra blank
    rw [result_isBuiltin_of_not_visible blank] at test
    cases test
  obtain rfl : arguments stage = argv := by
    rw [result_getArgs visible] at parsed
    exact (List.map_inj_right fun _ _ => Option.some.inj).mp (Option.some.inj parsed)
  obtain ⟨first, later, all, args⟩ := arguments_of_visible visible
  have some_ : arguments stage ≠ [] := by
    rw [args]
    exact List.cons_ne_nil _ _
  have whole : ∀ word ∈ arguments stage, ∀ b ∈ word, delim b = false := by
    intro word member b within
    have listed : word ∈ words delim (stage.dropWhile isspace) := by
      rw [args] at member
      rw [all]
      exact (List.takeWhile_sublist _).cons_cons first |>.mem member
    exact (mem_of_mem_words listed within).2
  rw [doBuiltin, always_bind, ok_doIt some_ whole]
  exact and_iff_left fun _ _ => ok_freeUntilNull (Nat.zero_le _)

/-- In `/` on a host without a name. -/
def rootDirectory : Environment := ⟨[47], [], by decide, by decide⟩

/-- `echo hi` -/
def echoHi : Bytes := [101, 99, 104, 111, 32, 104, 105]

theorem ok_iff_covers_echoHi :
    Always (Touch.Ok 2) (doBuiltin rootDirectory [[101, 99, 104, 111], [104, 105]] .echo) ↔
      Covers rootDirectory [[101, 99, 104, 111], [104, 105]] .echo := by
  have visible : Visible echoHi := by decide
  have calls : keyword echoHi = some .echo := by decide
  have words : arguments echoHi = [[101, 99, 104, 111], [104, 105]] := by decide
  exact ok_iff_covers (by rw [result_isBuiltin visible, calls]) (by rw [result_getArgs visible, words]) rootDirectory

/-- `cd` without a path uses a null pointer. -/
theorem not_ok_cd : ¬ ∀ (stage : Bytes) (called : Keyword) (argv : List Bytes) (env : Environment),
    (isBuiltin (some stage)).result = some (some called) →
      (CommandLine.getArgs stage).result = some (argv.map some) →
        Always (Touch.Ok argv.length) (doBuiltin env argv called) := by
  intro all
  have visible : Visible [99, 100] := by decide
  have calls : keyword [99, 100] = some .cd := by decide
  have words : arguments [99, 100] = [[99, 100]] := by decide
  have ok := all [99, 100] .cd [[99, 100]] rootDirectory (by rw [result_isBuiltin visible, calls])
    (by rw [result_getArgs visible, words])
  rw [doBuiltin, always_bind] at ok
  obtain ⟨arg, here, -⟩ := (ok_biCd (List.cons_ne_nil _ _)).mp ok.1
  cases here

end SystemProgramming.Shell.Builtins
