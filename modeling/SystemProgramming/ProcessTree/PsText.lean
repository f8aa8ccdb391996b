import SystemProgramming.ProcessTree.Snapshot
import SystemProgramming.Lib.CString
import SystemProgramming.Lib.Stdio
import SystemProgramming.Lib.Fuel

/-! # Reading the output of `ps`

`GetProcesses` opens no file: only with `-f -` is there a stream to read from. After the first line it
enlarges the array, and the test of the result is the wrong way round.
-/

namespace SystemProgramming.ProcessTree

open Lib

/-- How a call ends; what follows a read through a pointer that is null or never set is undefined. -/
inductive Outcome (α : Type*) where
  | returned (value : α)
  | exited (status : ℕ)
  | undefined

/-- `fgets`: a line with its newline, as far as it fits; `none` at the end of the file. -/
def fgets (size : ℕ) (stream : Bytes) : Option (Bytes × Bytes) :=
  if stream = [] then none
  else
    let count := min (size - 1) (splitLine stream).1.length
    some (stream.take count, stream.drop count)

/-- The loop that drops the rest of a line that is too long. -/
def dropRest : ℕ → Bytes → Option (Outcome Bytes)
  | 0, _ => none
  | fuel + 1, stream =>
    match fgets maxLine stream with
    | none => some .undefined
    | some (tmp, stream) =>
      if (cstr tmp).length = maxLine - 1 then dropRest fuel stream else some (.returned stream)

/-- `sscanf` with `PSFORMAT`: the number of conversions, and the entry filled in from a cleared one. -/
def scanPs (line : Bytes) : ℕ × Entry :=
  match scanLong line with
  | none => (0, clearedSlot)
  | some (uid, text) =>
    match scanLong text with
    | none => (1, { clearedSlot with uid := uid })
    | some (pid, text) =>
      match scanLong text with
      | none => (2, { clearedSlot with uid := uid, pid := pid })
      | some (ppid, text) =>
        match scanLong text with
        | none => (3, { clearedSlot with uid := uid, pid := pid, ppid := ppid })
        | some (pgid, text) =>
          match scanLine (skipBlank text) with
          | none => (4, { clearedSlot with uid := uid, pid := pid, ppid := ppid, pgid := pgid })
          | some (cmd, _) =>
            (5, { clearedSlot with uid := uid, pid := pid, ppid := ppid, pgid := pgid, cmd := cmd })

/-- `PSVARSN`. -/
def psVarsN : ℕ := 5

/-- The loop over the lines; `realloc` says whether there is memory for that many entries. -/
def readLines (realloc : ℕ → Bool) (getpwuid : UserDatabase) :
    ℕ → Bytes → List Entry → NameCache → Option (Outcome (List Entry))
  | 0, _, _, _ => none
  | fuel + 1, stream, P, un =>
    match fgets maxLine stream with
    | none => some (.returned P)
    | some (line, stream) =>
      (if (cstr line).length = maxLine - 1 then dropRest fuel stream
        else some (.returned stream)).bind fun dropped =>
      match dropped with
      | .undefined => some .undefined
      | .exited status => some (.exited status)
      | .returned stream =>
        -- the new array, and the test for the null pointer
        let array := if realloc (P.length + 1) then some P else none
        if array.isSome then some (.exited 1)
        else
          match array with
          | none => some .undefined
          | some P =>
            let (num, entry) := scanPs (cstr line)
            if num ≠ psVarsN then readLines realloc getpwuid fuel stream P un
            else
              let (name, un) := uid2user getpwuid (BitVec.ofInt 32 entry.uid) 32 un
              readLines realloc getpwuid fuel stream (P ++ [{ entry with name := name }]) un

/-- `GetProcesses` for the argument of `-f`; the stream is set for `-` only. -/
def getProcessesFrom (realloc : ℕ → Bool) (getpwuid : UserDatabase) (fuel : ℕ) (input stdin : Bytes) :
    Option (Outcome (List Entry)) :=
  if input = bytes ['-'] then readLines realloc getpwuid fuel stdin [] [] else some .undefined

/-- The numbers of a line in the format of `ps`. -/
def psLine? (line : Bytes) : Option (ℤ × ℤ × ℤ × ℤ) :=
  let (num, entry) := scanPs (cstr line)
  if num = psVarsN then some (entry.uid, entry.pid, entry.ppid, entry.pgid) else none

/-- The text of the argument of `-f`. -/
def inputText (files : Bytes → Bytes) (input stdin : Bytes) : Bytes :=
  if input = bytes ['-'] then stdin else files input

/-- With memory at hand, an entry for each line of the text that has the format. -/
def ReadsLines (getpwuid : UserDatabase) (files : Bytes → Bytes) (input stdin : Bytes) : Prop :=
  ∃ P, Converges (fun fuel => getProcessesFrom (fun _ => true) getpwuid fuel input stdin) (.returned P) ∧
    P.map (fun entry => (entry.uid, entry.pid, entry.ppid, entry.pgid)) =
      ((inputText files input stdin).splitOn newline).filterMap psLine?

/-- After the first line the function does not return: the array is there, and it exits. -/
theorem readLines_ne_returned (getpwuid : UserDatabase) (fuel : ℕ) {stream : Bytes} (line : stream ≠ [])
    (P : List Entry) (un : NameCache) (table : List Entry) :
    readLines (fun _ => true) getpwuid fuel stream P un ≠ some (.returned table) := by
  cases fuel with
  | zero => simp [readLines]
  | succ fuel =>
    rw [readLines, fgets, if_neg line]
    dsimp only
    rw [ne_eq, Option.bind_eq_some_iff]
    rintro ⟨dropped, -, ends⟩
    cases dropped with
    | undefined => simp at ends
    | exited status => simp at ends
    | returned stream => simp at ends

/-- `GetProcesses` reads the lines of its input exactly when it is the standard input and empty. -/
theorem readsLines_iff (getpwuid : UserDatabase) (files : Bytes → Bytes) (input stdin : Bytes) :
    ReadsLines getpwuid files input stdin ↔ input = bytes ['-'] ∧ stdin = [] := by
  constructor
  · rintro ⟨P, ⟨bound, value⟩, -⟩
    have returned := value bound (Nat.le_refl _)
    dsimp only at returned
    rw [getProcessesFrom] at returned
    split_ifs at returned with standard
    · refine ⟨standard, ?_⟩
      by_contra line
      exact readLines_ne_returned getpwuid bound line [] [] P returned
    · simp at returned
  · rintro ⟨rfl, rfl⟩
    refine ⟨[], .of_succ (g := fun _ => some _) (fun fuel => ?_) (.of_forall fun _ => rfl), rfl⟩
    rw [getProcessesFrom, if_pos rfl, readLines, fgets, if_pos rfl]

/-- `0 1 0 1 init` -/
def initLine : Bytes :=
  bytes ['0', ' ', '1', ' ', '0', ' ', '1', ' ', 'i', 'n', 'i', 't', '\n']

/-- The line has the format, but the function exits. -/
theorem initLine_not_read :
    psLine? initLine = some (0, 1, 0, 1) ∧
      ¬ ReadsLines (fun _ => none) (fun _ => []) (bytes ['-']) initLine := by
  have exits : Converges (fun fuel => getProcessesFrom (fun _ => true) (fun _ => none) fuel (bytes ['-'])
      initLine) (.exited 1) :=
    .of_succ (g := fun _ => some _) (fun _ => rfl) (.of_forall fun _ => rfl)
  refine ⟨by decide +kernel, fun reads => ?_⟩
  obtain ⟨P, returns, -⟩ := reads
  cases exits.unique returns

end SystemProgramming.ProcessTree
