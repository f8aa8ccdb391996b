import SystemProgramming.Lib.CString
import SystemProgramming.Lib.Terminated

/-! # Background jobs of `hw2`

`is_background` looks for a `&` from the front, `run_command` takes off the last word. A pointer to a
string is the string; the array ends with a null pointer.
-/

namespace SystemProgramming.SmallShell

open Lib

/-- `"&"` -/
def ampersand : Bytes := [38]

def isBackground (myArgv : ℕ → Option Bytes) (fuel : ℕ) : Option Bool :=
  if myArgv 0 = none then some false
  else (seek (· == ampersand) myArgv fuel 0).map fun i => (myArgv i).isSome

/-- What `run_command` does with its argument. -/
structure Call where
  /-- The array `execvp` gets. -/
  argv : ℕ → Option Bytes
  /-- The strings it has freed. -/
  freed : List (Option Bytes)
  doWait : Bool

def runCommand (myArgv : ℕ → Option Bytes) (fuel : ℕ) : Option Call :=
  (isBackground myArgv fuel).bind fun background =>
    if background then
      -- remove the tail
      (seek (fun _ => false) myArgv fuel 0).map fun i =>
        ⟨Function.update myArgv (i - 1) none, [myArgv (i - 1)], false⟩
    else some ⟨myArgv, [], true⟩

section

variable {myArgv : ℕ → Option Bytes} {words : List Bytes}

/-- `is_background` finds a `&` anywhere. -/
theorem isBackground_spec (holds : Terminated myArgv words) :
    Converges (isBackground myArgv) (decide (ampersand ∈ words)) := by
  by_cases empty : words = []
  · subst empty
    apply Converges.of_forall
    intro fuel
    have first : myArgv 0 = none := holds.end
    rw [isBackground, if_pos first]
    rfl
  · have some_ : myArgv 0 ≠ none := by
      rw [holds 0 (Nat.zero_le _)]
      simp [empty]
    have found := (holds.converges_seek (· == ampersand) (Nat.zero_le _)).map fun i => (myArgv i).isSome
    rw [Nat.zero_add, List.drop_zero] at found
    have within : words.findIdx (· == ampersand) ≤ words.length := List.findIdx_le_length
    have same : (myArgv (words.findIdx (· == ampersand))).isSome = decide (ampersand ∈ words) := by
      have inside : words.findIdx (· == ampersand) < words.length ↔ ampersand ∈ words := by
        rw [List.findIdx_lt_length]
        simp
      rw [holds _ within]
      by_cases member : ampersand ∈ words
      · rw [List.getElem?_eq_getElem (inside.mpr member), decide_eq_true member]
        rfl
      · rw [List.getElem?_eq_none (Nat.le_of_not_lt (mt inside.mp member)), decide_eq_false member]
        rfl
    rw [same] at found
    have unfolded : isBackground myArgv = fun fuel =>
        (seek (· == ampersand) myArgv fuel 0).map fun i => (myArgv i).isSome := by
      funext fuel
      rw [isBackground, if_neg some_]
    rw [unfolded]
    exact found

/-- A `&` anywhere takes off the last word. -/
theorem runCommand_spec (holds : Terminated myArgv words) (background : ampersand ∈ words) :
    Converges (runCommand myArgv) ⟨Function.update myArgv (words.length - 1) none,
      [words.getLast?], false⟩ := by
  have test := isBackground_spec holds
  rw [decide_eq_true background] at test
  have last := (holds.converges_seek (fun _ => false) (Nat.zero_le _)).map fun i =>
    (⟨Function.update myArgv (i - 1) none, [myArgv (i - 1)], false⟩ : Call)
  have length : 0 + (words.drop 0).findIdx (fun _ => false) = words.length := by
    rw [Nat.zero_add, List.drop_zero]
    exact List.findIdx_eq_length_of_false (by simp)
  rw [length, holds _ (Nat.sub_le _ _), ← List.getLast?_eq_getElem?] at last
  exact test.bind last

/-- Only equal words can be taken for each other. -/
theorem getLast?_of_eq_dropLast {word : Bytes} (later : List Bytes)
    (same : later = (word :: later).dropLast) : (word :: later).getLast? = some word := by
  induction later generalizing word with
  | nil => rfl
  | cons next later ih =>
    rw [List.dropLast_cons_of_ne_nil (List.cons_ne_nil _ _)] at same
    obtain ⟨rfl, rest⟩ := List.cons.inj same
    rw [List.getLast?_cons_cons]
    exact ih rest

theorem exists_eraseIdx_iff :
    (∃ i : ℕ, words[i]? = some ampersand ∧ words.dropLast = words.eraseIdx i) ↔
      words.getLast? = some ampersand := by
  constructor
  · rintro ⟨i, here, same⟩
    induction i generalizing words with
    | zero =>
      cases words with
      | nil => cases here
      | cons word later =>
        obtain rfl : word = ampersand := Option.some.inj here
        exact getLast?_of_eq_dropLast later same.symm
    | succ i ih =>
      cases words with
      | nil => cases here
      | cons word later =>
        rw [List.getElem?_cons_succ] at here
        have some_ : later ≠ [] := by
          rintro rfl
          cases here
        rw [List.dropLast_cons_of_ne_nil some_, List.eraseIdx_cons_succ] at same
        rw [List.getLast?_cons_of_ne_nil some_]
        exact ih here (List.cons.inj same).2
  · intro last
    refine ⟨words.length - 1, ?_, ?_⟩
    · rw [← List.getLast?_eq_getElem?, last]
    · rw [List.eraseIdx_length_sub_one]

end

/-- For a command line with a `&`, `execvp` gets the words without exactly one `&` if and only if the last
word is a `&`. -/
theorem passed_iff_last {myArgv : ℕ → Option Bytes} {words : List Bytes} (holds : Terminated myArgv words)
    (background : Converges (isBackground myArgv) true) : ∃ call, Converges (runCommand myArgv) call ∧
      ((∃ i : ℕ, words[i]? = some ampersand ∧ Terminated call.argv (words.eraseIdx i)) ↔
        words.getLast? = some ampersand) := by
  have some_ : ampersand ∈ words :=
    of_decide_eq_true ((isBackground_spec holds).unique background)
  refine ⟨_, runCommand_spec holds some_, ?_⟩
  rw [← exists_eraseIdx_iff]
  constructor
  · rintro ⟨i, here, passed⟩
    exact ⟨i, here, holds.dropLast.unique passed⟩
  · rintro ⟨i, here, same⟩
    exact ⟨i, here, same ▸ holds.dropLast⟩

/-- `ls &` -/
def lsInBackground : List Bytes := [[108, 115], [38]]

theorem passed_iff_last_ls : ∃ call, Converges (runCommand fun i => lsInBackground[i]?) call ∧
    ((∃ i : ℕ, lsInBackground[i]? = some ampersand ∧ Terminated call.argv (lsInBackground.eraseIdx i)) ↔
      lsInBackground.getLast? = some ampersand) := by
  apply passed_iff_last (terminated_getElem? lsInBackground)
  exact isBackground_spec (terminated_getElem? lsInBackground)

/-- `sleep & 10` -/
def sleepInBackground : List Bytes := [[115, 108, 101, 101, 112], [38], [49, 48]]

/-- It passes on the `&` and not the argument. -/
theorem not_passed_sleep : ¬ ∀ (myArgv : ℕ → Option Bytes) (words : List Bytes), Terminated myArgv words →
    Converges (isBackground myArgv) true → ∃ call, Converges (runCommand myArgv) call ∧
      ∃ i : ℕ, words[i]? = some ampersand ∧ Terminated call.argv (words.eraseIdx i) := by
  intro all
  have holds := terminated_getElem? sleepInBackground
  have background : Converges (isBackground fun i => sleepInBackground[i]?) true := isBackground_spec holds
  obtain ⟨call, runs, i, here, passed⟩ := all _ sleepInBackground holds background
  have known := runCommand_spec holds (by decide)
  rw [runs.unique known] at passed
  have last := exists_eraseIdx_iff.mp ⟨i, here, holds.dropLast.unique passed⟩
  cases last

end SystemProgramming.SmallShell
