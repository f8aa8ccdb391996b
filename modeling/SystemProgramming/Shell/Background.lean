import SystemProgramming.Shell.ParserSafety
import SystemProgramming.Lib.Terminated

/-! # Background jobs

The parent looks for a `&` anywhere in the last stage, while `getArgs` cuts the arguments off at a word that
begins with one.
-/

namespace SystemProgramming.Shell.CommandLine

open Lib Traced

/-- What `waitpid` reports of the child. -/
inductive Status
  | exited
  | signaled
  | stopped
  | continued
deriving DecidableEq

/-- `WIFEXITED(status)` or `WIFSIGNALED(status)` -/
def Status.ended : Status → Bool
  | exited => true
  | signaled => true
  | stopped => false
  | continued => false

/-- The loop of `waitpid` calls; the result is the number of calls. -/
def waitLoop (status : ℕ → Status) : ℕ → ℕ → Option ℕ
  | 0, _ => none
  | fuel + 1, n => if (status n).ended then some (n + 1) else waitLoop status fuel (n + 1)

def strchr (string : Bytes) (c : UInt8) : Option ℕ := string.findIdx? (· == c)

/-- The parent in `run_command` after the fork; the result is the number of calls of `waitpid`. -/
def parent (commands : ℕ → Option Bytes) (status : ℕ → Status) (fuel : ℕ) : Option ℕ :=
  -- `cmd_num`
  (seek (fun _ => false) commands fuel 0).bind fun index =>
    (commands (index - 1)).bind fun last =>
      match strchr last 38 with
      | some _ => some 0
      | none => waitLoop status fuel 0

/-- A word after the first one begins with `&`. -/
def Marked (stage : Bytes) : Prop := ∃ tok ∈ (words delim (stage.dropWhile isspace)).tail, background tok = true

instance (stage : Bytes) : Decidable (Marked stage) := inferInstanceAs (Decidable (∃ tok ∈ _, _))

section

variable {stage last : Bytes} {commands : List Bytes} {cells : ℕ → Option Bytes}

theorem mem_of_marked (marked : Marked stage) : 38 ∈ stage := by
  obtain ⟨tok, member, begins⟩ := marked
  have head : 38 ∈ tok := by
    rw [background, beq_iff_eq] at begins
    exact List.mem_of_head? begins
  have inside := (mem_of_mem_words (List.mem_of_mem_tail member) head).1
  exact (List.dropWhile_suffix isspace).mem inside

theorem waitLoop_pos {status : ℕ → Status} {fuel n count : ℕ} (ends : waitLoop status fuel n = some count) :
    n < count := by
  induction fuel generalizing n with
  | zero => cases ends
  | succ fuel ih =>
    rw [waitLoop] at ends
    split_ifs at ends
    · cases ends
      exact Nat.lt_succ_self n
    · exact Nat.lt_of_succ_lt (ih ends)

/-- The parent does not wait exactly if there is a `&` in the last stage. -/
theorem parent_iff (holds : Terminated cells (commands ++ [last])) (status : ℕ → Status) :
    Converges (parent cells status) 0 ↔ 38 ∈ last := by
  have counted := holds.converges_seek (fun _ => false) (Nat.zero_le _)
  rw [Nat.zero_add, List.drop_zero, List.findIdx_eq_length_of_false (by simp)] at counted
  have here : cells ((commands ++ [last]).length - 1) = some last := by
    rw [List.length_append, List.length_singleton, Nat.add_sub_cancel]
    exact holds.get
  by_cases found : 38 ∈ last
  · refine iff_of_true ?_ found
    obtain ⟨i, at_⟩ : ∃ i, strchr last 38 = some i := by
      rw [strchr, ← Option.isSome_iff_exists, List.findIdx?_isSome]
      simpa using found
    apply counted.bind
    apply Converges.of_forall
    intro fuel
    rw [here, Option.bind_some, at_]
  · refine iff_of_false ?_ found
    have none : strchr last 38 = none := by
      rw [strchr, List.findIdx?_eq_none_iff]
      intro b member
      simp only [beq_eq_false_iff_ne]
      rintro rfl
      exact found member
    rintro ⟨bound, ends⟩
    obtain ⟨enough, reaches⟩ := counted
    have now := ends (max bound enough) (Nat.le_max_left ..)
    have length := reaches (max bound enough) (Nat.le_max_right ..)
    dsimp only at length
    rw [parent, length, Option.bind_some, here, Option.bind_some, none] at now
    exact absurd (waitLoop_pos now) (Nat.lt_irrefl 0)

/-- What runs is the line as `pipe_spliter` has split it. -/
theorem stages_of_runs {line : Bytes} (runs : (handle line).result = some (.runs commands)) :
    stages line = commands ∧ commands ≠ [] := by
  cases all : stages line with
  | nil =>
    rw [handle, pipeSpliter_of_stages_eq_nil all] at runs
    cases runs
  | cons first later =>
    by_cases visible : Visible first
    · rw [result_handle all visible] at runs
      cases calls : keyword first with
      | some called =>
        rw [calls] at runs
        exact absurd rfl (doBuiltin_ne_runs runs commands)
      | none =>
        rw [calls] at runs
        cases runs
        exact ⟨rfl, List.cons_ne_nil _ _⟩
    · rw [handle, result_bind, result_pipeSpliter all, Option.bind_some, result_bind,
        result_isBuiltin_of_not_visible visible] at runs
      cases runs

end

/-- For a line that is no builtin, the parent returns without waiting exactly when `getArgs` finds a marker
in the last stage, if and only if a `&` in the last stage comes with a marker there. -/
theorem returns_iff_marked {line : Bytes} {commands : List Bytes}
    (runs : (handle line).result = some (.runs commands)) {cells : ℕ → Option Bytes}
    (holds : Terminated cells commands) (status : ℕ → Status) : ∃ last ∈ (stages line).getLast?,
      ((Converges (parent cells status) 0 ↔ Marked last) ↔ (38 ∈ last → Marked last)) := by
  obtain ⟨rfl, some_⟩ := stages_of_runs runs
  obtain ⟨before, last, split⟩ := List.eq_nil_or_concat' (stages line) |>.resolve_left some_
  refine ⟨last, by rw [split, List.getLast?_concat]; rfl, ?_⟩
  rw [parent_iff (split ▸ holds)]
  constructor
  · exact Iff.mp
  · intro marked
    exact ⟨marked, mem_of_marked⟩

/-- `ls a&b` -/
def ampersandInside : Bytes := [108, 115, 32, 97, 38, 98]

theorem runs_ampersandInside : (handle ampersandInside).result = some (.runs [ampersandInside]) := by
  have all : stages ampersandInside = [ampersandInside] := by decide
  have calls : keyword ampersandInside = none := by decide
  rw [result_handle all (by decide), calls]

theorem returns_iff_marked_inside : ∃ last ∈ (stages ampersandInside).getLast?,
    ((Converges (parent (fun i => [ampersandInside][i]?) fun _ => .exited) 0 ↔ Marked last) ↔
      (38 ∈ last → Marked last)) :=
  returns_iff_marked runs_ampersandInside (terminated_getElem? [ampersandInside]) fun _ => .exited

/-- The parent does not wait for it. -/
theorem not_returns_iff_marked : ¬ ∀ (line : Bytes) (commands : List Bytes) (cells : ℕ → Option Bytes)
    (status : ℕ → Status), (handle line).result = some (.runs commands) → Terminated cells commands →
      ∃ last ∈ (stages line).getLast?, (Converges (parent cells status) 0 ↔ Marked last) := by
  intro exact_
  obtain ⟨last, here, same⟩ := exact_ ampersandInside _ _ (fun _ => .exited) runs_ampersandInside
    (terminated_getElem? _)
  obtain rfl : last = ampersandInside := by
    rw [show (stages ampersandInside).getLast? = some ampersandInside by decide] at here
    exact (Option.some.inj here).symm
  rw [@parent_iff _ [] _ (terminated_getElem? [ampersandInside])] at same
  exact absurd same (by decide)

end SystemProgramming.Shell.CommandLine
