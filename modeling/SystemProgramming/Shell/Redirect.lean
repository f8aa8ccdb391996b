import SystemProgramming.Shell.Model
import SystemProgramming.Lib.Terminated

/-! # `redirect` on the array of words

`__redirect_to` works on an array of pointers, in place. What it does to the array is described by the
list of words it holds, and on the texts of the words it does what a process of the pipeline does.
-/

namespace SystemProgramming.Shell

open Lib

/-- What `redirect` works on. `κ` is the array, or the list of the words in it. -/
structure Workspace (κ ω ρ : Type*) where
  cmd : κ
  fds : FdTable (Handle ρ)
  /-- The words `fopen` has got. -/
  opened : List (ω × Io)
  freed : List ω

inductive Outcome (σ : Type*)
  | returned (s : σ)
  /-- `fileno` has got a null pointer. -/
  | crashed (s : σ)

variable {ω ρ : Type*} (text : ω → Bytes)

/-- `*tok == mode` -/
def begins (io : Io) (tok : ω) : Bool := (text tok).head? == some io.mode

/-- `dup2(fileno(f), IO)` with the new `f`. -/
def bindTo (fds : FdTable (Handle ρ)) (name : Bytes) (io : Io) : FdTable (Handle ρ) :=
  (fds.install (.file name io)).dup2 fds.lowest io.fd

/-- `__redirect_to`, with the success of `fopen`. -/
def redirectTo (opens : Bool) (io : Io) (s : Workspace (ℕ → Option ω) ω ρ) (fuel : ℕ) :
    Option (Outcome (Workspace (ℕ → Option ω) ω ρ)) :=
  (seek (begins text io) s.cmd fuel 0).bind fun i =>
    match s.cmd i with
    | none => some (.returned s)
    | some trash1 =>
      match s.cmd (i + 1) with
      | none => some (.returned s)
      | some trash2 =>
        if opens then
          -- the end of the array
          (seek (fun _ => false) s.cmd fuel (i + 2)).map fun j => .returned
            { cmd := shift 2 s.cmd i (j - (i + 1))
              fds := bindTo s.fds (text trash2) io
              opened := s.opened ++ [(trash2, io)]
              freed := s.freed ++ [trash1, trash2] }
        else some (.crashed { s with opened := s.opened ++ [(trash2, io)] })

def redirect (opens : Io → Bool) (s : Workspace (ℕ → Option ω) ω ρ) (fuel : ℕ) :
    Option (Outcome (Workspace (ℕ → Option ω) ω ρ)) :=
  (redirectTo text (opens .input) .input s fuel).bind fun
    | .returned s => redirectTo text (opens .output) .output s fuel
    | .crashed s => some (.crashed s)

/-! ## On lists -/

/-- The words before the first that `p` finds with another word behind it, these two, and the words after
them. -/
def cut (p : ω → Bool) : List ω → Option (List ω × ω × ω × List ω)
  | [] => none
  | [_] => none
  | tok :: file :: tail =>
    if p tok then some ([], tok, file, tail)
    else (cut p (file :: tail)).map fun (before, operator, file, after) => (tok :: before, operator, file, after)

def redirectWords (opens : Bool) (io : Io) (s : Workspace (List ω) ω ρ) : Outcome (Workspace (List ω) ω ρ) :=
  match cut (begins text io) s.cmd with
  | none => .returned s
  | some (before, operator, file, after) =>
    if opens then .returned
      { cmd := before ++ after
        fds := bindTo s.fds (text file) io
        opened := s.opened ++ [(file, io)]
        freed := s.freed ++ [operator, file] }
    else .crashed { s with opened := s.opened ++ [(file, io)] }

/-- Both passes. -/
def redirectList (opens : Io → Bool) (s : Workspace (List ω) ω ρ) : Outcome (Workspace (List ω) ω ρ) :=
  match redirectWords text (opens .input) .input s with
  | .returned s => redirectWords text (opens .output) .output s
  | .crashed s => .crashed s

section

variable {p : ω → Bool} {before : List ω} {operator : ω}

theorem cut_append (others : ∀ tok ∈ before, p tok = false) (found : p operator = true) (file : ω)
    (after : List ω) : cut p (before ++ operator :: file :: after) = some (before, operator, file, after) := by
  induction before with
  | nil => rw [List.nil_append, cut, if_pos found]
  | cons tok before ih =>
    rw [List.forall_mem_cons] at others
    have other : ¬ p tok = true := by simp [others.1]
    cases before with
    | nil => rw [List.cons_append, List.nil_append, cut, if_neg other, ← List.nil_append (operator :: _),
        ih others.2, Option.map_some]
    | cons next before => rw [List.cons_append, List.cons_append, cut, if_neg other, ← List.cons_append,
        ih others.2, Option.map_some]

/-- The last word has no word behind it. -/
theorem cut_eq_none {argv : List ω} (others : ∀ tok ∈ argv.dropLast, p tok = false) : cut p argv = none := by
  induction argv with
  | nil => rfl
  | cons tok rest ih =>
    cases rest with
    | nil => rfl
    | cons next rest =>
      rw [List.dropLast_cons_of_ne_nil (List.cons_ne_nil _ _), List.forall_mem_cons] at others
      rw [cut, if_neg (by simp [others.1]), ih others.2]
      rfl

theorem cut_cases (p : ω → Bool) (argv : List ω) :
    (∀ tok ∈ argv.dropLast, p tok = false) ∨ ∃ before operator file after,
      argv = before ++ operator :: file :: after ∧ p operator = true ∧ ∀ tok ∈ before, p tok = false := by
  induction argv with
  | nil => exact .inl (by simp)
  | cons tok rest ih =>
    cases rest with
    | nil => exact .inl (by simp)
    | cons next rest =>
      cases found : p tok with
      | true => exact .inr ⟨[], tok, next, rest, rfl, found, by simp⟩
      | false =>
        obtain others | ⟨before, operator, file, after, split, here, others⟩ := ih
        · apply Or.inl
          rw [List.dropLast_cons_of_ne_nil (List.cons_ne_nil _ _), List.forall_mem_cons]
          exact ⟨found, others⟩
        · refine .inr ⟨tok :: before, operator, file, after, ?_, here, ?_⟩
          · rw [split, List.cons_append]
          · rw [List.forall_mem_cons]
            exact ⟨found, others⟩

end

/-- The texts of the words as a process of the pipeline sees them. -/
theorem redirection_map (io : Io) (argv : List ω) :
    redirection io.mode (argv.map text) = (cut (begins text io) argv).map fun (before, _, file, after) =>
      (text file, (before ++ after).map text) := by
  induction argv with
  | nil => rfl
  | cons tok rest ih =>
    cases rest with
    | nil =>
      rw [List.map_cons, List.map_nil, redirection.eq_def]
      dsimp only
      split_ifs
      · rfl
      · rfl
    | cons next rest =>
      rw [List.map_cons, List.map_cons, redirection.eq_def, cut]
      dsimp only
      by_cases found : (text tok).head? = some io.mode
      · rw [if_pos found, if_pos (show begins text io tok = true by simp [begins, found])]
        rfl
      · rw [if_neg found, if_neg (show ¬ begins text io tok = true by simp [begins, found]),
          ← List.map_cons, ih, Option.map_map, Option.map_map]
        rfl

/-! ## The array holds the list -/

def Workspace.Holds (s : Workspace (ℕ → Option ω) ω ρ) (words : Workspace (List ω) ω ρ) : Prop :=
  Terminated s.cmd words.cmd ∧ s.fds = words.fds ∧ s.opened = words.opened ∧ s.freed = words.freed

def Outcome.Holds : Outcome (Workspace (ℕ → Option ω) ω ρ) → Outcome (Workspace (List ω) ω ρ) → Prop
  | .returned s, .returned words => s.Holds words
  | .crashed s, .crashed words => s.Holds words
  | _, _ => False

section

variable {s : Workspace (ℕ → Option ω) ω ρ} {words : Workspace (List ω) ω ρ}

/-- Where no word is found with another one behind it, the loop stops at a null pointer or right in front
of it. -/
theorem findIdx_last {cells : ℕ → Option ω} {argv : List ω} {p : ω → Bool} (holds : Terminated cells argv)
    (others : ∀ tok ∈ argv.dropLast, p tok = false) :
    cells (argv.findIdx p) = none ∨ cells (argv.findIdx p + 1) = none := by
  have within : argv.findIdx p ≤ argv.length := List.findIdx_le_length
  by_cases inside : argv.findIdx p < argv.length
  · have last : argv.findIdx p + 1 = argv.length := by
      by_contra early
      have before : argv.findIdx p < argv.dropLast.length := by
        rw [List.length_dropLast]
        omega
      have other := others _ (List.getElem_mem before)
      rw [List.getElem_dropLast] at other
      cases (List.findIdx_getElem (w := inside)).symm.trans other
    apply Or.inr
    rw [last]
    exact holds.end
  · apply Or.inl
    rw [Nat.le_antisymm within (Nat.le_of_not_lt inside)]
    exact holds.end

theorem findIdx_append {before after : List ω} {operator : ω} {p : ω → Bool} (found : p operator = true)
    (others : ∀ tok ∈ before, p tok = false) : (before ++ operator :: after).findIdx p = before.length := by
  induction before with
  | nil => rw [List.nil_append, List.findIdx_cons, found, cond_true, List.length_nil]
  | cons tok before ih =>
    rw [List.forall_mem_cons] at others
    rw [List.cons_append, List.findIdx_cons, others.1, cond_false, ih others.2, List.length_cons]

theorem redirectTo_refines (opens : Bool) (io : Io) (holds : s.Holds words) :
    ∃ r, Converges (redirectTo text opens io s) r ∧ r.Holds (redirectWords text opens io words) := by
  obtain ⟨argv, fds, opened, freed⟩ := words
  obtain ⟨array, rfl, rfl, rfl⟩ := holds
  have found := array.converges_seek (begins text io) (Nat.zero_le _)
  rw [Nat.zero_add, List.drop_zero] at found
  obtain others | ⟨before, operator, file, after, rfl, here, others⟩ := cut_cases (begins text io) argv
  · refine ⟨.returned s, ?_, ?_⟩
    · apply found.bind
      apply Converges.of_forall
      intro fuel
      obtain none | none := findIdx_last array others
      · simp only [none]
      · cases s.cmd (argv.findIdx (begins text io)) with
        | none => rfl
        | some trash1 => simp only [none]
    · rw [redirectWords, cut_eq_none others]
      exact ⟨array, rfl, rfl, rfl⟩
  · rw [findIdx_append here others] at found
    have first : s.cmd before.length = some operator := array.get
    have second : s.cmd (before.length + 1) = some file := by
      have split : before ++ operator :: file :: after = (before ++ [operator]) ++ file :: after := by simp
      have behind : Terminated s.cmd ((before ++ [operator]) ++ file :: after) := split ▸ array
      rw [← behind.get, List.length_append, List.length_singleton]
    cases opens with
    | false =>
      refine ⟨.crashed { s with opened := s.opened ++ [(file, io)] }, ?_, ?_⟩
      · apply found.bind
        apply Converges.of_forall
        intro fuel
        simp only [first, second, Bool.false_eq_true, if_false]
      · rw [redirectWords, cut_append others here]
        exact ⟨array, rfl, rfl, rfl⟩
    | true =>
      have behind : before.length + 2 ≤ (before ++ operator :: file :: after).length := by
        simp only [List.length_append, List.length_cons]
        omega
      have reached := array.converges_seek (fun _ => false) behind
      have rest : (before ++ operator :: file :: after).drop (before.length + 2) = after := by
        rw [← List.drop_drop, List.drop_left]
        rfl
      rw [rest, List.findIdx_eq_length_of_false (by simp)] at reached
      have moved : before.length + 2 + after.length - (before.length + 1) = after.length + 1 := by omega
      refine ⟨.returned
        { cmd := shift 2 s.cmd before.length (after.length + 1)
          fds := bindTo s.fds (text file) io
          opened := s.opened ++ [(file, io)]
          freed := s.freed ++ [operator, file] }, ?_, ?_⟩
      · apply found.bind
        simp only [first, second, if_true]
        rw [← moved]
        exact reached.map _
      · rw [redirectWords, cut_append others here]
        have split : before ++ operator :: file :: after = before ++ [operator, file] ++ after := by simp
        have removed : Terminated s.cmd (before ++ [operator, file] ++ after) := split ▸ array
        exact ⟨removed.shift, rfl, rfl, rfl⟩

/-- `redirect` does to the words of the array what both passes do to the list. -/
theorem redirect_refines (opens : Io → Bool) (holds : s.Holds words) :
    ∃ r, Converges (redirect text opens s) r ∧ r.Holds (redirectList text opens words) := by
  obtain ⟨middle, passed, same⟩ := redirectTo_refines text (opens .input) .input holds
  cases done : redirectWords text (opens .input) .input words with
  | crashed left =>
    rw [done] at same
    simp only [redirectList, done]
    cases middle with
    | returned s => cases same
    | crashed s => exact ⟨.crashed s, passed.bind (.of_forall fun _ => rfl), same⟩
  | returned left =>
    rw [done] at same
    simp only [redirectList, done]
    cases middle with
    | crashed s => cases same
    | returned s =>
      obtain ⟨r, ends, final⟩ := redirectTo_refines text (opens .output) .output same
      exact ⟨r, passed.bind ends, final⟩

end

end SystemProgramming.Shell
