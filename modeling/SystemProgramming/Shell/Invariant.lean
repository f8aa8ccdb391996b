import SystemProgramming.Shell.Model
import SystemProgramming.Lib.Update

/-! # The growing pipeline

The process created `j`-th enters the loop with the shell's descriptors, except that its stdout is
the pipe to the process before it. It creates pipe `j`, forks the next process and leaves with that
pipe as its stdin, unless it is the last. Only the process created last has not forked yet, so the
pipes are numbered like their creators.
-/

namespace SystemProgramming.Shell

open Lib

variable {ρ : Type*} (x : Call ρ)

/-! ## The descriptors of a process -/

/-- The descriptors with which the `j`-th process enters the loop. -/
def entry : ℕ → ℕ → Option (Handle ρ)
  | 0, fd => (x.fds.get fd).map .shell
  | j + 1, fd => if fd = 1 then some (.pipe j true) else entry j fd

/-- The descriptors with which the `j`-th process leaves the loop. -/
def final (j fd : ℕ) : Option (Handle ρ) :=
  if j + 1 < x.commands.length ∧ fd = 0 then some (.pipe j false) else entry x j fd

/-- A descriptor of a new pipe. -/
def Fresh (j fd : ℕ) : Prop := entry x j fd = none ∧ fd ≠ 0 ∧ fd ≠ 1

theorem entry_standard (j : ℕ) {fd : ℕ} (standard : fd < 3) : (entry x j fd).isSome := by
  induction j with
  | zero => rw [entry, Option.isSome_map]; exact x.standard fd standard
  | succ j ih =>
    rw [entry]
    split_ifs
    · rfl
    · exact ih

theorem fresh_of_none {j fd : ℕ} (free : entry x j fd = none) : Fresh x j fd := by
  have high : ¬ fd < 3 := by
    intro standard
    have taken := entry_standard x j standard
    rw [free] at taken
    nomatch taken
  exact ⟨free, by omega, by omega⟩

/-- What is known of the `j`-th process at each place. -/
def Fits (j : ℕ) (p : Process ρ) : Prop :=
  match p.pc with
  | .loop => p.index + j = x.commands.length ∧ 1 ≤ p.index ∧ ∀ fd, p.fds.get fd = entry x j fd
  | .fork r w =>
    p.index + j + 1 = x.commands.length ∧ 1 ≤ p.index ∧ Fresh x j r ∧ Fresh x j w ∧ r ≠ w ∧
      ∀ fd, p.fds.get fd = if fd = w then some (.pipe j true)
        else if fd = r then some (.pipe j false) else entry x j fd
  | .parentClose1 r w =>
    p.index + j + 1 = x.commands.length ∧ 1 ≤ p.index ∧ Fresh x j r ∧ Fresh x j w ∧ r ≠ w ∧
      ∀ fd, p.fds.get fd = if fd = w then some (.pipe j true)
        else if fd = r then some (.pipe j false) else entry x j fd
  | .parentDup2 r =>
    p.index + j + 1 = x.commands.length ∧ 1 ≤ p.index ∧ Fresh x j r ∧
      ∀ fd, p.fds.get fd = if fd = r then some (.pipe j false) else entry x j fd
  | .parentClose0 r =>
    p.index + j + 1 = x.commands.length ∧ 1 ≤ p.index ∧ Fresh x j r ∧
      ∀ fd, p.fds.get fd = if fd = r ∨ fd = 0 then some (.pipe j false) else entry x j fd
  | .childClose0 r w =>
    ∃ i, j = i + 1 ∧ p.index + j = x.commands.length ∧ 1 ≤ p.index ∧ Fresh x i r ∧ Fresh x i w ∧
      r ≠ w ∧ ∀ fd, p.fds.get fd = if fd = w then some (.pipe i true)
        else if fd = r then some (.pipe i false) else entry x i fd
  | .childDup2 w =>
    ∃ i, j = i + 1 ∧ p.index + j = x.commands.length ∧ 1 ≤ p.index ∧ Fresh x i w ∧
      ∀ fd, p.fds.get fd = if fd = w then some (.pipe i true) else entry x i fd
  | .childClose1 w =>
    ∃ i, j = i + 1 ∧ p.index + j = x.commands.length ∧ 1 ≤ p.index ∧ Fresh x i w ∧
      ∀ fd, p.fds.get fd = if fd = w ∨ fd = 1 then some (.pipe i true) else entry x i fd
  | .getArgs => p.index + j + 1 = x.commands.length ∧
      ∃ t, p.before = some t ∧ ∀ fd, t.get fd = final x j fd
  | .redirect io arg => p.index + j + 1 = x.commands.length ∧
      (∃ t, p.before = some t ∧ ∀ fd, t.get fd = final x j fd) ∧
      ∃ command, x.commands[p.index]? = some command ∧ arg = match io with
        | .input => getArgs x.junk command
        | .output => unredirected Io.input.mode (getArgs x.junk command)
  | .execvp arg => p.index + j + 1 = x.commands.length ∧
      (∃ t, p.before = some t ∧ ∀ fd, t.get fd = final x j fd) ∧
      ∃ command, x.commands[p.index]? = some command ∧
        arg = unredirected Io.output.mode (unredirected Io.input.mode (getArgs x.junk command))
  | .crashed => False
  | .undefined => False

/-- The process has forked the next one. -/
def Forked (p : Process ρ) : Prop :=
  match p.pc with
  | .loop => False
  | .fork _ _ => False
  | .parentClose1 _ _ => True
  | .parentDup2 _ => True
  | .parentClose0 _ => True
  | .childClose0 _ _ => False
  | .childDup2 _ => False
  | .childClose1 _ => False
  | .getArgs => p.index ≠ 0
  | .redirect _ _ => p.index ≠ 0
  | .execvp _ => p.index ≠ 0
  | .crashed => p.index ≠ 0
  | .undefined => p.index ≠ 0

/-- The pipes made while the `j`-th process is the last. -/
def pipesAt (j : ℕ) (p : Process ρ) : ℕ :=
  match p.pc with
  | .fork _ _ => j + 1
  | .loop => j
  | .parentClose1 _ _ => j
  | .parentDup2 _ => j
  | .parentClose0 _ => j
  | .childClose0 _ _ => j
  | .childDup2 _ => j
  | .childClose1 _ => j
  | .getArgs => j
  | .redirect _ _ => j
  | .execvp _ => j
  | .crashed => j
  | .undefined => j

structure Inv (s : State ρ) : Prop where
  shell : s.pid = none ∧ s.procs = [] ∧ s.pipes = 0 ∨ s.pid = some 0 ∧ s.procs ≠ []
  fits : ∀ j p, s.procs[j]? = some p → Fits x j p
  order : ∀ j p, s.procs[j]? = some p → (Forked p ↔ j + 1 < s.procs.length)
  pipes : ∀ j p, s.procs[j]? = some p → j + 1 = s.procs.length → s.pipes = pipesAt j p

/-! ## One action -/

/-- What one action of the `j`-th process does to the invariant. -/
structure Advances (j pipes : ℕ) (p next : Process ρ) (forked : List (Process ρ))
    (pipes' : ℕ) : Prop where
  fits : Fits x j next
  forks : forked = [] ∧ (Forked next ↔ Forked p) ∧ (Forked p → pipes' = pipes) ∧
      (¬ Forked p → pipes' = pipesAt j next) ∨
    ∃ child, forked = [child] ∧ ¬ Forked p ∧ Forked next ∧ Fits x (j + 1) child ∧
      ¬ Forked child ∧ pipes' = pipesAt (j + 1) child

variable {x}

/-- An action that forks nobody makes no pipe known to the shell, unless its process is the last. -/
theorem Advances.alone {j pipes pipes' : ℕ} {p next : Process ρ} (fits : Fits x j next)
    (same : Forked next ↔ Forked p) (kept : Forked p → pipes' = pipes)
    (numbered : ¬ Forked p → pipes' = pipesAt j next) : Advances x j pipes p next [] pipes' :=
  ⟨fits, .inl ⟨rfl, same, kept, numbered⟩⟩

/-- An action after the fork, in the parent. -/
theorem Advances.parent {j pipes : ℕ} {p next : Process ρ} (fits : Fits x j next) (before : Forked p)
    (after : Forked next) : Advances x j pipes p next [] pipes := by
  apply Advances.alone fits
  · exact iff_of_true after before
  · exact fun _ => rfl
  · exact fun unforked => absurd before unforked

/-- An action of the last process. -/
theorem Advances.last {j pipes pipes' : ℕ} {p next : Process ρ} (fits : Fits x j next)
    (before : ¬ Forked p) (after : ¬ Forked next) (numbered : pipes' = pipesAt j next) :
    Advances x j pipes p next [] pipes' := by
  apply Advances.alone fits
  · exact iff_of_false after before
  · exact fun forked => absurd forked before
  · exact fun _ => numbered

variable (x)

theorem act_advances {j pipes pipes' : ℕ} {opened : Bool} {p next : Process ρ}
    {forked : List (Process ρ)} (room : x.Fits) (fits : Fits x j p)
    (numbered : ¬ Forked p → pipes = pipesAt j p)
    (opens : ∀ io arg, p.pc = .redirect io arg → (redirection io.mode arg).isSome → opened = true)
    (acts : p.act x pipes opened = some (next, forked, pipes')) :
    Advances x j pipes p next forked pipes' := by
  obtain ⟨index, pc, fds, before⟩ := p
  cases pc with
  | loop =>
    obtain ⟨position, positive, table⟩ := fits
    obtain rfl : pipes = j := numbered not_false
    dsimp only at position positive
    simp only [Process.act] at acts
    split_ifs at acts with last
    · cases acts
      have left : index - 1 + pipes + 1 = x.commands.length := by omega
      apply Advances.last
      · refine ⟨left, fds, rfl, fun fd => ?_⟩
        rw [final, if_neg (by omega), table]
      · exact not_false
      · exact not_not_intro last
      · rfl
    · rcases opened : fds.pipe (.pipe pipes false) (.pipe pipes true) with ⟨⟨r, w⟩, fds'⟩
      obtain ⟨freeR, freeW, apart, -, table'⟩ := fds.pipe_spec _ _ opened
      rw [table] at freeR freeW
      simp only [opened] at acts
      cases acts
      have left : index - 1 + pipes + 1 = x.commands.length := by omega
      have more : 1 ≤ index - 1 := by omega
      apply Advances.last
      · refine ⟨left, more, fresh_of_none x freeR, fresh_of_none x freeW, apart, fun fd => ?_⟩
        rw [table', table]
      · exact not_false
      · exact not_false
      · rfl
  | fork r w =>
    cases acts
    obtain ⟨position, positive, freshR, freshW, apart, table⟩ := fits
    have next : index + (j + 1) = x.commands.length := (Nat.add_assoc ..).symm.trans position
    exact ⟨⟨position, positive, freshR, freshW, apart, table⟩, .inr ⟨_, rfl, not_false, trivial,
      ⟨j, rfl, next, positive, freshR, freshW, apart, table⟩, not_false, numbered not_false⟩⟩
  | parentClose1 r w =>
    cases acts
    obtain ⟨position, positive, freshR, freshW, apart, table⟩ := fits
    refine .parent ⟨position, positive, freshR, fun fd => ?_⟩ trivial trivial
    rw [FdTable.get_close, table]
    grind [Fresh]
  | parentDup2 r =>
    cases acts
    obtain ⟨position, positive, freshR, table⟩ := fits
    refine .parent ⟨position, positive, freshR, fun fd => ?_⟩ trivial trivial
    rw [FdTable.get_dup2 _ ((table r).trans (if_pos rfl)), table]
    grind
  | parentClose0 r =>
    cases acts
    obtain ⟨position, positive, freshR, table⟩ := fits
    dsimp only at position positive
    have unlast : index ≠ 0 := by omega
    refine .parent ⟨position, _, rfl, fun fd => ?_⟩ trivial unlast
    rw [FdTable.get_close, table, final]
    grind [Fresh]
  | childClose0 r w =>
    cases acts
    obtain ⟨i, rfl, position, positive, freshR, freshW, apart, table⟩ := fits
    refine .last ⟨i, rfl, position, positive, freshW, fun fd => ?_⟩ not_false not_false (numbered not_false)
    rw [FdTable.get_close, table]
    grind [Fresh]
  | childDup2 w =>
    cases acts
    obtain ⟨i, rfl, position, positive, freshW, table⟩ := fits
    refine .last ⟨i, rfl, position, positive, freshW, fun fd => ?_⟩ not_false not_false (numbered not_false)
    rw [FdTable.get_dup2 _ ((table w).trans (if_pos rfl)), table]
    grind
  | childClose1 w =>
    cases acts
    obtain ⟨i, rfl, position, positive, freshW, table⟩ := fits
    refine .last ⟨position, positive, fun fd => ?_⟩ not_false not_false (numbered not_false)
    rw [FdTable.get_close, table, entry]
    grind [Fresh]
  | getArgs =>
    obtain ⟨position, left⟩ := fits
    obtain ⟨command, here, result⟩ := Option.map_eq_some_iff.mp acts
    rw [if_pos (room command (List.mem_of_getElem? here))] at result
    cases result
    exact .alone ⟨position, left, command, here, rfl⟩ Iff.rfl (fun _ => rfl) numbered
  | redirect io arg =>
    obtain ⟨position, left, command, here, words⟩ := fits
    -- whether or not there is an operator, only the words and the descriptors change
    obtain ⟨fds', rfl, rfl, rfl⟩ : ∃ fds', next =
        ⟨index, io.next (unredirected io.mode arg), fds', before⟩ ∧ forked = [] ∧ pipes' = pipes := by
      simp only [Process.act] at acts
      rw [unredirected]
      cases found : redirection io.mode arg with
      | none =>
        rw [found] at acts
        cases acts
        exact ⟨_, rfl, rfl, rfl⟩
      | some target =>
        rw [found] at acts
        simp only [opens io arg rfl (found ▸ rfl), if_true] at acts
        cases acts
        exact ⟨_, rfl, rfl, rfl⟩
    cases io with
    | input =>
      refine .alone ⟨position, left, command, here, ?_⟩ Iff.rfl (fun _ => rfl) numbered
      rw [words]
    | output =>
      refine .alone ⟨position, left, command, here, ?_⟩ Iff.rfl (fun _ => rfl) numbered
      rw [words]
  | execvp arg => cases acts
  | crashed => exact fits.elim
  | undefined => exact fits.elim

/-! ## Whole runs -/

theorem inv_start : Inv x start where
  shell := .inl ⟨rfl, rfl, rfl⟩
  fits _ _ here := nomatch here
  order _ _ here := nomatch here
  pipes _ _ here := nomatch here

theorem inv_shell {s t : State ρ} (inv : Inv x s) (taken : step x s .shell = some t) : Inv x t := by
  obtain ⟨idle, rfl⟩ := (step_shell_eq_some_iff x).mp taken
  obtain ⟨unforked, empty, none_⟩ | ⟨forked, -⟩ := inv.shell
  · have only (j : ℕ) (p : Process ρ)
        (here : [⟨x.commands.length, .loop, x.fds.map .shell, none⟩][j]? = some p) :
        j = 0 ∧ p = ⟨x.commands.length, .loop, x.fds.map .shell, none⟩ := by
      cases j with
      | zero => exact ⟨rfl, (Option.some.inj here).symm⟩
      | succ j => nomatch here
    constructor
    · exact .inr ⟨rfl, List.cons_ne_nil _ _⟩
    · intro j p here
      obtain ⟨rfl, rfl⟩ := only j p here
      exact ⟨rfl, List.length_pos_of_ne_nil x.nonempty, fun _ => rfl⟩
    · intro j p here
      obtain ⟨rfl, rfl⟩ := only j p here
      exact iff_of_false not_false (Nat.lt_irrefl 1)
    · intro j p here _
      obtain ⟨rfl, rfl⟩ := only j p here
      exact none_
  · rw [idle] at forked
    nomatch forked

/-- An action that forks nothing. -/
theorem Inv.replace {x : Call ρ} {s : State ρ} {j pipes : ℕ} {p next : Process ρ} (inv : Inv x s)
    (here : s.procs[j]? = some p) (fits : Fits x j next) (same : Forked next ↔ Forked p)
    (kept : Forked p → pipes = s.pipes) (numbered : ¬ Forked p → pipes = pipesAt j next) :
    Inv x { s with procs := s.procs.set j next, pipes := pipes } := by
  have inside : j < s.procs.length := lt_length_of_getElem? here
  constructor
  · rcases inv.shell with ⟨-, none_, -⟩ | ⟨forked, -⟩
    · rw [none_] at inside
      nomatch inside
    · refine .inr ⟨forked, List.ne_nil_of_length_pos ?_⟩
      rw [List.length_set]
      omega
  · intro k q there
    obtain ⟨rfl, rfl⟩ | ⟨-, there⟩ := getElem?_set_cases there
    · exact fits
    · exact inv.fits k q there
  · intro k q there
    rw [List.length_set]
    obtain ⟨rfl, rfl⟩ | ⟨-, there⟩ := getElem?_set_cases there
    · exact same.trans (inv.order k p here)
    · exact inv.order k q there
  · intro k q there last
    rw [List.length_set] at last
    obtain ⟨rfl, rfl⟩ | ⟨other, there⟩ := getElem?_set_cases there
    · exact numbered fun forked => by have := (inv.order k p here).mp forked; omega
    · have forked : Forked p := (inv.order j p here).mpr (by omega)
      rw [kept forked]
      exact inv.pipes k q there last

/-- The last process forks. -/
theorem Inv.fork {x : Call ρ} {s : State ρ} {j pipes : ℕ} {p next child : Process ρ}
    (inv : Inv x s) (here : s.procs[j]? = some p) (unforked : ¬ Forked p) (fits : Fits x j next)
    (forked : Forked next) (born : Fits x (j + 1) child) (fresh : ¬ Forked child)
    (numbered : pipes = pipesAt (j + 1) child) :
    Inv x { s with procs := s.procs.set j next ++ [child], pipes := pipes } := by
  have inside : j < s.procs.length := lt_length_of_getElem? here
  have last : j + 1 = s.procs.length := by
    have := (inv.order j p here).not.mp unforked
    omega
  have cases_ (k : ℕ) (q : Process ρ) (there : (s.procs.set j next ++ [child])[k]? = some q) :
      k = j ∧ q = next ∨ k = j + 1 ∧ q = child ∨ k < j ∧ s.procs[k]? = some q := by
    obtain ⟨rfl, rfl⟩ | ⟨before, there⟩ := getElem?_append_cases there
    · exact .inr (.inl ⟨by rw [List.length_set, last], rfl⟩)
    · rw [List.length_set] at before
      obtain hit | ⟨other, there⟩ := getElem?_set_cases there
      · exact .inl hit
      · exact .inr (.inr ⟨by omega, there⟩)
  have length : (s.procs.set j next ++ [child]).length = j + 1 + 1 := by
    rw [List.length_append, List.length_set, List.length_singleton, last]
  constructor
  · rcases inv.shell with ⟨-, none_, -⟩ | ⟨started, -⟩
    · rw [none_] at inside
      nomatch inside
    · exact .inr ⟨started, List.append_ne_nil_of_right_ne_nil _ (List.cons_ne_nil _ _)⟩
  · intro k q there
    obtain ⟨rfl, rfl⟩ | ⟨rfl, rfl⟩ | ⟨-, there⟩ := cases_ k q there
    · exact fits
    · exact born
    · exact inv.fits k q there
  · intro k q there
    rw [length]
    obtain ⟨rfl, rfl⟩ | ⟨rfl, rfl⟩ | ⟨before, there⟩ := cases_ k q there
    · exact iff_of_true forked (Nat.lt_succ_self _)
    · exact iff_of_false fresh (Nat.lt_irrefl _)
    · exact iff_of_true ((inv.order k q there).mpr (by omega)) (by omega)
  · intro k q there end_
    rw [length] at end_
    obtain ⟨rfl, rfl⟩ | ⟨rfl, rfl⟩ | ⟨before, there⟩ := cases_ k q there
    · omega
    · exact numbered
    · omega

theorem inv_step {s t : State ρ} {e : Event} (room : x.Fits) (inv : Inv x s) (opens : Opens s e)
    (taken : step x s e = some t) : Inv x t := by
  cases e with
  | shell => exact inv_shell x inv taken
  | act j opened =>
    obtain ⟨p, next, forked, pipes, here, acted, rfl⟩ := (step_act_eq_some_iff x).mp taken
    have advances := act_advances x room (inv.fits j p here)
      (fun unforked => inv.pipes j p here (by
        have inside := lt_length_of_getElem? here
        have := (inv.order j p here).not.mp unforked
        omega))
      (fun io arg => opens p io arg here) acted
    obtain ⟨fits, ⟨rfl, same, kept, numbered⟩ | ⟨child, rfl, unforked, forks, born, fresh,
      numbered⟩⟩ := advances
    · rw [List.append_nil]
      exact inv.replace here fits same kept numbered
    · exact inv.fork here unforked fits forks born fresh numbered

end SystemProgramming.Shell
