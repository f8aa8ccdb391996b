import SystemProgramming.Shell.Execution

/-! # Who holds the ends of a pipe

At `execvp` a process holds no end of a pipe but those on its own descriptors 0 and 1, and before that every end is
with a process that is on its way. So the end of a stream is seen, and a write ends a program, only where the
program at the other end has ended.
-/

namespace SystemProgramming.Shell

open Lib Filters

variable {ρ σ : Type*} {x : Call ρ}

/-- No command has a redirection. -/
def NoRedirections (x : Call ρ) : Prop :=
  ∀ command ∈ x.commands, ∀ io : Io, redirection io.mode (getArgs x.junk command) = none

/-! ## The descriptors of a process -/

/-- The descriptors are those with which the process has left the loop. -/
def Unredirected (p : Process ρ) : Prop :=
  match p.pc with
  | .getArgs => p.before = some p.fds
  | .redirect _ _ => p.before = some p.fds
  | .execvp _ => p.before = some p.fds
  | _ => True

section

variable {j : ℕ} {p next : Process ρ} {forked : List (Process ρ)} {pipes pipes' : ℕ} {opened : Bool}

theorem unredirected_eq {arg : List Bytes} (io : Io) (none : redirection io.mode arg = none) :
    unredirected io.mode arg = arg := by
  rw [unredirected, none]
  rfl

/-- There is nothing to open. -/
theorem redirection_of_fits {io : Io} {arg : List Bytes} (plain : NoRedirections x) (fits : Fits x j p)
    (here : p.pc = .redirect io arg) : redirection io.mode arg = none := by
  rw [Fits, here] at fits
  obtain ⟨-, -, command, known, words⟩ := fits
  have none := plain command (List.mem_of_getElem? known)
  cases io with
  | input => rw [words, none .input]
  | output => rw [words, unredirected_eq .input (none .input), none .output]

theorem act_unredirected (plain : NoRedirections x) (fits : Fits x j p) (same : Unredirected p)
    (acts : p.act x pipes opened = some (next, forked, pipes')) :
    Unredirected next ∧ ∀ child ∈ forked, Unredirected child := by
  obtain ⟨index, pc, fds, before⟩ := p
  cases pc with
  | loop =>
    simp only [Process.act] at acts
    split_ifs at acts
    · cases acts
      exact ⟨rfl, by simp⟩
    · cases acts
      exact ⟨trivial, by simp⟩
  | fork r w =>
    cases acts
    refine ⟨trivial, fun child born => ?_⟩
    rw [List.mem_singleton.mp born]
    trivial
  | parentClose0 r =>
    cases acts
    exact ⟨rfl, by simp⟩
  | parentClose1 | parentDup2 | childClose0 | childDup2 | childClose1 =>
    cases acts
    exact ⟨trivial, by simp⟩
  | getArgs =>
    obtain ⟨command, -, result⟩ := Option.map_eq_some_iff.mp acts
    split_ifs at result
    · cases result
      exact ⟨same, by simp⟩
    · cases result
      exact ⟨trivial, by simp⟩
  | redirect io arg =>
    have none := redirection_of_fits plain fits rfl
    simp only [Process.act, none] at acts
    cases acts
    cases io with
    | input => exact ⟨same, by simp⟩
    | output => exact ⟨same, by simp⟩
  | execvp arg => cases acts
  | crashed => cases acts
  | undefined => cases acts

end

section

variable {s t : State ρ} {e : Event} {j k : ℕ} {p : Process ρ} {arg : List Bytes}

theorem opens_of_noRedirections (plain : NoRedirections x) (inv : Inv x s) (e : Event) : Opens s e := by
  cases e with
  | shell => trivial
  | act j opened =>
    intro p io arg here at_ found
    rw [redirection_of_fits plain (inv.fits j p here) at_] at found
    cases found

theorem step_unredirected (plain : NoRedirections x) (inv : Inv x s) (same : ∀ p ∈ s.procs, Unredirected p)
    (taken : step x s e = some t) : ∀ p ∈ t.procs, Unredirected p := by
  intro q member
  cases e with
  | shell =>
    obtain ⟨-, rfl⟩ := (step_shell_eq_some_iff x).mp taken
    rw [List.mem_singleton.mp member]
    trivial
  | act j opened =>
    obtain ⟨p, next, forked, pipes, here, acted, rfl⟩ := (step_act_eq_some_iff x).mp taken
    obtain ⟨after, born⟩ := act_unredirected plain (inv.fits j p here) (same p (List.mem_of_getElem? here)) acted
    rcases List.mem_append.mp member with old | new
    · rcases List.mem_or_eq_of_mem_set old with kept | rfl
      · exact same q kept
      · exact after
    · exact born q new

/-- The process has left the loop. -/
def Left (p : Process ρ) : Prop :=
  match p.pc with
  | .getArgs => True
  | .redirect _ _ => True
  | .execvp _ => True
  | _ => False

theorem fds_of_left (fits : Fits x j p) (same : Unredirected p) (left : Left p) (fd : ℕ) :
    p.fds.get fd = final x j fd := by
  obtain ⟨index, pc, fds, before⟩ := p
  cases pc with
  | getArgs =>
    obtain ⟨-, t, known, table⟩ := fits
    obtain rfl := Option.some.inj (known.symm.trans same)
    exact table fd
  | redirect io arg =>
    obtain ⟨-, ⟨t, known, table⟩, -⟩ := fits
    obtain rfl := Option.some.inj (known.symm.trans same)
    exact table fd
  | execvp arg =>
    obtain ⟨-, ⟨t, known, table⟩, -⟩ := fits
    obtain rfl := Option.some.inj (known.symm.trans same)
    exact table fd
  | loop | fork | parentClose1 | parentDup2 | parentClose0 | childClose0 | childDup2 | childClose1 | crashed
  | undefined =>
    exact left.elim

/-- What a process has come to `execvp` with. -/
theorem arrived_fits (plain : NoRedirections x) (fits : Fits x j p) (same : Unredirected p)
    (here : p.pc = .execvp arg) :
    p.index + j + 1 = x.commands.length ∧ (∀ fd, p.fds.get fd = final x j fd) ∧
      ∃ command, x.commands[p.index]? = some command ∧ arg = getArgs x.junk command := by
  have table := fds_of_left fits same (by rw [Left, here]; trivial)
  rw [Fits, here] at fits
  obtain ⟨position, -, command, known, words⟩ := fits
  have none := plain command (List.mem_of_getElem? known)
  refine ⟨position, table, command, known, ?_⟩
  rw [words, unredirected_eq .input (none .input), unredirected_eq .output (none .output)]

/-! ## Who holds the ends of a pipe -/

theorem entry_write {fd : ℕ} (here : entry x j fd = some (.pipe k true)) : fd = 1 ∧ j = k + 1 := by
  cases j with
  | zero =>
    obtain ⟨target, -, same⟩ := Option.map_eq_some_iff.mp here
    cases same
  | succ j =>
    rw [entry] at here
    split_ifs at here with stdout
    · cases here
      exact ⟨stdout, rfl⟩
    · exact absurd (entry_clean x here).1 stdout

theorem entry_ne_read (fd : ℕ) : entry x j fd ≠ some (.pipe k false) := by
  intro here
  cases (entry_clean x here).2

/-- The process of the writer holds the writing end, from the fork on. -/
theorem holds_write (fits : Fits x (k + 1) p) (same : Unredirected p) : ∃ fd, p.fds.get fd = some (.pipe k true) := by
  have own : entry x (k + 1) 1 = some (.pipe k true) := rfl
  have later : final x (k + 1) 1 = some (.pipe k true) := by rw [final, if_neg (by simp), own]
  obtain ⟨index, pc, fds, before⟩ := p
  cases pc with
  | loop => exact ⟨1, (fits.2.2 1).trans own⟩
  | fork r w =>
    obtain ⟨-, -, freshR, freshW, -, table⟩ := fits
    exact ⟨1, by rw [table, if_neg freshW.2.2.symm, if_neg freshR.2.2.symm, own]⟩
  | parentClose1 r w =>
    obtain ⟨-, -, freshR, freshW, -, table⟩ := fits
    exact ⟨1, by rw [table, if_neg freshW.2.2.symm, if_neg freshR.2.2.symm, own]⟩
  | parentDup2 r =>
    obtain ⟨-, -, freshR, table⟩ := fits
    exact ⟨1, by rw [table, if_neg freshR.2.2.symm, own]⟩
  | parentClose0 r =>
    obtain ⟨-, -, freshR, table⟩ := fits
    refine ⟨1, ?_⟩
    rw [table, if_neg, own]
    rintro (stdin | one)
    · exact freshR.2.2 stdin.symm
    · cases one
  | childClose0 r w =>
    obtain ⟨i, same, -, -, -, -, -, table⟩ := fits
    obtain rfl := Nat.succ.inj same
    exact ⟨w, (table w).trans (if_pos rfl)⟩
  | childDup2 w =>
    obtain ⟨i, same, -, -, -, table⟩ := fits
    obtain rfl := Nat.succ.inj same
    exact ⟨w, (table w).trans (if_pos rfl)⟩
  | childClose1 w =>
    obtain ⟨i, same, -, -, -, table⟩ := fits
    obtain rfl := Nat.succ.inj same
    exact ⟨w, (table w).trans (if_pos (.inl rfl))⟩
  | getArgs => exact ⟨1, (fds_of_left fits same trivial 1).trans later⟩
  | redirect io arg => exact ⟨1, (fds_of_left fits same trivial 1).trans later⟩
  | execvp arg => exact ⟨1, (fds_of_left fits same trivial 1).trans later⟩
  | crashed => exact fits.elim
  | undefined => exact fits.elim

/-- The process of the reader holds the reading end once it has forked the writer. -/
theorem holds_read (fits : Fits x k p) (same : Unredirected p) (forked : Forked p) (more : k + 1 < x.commands.length) :
    ∃ fd, p.fds.get fd = some (.pipe k false) := by
  have later : final x k 0 = some (.pipe k false) := if_pos ⟨more, rfl⟩
  obtain ⟨index, pc, fds, before⟩ := p
  cases pc with
  | loop => exact forked.elim
  | fork r w => exact forked.elim
  | parentClose1 r w =>
    obtain ⟨-, -, -, -, apart, table⟩ := fits
    exact ⟨r, by rw [table, if_neg apart, if_pos rfl]⟩
  | parentDup2 r =>
    obtain ⟨-, -, -, table⟩ := fits
    exact ⟨r, (table r).trans (if_pos rfl)⟩
  | parentClose0 r =>
    obtain ⟨-, -, -, table⟩ := fits
    exact ⟨r, (table r).trans (if_pos (.inl rfl))⟩
  | childClose0 r w => exact forked.elim
  | childDup2 w => exact forked.elim
  | childClose1 w => exact forked.elim
  | getArgs => exact ⟨0, (fds_of_left fits same trivial 0).trans later⟩
  | redirect io arg => exact ⟨0, (fds_of_left fits same trivial 0).trans later⟩
  | execvp arg => exact ⟨0, (fds_of_left fits same trivial 0).trans later⟩
  | crashed => exact fits.elim
  | undefined => exact fits.elim

/-- Nobody else holds the reading end, but the writer until it closes it. -/
theorem holder_read {i fd : ℕ} (fits : Fits x i p) (same : Unredirected p)
    (holds : p.fds.get fd = some (.pipe k false)) : i = k ∨ i = k + 1 ∧ ∀ arg, p.pc ≠ .execvp arg := by
  have left (here : final x i fd = some (.pipe k false)) : i = k := by
    rw [final] at here
    split_ifs at here
    · cases here
      rfl
    · exact absurd here (entry_ne_read fd)
  obtain ⟨index, pc, fds, before⟩ := p
  cases pc with
  | loop => exact absurd ((fits.2.2 fd).symm.trans holds) (entry_ne_read fd)
  | fork r w =>
    obtain ⟨-, -, -, -, -, table⟩ := fits
    rw [table] at holds
    split_ifs at holds
    · cases holds
    · cases holds
      exact .inl rfl
    · exact absurd holds (entry_ne_read fd)
  | parentClose1 r w =>
    obtain ⟨-, -, -, -, -, table⟩ := fits
    rw [table] at holds
    split_ifs at holds
    · cases holds
    · cases holds
      exact .inl rfl
    · exact absurd holds (entry_ne_read fd)
  | parentDup2 r =>
    obtain ⟨-, -, -, table⟩ := fits
    rw [table] at holds
    split_ifs at holds
    · cases holds
      exact .inl rfl
    · exact absurd holds (entry_ne_read fd)
  | parentClose0 r =>
    obtain ⟨-, -, -, table⟩ := fits
    rw [table] at holds
    split_ifs at holds
    · cases holds
      exact .inl rfl
    · exact absurd holds (entry_ne_read fd)
  | childClose0 r w =>
    obtain ⟨i, rfl, -, -, -, -, -, table⟩ := fits
    rw [table] at holds
    split_ifs at holds
    · cases holds
    · cases holds
      exact .inr ⟨rfl, fun arg none => by cases none⟩
    · exact absurd holds (entry_ne_read fd)
  | childDup2 w =>
    obtain ⟨i, rfl, -, -, -, table⟩ := fits
    rw [table] at holds
    split_ifs at holds
    · cases holds
    · exact absurd holds (entry_ne_read fd)
  | childClose1 w =>
    obtain ⟨i, rfl, -, -, -, table⟩ := fits
    rw [table] at holds
    split_ifs at holds
    · cases holds
    · exact absurd holds (entry_ne_read fd)
  | getArgs => exact .inl (left ((fds_of_left fits same trivial fd).symm.trans holds))
  | redirect io arg => exact .inl (left ((fds_of_left fits same trivial fd).symm.trans holds))
  | execvp arg => exact .inl (left ((fds_of_left fits same trivial fd).symm.trans holds))
  | crashed => exact fits.elim
  | undefined => exact fits.elim

end

/-! ## The ends of a pipe in a run -/

section

variable {r t : Running ρ σ} {id j k : ℕ} {write : Bool}

theorem holds_iff {p : Process ρ} : p.holds id write = true ↔ ∃ fd, p.fds.get fd = some (.pipe id write) := by
  rw [Process.holds, List.any_eq_true]
  constructor
  · rintro ⟨fd, -, found⟩
    split at found
    · next other kind here =>
      rw [Bool.and_eq_true, beq_iff_eq, beq_iff_eq] at found
      exact ⟨fd, by rw [here, found.1, found.2]⟩
    · cases found
  · rintro ⟨fd, here⟩
    refine ⟨fd, ?_, by rw [here]; simp⟩
    rw [List.mem_range]
    by_contra above
    cases here.symm.trans (p.fds.closed fd (Nat.not_lt.mp above))

theorem held_iff : r.held id write = true ↔ ∃ (j : ℕ) (p : Process ρ), r.shell.procs[j]? = some p ∧
    (r.images j).alive = true ∧ ∃ fd, p.fds.get fd = some (.pipe id write) := by
  rw [Running.held, List.any_eq_true]
  constructor
  · rintro ⟨⟨p, j⟩, member, found⟩
    rw [Bool.and_eq_true, holds_iff] at found
    exact ⟨j, p, List.mem_zipIdx_iff_getElem?.mp member, found⟩
  · rintro ⟨j, p, here, found⟩
    refine ⟨(p, j), List.mem_zipIdx_iff_getElem?.mpr here, ?_⟩
    rw [Bool.and_eq_true, holds_iff]
    exact found

theorem alive_eq_false {image : Image σ} (dead : image.alive = false) : image = .exited := by
  cases image with
  | loading => cases dead
  | running program => cases dead
  | exited => rfl

/-- What holds all the time. -/
structure Live (x : Call ρ) (r : Running ρ σ) : Prop where
  shell : Inv x r.shell
  unredirected : ∀ p ∈ r.shell.procs, Unredirected p
  arrived : ∀ j, r.images j ≠ .loading → ∃ p arg, r.shell.procs[j]? = some p ∧ p.pc = .execvp arg

variable (live : Live x r)
include live

theorem Live.table (plain : NoRedirections x) {p : Process ρ} {arg : List Bytes} (here : r.shell.procs[j]? = some p)
    (at_ : p.pc = .execvp arg) : p.index + j + 1 = x.commands.length ∧ (∀ fd, p.fds.get fd = final x j fd) ∧
      ∃ command, x.commands[p.index]? = some command ∧ arg = getArgs x.junk command :=
  arrived_fits plain (live.shell.fits j p here) (live.unredirected p (List.mem_of_getElem? here)) at_

/-- The end of a stream is seen only when its writer has ended. -/
theorem Live.writer_exited (plain : NoRedirections x) {p : Process ρ} {arg : List Bytes}
    (here : r.shell.procs[j]? = some p) (at_ : p.pc = .execvp arg) (more : j + 1 < x.commands.length)
    (free : r.held j true = false) :
    r.images (j + 1) = .exited := by
  obtain ⟨position, -⟩ := live.table plain here at_
  have forked : Forked p := by
    rw [Forked, at_]
    dsimp only
    omega
  have inside := (live.shell.order j p here).mp forked
  have there : r.shell.procs[j + 1]? = some r.shell.procs[j + 1] := List.getElem?_eq_getElem inside
  have holds := holds_write (live.shell.fits _ _ there) (live.unredirected _ (List.mem_of_getElem? there))
  apply alive_eq_false
  rw [← Bool.not_eq_true]
  intro alive
  have held : r.held j true = true := held_iff.mpr ⟨_, _, there, alive, holds⟩
  rw [free] at held
  cases held

/-- A write ends a program only when its reader has ended, and then it does. -/
theorem Live.reader_exited_iff (plain : NoRedirections x) {p : Process ρ} {arg : List Bytes}
    (here : r.shell.procs[k + 1]? = some p) (at_ : p.pc = .execvp arg) :
    r.held k false = false ↔ r.images k = .exited := by
  obtain ⟨position, -⟩ := live.table plain here at_
  have inside := lt_length_of_getElem? here
  have there : r.shell.procs[k]? = some r.shell.procs[k] := List.getElem?_eq_getElem (by omega)
  rw [← Bool.not_eq_true, held_iff]
  constructor
  · intro free
    have holds := holds_read (live.shell.fits _ _ there) (live.unredirected _ (List.mem_of_getElem? there))
      ((live.shell.order k _ there).mpr inside) (by omega)
    apply alive_eq_false
    rw [← Bool.not_eq_true]
    exact fun alive => free ⟨k, _, there, alive, holds⟩
  · rintro exited ⟨i, q, found, alive, fd, holds⟩
    rcases holder_read (live.shell.fits i q found) (live.unredirected q (List.mem_of_getElem? found)) holds with
      rfl | ⟨rfl, elsewhere⟩
    · rw [exited] at alive
      cases alive
    · cases here.symm.trans found
      exact elsewhere arg at_

end

end SystemProgramming.Shell
