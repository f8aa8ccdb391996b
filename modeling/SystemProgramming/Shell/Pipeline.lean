import SystemProgramming.Shell.Invariant

/-! # The finished pipeline

Every action brings its process closer to `execvp`, so every run ends. When nothing can act any more
and no `fopen` has failed, all processes are at `execvp`, and the process that did not fork
is the one for the first command. A redirection whose file cannot be opened ends its process early, and a
command with more than 511 arguments leaves the array of `getArgs`.
-/

namespace SystemProgramming.Shell

open Lib

variable {ρ : Type*} (x : Call ρ)

/-! ## Termination -/

/-- A bound on the actions of a process and of those it will fork. -/
def Process.fuel (p : Process ρ) : ℕ :=
  match p.pc with
  | .loop => 20 * p.index + 5
  | .fork _ _ => 20 * p.index + 16
  | .parentClose1 _ _ => 7
  | .parentDup2 _ => 6
  | .parentClose0 _ => 5
  | .childClose0 _ _ => 20 * p.index + 8
  | .childDup2 _ => 20 * p.index + 7
  | .childClose1 _ => 20 * p.index + 6
  | .getArgs => 4
  | .redirect .input _ => 3
  | .redirect .output _ => 2
  | .execvp _ => 0
  | .crashed => 0
  | .undefined => 0

def State.fuel (s : State ρ) : ℕ :=
  (if s.pid = none then 20 * x.commands.length + 6 else 0) + (s.procs.map Process.fuel).sum

theorem act_fuel {pipes pipes' : ℕ} {opened : Bool} {p next : Process ρ} {forked : List (Process ρ)}
    (acts : p.act x pipes opened = some (next, forked, pipes')) :
    next.fuel + (forked.map Process.fuel).sum < p.fuel := by
  obtain ⟨index, pc, fds, before⟩ := p
  cases pc with
  | loop =>
    simp only [Process.act] at acts
    split_ifs at acts with last
    · cases acts
      simp [Process.fuel]
    · cases acts
      simp [Process.fuel]
      omega
  | fork r w => cases acts; simp [Process.fuel]; omega
  | parentClose1 r w => cases acts; simp [Process.fuel]
  | parentDup2 r => cases acts; simp [Process.fuel]
  | parentClose0 r => cases acts; simp [Process.fuel]
  | childClose0 r w => cases acts; simp [Process.fuel]
  | childDup2 w => cases acts; simp [Process.fuel]
  | childClose1 w => cases acts; simp [Process.fuel]
  | getArgs =>
    obtain ⟨command, -, result⟩ := Option.map_eq_some_iff.mp acts
    split_ifs at result
    · cases result
      simp [Process.fuel]
    · cases result
      simp [Process.fuel]
  | redirect io arg =>
    simp only [Process.act] at acts
    cases io with
    | input => split at acts <;> [skip; split_ifs at acts] <;> cases acts <;> simp [Process.fuel, Io.next]
    | output => split at acts <;> [skip; split_ifs at acts] <;> cases acts <;> simp [Process.fuel, Io.next]
  | execvp arg => cases acts
  | crashed => cases acts
  | undefined => cases acts

/-- Every event brings the pipeline closer to its end. -/
theorem step_fuel {s t : State ρ} {e : Event} (taken : step x s e = some t) :
    t.fuel x < s.fuel x := by
  cases e with
  | shell =>
    obtain ⟨unforked, rfl⟩ := (step_shell_eq_some_iff x).mp taken
    simp only [State.fuel, unforked, Process.fuel, List.map_cons, List.map_nil, List.sum_cons,
      List.sum_nil, if_true, reduceCtorEq, if_false]
    omega
  | act j opened =>
    obtain ⟨p, next, forked, pipes, here, acted, rfl⟩ := (step_act_eq_some_iff x).mp taken
    have less := act_fuel x acted
    have total := sum_map_set Process.fuel here next
    simp only [State.fuel, List.map_append, List.sum_append]
    omega

/-- Every run ends. -/
theorem length_le_of_exec {es : List Event} {s : State ρ} (ran : exec (step x) start es = some s) :
    es.length ≤ (start : State ρ).fuel x := by
  have := exec_length_le (μ := State.fuel x) (fun _ _ _ taken => step_fuel x taken) ran
  omega

/-- Some run ends in which all files can be opened. -/
theorem exists_finished : ∃ es s, exec (step x) start es = some s ∧ AllSteps (step x) Opens start es ∧
    Terminal (step x) s := by
  have progress : ∀ s : State ρ, True → ¬ Terminal (step x) s →
      ∃ e t, Opens s e ∧ step x s e = some t ∧ True ∧ t.fuel x < s.fuel x := by
    intro s _ unfinished
    obtain ⟨e, moves⟩ := not_forall.mp unfinished
    obtain ⟨t, taken⟩ := Option.ne_none_iff_exists'.mp moves
    cases e with
    | shell => exact ⟨.shell, t, trivial, taken, trivial, step_fuel x taken⟩
    | act j opened =>
      obtain ⟨p, next, forked, pipes, here, acted, -⟩ := (step_act_eq_some_iff x).mp taken
      -- whether a file can be opened does not matter for whether the process can act
      obtain ⟨other, acts⟩ : ∃ other, p.act x s.pipes true = some other := by
        obtain ⟨index, pc, fds, before⟩ := p
        cases pc with
        | redirect io arg =>
          simp only [Process.act]
          split
          · exact ⟨_, rfl⟩
          · exact ⟨_, rfl⟩
        | _ => exact ⟨_, acted⟩
      have moved : step x s (.act j true) = some { s with
          procs := s.procs.set j other.1 ++ other.2.1, pipes := other.2.2 } :=
        (step_act_eq_some_iff x).mpr ⟨p, _, _, _, here, acts, rfl⟩
      exact ⟨.act j true, _, fun _ _ _ _ _ _ => rfl, moved, trivial, step_fuel x moved⟩
  obtain ⟨es, s, ran, opens, -, terminal⟩ := exists_allSteps_of_progress progress trivial
  exact ⟨es, s, ran, opens, terminal⟩

/-- Descriptors 0, 1 and 2. -/
def terminalFds : FdTable Unit where
  get fd := if fd < 3 then some () else none
  bound := 3
  closed _ above := if_neg (by omega)

/-! ## The finished pipeline -/

/-- The words handed to `execvp`. -/
def execArgs (command : Bytes) : List Bytes :=
  unredirected Io.output.mode (unredirected Io.input.mode (getArgs x.junk command))

/-- The process created at a position has reached `execvp` with the words of `commands[i]`. -/
def Runs (s : State ρ) (i position : ℕ) (p : Process ρ) : Prop :=
  s.procs[position]? = some p ∧ p.index = i ∧
    ∃ command, x.commands[i]? = some command ∧ p.pc = .execvp (execArgs x command)

/-- Before `redirect` the process held no end of a pipe but its own on stdin and stdout. -/
def Clean (p : Process ρ) : Prop :=
  ∃ t, p.before = some t ∧ ∀ fd id write, t.get fd = some (.pipe id write) → fd = if write then 1 else 0

/-- The pipeline the command line describes. -/
structure Pipeline (s : State ρ) : Prop where
  count : s.procs.length = x.commands.length
  runs : ∀ i < x.commands.length, ∃! position, ∃ p, Runs x s i position p
  waits : ∃ position p, s.pid = some position ∧ Runs x s (x.commands.length - 1) position p
  /-- Neighbours are joined by a pipe. -/
  joined : ∀ i j k p q, Runs x s (i + 1) j p → Runs x s i k q → ∃ id t u, p.before = some t ∧
    q.before = some u ∧ t.get 0 = some (.pipe id false) ∧ u.get 1 = some (.pipe id true)
  /-- The ends of the pipeline are the shell's. -/
  stdin : ∀ k p, Runs x s 0 k p → ∃ t, p.before = some t ∧ t.get 0 = (x.fds.get 0).map .shell
  stdout : ∀ k p, Runs x s (x.commands.length - 1) k p →
    ∃ t, p.before = some t ∧ t.get 1 = (x.fds.get 1).map .shell
  clean : ∀ p ∈ s.procs, Clean p

/-- No end of a pipe lies elsewhere than on stdin or stdout. -/
theorem entry_clean {j fd id : ℕ} {write : Bool} (here : entry x j fd = some (.pipe id write)) :
    fd = 1 ∧ write = true := by
  induction j with
  | zero =>
    obtain ⟨target, -, same⟩ := Option.map_eq_some_iff.mp here
    nomatch same
  | succ j ih =>
    rw [entry] at here
    split_ifs at here with stdout
    · cases here
      exact ⟨stdout, rfl⟩
    · exact ih here

theorem entry_stdin (j : ℕ) : entry x j 0 = (x.fds.get 0).map .shell := by
  induction j with
  | zero => rfl
  | succ j ih => rw [entry, if_neg (by decide), ih]

theorem clean_of_final {j : ℕ} {p : Process ρ}
    (left : ∃ t, p.before = some t ∧ ∀ fd, t.get fd = final x j fd) : Clean p := by
  obtain ⟨t, before, fds⟩ := left
  refine ⟨t, before, fun fd id write holds => ?_⟩
  rw [fds, final] at holds
  split_ifs at holds with stdin
  · cases holds
    exact stdin.2
  · obtain ⟨rfl, rfl⟩ := entry_clean x holds
    rfl

section

variable {x} {s : State ρ}

/-- Where nothing can act and no `fopen` has failed, every process has reached `execvp`. -/
theorem Inv.arrived (inv : Inv x s) (terminal : Terminal (step x) s) {j : ℕ} {p : Process ρ}
    (here : s.procs[j]? = some p) :
    p.index + j + 1 = x.commands.length ∧ Runs x s p.index j p ∧
      ∃ t, p.before = some t ∧ ∀ fd, t.get fd = final x j fd := by
  have blocked : p.act x s.pipes true = none := by
    have stuck := terminal (.act j true)
    simp only [step, here, Option.bind_some, Option.map_eq_none_iff] at stuck
    exact stuck
  have fits := inv.fits j p here
  obtain ⟨index, pc, fds, before⟩ := p
  cases pc with
  | loop =>
    simp only [Process.act] at blocked
    split_ifs at blocked
  | fork r w => cases blocked
  | parentClose1 r w => cases blocked
  | parentDup2 r => cases blocked
  | parentClose0 r => cases blocked
  | childClose0 r w => cases blocked
  | childDup2 w => cases blocked
  | childClose1 w => cases blocked
  | getArgs =>
    have inside : index < x.commands.length := by have := fits.1; dsimp only at this; omega
    simp only [Process.act, List.getElem?_eq_getElem inside] at blocked
    cases blocked
  | redirect io arg =>
    simp only [Process.act] at blocked
    split at blocked
    · cases blocked
    · cases blocked
  | execvp arg =>
    obtain ⟨position, left, command, known, words⟩ := fits
    exact ⟨position, ⟨here, rfl, command, known, by rw [words, execArgs]⟩, left⟩
  | crashed => exact fits.elim
  | undefined => exact fits.elim

theorem Inv.pipeline (inv : Inv x s) (terminal : Terminal (step x) s) : Pipeline x s := by
  have nonempty := List.length_pos_of_ne_nil x.nonempty
  -- the shell has forked, so there is a last process
  obtain ⟨unforked, -, -⟩ | ⟨forked, some_⟩ := inv.shell
  · have stuck := terminal .shell
    simp only [step, unforked] at stuck
    cases stuck
  have started := List.length_pos_of_ne_nil some_
  have all (j : ℕ) (inside : j < s.procs.length) : ∃ p, s.procs[j]? = some p :=
    ⟨_, List.getElem?_eq_getElem inside⟩
  have count : s.procs.length = x.commands.length := by
    obtain ⟨p, here⟩ := all (s.procs.length - 1) (by omega)
    obtain ⟨position, ⟨-, -, _, -, arrived⟩, -⟩ := inv.arrived terminal here
    have unforked : ¬ Forked p := by rw [inv.order _ p here]; omega
    rw [Forked, arrived, not_not] at unforked
    omega
  have position {i j : ℕ} {p : Process ρ} (runs : Runs x s i j p) : i + j + 1 = x.commands.length := by
    obtain ⟨here, rfl, -⟩ := runs
    exact (inv.arrived terminal here).1
  have table {i j : ℕ} {p : Process ρ} (runs : Runs x s i j p) :
      ∃ t, p.before = some t ∧ ∀ fd, t.get fd = final x j fd :=
    (inv.arrived terminal runs.1).2.2
  have stage (i : ℕ) (less : i < x.commands.length) :
      ∃ p, Runs x s i (x.commands.length - 1 - i) p := by
    obtain ⟨p, here⟩ := all (x.commands.length - 1 - i) (by omega)
    obtain ⟨position, runs, -⟩ := inv.arrived terminal here
    obtain rfl : p.index = i := by omega
    exact ⟨p, runs⟩
  refine ⟨count, fun i less => ?_, ?_, ?_, ?_, ?_, ?_⟩
  · obtain ⟨p, runs⟩ := stage i less
    refine ⟨_, ⟨p, runs⟩, ?_⟩
    rintro k ⟨q, other⟩
    have := position other
    omega
  · obtain ⟨p, runs⟩ := stage (x.commands.length - 1) (by omega)
    rw [Nat.sub_self] at runs
    exact ⟨0, p, forked, runs⟩
  · intro i j k p q reader writer
    obtain ⟨t, beforeP, fdsP⟩ := table reader
    obtain ⟨u, beforeQ, fdsQ⟩ := table writer
    have places := position reader
    obtain rfl : k = j + 1 := by have := position writer; omega
    refine ⟨j, t, u, beforeP, beforeQ, ?_, ?_⟩
    · rw [fdsP, final, if_pos ⟨by omega, rfl⟩]
    · rw [fdsQ, final, if_neg (by omega), entry, if_pos rfl]
  · intro k p runs
    obtain ⟨t, before, fds⟩ := table runs
    have place := position runs
    exact ⟨t, before, by rw [fds, final, if_neg (by omega), entry_stdin]⟩
  · intro k p runs
    obtain ⟨t, before, fds⟩ := table runs
    obtain rfl : k = 0 := by have := position runs; omega
    exact ⟨t, before, by rw [fds, final, if_neg (by omega), entry]⟩
  · intro p member
    obtain ⟨j, here⟩ := List.getElem?_of_mem member
    exact clean_of_final x (inv.arrived terminal here).2.2

end

/-- What the command line asks for: no process that has reached `execvp` holds more of the pipes than
its own ends, and when nothing is left to do the pipeline is complete. -/
def Sound (s : State ρ) : Prop :=
  (∀ p ∈ s.procs, ∀ arg, p.pc = .execvp arg → Clean p) ∧ (Terminal (step x) s → Pipeline x s)

/-- Every run ends, and all states are sound. -/
def Builds : Prop :=
  (∃ bound, ∀ es s, exec (step x) start es = some s → es.length ≤ bound) ∧
    ∀ s, Reachable (step x) start s → Sound x s

theorem Inv.sound {s : State ρ} (inv : Inv x s) : Sound x s := by
  refine ⟨fun p member arg arrived => ?_, inv.pipeline⟩
  obtain ⟨j, here⟩ := List.getElem?_of_mem member
  have fits := inv.fits j p here
  rw [Fits, arrived] at fits
  exact clean_of_final x fits.2.1

/-- Every run ends, and as long as every file that is redirected to or from can be opened and no command has
more arguments than there is room for, all states of the run are sound. -/
theorem sound_of_opens :
    (∃ bound, ∀ es s, exec (step x) start es = some s → es.length ≤ bound) ∧
      (x.Fits → ∀ es s, exec (step x) start es = some s → AllSteps (step x) Opens start es → Sound x s) := by
  constructor
  · exact ⟨(start : State ρ).fuel x, fun es s ran => length_le_of_exec x ran⟩
  · intro room es s ran opens
    exact (exec_invariant_of_allSteps (fun _ _ _ inv opens taken => inv_step x room inv opens taken) ran
      opens (inv_start x)).sound

/-! ## Two command lines -/

/-- `ls|cat`. -/
def lsCat : Call Unit where
  commands := [[108, 115], [99, 97, 116]]
  nonempty := by decide
  fds := terminalFds
  standard _ below := by simp [terminalFds, below]
  junk := []

/-- The first process leaves before the second goes on. -/
def lsCatRun : List Event :=
  .shell :: ([0, 0, 0, 0, 0, 0, 0, 0, 1, 1, 1, 1, 1, 1, 1].map fun j => .act j true)

def lsCatEnd : State Unit := (exec (step lsCat) start lsCatRun).get (by decide +kernel)

theorem sound_of_opens_lsCat : Sound lsCat lsCatEnd := by
  refine (sound_of_opens lsCat).2 (by decide +kernel) lsCatRun lsCatEnd (Option.some_get _).symm
    (allSteps_of_forall ?_ _)
  intro e member s
  rcases List.mem_cons.mp member with rfl | member
  · trivial
  · obtain ⟨j, -, rfl⟩ := List.mem_map.mp member
    exact fun _ _ _ _ _ _ => rfl

/-- `cat < x`. -/
def catMissing : Call Unit where
  commands := [[99, 97, 116, 32, 60, 32, 120]]
  nonempty := by decide
  fds := terminalFds
  standard _ below := by simp [terminalFds, below]
  junk := []

/-- `fopen` fails for want of a file `x`. -/
def catMissingRun : List Event := [.shell, .act 0 true, .act 0 true, .act 0 false]

def catMissingEnd : State Unit := (exec (step catMissing) start catMissingRun).get (by decide +kernel)

/-- The only process never reaches `execvp`. -/
theorem not_builds_catMissing : ¬ Builds catMissing := by
  intro builds
  have only : catMissingEnd.procs.map Process.pc = [.crashed] := by decide +kernel
  obtain ⟨p, procs, crashed⟩ : ∃ p, catMissingEnd.procs = [p] ∧ p.pc = .crashed := by
    obtain ⟨p, procs⟩ := List.length_eq_one_iff.mp ((List.length_map ..).symm.trans (congrArg _ only))
    rw [procs] at only
    exact ⟨p, procs, List.singleton_inj.mp only⟩
  have terminal : Terminal (step catMissing) catMissingEnd := by
    intro e
    cases e with
    | shell =>
      rw [← Option.isNone_iff_eq_none]
      decide +kernel
    | act j opened =>
      rw [step, procs]
      cases j with
      | zero => simp [Process.act, crashed]
      | succ j => rfl
  obtain ⟨_, runs, -⟩ :=
    ((builds.2 _ ⟨catMissingRun, (Option.some_get _).symm⟩).2 terminal).runs 0 (by decide)
  obtain ⟨q, here, -, _, -, arrived⟩ := runs
  obtain rfl := List.mem_singleton.mp (procs ▸ List.mem_of_getElem? here)
  cases crashed.symm.trans arrived

end SystemProgramming.Shell
