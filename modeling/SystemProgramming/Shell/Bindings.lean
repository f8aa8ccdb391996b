import SystemProgramming.Shell.Pipeline
import SystemProgramming.Shell.Redirect

/-! # What the processes of a pipeline do to their descriptors

A process enters `redirect` with the words of its command and the descriptors it has left the loop with, and it
comes to `execvp` with what both passes make of these.
-/

namespace SystemProgramming.Shell

open Lib

variable {ρ : Type*} (x : Call ρ)

/-- The words and the descriptors before `redirect`. -/
def Loaded (p : Process ρ) (s : Workspace (List Bytes) Bytes ρ) : Prop :=
  ∃ fds command, p.before = some fds ∧ x.commands[p.index]? = some command ∧
    s = ⟨getArgs x.junk command, fds, [], []⟩

/-- What a process has done of `redirect`, if all files can be opened. -/
def Redirected (p : Process ρ) : Prop :=
  match p.pc with
  | .getArgs => p.before = some p.fds
  | .redirect .input arg => ∃ s, Loaded x p s ∧ s.cmd = arg ∧ s.fds = p.fds
  | .redirect .output arg => ∃ s t, Loaded x p s ∧ redirectWords id true .input s = .returned t ∧
      t.cmd = arg ∧ t.fds = p.fds
  | .execvp arg => ∃ s t, Loaded x p s ∧ redirectList id (fun _ => true) s = .returned t ∧
      t.cmd = arg ∧ t.fds = p.fds
  | _ => True

section

variable {x} {p next : Process ρ} {forked : List (Process ρ)} {pipes pipes' : ℕ} {opened : Bool}

/-- A pass of a process is a pass over its words. -/
theorem redirect_act {io : Io} {s : Workspace (List Bytes) Bytes ρ} (here : p.pc = .redirect io s.cmd)
    (fds : s.fds = p.fds) (opens : (redirection io.mode s.cmd).isSome → opened = true)
    (acts : p.act x pipes opened = some (next, forked, pipes')) :
    ∃ t, redirectWords id true io s = .returned t ∧ forked = [] ∧
      next = { p with pc := io.next t.cmd, fds := t.fds } := by
  have found := redirection_map id io s.cmd
  rw [List.map_id] at found
  simp only [Process.act, here, found] at acts
  rw [found, Option.isSome_map] at opens
  rw [redirectWords]
  cases split : cut (begins id io) s.cmd with
  | none =>
    simp only [split, Option.map_none] at acts
    cases acts
    exact ⟨s, rfl, rfl, by rw [fds]⟩
  | some parts =>
    obtain ⟨before, operator, file, after⟩ := parts
    simp only [split, Option.map_some, opens (by rw [split]; rfl), if_true, List.map_id] at acts
    cases acts
    refine ⟨_, rfl, rfl, ?_⟩
    rw [fds]
    rfl

theorem act_redirected (redirected : Redirected x p)
    (opens : ∀ io arg, p.pc = .redirect io arg → (redirection io.mode arg).isSome → opened = true)
    (acts : p.act x pipes opened = some (next, forked, pipes')) :
    Redirected x next ∧ ∀ child ∈ forked, Redirected x child := by
  obtain ⟨index, pc, fds, before⟩ := p
  cases pc with
  | loop =>
    simp only [Process.act] at acts
    split_ifs at acts
    · cases acts
      exact ⟨rfl, by simp⟩
    · cases acts
      exact ⟨trivial, by simp⟩
  | fork r w =>
    cases acts
    refine ⟨trivial, fun child born => ?_⟩
    rw [List.mem_singleton.mp born]
    trivial
  | parentClose0 r =>
    cases acts
    exact ⟨rfl, by simp⟩
  | parentClose1 | parentDup2 | childClose0 | childDup2 | childClose1 =>
    cases acts
    exact ⟨trivial, by simp⟩
  | getArgs =>
    obtain ⟨command, known, result⟩ := Option.map_eq_some_iff.mp acts
    split_ifs at result
    · cases result
      exact ⟨⟨_, ⟨fds, command, redirected, known, rfl⟩, rfl, rfl⟩, by simp⟩
    · cases result
      exact ⟨trivial, by simp⟩
  | redirect io arg =>
    cases io with
    | input =>
      obtain ⟨s, loaded, rfl, same⟩ := redirected
      obtain ⟨t, first, rfl, rfl⟩ := redirect_act rfl same (opens .input _ rfl) acts
      exact ⟨⟨s, t, loaded, first, rfl, rfl⟩, by simp⟩
    | output =>
      obtain ⟨s, t, loaded, first, rfl, same⟩ := redirected
      obtain ⟨u, second, rfl, rfl⟩ := redirect_act rfl same (opens .output _ rfl) acts
      refine ⟨⟨s, u, loaded, ?_, rfl, rfl⟩, by simp⟩
      rw [redirectList, first]
      exact second
  | execvp arg => cases acts
  | crashed => cases acts
  | undefined => cases acts

end

section

variable {x} {s t : State ρ} {e : Event}

theorem step_redirected (redirected : ∀ p ∈ s.procs, Redirected x p) (opens : Opens s e)
    (taken : step x s e = some t) : ∀ p ∈ t.procs, Redirected x p := by
  intro q member
  cases e with
  | shell =>
    obtain ⟨-, rfl⟩ := (step_shell_eq_some_iff x).mp taken
    rw [List.mem_singleton.mp member]
    trivial
  | act j opened =>
    obtain ⟨p, next, forked, pipes, here, acted, rfl⟩ := (step_act_eq_some_iff x).mp taken
    obtain ⟨after, born⟩ := act_redirected (redirected p (List.mem_of_getElem? here))
      (fun io arg => opens p io arg here) acted
    rcases List.mem_append.mp member with old | new
    · rcases List.mem_or_eq_of_mem_set old with kept | rfl
      · exact redirected q kept
      · exact after
    · exact born q new

/-- What holds all the time as long as all files can be opened. -/
theorem exec_redirected {es : List Event} (room : x.Fits) (ran : exec (step x) start es = some s)
    (opens : AllSteps (step x) Opens start es) : Inv x s ∧ ∀ p ∈ s.procs, Redirected x p := by
  refine exec_invariant_of_allSteps (I := fun s => Inv x s ∧ ∀ p ∈ s.procs, Redirected x p) ?_ ran opens ?_
  · intro s e t holds opens taken
    exact ⟨inv_step x room holds.1 opens taken, step_redirected holds.2 opens taken⟩
  · refine ⟨inv_start x, ?_⟩
    intro p member
    cases member

/-- With what the `j`-th process comes to `execvp`. -/
theorem redirected_of_terminal {es : List Event} (room : x.Fits) (ran : exec (step x) start es = some s)
    (opens : AllSteps (step x) Opens start es) (terminal : Terminal (step x) s) {j : ℕ} {p : Process ρ}
    (here : s.procs[j]? = some p) :
    p.index + j + 1 = x.commands.length ∧ ∃ fds command t, (∀ fd, fds.get fd = final x j fd) ∧
      x.commands[p.index]? = some command ∧
      redirectList id (fun _ => true) ⟨getArgs x.junk command, fds, [], []⟩ = .returned t ∧
      p.pc = .execvp t.cmd ∧ p.fds = t.fds := by
  obtain ⟨inv, redirected⟩ := exec_redirected room ran opens
  obtain ⟨position, ⟨-, -, _, -, arrived⟩, fds, before, left⟩ := inv.arrived terminal here
  have done := redirected p (List.mem_of_getElem? here)
  simp only [Redirected, arrived] at done
  obtain ⟨_, t, ⟨fds', command, before', known, rfl⟩, both, words, same⟩ := done
  obtain rfl : fds' = fds := Option.some.inj (before'.symm.trans before)
  exact ⟨position, fds', command, t, left, known, both, by rw [arrived, words], same.symm⟩

end

end SystemProgramming.Shell
