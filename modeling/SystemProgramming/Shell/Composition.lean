import SystemProgramming.Shell.PipeEnds

/-! # A pipeline computes the composition of its commands

The processes run as a chain of filters, whatever is still being forked: a step of a program is one of its stage,
and all other steps are nothing to the chain.
-/

namespace SystemProgramming.Shell

open Lib Filters

variable {ρ σ : Type*} {x : Call ρ}

/-! ## The chain of filters -/

/-- The programs of the commands in their order. -/
def programs (x : Call ρ) (m : Machine σ) : List σ := x.commands.map fun command => m.execvp (getArgs x.junk command)

def stageOf (x : Call ρ) (m : Machine σ) (j : ℕ) : Image σ → Option σ
  | .loading => (programs x m).reverse[j]?
  | .running program => some program
  | .exited => none

/-- The process created `j`-th is stage `j`, and reads pipe `j`. -/
def Running.chain (x : Call ρ) (m : Machine σ) (r : Running ρ σ) : Filters.State UInt8 σ where
  stages j := stageOf x m j (r.images j)
  queues
    | 0 => r.output
    | k + 1 => if k + 1 = x.commands.length then r.input else r.pipes k

section

variable {m : Machine σ} {r t : Running ρ σ} {j k : ℕ}

theorem chain_start (x : Call ρ) (m : Machine σ) (input : Bytes) :
    (Running.start input : Running ρ σ).chain x m = Filters.start (programs x m) input := by
  have length : (programs x m).length = x.commands.length := List.length_map ..
  have nonempty := List.length_pos_of_ne_nil x.nonempty
  rw [Filters.start, Running.chain, length]
  congr 1
  funext k
  cases k with
  | zero => rw [if_neg nonempty.ne]; rfl
  | succ k => rfl

theorem stages_chain (x : Call ρ) (m : Machine σ) (r : Running ρ σ) (j : ℕ) :
    (r.chain x m).stages j = stageOf x m j (r.images j) := rfl

theorem queues_chain_succ (x : Call ρ) (m : Machine σ) (r : Running ρ σ) (k : ℕ) :
    (r.chain x m).queues (k + 1) = if k + 1 = x.commands.length then r.input else r.pipes k := rfl

theorem queues_goTo (image : Image σ) : ((r.goTo j image).chain x m).queues = (r.chain x m).queues := rfl

theorem stages_goTo (image : Image σ) : ((r.goTo j image).chain x m).stages =
    Function.update (r.chain x m).stages j (stageOf x m j image) := by
  funext i
  rcases eq_or_ne i j with rfl | other
  · simp only [Running.chain, Running.goTo, Function.update_self]
  · simp only [Running.chain, Running.goTo, Function.update_of_ne other]

theorem program_of_position {index : ℕ} {command : Bytes} (position : index + j + 1 = x.commands.length)
    (known : x.commands[index]? = some command) :
    (programs x m).reverse[j]? = some (m.execvp (getArgs x.junk command)) := by
  have length : (programs x m).length = x.commands.length := List.length_map ..
  rw [List.getElem?_reverse (by omega), programs, List.getElem?_map, List.length_map,
    show x.commands.length - 1 - j = index by omega, known]
  rfl

/-- Loading a program is nothing to the chain. -/
theorem chain_execvp (plain : NoRedirections x) (live : Live x r) {p : Process ρ} {arg : List Bytes}
    (here : r.shell.procs[j]? = some p) (at_ : p.pc = .execvp arg) (loading : r.images j = .loading) :
    (r.goTo j (.running (m.execvp arg))).chain x m = r.chain x m := by
  obtain ⟨position, -, command, known, rfl⟩ := live.table plain here at_
  have same : (r.chain x m).stages j = some (m.execvp (getArgs x.junk command)) := by
    rw [stages_chain, loading]
    exact program_of_position position known
  have stages : ((r.goTo j (.running (m.execvp (getArgs x.junk command)))).chain x m).stages =
      Function.update (r.chain x m).stages j (some (m.execvp (getArgs x.junk command))) := stages_goTo _
  rw [← same, Function.update_eq_self] at stages
  exact congrArg (fun stages => Filters.State.mk stages (r.chain x m).queues) stages

theorem chain_exited (x : Call ρ) (m : Machine σ) (r : Running ρ σ) (j : ℕ) :
    (r.goTo j .exited).chain x m = (r.chain x m).stop j :=
  Filters.State.ext (stages_goTo _) rfl

theorem chain_end {program : σ} (empty : (r.chain x m).queues (j + 1) = []) :
    (r.goTo j (.running program)).chain x m = (r.chain x m).take j program [] := by
  refine Filters.State.ext (stages_goTo _) ?_
  rw [queues_take, ← empty, Function.update_eq_self]
  rfl

theorem queues_setPipe (content : Bytes) (later : k + 1 ≠ x.commands.length) :
    ((r.setPipe k content).chain x m).queues = Function.update (r.chain x m).queues (k + 1) content := by
  funext i
  cases i with
  | zero => rfl
  | succ i =>
    rcases eq_or_ne i k with rfl | other
    · rw [Function.update_self, queues_chain_succ, if_neg later]
      exact Function.update_self ..
    · rw [Function.update_of_ne (fun same => other (Nat.succ.inj same)), queues_chain_succ, queues_chain_succ]
      exact congrArg (fun pipe => if i + 1 = x.commands.length then r.input else pipe) (Function.update_of_ne other ..)

theorem chain_input {program : σ} {rest : Bytes} (first : j + 1 = x.commands.length) :
    (({ r with input := rest } : Running ρ σ).goTo j (.running program)).chain x m =
      (r.chain x m).take j program rest := by
  refine Filters.State.ext (stages_goTo (r := { r with input := rest }) _) ?_
  rw [queues_take]
  funext k
  cases k with
  | zero => rfl
  | succ k =>
    rw [Function.update_apply, queues_chain_succ, queues_chain_succ, first]
    split_ifs
    · rfl
    · rfl

theorem chain_readPipe {program : σ} {rest : Bytes} (later : j + 1 ≠ x.commands.length) :
    ((r.setPipe j rest).goTo j (.running program)).chain x m = (r.chain x m).take j program rest := by
  refine Filters.State.ext (stages_goTo (r := r.setPipe j rest) _) ?_
  rw [queues_goTo, queues_take]
  exact queues_setPipe rest later

theorem chain_output {program : σ} {byte : UInt8} :
    (({ r with output := r.output ++ [byte] } : Running ρ σ).goTo 0 (.running program)).chain x m =
      (r.chain x m).put 0 program byte := by
  refine Filters.State.ext (stages_goTo (r := { r with output := r.output ++ [byte] }) _) ?_
  rw [queues_put]
  funext k
  cases k with
  | zero => rfl
  | succ k => exact (Function.update_of_ne (Nat.succ_ne_zero k) ..).symm

theorem chain_writePipe {program : σ} {byte : UInt8} (later : k + 1 ≠ x.commands.length) :
    ((r.setPipe k (r.pipes k ++ [byte])).goTo (k + 1) (.running program)).chain x m =
      (r.chain x m).put (k + 1) program byte := by
  refine Filters.State.ext (stages_goTo (r := r.setPipe k (r.pipes k ++ [byte])) _) ?_
  rw [queues_goTo, queues_put, queues_chain_succ, if_neg later]
  exact queues_setPipe _ later

/-! ## A step of a program is a step of the chain -/

theorem final_stdin (more : j + 1 < x.commands.length) : final x j 0 = some (.pipe j false) := if_pos ⟨more, rfl⟩

theorem final_stdin_first (first : j + 1 = x.commands.length) : ∃ target, final x j 0 = some (.shell target) := by
  obtain ⟨target, known⟩ := Option.isSome_iff_exists.mp (x.standard 0 (by decide))
  exact ⟨target, by rw [final, if_neg (by omega), entry_stdin, known, Option.map_some]⟩

theorem final_stdout_last (x : Call ρ) : ∃ target, final x 0 1 = some (.shell target) := by
  obtain ⟨target, known⟩ := Option.isSome_iff_exists.mp (x.standard 1 (by decide))
  exact ⟨target, by rw [final, if_neg (by simp), entry, known, Option.map_some]⟩

theorem final_stdout (x : Call ρ) (k : ℕ) : final x (k + 1) 1 = some (.pipe k true) := by
  rw [final, if_neg (by simp), entry, if_pos rfl]

theorem Live.stages_outside (plain : NoRedirections x) (live : Live x r) (outside : x.commands.length ≤ j) :
    (r.chain x m).stages j = none := by
  have loading : r.images j = .loading := by
    by_contra started
    obtain ⟨p, arg, here, at_⟩ := live.arrived j started
    obtain ⟨position, -⟩ := live.table plain here at_
    omega
  have length : (programs x m).length = x.commands.length := List.length_map ..
  rw [stages_chain, loading]
  exact List.getElem?_eq_none (by rw [List.length_reverse, length]; exact outside)

theorem stages_eq_none_iff (inside : j < x.commands.length) :
    (r.chain x m).stages j = none ↔ r.images j = .exited := by
  rw [stages_chain]
  cases r.images j with
  | loading =>
    have length : (programs x m).length = x.commands.length := List.length_map ..
    have there : j < (programs x m).reverse.length := by rw [List.length_reverse, length]; exact inside
    simp [stageOf, List.getElem?_eq_getElem there]
  | running program => simp [stageOf]
  | exited => simp [stageOf]

/-- What a program reads is at the front of its queue; at the end of the stream the stage before has ended. -/
theorem Live.read_cases (plain : NoRedirections x) (live : Live x r) {p : Process ρ} {arg : List Bytes}
    (here : r.shell.procs[j]? = some p) (at_ : p.pc = .execvp arg) {byte : Option UInt8} {after : Running ρ σ}
    (reads : r.read (p.fds.get 0) = some (byte, after)) (program : σ) :
    match byte with
    | some byte => ∃ rest, (r.chain x m).queues (j + 1) = byte :: rest ∧
        (after.goTo j (.running program)).chain x m = (r.chain x m).take j program rest
    | none => (r.chain x m).queues (j + 1) = [] ∧ (r.chain x m).stages (j + 1) = none ∧
        (after.goTo j (.running program)).chain x m = (r.chain x m).take j program [] := by
  obtain ⟨position, table, -⟩ := live.table plain here at_
  rw [table] at reads
  by_cases more : j + 1 < x.commands.length
  · have later : j + 1 ≠ x.commands.length := more.ne
    rw [final_stdin more, Running.read] at reads
    rw [queues_chain_succ, if_neg later]
    split at reads
    · next empty =>
      split_ifs at reads with held
      cases reads
      have exited := live.writer_exited plain here at_ more (by simpa using held)
      refine ⟨empty, by rw [stages_chain, exited]; rfl, ?_⟩
      apply chain_end
      rw [queues_chain_succ, if_neg later, empty]
    · next first rest content =>
      cases reads
      exact ⟨rest, content, chain_readPipe later⟩
  · have first : j + 1 = x.commands.length := by omega
    obtain ⟨target, stdin⟩ := final_stdin_first first
    rw [stdin, Running.read] at reads
    rw [queues_chain_succ, if_pos first]
    split at reads
    · next empty =>
      cases reads
      refine ⟨empty, live.stages_outside plain first.ge, ?_⟩
      apply chain_end
      rw [queues_chain_succ, if_pos first, empty]
    · next byte rest content =>
      cases reads
      exact ⟨rest, content, chain_input first⟩

theorem Live.chain_program (plain : NoRedirections x) (live : Live x r) {p : Process ρ} {program : σ}
    (here : r.shell.procs[j]? = some p) (image : r.images j = .running program)
    (taken : runProgram m r j p program = some t) :
    Filters.step m.act m.capacity (r.chain x m) j = some (t.chain x m) := by
  obtain ⟨_, arg, there, at_⟩ := live.arrived j (by rw [image]; simp)
  cases here.symm.trans there
  obtain ⟨position, table, -⟩ := live.table plain here at_
  have stage : (r.chain x m).stages j = some program := by rw [stages_chain, image]; rfl
  rw [runProgram] at taken
  cases acts : m.act program with
  | exit =>
    rw [acts] at taken
    cases taken
    rw [chain_exited]
    simp only [Filters.step, stage, acts]
  | read next =>
    rw [acts] at taken
    obtain ⟨⟨byte, after⟩, reads, rfl⟩ := Option.map_eq_some_iff.mp taken
    have known := live.read_cases (m := m) plain here at_ reads (next byte)
    cases byte with
    | some byte =>
      obtain ⟨rest, queue, chain⟩ := known
      rw [chain]
      simp only [Filters.step, stage, acts, queue]
    | none =>
      obtain ⟨queue, gone, chain⟩ := known
      rw [chain]
      simp only [Filters.step, stage, acts, queue, gone, Option.isNone_none, if_true]
  | write byte next =>
    rw [acts] at taken
    obtain ⟨written, writes, rfl⟩ := Option.map_eq_some_iff.mp taken
    rw [table] at writes
    cases j with
    | zero =>
      obtain ⟨target, stdout⟩ := final_stdout_last x
      rw [stdout, Running.write] at writes
      cases writes
      simp only [Filters.step, stage, acts, chain_output]
    | succ k =>
      have ends := live.reader_exited_iff plain here at_
      have inside : k < x.commands.length := by omega
      have later : k + 1 ≠ x.commands.length := by omega
      rw [final_stdout, Running.write] at writes
      have queue : (r.chain x m).queues (k + 1) = r.pipes k := by rw [queues_chain_succ, if_neg later]
      split_ifs at writes with held room
      · cases writes
        have reader : (r.chain x m).stages k ≠ none := by
          rw [ne_eq, stages_eq_none_iff inside, ← ends, held]
          decide
        simp only [Filters.step, stage, acts, Option.isNone_iff_eq_none, if_neg reader, queue, if_pos room,
          chain_writePipe later]
      · cases writes
        have gone : (r.chain x m).stages k = none := by
          rw [stages_eq_none_iff inside, ← ends]
          simpa using held
        simp only [Filters.step, stage, acts, gone, Option.isNone_none, if_true, chain_exited]

/-! ## Whole runs -/

/-- A program that has not been loaded has a step more. -/
def Image.fuel : Image σ → ℕ
  | .loading => 1
  | .running _ => 0
  | .exited => 0

/-- The processes that still load their programs. -/
def Running.loading (x : Call ρ) (r : Running ρ σ) : ℕ := ∑ j ∈ Finset.range x.commands.length, (r.images j).fuel

/-- The run is one of the chain, and has so many steps left at most. -/
def Computing (x : Call ρ) (m : Machine σ) (output : Bytes) (r : Running ρ σ) (bound : ℕ) : Prop :=
  Live x r ∧ ∃ todo fuel, Filters.Inv m.act output (r.chain x m) todo fuel ∧
    r.shell.fuel x + r.loading x + Filters.rank x.commands.length (r.chain x m) fuel ≤ bound

theorem Live.start (x : Call ρ) (input : Bytes) : Live x (Running.start input : Running ρ σ) where
  shell := inv_start x
  unredirected p member := by cases member
  arrived j started := absurd rfl started

/-- A process that has come to `execvp` stays there. -/
theorem step_execvp {s u : State ρ} {e : Event} (inv : Inv x s) (taken : step x s e = some u) {p : Process ρ}
    {arg : List Bytes} (here : s.procs[j]? = some p) (at_ : p.pc = .execvp arg) : u.procs[j]? = some p := by
  cases e with
  | shell =>
    obtain ⟨unforked, -⟩ := (step_shell_eq_some_iff x).mp taken
    rcases inv.shell with ⟨-, none, -⟩ | ⟨forked, -⟩
    · rw [none] at here
      cases here
    · cases unforked.symm.trans forked
  | act i opened =>
    obtain ⟨q, next, forked, pipes, there, acted, rfl⟩ := (step_act_eq_some_iff x).mp taken
    have other : i ≠ j := by
      rintro rfl
      cases here.symm.trans there
      rw [Process.act, at_] at acted
      cases acted
    rw [List.getElem?_append_left (by rw [List.length_set]; exact lt_length_of_getElem? here),
      List.getElem?_set_ne other, here]

theorem Live.setUp (plain : NoRedirections x) (room : x.Fits) (live : Live x r) {shell : State ρ} {e : Event}
    (taken : step x r.shell e = some shell) : Live x { r with shell := shell } where
  shell := inv_step x room live.shell (opens_of_noRedirections plain live.shell e) taken
  unredirected := step_unredirected plain live.shell live.unredirected taken
  arrived j started := by
    obtain ⟨p, arg, here, at_⟩ := live.arrived j started
    exact ⟨p, arg, step_execvp live.shell taken here at_, at_⟩

theorem Live.update {image : Image σ} (live : Live x r) {p : Process ρ} {arg : List Bytes}
    (here : r.shell.procs[j]? = some p) (at_ : p.pc = .execvp arg) (shell : t.shell = r.shell)
    (images : t.images = Function.update r.images j image) : Live x t where
  shell := shell ▸ live.shell
  unredirected := shell ▸ live.unredirected
  arrived i started := by
    rw [shell]
    rw [images] at started
    rcases eq_or_ne i j with rfl | other
    · exact ⟨p, arg, here, at_⟩
    · rw [Function.update_of_ne other] at started
      exact live.arrived i started

theorem read_same {handle : Option (Handle ρ)} {byte : Option UInt8} {after : Running ρ σ}
    (reads : r.read handle = some (byte, after)) : after.shell = r.shell ∧ after.images = r.images := by
  rw [Running.read.eq_def] at reads
  split at reads
  · split at reads <;> cases reads <;> exact ⟨rfl, rfl⟩
  · split at reads
    · split_ifs at reads
      cases reads
      exact ⟨rfl, rfl⟩
    · cases reads
      exact ⟨rfl, rfl⟩
  all_goals cases reads

theorem write_same {handle : Option (Handle ρ)} {byte : UInt8} {after : Running ρ σ}
    (writes : r.write m byte handle = some (some after)) : after.shell = r.shell ∧ after.images = r.images := by
  rw [Running.write.eq_def] at writes
  split at writes
  · cases writes
    exact ⟨rfl, rfl⟩
  · split_ifs at writes
    · cases writes
      exact ⟨rfl, rfl⟩
    · cases writes
  all_goals cases writes

theorem runProgram_same {p : Process ρ} {program : σ} (taken : runProgram m r j p program = some t) :
    t.shell = r.shell ∧ ∃ image, image.fuel = 0 ∧ t.images = Function.update r.images j image := by
  rw [runProgram] at taken
  split at taken
  · cases taken
    exact ⟨rfl, .exited, rfl, rfl⟩
  · obtain ⟨⟨byte, after⟩, reads, rfl⟩ := Option.map_eq_some_iff.mp taken
    obtain ⟨shell, images⟩ := read_same reads
    exact ⟨shell, .running _, rfl, by rw [← images]; rfl⟩
  · obtain ⟨written, writes, rfl⟩ := Option.map_eq_some_iff.mp taken
    cases written with
    | none => exact ⟨rfl, .exited, rfl, rfl⟩
    | some after =>
      obtain ⟨shell, images⟩ := write_same writes
      exact ⟨shell, .running _, rfl, by rw [← images]; rfl⟩

theorem loading_le {image : Image σ} (images : t.images = Function.update r.images j image)
    (less : image.fuel ≤ (r.images j).fuel) : t.loading x ≤ r.loading x := by
  apply Finset.sum_le_sum
  intro i _
  rw [images]
  rcases eq_or_ne i j with rfl | other
  · rwa [Function.update_self]
  · rw [Function.update_of_ne other]

theorem loading_lt {image : Image σ} (inside : j < x.commands.length)
    (images : t.images = Function.update r.images j image) (less : image.fuel < (r.images j).fuel) :
    t.loading x < r.loading x := by
  apply Finset.sum_lt_sum
  · intro i _
    rw [images]
    rcases eq_or_ne i j with rfl | other
    · rw [Function.update_self]
      exact less.le
    · rw [Function.update_of_ne other]
  · refine ⟨j, Finset.mem_range.mpr inside, ?_⟩
    rw [images, Function.update_self]
    exact less

theorem computing_start {output input : Bytes} (composes : Filters.Composes m.act (programs x m) input output) :
    ∃ bound, Computing x m output (Running.start input) bound := by
  obtain ⟨todo, fuel, inv⟩ := exists_inv_start composes
  rw [← chain_start x m input] at inv
  exact ⟨_, Live.start x input, todo, fuel, inv, le_rfl⟩

theorem computing_step (plain : NoRedirections x) (room : x.Fits) {output : Bytes} {e : RunEvent} {bound : ℕ}
    (computing : Computing x m output r bound) (taken : runStep x m r e = some t) :
    ∃ less < bound, Computing x m output t less := by
  obtain ⟨live, todo, fuel, inv, within⟩ := computing
  cases e with
  | setUp e =>
    obtain ⟨shell, moved, rfl⟩ := Option.map_eq_some_iff.mp taken
    have less := step_fuel x moved
    refine ⟨_, lt_of_lt_of_le ?_ within, live.setUp plain room moved, todo, fuel, inv, le_rfl⟩
    exact Nat.add_lt_add_right (Nat.add_lt_add_right less _) _
  | execvp j =>
    simp only [runStep] at taken
    split at taken
    · next p here loading =>
      split at taken
      · next arg at_ =>
        cases taken
        obtain ⟨position, -⟩ := live.table plain here at_
        have chain := chain_execvp (m := m) plain live here at_ loading
        have less : (r.goTo j (.running (m.execvp arg))).loading x < r.loading x :=
          loading_lt (by omega) rfl (by rw [loading]; exact Nat.zero_lt_one)
        refine ⟨_, lt_of_lt_of_le ?_ within, live.update here at_ rfl rfl, todo, fuel, chain.symm ▸ inv, le_rfl⟩
        rw [chain]
        exact Nat.add_lt_add_right (Nat.add_lt_add_left less _) _
      · cases taken
    · cases taken
  | program j =>
    simp only [runStep] at taken
    split at taken
    · next p program here image =>
      obtain ⟨_, arg, there, at_⟩ := live.arrived j (by rw [image]; simp)
      cases here.symm.trans there
      obtain ⟨position, -⟩ := live.table plain here at_
      have inside : j < x.commands.length := by omega
      obtain ⟨todo', fuel', later, less⟩ := inv.step inside (live.chain_program plain here image taken)
      obtain ⟨shell, next, loaded, images⟩ := runProgram_same taken
      have loading : t.loading x ≤ r.loading x := loading_le images (by rw [loaded]; exact Nat.zero_le _)
      refine ⟨_, lt_of_lt_of_le ?_ within, live.update here at_ shell images, todo', fuel', later, le_rfl⟩
      rw [shell]
      omega
    · cases taken

/-! ## The end of a run -/

section

theorem shell_terminal (terminal : Terminal (runStep x m) r) : Terminal (step x) r.shell :=
  fun e => Option.map_eq_none_iff.mp (terminal (.setUp e))

/-- All processes have loaded their programs. -/
theorem exists_arrived (live : Live x r) (terminal : Terminal (runStep x m) r) (inside : j < x.commands.length) :
    ∃ p arg, r.shell.procs[j]? = some p ∧ p.pc = .execvp arg ∧ r.images j ≠ .loading := by
  have ended := shell_terminal terminal
  have there : j < r.shell.procs.length := by rwa [(live.shell.pipeline ended).count]
  have here : r.shell.procs[j]? = some r.shell.procs[j] := List.getElem?_eq_getElem there
  obtain ⟨-, ⟨-, -, command, -, at_⟩, -⟩ := live.shell.arrived ended here
  refine ⟨_, _, here, at_, fun loading => ?_⟩
  have stops := terminal (.execvp j)
  simp only [runStep, here, loading, at_] at stops
  cases stops

variable (plain : NoRedirections x) (live : Live x r) (terminal : Terminal (runStep x m) r)
include plain live terminal

/-- The writing end of a pipe is with the writer alone. -/
theorem writer_alive (held : r.held k true = true) : r.images (k + 1) ≠ .exited := by
  have ended := shell_terminal terminal
  obtain ⟨i, q, found, alive, fd, holds⟩ := held_iff.mp held
  obtain ⟨-, ⟨-, -, command, -, at_⟩, -⟩ := live.shell.arrived ended found
  obtain ⟨-, table, -⟩ := live.table plain found at_
  rw [table, final] at holds
  split_ifs at holds
  · cases holds
  · obtain ⟨-, rfl⟩ := entry_write holds
    intro exited
    rw [exited] at alive
    cases alive

/-- Where no program can go on, neither can a stage of the chain. -/
theorem chain_terminal : Terminal (Filters.step m.act m.capacity) (r.chain x m) := by
  intro j
  cases stage : (r.chain x m).stages j with
  | none => simp only [Filters.step, stage]
  | some program =>
    have inside : j < x.commands.length := by
      by_contra outside
      cases stage.symm.trans (live.stages_outside plain (Nat.not_lt.mp outside))
    obtain ⟨p, arg, here, at_, loaded⟩ := exists_arrived live terminal inside
    have image : r.images j = .running program := by
      rw [stages_chain] at stage
      cases image : r.images j with
      | loading => exact absurd image loaded
      | running other =>
        rw [image] at stage
        exact congrArg _ (Option.some.inj stage)
      | exited =>
        rw [image] at stage
        cases stage
    have stops : runProgram m r j p program = none := by
      have stops := terminal (.program j)
      simpa only [runStep, here, image] using stops
    obtain ⟨position, table, -⟩ := live.table plain here at_
    rw [runProgram] at stops
    cases acts : m.act program with
    | exit =>
      rw [acts] at stops
      cases stops
    | read next =>
      rw [acts] at stops
      have blocked := Option.map_eq_none_iff.mp stops
      rw [table] at blocked
      by_cases more : j + 1 < x.commands.length
      · rw [final_stdin more, Running.read] at blocked
        have queue : (r.chain x m).queues (j + 1) = r.pipes j := by rw [queues_chain_succ, if_neg more.ne]
        split at blocked
        · next empty =>
          split_ifs at blocked with held
          have writer : (r.chain x m).stages (j + 1) ≠ none := by
            rw [ne_eq, stages_eq_none_iff more]
            exact writer_alive plain live terminal held
          simp only [Filters.step, stage, acts, queue, empty, Option.isNone_iff_eq_none, if_neg writer]
        · cases blocked
      · obtain ⟨target, stdin⟩ := final_stdin_first (show j + 1 = x.commands.length by omega)
        rw [stdin, Running.read] at blocked
        split at blocked <;> cases blocked
    | write byte next =>
      rw [acts] at stops
      have blocked := Option.map_eq_none_iff.mp stops
      rw [table] at blocked
      cases j with
      | zero =>
        obtain ⟨target, stdout⟩ := final_stdout_last x
        rw [stdout, Running.write] at blocked
        cases blocked
      | succ k =>
        have queue : (r.chain x m).queues (k + 1) = r.pipes k := by rw [queues_chain_succ, if_neg inside.ne]
        rw [final_stdout, Running.write] at blocked
        split_ifs at blocked with held full
        have reader : (r.chain x m).stages k ≠ none := by
          rw [ne_eq, stages_eq_none_iff (Nat.lt_of_succ_lt inside), ← live.reader_exited_iff plain here at_, held]
          decide
        simp only [Filters.step, stage, acts, Option.isNone_iff_eq_none, if_neg reader, queue, if_neg full]

end

/-- A command line without redirections writes what its programs compute one from the output of the other, and
nothing of it too early, however the processes are forked and scheduled; none of them waits for ever. -/
theorem pipeline_computes (plain : NoRedirections x) (fits : x.Fits) (room : 0 < m.capacity) {input output : Bytes}
    (composes : Filters.Composes m.act (programs x m) input output) :
    (∃ bound, ∀ es (r : Running ρ σ), exec (runStep x m) (.start input) es = some r → es.length ≤ bound) ∧
      ∀ r : Running ρ σ, Reachable (runStep x m) (.start input) r → r.output <+: output ∧
        (Terminal (runStep x m) r → r.output = output ∧ r.shell.procs.length = x.commands.length ∧
          ∀ j < x.commands.length, r.images j = .exited) := by
  obtain ⟨bound, start⟩ := computing_start (x := x) composes
  constructor
  · exact ⟨bound, fun es r ran => exec_length_le_of_rank (R := Computing x m output)
      (fun _ _ _ _ computing taken => computing_step plain fits computing taken) ran start⟩
  · intro r reached
    obtain ⟨left, live, todo, fuel, inv, -⟩ := reached.invariant (I := fun r => ∃ bound, Computing x m output r bound)
      (fun s e t ⟨bound, computing⟩ taken => by
        obtain ⟨less, -, later⟩ := computing_step plain fits computing taken
        exact ⟨less, later⟩) ⟨bound, start⟩
    refine ⟨inv.isPrefix, fun terminal => ?_⟩
    have outside (j : ℕ) (above : x.commands.length ≤ j) : (r.chain x m).stages j = none :=
      live.stages_outside plain above
    obtain ⟨ended, written⟩ := inv.of_terminal room outside (chain_terminal plain live terminal)
    refine ⟨written, (live.shell.pipeline (shell_terminal terminal)).count, fun j inside => ?_⟩
    exact (stages_eq_none_iff inside).mp (ended j)

/-! ## Two copies -/

/-- `cat`, which has read a byte or not, or is at the end. -/
inductive Cat where
  | reading
  | writing (byte : UInt8)
  | ended

def cats : Machine Cat where
  act
    | .reading => .read fun byte =>
      match byte with
      | some byte => .writing byte
      | none => .ended
    | .writing byte => .write byte .reading
    | .ended => .exit
  execvp _ := .reading
  capacity := 1

theorem cats_compute (input : Bytes) : ∃ n, Filters.Computes cats.act .reading input input n := by
  induction input with
  | nil => exact ⟨1, .readEnd rfl (.exit rfl)⟩
  | cons byte input ih =>
    obtain ⟨n, computes⟩ := ih
    exact ⟨n + 2, .read rfl (.write rfl computes)⟩

/-- Whatever is written into two copying processes with a pipe for one byte comes out of them. -/
theorem pipeline_computes_cats :
    (∃ bound, ∀ es (r : Running Unit Cat), exec (runStep lsCat cats) (.start [104, 105]) es = some r →
      es.length ≤ bound) ∧ ∀ r : Running Unit Cat, Reachable (runStep lsCat cats) (.start [104, 105]) r →
        Terminal (runStep lsCat cats) r → r.output = [104, 105] := by
  have plain : NoRedirections lsCat := by
    intro command member io
    cases io with
    | input => revert command; decide +kernel
    | output => revert command; decide +kernel
  obtain ⟨n, computes⟩ := cats_compute [104, 105]
  have composes : Filters.Composes cats.act (programs lsCat cats) [104, 105] [104, 105] :=
    ⟨_, n, computes, _, n, computes, rfl⟩
  obtain ⟨bounded, runs⟩ := pipeline_computes plain (by decide +kernel) (by decide) composes
  exact ⟨bounded, fun r reached terminal => ((runs r reached).2 terminal).1⟩

end

end SystemProgramming.Shell
