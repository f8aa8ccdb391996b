import SystemProgramming.Shell.Bindings
import SystemProgramming.Shell.ParserSafety
import SystemProgramming.Shell.Arguments

/-! # What a command line means

Every stage is executed with its arguments, its descriptors connected to its neighbours or to the files
the user names. `main` looks at the first word of the first stage only: for a builtin it calls `do_builtin`
with the first stage, which knows neither pipes nor redirections. In a pipeline `execvp` is all there is, which
knows programs and no builtins; which names it finds a program under is a parameter.
-/

namespace SystemProgramming.Shell.CommandLine

open Lib Traced

variable {ρ : Type*}

/-- What a command gets. -/
structure Execution (ρ : Type*) where
  argv : List Bytes
  fds : FdTable (Handle ρ)

/-- What the words of a stage are part of. -/
def items (stage : Bytes) : List (Item Bytes) := parse id (arguments stage)

/-- The user names a file. -/
def Names (stage : Bytes) (io : Io) (name : Bytes) : Prop :=
  (∃ operator, .target io operator name ∈ items stage) ∨ ∃ word, .attached io word ∈ items stage ∧ name = word.tail

/-- What a descriptor of a stage refers to. -/
def Connected (stage : Bytes) (io : Io) (otherwise here : Option (Handle ρ)) : Prop :=
  (∀ name, Names stage io name → here = some (.file name io)) ∧ ((∀ name, ¬ Names stage io name) → here = otherwise)

/-- The stages run as written, with the descriptors of the shell at both ends. -/
structure Meaning (line : Bytes) (fds : FdTable ρ) (ran : ℕ → Execution ρ → Prop) : Prop where
  executed : ∀ i < (stages line).length, ∃ e, ran i e
  passed : ∀ i stage e, (stages line)[i]? = some stage → ran i e →
    e.argv ≠ [] ∧ e.argv = spelled ((items stage).filter Item.isArgument)
  /-- Stage `i` is joined to the next one by `pipe i`. -/
  connected : ∃ pipe : ℕ → ℕ,
    (∀ i k, i + 1 < (stages line).length → k + 1 < (stages line).length → pipe i = pipe k → i = k) ∧
      ∀ i stage e, (stages line)[i]? = some stage → ran i e →
        Connected stage .input (if i = 0 then (fds.get 0).map .shell else some (.pipe (pipe (i - 1)) false))
            (e.fds.get 0) ∧
          Connected stage .output (if i + 1 = (stages line).length then (fds.get 1).map .shell
            else some (.pipe (pipe i) true)) (e.fds.get 1)

/-- `this->do_it` is called with the arguments of the first stage. -/
def DoesIt (fds : FdTable ρ) (commands : List Bytes) (i : ℕ) (e : Execution ρ) : Prop :=
  i = 0 ∧ ∃ first ∈ commands.head?, (getArgs first).result = some (e.argv.map some) ∧ e.fds = fds.map .shell

/-- A process calls `execvp` for the command, and there is such a program. -/
def Execs (programs : Bytes → Prop) (s : State ρ) (i : ℕ) (e : Execution ρ) : Prop :=
  (∃ p ∈ s.procs, p.index = i ∧ p.pc = .execvp e.argv ∧ p.fds = e.fds) ∧ ∃ name ∈ e.argv.head?, programs name

/-- `getArgs` cuts off no operator. -/
def Whole (stage : Bytes) : Prop :=
  ∀ tok ∈ (words delim (stage.dropWhile isspace)).drop (arguments stage).length, operatorOf id tok = none

/-- The line is parsed safely and runs as written on the path that `main` takes, where all files can be opened;
`redirect` finds what the user wrote among the words of every stage, whatever files can be opened. -/
structure AsWritten (ρ : Type*) (programs : Bytes → Prop) (line : Bytes) : Prop where
  safe : Safe line
  whole : ∀ stage ∈ stages line, Whole stage
  builtin : ∀ commands called, (pipeSpliter line).result = some commands →
    (isBuiltin commands.head?).result = some (some called) → ∀ fds : FdTable ρ, Meaning line fds (DoesIt fds commands)
  external : ∀ commands, (pipeSpliter line).result = some commands →
    (isBuiltin commands.head?).result = some none → ∀ x : Shell.Call ρ, x.commands = commands →
      (∃ bound, ∀ es s, exec (step x) start es = some s → es.length ≤ bound) ∧
        ∀ es s, exec (step x) start es = some s → AllSteps (step x) Opens start es → Terminal (step x) s →
          Meaning line x.fds (Execs programs s)
  redirects : ∀ commands, (pipeSpliter line).result = some commands →
    (isBuiltin commands.head?).result = some none → ∀ stage ∈ commands, ∀ (fds : FdTable (Handle ρ)) opens, ∃ r words,
      Converges (redirect Prod.fst opens ⟨fun i => (arguments stage).zipIdx[i]?, fds, [], []⟩) r ∧ r.Holds words ∧
        Delivered Prod.fst (arguments stage).zipIdx words

/-- The word that names the command of a stage. -/
def commandName (stage : Bytes) : Option Bytes := (spelled ((items stage).filter Item.isArgument)).head?

/-- Nothing is written that a builtin, `redirect` or `execvp` does not know. -/
def Regular (programs : Bytes → Prop) (line : Bytes) : Prop :=
  Accepts line ∧ (∀ stage ∈ stages line, Whole stage) ∧
    match (stages line).head?.bind keyword with
    | some _ => (stages line).length = 1 ∧ ∀ stage ∈ stages line, ∀ tok ∈ arguments stage, operatorOf id tok = none
    | none => ∀ stage ∈ stages line, Simple id (items stage) ∧ ∃ name ∈ commandName stage, programs name

section

variable {line stage : Bytes} {commands : List Bytes}

/-- What both calls of `main` return. -/
theorem result_main {first : Bytes} {later : List Bytes} (all : stages line = first :: later)
    (visible : Visible first) : (pipeSpliter line).result = some (stages line) ∧
      (isBuiltin (stages line).head?).result = some (keyword first) := by
  constructor
  · rw [result_pipeSpliter all, all]
  · rw [all, List.head?_cons, result_isBuiltin visible]

theorem shell_getArgs (visible : Visible stage) (junk : Bytes) : Shell.getArgs junk stage = arguments stage := by
  have same := getArgs_refines junk stage
  rw [result_getArgs visible, Option.map_some, List.map_map] at same
  rw [← Option.some.inj same]
  exact List.map_id _

/-! ## Builtins -/

theorem isArgument_of_operatorOf {argv : List Bytes} (none : ∀ tok ∈ argv, operatorOf id tok = none) :
    ∀ item ∈ parse id argv, item.isArgument = true := by
  intro item member
  have valid := (parsed_parse id argv).valid member
  have inside : ∀ tok ∈ item.words, tok ∈ argv := by
    intro tok within
    rw [← spelled_parse id argv]
    exact List.mem_flatMap.mpr ⟨item, member, within⟩
  cases item with
  | argument word => rfl
  | attached io word => cases valid.1.symm.trans (none word (inside word List.mem_cons_self))
  | target io operator file =>
    cases (operatorOf_of_alone valid).symm.trans (none operator (inside operator List.mem_cons_self))
  | dangling io operator =>
    cases (operatorOf_of_alone valid).symm.trans (none operator (inside operator List.mem_cons_self))

theorem operatorOf_of_isArgument {argv : List Bytes}
    (all : argv = spelled ((parse id argv).filter Item.isArgument)) : ∀ tok ∈ argv, operatorOf id tok = none := by
  intro tok member
  rw [all] at member
  exact (parsed_parse id argv).valid (mem_of_mem_isArgument member)

/-- Without operators no file is named. -/
theorem connected_of_isArgument (plain : ∀ item ∈ items stage, item.isArgument = true) (io : Io)
    (here : Option (Handle ρ)) : Connected stage io here here := by
  refine ⟨fun name named => ?_, fun _ => rfl⟩
  rcases named with ⟨operator, member⟩ | ⟨word, member, -⟩
  · cases plain _ member
  · cases plain _ member

theorem meaning_of_plain {first : Bytes} (only : stages line = [first]) (visible : Visible first)
    (plain : ∀ tok ∈ arguments first, operatorOf id tok = none) (fds : FdTable ρ) :
    Meaning line fds (DoesIt fds [first]) := by
  have all := isArgument_of_operatorOf plain
  have args : spelled ((items first).filter Item.isArgument) = arguments first := by
    rw [items, List.filter_eq_self.mpr all, spelled_parse]
  obtain ⟨tok, later, -, some_⟩ := arguments_of_visible visible
  constructor
  · intro i less
    rw [only, List.length_singleton, Nat.lt_one_iff] at less
    exact ⟨⟨arguments first, fds.map .shell⟩, less, first, rfl, result_getArgs visible, rfl⟩
  · rintro i stage e here ⟨rfl, first', same, called, -⟩
    cases same
    rw [only] at here
    cases here
    rw [result_getArgs visible] at called
    have argv := List.map_injective_iff.mpr (fun _ _ => Option.some.inj) (Option.some.inj called)
    rw [args, argv, ← argv, some_]
    exact ⟨List.cons_ne_nil _ _, rfl⟩
  · refine ⟨id, fun i k _ _ same => same, ?_⟩
    rintro i stage e here ⟨rfl, first', same, -, descriptors⟩
    cases same
    rw [only] at here ⊢
    cases here
    rw [if_pos rfl, if_pos (show 0 + 1 = [first].length from rfl), descriptors]
    exact ⟨connected_of_isArgument all .input _, connected_of_isArgument all .output _⟩

/-- A builtin gets the first stage, and all words of it. -/
theorem plain_of_meaning {first : Bytes} {later : List Bytes} (all : stages line = first :: later)
    (visible : Visible first) {fds : FdTable ρ} (meaning : Meaning line fds (DoesIt fds (first :: later))) :
    later = [] ∧ ∀ tok ∈ arguments first, operatorOf id tok = none := by
  constructor
  · by_contra more
    have two : 1 < (stages line).length := by
      rw [all, List.length_cons]
      exact Nat.succ_lt_succ (List.length_pos_of_ne_nil more)
    obtain ⟨e, one, -⟩ := meaning.executed 1 two
    cases one
  · have called : DoesIt fds (first :: later) 0 ⟨arguments first, fds.map .shell⟩ :=
      ⟨rfl, first, rfl, result_getArgs visible, rfl⟩
    exact operatorOf_of_isArgument (meaning.passed 0 first _ (by rw [all]; rfl) called).2

/-- A line is right for the builtin it calls exactly if it is one stage without operators. -/
theorem builtin_iff {first : Bytes} {later : List Bytes} (all : stages line = first :: later)
    (visible : Visible first) : (∀ fds : FdTable ρ, Meaning line fds (DoesIt fds (stages line))) ↔
      (stages line).length = 1 ∧ ∀ stage ∈ stages line, ∀ tok ∈ arguments stage, operatorOf id tok = none := by
  rw [all]
  constructor
  · intro meaning
    obtain ⟨rfl, plain⟩ := plain_of_meaning all visible (meaning ⟨fun _ => none, 0, fun _ _ => rfl⟩)
    refine ⟨rfl, fun stage member => ?_⟩
    obtain rfl := List.mem_singleton.mp member
    exact plain
  · rintro ⟨only, plain⟩ fds
    obtain rfl : later = [] := by simpa using only
    exact meaning_of_plain all visible (plain first List.mem_cons_self) fds

/-! ## Pipelines -/

/-- `redirect` delivers the words of a stage. -/
theorem delivered_iff_simple (ρ : Type*) (stage : Bytes) : (∀ (fds : FdTable (Handle ρ)) opens, ∃ r words,
    Converges (redirect Prod.fst opens ⟨fun i => (arguments stage).zipIdx[i]?, fds, [], []⟩) r ∧ r.Holds words ∧
      Delivered Prod.fst (arguments stage).zipIdx words) ↔ Simple id (items stage) := by
  have texts : (arguments stage).zipIdx.map Prod.fst = arguments stage := List.zipIdx_map_fst 0 _
  have distinct : (arguments stage).zipIdx.Nodup := by
    apply List.Nodup.of_map Prod.snd
    rw [List.zipIdx_map_snd]
    exact List.nodup_range'
  have start (fds : FdTable (Handle ρ)) : Workspace.Holds ⟨fun i => (arguments stage).zipIdx[i]?, fds, [], []⟩
      ⟨(arguments stage).zipIdx, fds, [], []⟩ := ⟨terminated_getElem? _, rfl, rfl, rfl⟩
  have same : Simple id (items stage) ↔ Simple Prod.fst (parse Prod.fst (arguments stage).zipIdx) := by
    rw [items, ← texts, parse_map, simple_map, texts]
  rw [same]
  constructor
  · intro delivered
    have all := delivered ⟨fun _ => none, 0, fun _ _ => rfl⟩ fun _ => true
    rw [exists_holds_iff (start _)] at all
    exact simple_of_delivered distinct all
  · intro simple fds opens
    rw [exists_holds_iff (start fds)]
    exact delivered_of_simple simple fds opens

theorem connected_of_applied (single : Single id (items stage)) {fds : FdTable (Handle ρ)}
    {t : Workspace (List Bytes) Bytes ρ} (applied : Applied id (items stage) fds t) {io : Io}
    {here : Option (Handle ρ)} (before : fds.get io.fd = here) (opened : here.isSome) :
    Connected stage io here (t.fds.get io.fd) := by
  constructor
  · rintro name (⟨operator, member⟩ | ⟨word, member, -⟩)
    · exact applied.bound io operator name member
    · exact absurd member (single.separate io word)
  · intro none
    obtain ⟨target, rfl⟩ := Option.isSome_iff_exists.mp opened
    apply applied.unbound io target _ before
    obtain absent | ⟨operator, file, member⟩ := targets_cases io (items stage)
    · exact absent
    · exact absurd (.inl ⟨operator, member⟩) (none file)

section

variable {x : Shell.Call ρ} {i j : ℕ}

theorem final_zero (position : i + j + 1 = x.commands.length) : final x j 0 =
    if i = 0 then (x.fds.get 0).map .shell else some (.pipe (x.commands.length - 2 - (i - 1)) false) := by
  rw [final, entry_stdin]
  by_cases start : i = 0
  · rw [if_pos start, if_neg (by omega)]
  · obtain rfl : j = x.commands.length - 2 - (i - 1) := by omega
    rw [if_neg start, if_pos (by omega)]

theorem final_one (position : i + j + 1 = x.commands.length) : final x j 1 =
    if i + 1 = x.commands.length then (x.fds.get 1).map .shell
      else some (.pipe (x.commands.length - 2 - i) true) := by
  rw [final, if_neg (by omega)]
  cases j with
  | zero => rw [if_pos (by omega), entry]
  | succ j =>
    obtain rfl : j = x.commands.length - 2 - i := by omega
    rw [if_neg (by omega), entry, if_pos rfl]

theorem final_isSome (x : Shell.Call ρ) (j : ℕ) {fd : ℕ} (standard : fd < 3) : (final x j fd).isSome := by
  rw [final]
  split_ifs
  · rfl
  · exact entry_standard x j standard

/-- What a stage has got when it is executed. -/
theorem applied_of_execs {s : State ρ} {es : List Event} (room : x.Fits) (visible : ∀ stage ∈ x.commands, Visible stage)
    (simple : ∀ stage ∈ x.commands, Simple id (items stage)) (ran : exec (step x) start es = some s)
    (opens : AllSteps (step x) Opens start es) (terminal : Terminal (step x) s) {e : Execution ρ}
    (here : x.commands[i]? = some stage) (execs : ∃ p ∈ s.procs, p.index = i ∧ p.pc = .execvp e.argv ∧ p.fds = e.fds) :
    ∃ j fds t, i + j + 1 = x.commands.length ∧ (∀ fd, fds.get fd = final x j fd) ∧
      Applied id (items stage) fds t ∧ t.cmd = e.argv ∧ t.fds = e.fds := by
  obtain ⟨p, member, rfl, arrived, same⟩ := execs
  obtain ⟨j, there⟩ := List.getElem?_of_mem member
  obtain ⟨position, fds, command, t, left, known, both, arrived', same'⟩ :=
    redirected_of_terminal room ran opens terminal there
  obtain rfl : stage = command := Option.some.inj (here.symm.trans known)
  have inside := List.mem_of_getElem? here
  obtain ⟨u, done, applied⟩ := redirectList_of_single (parsed_parse id (arguments stage))
    (simple stage inside).toSingle fds (fun _ => true) (fun _ _ => rfl)
  rw [shell_getArgs (visible stage inside)] at both
  rw [spelled_parse, both] at done
  cases done
  have words : Pc.execvp e.argv = Pc.execvp t.cmd := arrived.symm.trans arrived'
  exact ⟨j, fds, t, position, left, applied, (Pc.execvp.inj words).symm, same'.symm.trans same⟩

/-- The processes have room for the arguments of stages that fit. -/
theorem fits_of_stages (visible : ∀ stage ∈ x.commands, Visible stage) (fits : ∀ stage ∈ x.commands, Fits stage) :
    x.Fits := by
  intro command member
  rw [shell_getArgs (visible command member)]
  exact fits command member

/-- When nothing is left to do, all stages run as written. -/
theorem meaning_of_simple {programs : Bytes → Prop} {s : State ρ} {es : List Event}
    (commands : x.commands = stages line) (visible : ∀ stage ∈ stages line, Visible stage)
    (fits : ∀ stage ∈ stages line, Fits stage)
    (simple : ∀ stage ∈ stages line, Simple id (items stage) ∧ ∃ name ∈ commandName stage, programs name)
    (ran : exec (step x) start es = some s) (opens : AllSteps (step x) Opens start es)
    (terminal : Terminal (step x) s) : Meaning line x.fds (Execs programs s) := by
  rw [← commands] at visible fits simple
  have room := fits_of_stages visible fits
  have pipeline := (exec_redirected room ran opens).1.pipeline terminal
  have applied {i : ℕ} {stage : Bytes} {e : Execution ρ} (here : x.commands[i]? = some stage) :=
    applied_of_execs (e := e) room visible (fun stage member => (simple stage member).1) ran opens terminal here
  have argv {i : ℕ} {stage : Bytes} {e : Execution ρ} (here : x.commands[i]? = some stage)
      (execs : ∃ p ∈ s.procs, p.index = i ∧ p.pc = .execvp e.argv ∧ p.fds = e.fds) :
      e.argv = spelled ((items stage).filter Item.isArgument) := by
    obtain ⟨j, fds, t, -, -, bound, words, -⟩ := applied here execs
    rw [← words, bound.cmd, (simple stage (List.mem_of_getElem? here)).1.left]
  constructor
  · rw [← commands]
    intro i less
    obtain ⟨position, ⟨p, there, index, command, known, arrived⟩, -⟩ := pipeline.runs i less
    have execs : ∃ q ∈ s.procs, q.index = i ∧ q.pc = .execvp (execArgs x command) ∧ q.fds = p.fds :=
      ⟨p, List.mem_of_getElem? there, index, arrived, rfl⟩
    refine ⟨⟨execArgs x command, p.fds⟩, execs, ?_⟩
    obtain ⟨name, named, found⟩ := (simple command (List.mem_of_getElem? known)).2
    rw [argv (e := ⟨execArgs x command, p.fds⟩) known execs]
    exact ⟨name, named, found⟩
  · rw [← commands]
    intro i stage e here execs
    rw [argv here execs.1]
    exact ⟨(simple stage (List.mem_of_getElem? here)).1.ne_nil, rfl⟩
  · refine ⟨fun i => x.commands.length - 2 - i, ?_, ?_⟩
    · rw [← commands]
      intro i k _ _ same
      dsimp only at same
      omega
    · rw [← commands]
      intro i stage e here execs
      obtain ⟨j, fds, t, position, left, bound, -, same⟩ := applied here execs.1
      have single := (simple stage (List.mem_of_getElem? here)).1.toSingle
      rw [← same, ← final_zero position, ← final_one position]
      constructor
      · exact connected_of_applied single bound (left 0) (final_isSome x j (by decide))
      · exact connected_of_applied single bound (left 1) (final_isSome x j (by decide))

/-- Some run of the stages ends, so what each of them calls is a program. -/
theorem exists_program [Nonempty ρ] {programs : Bytes → Prop} (nonempty : stages line ≠ [])
    (meaning : ∀ x : Shell.Call ρ, x.commands = stages line → ∀ es s, exec (step x) start es = some s →
      AllSteps (step x) Opens start es → Terminal (step x) s → Meaning line x.fds (Execs programs s)) :
    ∀ stage ∈ stages line, ∃ name ∈ commandName stage, programs name := by
  intro stage member
  obtain ⟨target⟩ := ‹Nonempty ρ›
  have standard : ∀ fd < 3, ((terminalFds.map fun _ => target).get fd).isSome := fun fd below => by
    simp [FdTable.map, terminalFds, below]
  obtain ⟨es, s, ran, opens, terminal⟩ := exists_finished ⟨stages line, nonempty, _, standard, []⟩
  have holds := meaning _ rfl es s ran opens terminal
  obtain ⟨i, inside, rfl⟩ := List.getElem_of_mem member
  obtain ⟨e, execs⟩ := holds.executed i inside
  have passed := (holds.passed i _ e (List.getElem?_eq_getElem inside) execs).2
  rw [commandName, ← passed]
  exact execs.2

/-- The stages run as written exactly if each names a program and has operators that `redirect` knows. -/
theorem external_iff [Nonempty ρ] (programs : Bytes → Prop) (nonempty : stages line ≠ [])
    (visible : ∀ stage ∈ stages line, Visible stage) (fits : ∀ stage ∈ stages line, Fits stage) :
    ((∀ x : Shell.Call ρ, x.commands = stages line →
        (∃ bound, ∀ es s, exec (step x) start es = some s → es.length ≤ bound) ∧
          ∀ es s, exec (step x) start es = some s → AllSteps (step x) Opens start es → Terminal (step x) s →
            Meaning line x.fds (Execs programs s)) ∧
      ∀ stage ∈ stages line, ∀ (fds : FdTable (Handle ρ)) opens, ∃ r words,
        Converges (redirect Prod.fst opens ⟨fun i => (arguments stage).zipIdx[i]?, fds, [], []⟩) r ∧ r.Holds words ∧
          Delivered Prod.fst (arguments stage).zipIdx words) ↔
      ∀ stage ∈ stages line, Simple id (items stage) ∧ ∃ name ∈ commandName stage, programs name := by
  constructor
  · rintro ⟨runs, redirects⟩ stage member
    constructor
    · exact (delivered_iff_simple ρ stage).mp (redirects stage member)
    · exact exists_program nonempty (fun x same => (runs x same).2) stage member
  · intro simple
    constructor
    · intro x same
      constructor
      · exact ⟨(start : State ρ).fuel x, fun es s ran => length_le_of_exec x ran⟩
      · intro es s ran opens terminal
        exact meaning_of_simple same visible fits simple ran opens terminal
    · intro stage member
      exact (delivered_iff_simple ρ stage).mpr (simple stage member).1

/-- What is accepted has room for the arguments of every stage, if no builtin is called. -/
theorem fits_of_accepts {first : Bytes} {later : List Bytes} (all : stages line = first :: later)
    (external : keyword first = none) (accepted : Accepts line) : ∀ stage ∈ stages line, Fits stage := by
  rw [Accepts, all] at accepted
  obtain ⟨-, tested, continues⟩ := accepted
  rw [Continues, external] at continues
  rw [all, List.forall_mem_cons]
  exact ⟨tested.2, continues⟩

end

end

/-! ## Both paths -/

/-- A line runs as written exactly if the parser is safe on it, nothing behind a `&` is an operator, and either a
builtin is the only stage and has no word that begins with an operator, or every stage names a program, has one
target at most for each operator, and operators that stand alone in front of their targets. -/
theorem asWritten_iff_regular (ρ : Type*) [Nonempty ρ] (programs : Bytes → Prop) {line : Bytes}
    (visible : ∀ stage ∈ stages line, Visible stage) : AsWritten ρ programs line ↔ Regular programs line := by
  cases all : stages line with
  | nil =>
    refine iff_of_false (fun written => not_ok_evaluate all written.safe) fun regular => ?_
    have accepts := regular.1
    rwa [Accepts, all] at accepts
  | cons first later =>
    have accepts : Safe line ↔ Accepts line := by
      rw [Accepts, all]
      exact ok_evaluate all
    have seen : Visible first := visible first (by rw [all]; exact List.mem_cons_self)
    obtain ⟨splits, tests⟩ := result_main all seen
    rw [Regular, all, List.head?_cons, Option.bind_some, ← all]
    cases calls : keyword first with
    | some called =>
      rw [calls] at tests
      have path := builtin_iff (ρ := ρ) all seen
      constructor
      · intro written
        exact ⟨accepts.mp written.safe, written.whole, path.mp (written.builtin _ called splits tests)⟩
      · rintro ⟨accepted, whole, plain⟩
        refine ⟨accepts.mpr accepted, whole, ?_, ?_, ?_⟩
        · intro commands _ splits' _
          cases splits.symm.trans splits'
          exact path.mpr plain
        · intro commands splits' tests'
          cases splits.symm.trans splits'
          cases tests.symm.trans tests'
        · intro commands splits' tests'
          cases splits.symm.trans splits'
          cases tests.symm.trans tests'
    | none =>
      rw [calls] at tests
      have nonempty : stages line ≠ [] := all ▸ List.cons_ne_nil _ _
      have path (accepted : Accepts line) :=
        external_iff (ρ := ρ) programs nonempty visible (fits_of_accepts all calls accepted)
      constructor
      · intro written
        have accepted := accepts.mp written.safe
        exact ⟨accepted, written.whole,
          (path accepted).mp ⟨written.external _ splits tests, written.redirects _ splits tests⟩⟩
      · rintro ⟨accepted, whole, simple⟩
        obtain ⟨runs, redirects⟩ := (path accepted).mpr simple
        refine ⟨accepts.mpr accepted, whole, ?_, ?_, ?_⟩
        · intro commands called splits' tests'
          cases splits.symm.trans splits'
          cases tests.symm.trans tests'
        · intro commands splits' _
          cases splits.symm.trans splits'
          exact runs
        · intro commands splits' _
          cases splits.symm.trans splits'
          exact redirects

/-- `cat < f` -/
def catFromLine : Bytes := [99, 97, 116, 32, 60, 32, 102]

theorem stages_catFromLine : stages catFromLine = [catFromLine] := by decide

theorem regular_catFromLine : Regular (· = [99, 97, 116]) catFromLine := by
  have calls : keyword catFromLine = none := by decide
  have args : arguments catFromLine = catFrom := by decide
  have read : parse id catFrom = [.argument [99, 97, 116], .target .input [60] [102]] := rfl
  refine ⟨?_, ?_, ?_⟩
  · rw [Accepts, stages_catFromLine]
    refine ⟨by decide, ⟨by decide, ?_⟩, ?_⟩
    · rw [Fits, args]
      decide
    · rw [Continues, calls]
      simp
  · rw [stages_catFromLine]
    intro stage member
    rw [List.mem_singleton.mp member, Whole]
    decide
  · rw [stages_catFromLine, List.head?_cons, Option.bind_some, calls]
    intro stage member
    rw [List.mem_singleton.mp member, commandName, items, args]
    refine ⟨⟨plain_catFrom.single, ?_, ?_⟩, [99, 97, 116], ?_, rfl⟩
    · rw [read]
      simp
    · rw [read]
      exact ⟨[99, 97, 116], List.mem_cons_self⟩
    · rw [read]
      rfl

theorem asWritten_iff_regular_catFromLine : AsWritten Unit (· = [99, 97, 116]) catFromLine :=
  (asWritten_iff_regular Unit _ (by
    rw [stages_catFromLine]
    intro stage member
    rw [List.mem_singleton.mp member]
    decide)).mpr regular_catFromLine

/-- `echo a | cat` -/
def echoCat : Bytes := [101, 99, 104, 111, 32, 97, 32, 124, 32, 99, 97, 116]

/-- `cat` is not executed. -/
theorem not_asWritten_echoCat : ¬ ∀ line : Bytes, stages line ≠ [] → (∀ stage ∈ stages line, Visible stage) →
    AsWritten Unit (fun _ => True) line := by
  intro all
  have two : stages echoCat = [[101, 99, 104, 111, 32, 97, 32], [32, 99, 97, 116]] := by decide
  have visible : ∀ stage ∈ stages echoCat, Visible stage := by decide
  have written := all echoCat (by rw [two]; exact List.cons_ne_nil _ _) visible
  obtain ⟨splits, tests⟩ := result_main two (by decide)
  rw [show keyword [101, 99, 104, 111, 32, 97, 32] = some .echo by decide] at tests
  have meaning := written.builtin _ _ splits tests ⟨fun _ => none, 0, fun _ _ => rfl⟩
  rw [two] at meaning
  cases (plain_of_meaning two (by decide) meaning).1

end SystemProgramming.Shell.CommandLine
