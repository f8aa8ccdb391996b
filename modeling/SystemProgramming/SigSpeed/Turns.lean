import SystemProgramming.SigSpeed.Model

/-! # Taking turns

Outside its turn a process rests: it is about to wait or waits. A signal sent to a resting process stays pending
until the process has come to wait, because it is blocked up to then, and ends the wait. So the turn goes from the
child to the parent and back, and with it the only pending signal.
-/

namespace SystemProgramming.SigSpeed

open Lib

variable {wait : Wait} {numSigs : ℕ}

/-! ## One process -/

section

variable {role : Role} {scnt : ℕ} {caught blocked pending : Bool}

@[simp] theorem act_sigaction : Proc.act wait numSigs ⟨.sigaction, caught, blocked, false⟩ role =
    some (⟨.sigprocmask, true, blocked, false⟩, .nothing) := rfl

@[simp] theorem act_sigprocmask : Proc.act wait numSigs ⟨.sigprocmask, caught, blocked, false⟩ role =
    some (⟨.fork, caught, true, false⟩, .nothing) := rfl

@[simp] theorem act_fork : Proc.act wait numSigs ⟨.fork, caught, blocked, false⟩ role =
    some (⟨role.loop numSigs 0, caught, blocked, false⟩, .fork) := rfl

@[simp] theorem act_kill : Proc.act wait numSigs ⟨.kill scnt, caught, true, pending⟩ role =
    some (⟨role.sent numSigs scnt, caught, true, pending⟩, .kill) := by
  cases pending <;> rfl

/-- The signal is unblocked by `sigsuspend` itself, and not at all by `sigwaitinfo`. -/
@[simp] theorem act_sigsuspend : Proc.act wait numSigs ⟨.sigsuspend scnt, caught, true, pending⟩ role =
    some (⟨.waiting scnt, caught, wait == .sigwaitinfo, pending⟩, .nothing) := by
  cases wait <;> cases pending <;> rfl

@[simp] theorem act_waiting_pending :
    Proc.act wait numSigs ⟨.waiting scnt, true, wait == .sigwaitinfo, true⟩ role =
      some (⟨role.woken numSigs scnt, true, true, false⟩, .nothing) := by
  cases wait <;> rfl

@[simp] theorem act_waiting_quiet :
    Proc.act wait numSigs ⟨.waiting scnt, caught, blocked, false⟩ role = none := by
  cases wait <;> rfl

@[simp] theorem act_exited : Proc.act wait numSigs ⟨.exited, caught, blocked, pending⟩ role = none := rfl

theorem loop_of_lt (less : scnt < numSigs) :
    Role.parent.loop numSigs scnt = .sigsuspend scnt ∧ Role.child.loop numSigs scnt = .kill scnt :=
  ⟨if_pos less, if_pos less⟩

theorem loop_last (role : Role) : role.loop numSigs numSigs = .exited := if_neg (Nat.lt_irrefl numSigs)

end

/-- The steps a process still has to take: `kill`, `sigsuspend` and its return in each round. -/
def Role.remaining (numSigs : ℕ) (role : Role) : Pc → ℕ
  | .sigaction => 3 * numSigs + 3
  | .sigprocmask => 3 * numSigs + 2
  | .fork => 3 * numSigs + 1
  | .kill scnt =>
    match role with
    | parent => 3 * (numSigs - scnt) - 2
    | child => 3 * (numSigs - scnt)
  | .sigsuspend scnt =>
    match role with
    | parent => 3 * (numSigs - scnt)
    | child => 3 * (numSigs - scnt) - 1
  | .waiting scnt =>
    match role with
    | parent => 3 * (numSigs - scnt) - 1
    | child => 3 * (numSigs - scnt) - 2
  | .exited | .failed | .killed => 0

section

variable {scnt : ℕ} {role : Role}

theorem remaining_loop (role : Role) (le : scnt ≤ numSigs) :
    role.remaining numSigs (role.loop numSigs scnt) = 3 * (numSigs - scnt) := by
  rcases Nat.lt_or_eq_of_le le with less | rfl
  · cases role
    · rw [(loop_of_lt less).1]
      rfl
    · rw [(loop_of_lt less).2]
      rfl
  · rw [loop_last, Nat.sub_self]
    rfl

theorem remaining_waiting (role : Role) (less : scnt < numSigs) :
    role.remaining numSigs (.waiting scnt) + 1 = role.remaining numSigs (.sigsuspend scnt) := by
  cases role
  all_goals
    simp only [Role.remaining]
    omega

theorem remaining_woken (role : Role) (less : scnt < numSigs) :
    role.remaining numSigs (role.woken numSigs scnt) + 1 = role.remaining numSigs (.waiting scnt) := by
  cases role
  · simp only [Role.woken, Role.remaining]
    omega
  · rw [Role.woken, remaining_loop .child less]
    simp only [Role.remaining]
    omega

theorem remaining_sent (role : Role) (less : scnt < numSigs) :
    role.remaining numSigs (role.sent numSigs scnt) + 1 = role.remaining numSigs (.kill scnt) := by
  cases role
  · rw [Role.sent, remaining_loop .parent less]
    simp only [Role.remaining]
    omega
  · simp only [Role.sent, Role.remaining]
    omega

end

/-- A process that is about to wait, with the signal blocked, or waits. -/
inductive Rests (wait : Wait) (scnt : ℕ) (pending : Bool) : Proc → Prop
  | before : Rests wait scnt pending ⟨.sigsuspend scnt, true, true, pending⟩
  | inside : Rests wait scnt pending ⟨.waiting scnt, true, wait == .sigwaitinfo, pending⟩

section

variable {scnt : ℕ} {pending : Bool} {p q : Proc} {role : Role} {effect : Effect}

theorem Rests.alive (rests : Rests wait scnt pending p) : p.alive = true := by
  cases rests <;> rfl

theorem Rests.pending_eq (rests : Rests wait scnt pending p) : p.pending = pending := by
  cases rests <;> rfl

/-- A signal for a resting process leaves it resting. -/
theorem Rests.signal (rests : Rests wait scnt pending p) : Rests wait scnt true { p with pending := true } := by
  cases rests
  · exact .before
  · exact .inside

/-- Without a signal it can only come to wait. -/
theorem Rests.act_quiet (less : scnt < numSigs) (rests : Rests wait scnt false p)
    (acts : p.act wait numSigs role = some (q, effect)) :
    effect = .nothing ∧ Rests wait scnt false q ∧
      role.remaining numSigs q.pc + 1 = role.remaining numSigs p.pc := by
  cases rests
  · rw [act_sigsuspend, Option.some.injEq, Prod.mk.injEq] at acts
    obtain ⟨rfl, rfl⟩ := acts
    exact ⟨rfl, .inside, remaining_waiting role less⟩
  · rw [act_waiting_quiet] at acts
    cases acts

/-- With one it comes to wait, and then takes its turn. -/
theorem Rests.act_pending (less : scnt < numSigs) (rests : Rests wait scnt true p)
    (acts : p.act wait numSigs role = some (q, effect)) :
    effect = .nothing ∧ (Rests wait scnt true q ∨ q = ⟨role.woken numSigs scnt, true, true, false⟩) ∧
      role.remaining numSigs q.pc + 1 = role.remaining numSigs p.pc := by
  cases rests
  · rw [act_sigsuspend, Option.some.injEq, Prod.mk.injEq] at acts
    obtain ⟨rfl, rfl⟩ := acts
    exact ⟨rfl, .inl .inside, remaining_waiting role less⟩
  · rw [act_waiting_pending, Option.some.injEq, Prod.mk.injEq] at acts
    obtain ⟨rfl, rfl⟩ := acts
    exact ⟨rfl, .inr rfl, remaining_woken role less⟩

theorem Rests.act_pending_ne_none (rests : Rests wait scnt true p) (role : Role) :
    p.act wait numSigs role ≠ none := by
  cases rests
  · simp
  · simp

end

/-! ## Both processes -/

/-- The calls of `kill`, each with a signal that becomes pending. -/
def arrived (roles : List Role) : List (Role × Bool) := roles.map fun role => (role, true)

/-- A process that is through. -/
def gone : Proc := ⟨.exited, true, true, false⟩

/-- A process in its turn. -/
def sends (scnt : ℕ) : Proc := ⟨.kill scnt, true, true, false⟩

/-- Where the turn is. -/
inductive Phase (wait : Wait) (numSigs : ℕ) : State → Prop
  | sigaction {blocked : Bool} : Phase wait numSigs ⟨⟨.sigaction, false, blocked, false⟩, none, []⟩
  | sigprocmask {blocked : Bool} : Phase wait numSigs ⟨⟨.sigprocmask, true, blocked, false⟩, none, []⟩
  | fork : Phase wait numSigs ⟨⟨.fork, true, true, false⟩, none, []⟩
  | childTurn {k : ℕ} {p : Proc} (less : k < numSigs) (parent : Rests wait k false p) :
      Phase wait numSigs ⟨p, some (sends k), arrived (turns k)⟩
  | toParent {k : ℕ} {p c : Proc} (less : k < numSigs) (parent : Rests wait k true p)
      (child : Rests wait k false c) : Phase wait numSigs ⟨p, some c, arrived (turns k ++ [.child])⟩
  | parentTurn {k : ℕ} {c : Proc} (less : k < numSigs) (child : Rests wait k false c) :
      Phase wait numSigs ⟨sends k, some c, arrived (turns k ++ [.child])⟩
  | toChild {k : ℕ} {p c : Proc} (less : k + 1 < numSigs) (parent : Rests wait (k + 1) false p)
      (child : Rests wait k true c) : Phase wait numSigs ⟨p, some c, arrived (turns (k + 1))⟩
  | lastToChild {k : ℕ} {c : Proc} (last : k + 1 = numSigs) (child : Rests wait k true c) :
      Phase wait numSigs ⟨gone, some c, arrived (turns numSigs)⟩
  | ended : Phase wait numSigs ⟨gone, some gone, arrived (turns numSigs)⟩

theorem turns_succ (k : ℕ) : turns (k + 1) = turns k ++ [.child] ++ [.parent] := by
  simp [turns, List.replicate_succ']

theorem arrived_concat (roles : List Role) (role : Role) :
    arrived (roles ++ [role]) = arrived roles ++ [(role, true)] :=
  List.map_append

section

variable {p q c : Proc} {kills : List (Role × Bool)} {t : State}

theorem step_parent {child : Option Proc} (taken : step wait numSigs ⟨p, child, kills⟩ .parent = some t) :
    ∃ q effect, p.act wait numSigs .parent = some (q, effect) ∧ t =
      match effect with
      | .nothing => ⟨q, child, kills⟩
      | .fork => State.forked numSigs ⟨q, child, kills⟩
      | .kill => State.kill ⟨q, child, kills⟩ .parent := by
  obtain ⟨⟨q, effect⟩, acts, rfl⟩ := Option.map_eq_some_iff.mp taken
  exact ⟨q, effect, acts, by cases effect <;> rfl⟩

theorem step_child (taken : step wait numSigs ⟨p, some c, kills⟩ .child = some t) :
    ∃ q effect, c.act wait numSigs .child = some (q, effect) ∧ t =
      match effect with
      | .nothing => ⟨p, some q, kills⟩
      | .fork => State.forked numSigs ⟨p, some q, kills⟩
      | .kill => State.kill ⟨p, some q, kills⟩ .child := by
  obtain ⟨⟨q, effect⟩, acts, rfl⟩ := Option.map_eq_some_iff.mp taken
  exact ⟨q, effect, acts, by cases effect <;> rfl⟩

/-- A signal for a resting process without one becomes pending. -/
theorem kill_parent {k : ℕ} (rests : Rests wait k false p) :
    State.kill ⟨p, some c, kills⟩ .child =
      ⟨{ p with pending := true }, some c, kills ++ [(.child, true)]⟩ := by
  simp only [State.kill, State.proc, Role.other, rests.alive, rests.pending_eq, if_true]
  rfl

theorem kill_child {k : ℕ} (rests : Rests wait k false c) :
    State.kill ⟨p, some c, kills⟩ .parent =
      ⟨p, some { c with pending := true }, kills ++ [(.parent, true)]⟩ := by
  simp only [State.kill, State.proc, Role.other, rests.alive, rests.pending_eq, if_true]
  rfl

end

/-- The steps both processes still have to take. -/
def State.remaining (numSigs : ℕ) (s : State) : ℕ :=
  Role.parent.remaining numSigs s.parent.pc +
    ((s.child.map Proc.pc).map (Role.child.remaining numSigs)).getD (3 * numSigs)

section

variable {s t : State}

theorem remaining_parent (child : t.child.map Proc.pc = s.child.map Proc.pc)
    (fewer : Role.parent.remaining numSigs t.parent.pc + 1 = Role.parent.remaining numSigs s.parent.pc) :
    t.remaining numSigs + 1 = s.remaining numSigs := by
  rw [State.remaining, State.remaining, child]
  omega

theorem remaining_child {p q : Proc} (parent : t.parent.pc = s.parent.pc) (before : s.child = some p)
    (after : t.child = some q)
    (fewer : Role.child.remaining numSigs q.pc + 1 = Role.child.remaining numSigs p.pc) :
    t.remaining numSigs + 1 = s.remaining numSigs := by
  rw [State.remaining, State.remaining, parent, before, after]
  simp only [Option.map_some, Option.getD_some]
  omega

end

/-- A step of the parent leaves the turn where it is, or takes it from a parent that has a signal, or passes it
on. -/
theorem phase_parent {s t : State} (phase : Phase wait numSigs s)
    (taken : step wait numSigs s .parent = some t) :
    Phase wait numSigs t ∧ t.remaining numSigs + 1 = s.remaining numSigs := by
  cases phase with
  | sigaction =>
    obtain ⟨q, effect, acts, rfl⟩ := step_parent taken
    rw [act_sigaction, Option.some.injEq, Prod.mk.injEq] at acts
    obtain ⟨rfl, rfl⟩ := acts
    exact ⟨.sigprocmask, remaining_parent rfl rfl⟩
  | sigprocmask =>
    obtain ⟨q, effect, acts, rfl⟩ := step_parent taken
    rw [act_sigprocmask, Option.some.injEq, Prod.mk.injEq] at acts
    obtain ⟨rfl, rfl⟩ := acts
    exact ⟨.fork, remaining_parent rfl rfl⟩
  | fork =>
    obtain ⟨q, effect, acts, rfl⟩ := step_parent taken
    rw [act_fork, Option.some.injEq, Prod.mk.injEq] at acts
    obtain ⟨rfl, rfl⟩ := acts
    constructor
    · rcases Nat.eq_zero_or_pos numSigs with rfl | pos
      · exact .ended
      · simp only [State.forked, loop_of_lt pos]
        exact .childTurn (k := 0) pos .before
    · simp only [State.remaining, State.forked, Option.map_some, Option.getD_some,
        remaining_loop _ (Nat.zero_le numSigs), Option.map_none, Option.getD_none]
      simp only [Role.remaining]
      omega
  | childTurn less rests =>
    obtain ⟨q, effect, acts, rfl⟩ := step_parent taken
    obtain ⟨rfl, later, fewer⟩ := rests.act_quiet less acts
    exact ⟨.childTurn less later, remaining_parent rfl fewer⟩
  | toParent less rests child =>
    obtain ⟨q, effect, acts, rfl⟩ := step_parent taken
    obtain ⟨rfl, later | rfl, fewer⟩ := rests.act_pending less acts
    · exact ⟨.toParent less later child, remaining_parent rfl fewer⟩
    · exact ⟨.parentTurn less child, remaining_parent rfl fewer⟩
  | @parentTurn k c less child =>
    obtain ⟨q, effect, acts, rfl⟩ := step_parent taken
    rw [sends, act_kill, Option.some.injEq, Prod.mk.injEq] at acts
    obtain ⟨rfl, rfl⟩ := acts
    have fewer := remaining_sent .parent less
    simp only [kill_child child, ← arrived_concat, ← turns_succ]
    refine ⟨?_, remaining_parent rfl fewer⟩
    obtain next | last : k + 1 < numSigs ∨ k + 1 = numSigs := Nat.lt_or_eq_of_le less
    · simp only [Role.sent, loop_of_lt next]
      exact .toChild next .before child.signal
    · simp only [Role.sent, last, loop_last]
      exact .lastToChild last child.signal
  | toChild less rests child =>
    obtain ⟨q, effect, acts, rfl⟩ := step_parent taken
    obtain ⟨rfl, later, fewer⟩ := rests.act_quiet less acts
    exact ⟨.toChild less later child, remaining_parent rfl fewer⟩
  | lastToChild last child =>
    obtain ⟨q, effect, acts, rfl⟩ := step_parent taken
    rw [gone, act_exited] at acts
    cases acts
  | ended =>
    obtain ⟨q, effect, acts, rfl⟩ := step_parent taken
    rw [gone, act_exited] at acts
    cases acts

/-- The same for a step of the child, once there is one. -/
theorem phase_child {s t : State} (phase : Phase wait numSigs s)
    (taken : step wait numSigs s .child = some t) :
    Phase wait numSigs t ∧ t.remaining numSigs + 1 = s.remaining numSigs := by
  cases phase with
  | sigaction => cases taken
  | sigprocmask => cases taken
  | fork => cases taken
  | @childTurn k p less rests =>
    obtain ⟨q, effect, acts, rfl⟩ := step_child taken
    rw [sends, act_kill, Option.some.injEq, Prod.mk.injEq] at acts
    obtain ⟨rfl, rfl⟩ := acts
    have fewer := remaining_sent .child less
    simp only [kill_parent rests, ← arrived_concat]
    refine ⟨.toParent less rests.signal .before, ?_⟩
    exact remaining_child rfl rfl rfl fewer
  | toParent less rests child =>
    obtain ⟨q, effect, acts, rfl⟩ := step_child taken
    obtain ⟨rfl, later, fewer⟩ := child.act_quiet less acts
    exact ⟨.toParent less rests later, remaining_child rfl rfl rfl fewer⟩
  | parentTurn less child =>
    obtain ⟨q, effect, acts, rfl⟩ := step_child taken
    obtain ⟨rfl, later, fewer⟩ := child.act_quiet less acts
    exact ⟨.parentTurn less later, remaining_child rfl rfl rfl fewer⟩
  | @toChild k p c less rests child =>
    obtain ⟨q, effect, acts, rfl⟩ := step_child taken
    obtain ⟨rfl, later | rfl, fewer⟩ := child.act_pending (Nat.lt_of_succ_lt less) acts
    · exact ⟨.toChild less rests later, remaining_child rfl rfl rfl fewer⟩
    · refine ⟨?_, remaining_child rfl rfl rfl fewer⟩
      simp only [Role.woken, loop_of_lt less]
      exact .childTurn less rests
  | @lastToChild k c last child =>
    obtain ⟨q, effect, acts, rfl⟩ := step_child taken
    obtain ⟨rfl, later | rfl, fewer⟩ := child.act_pending (Nat.lt_of_succ_le (Nat.le_of_eq last)) acts
    · exact ⟨.lastToChild last later, remaining_child rfl rfl rfl fewer⟩
    · refine ⟨?_, remaining_child rfl rfl rfl fewer⟩
      simp only [Role.woken, last, loop_last]
      exact .ended
  | ended =>
    obtain ⟨q, effect, acts, rfl⟩ := step_child taken
    rw [gone, act_exited] at acts
    cases acts

theorem phase_step {s t : State} (role : Role) (phase : Phase wait numSigs s)
    (taken : step wait numSigs s role = some t) :
    Phase wait numSigs t ∧ t.remaining numSigs + 1 = s.remaining numSigs := by
  cases role
  · exact phase_parent phase taken
  · exact phase_child phase taken

theorem phase_of_exec {s : State} {blocked : Bool} {es : List Role}
    (ran : exec (step wait numSigs) (start blocked) es = some s) : Phase wait numSigs s :=
  exec_invariant (fun _ role _ phase taken => (phase_step role phase taken).1) ran .sigaction

/-! ## Runs -/

theorem turns_prefix_of_le {k n : ℕ} (le : k ≤ n) : turns k <+: turns n := by
  induction le with
  | refl => exact List.prefix_rfl
  | step _ ih =>
    rw [turns_succ, List.append_assoc]
    exact ih.trans (List.prefix_append _ _)

theorem arrived_prefix {front roles : List Role} (before : front <+: roles) : arrived front <+: arrived roles :=
  before.map _

/-- The order in which the signals are sent does not depend on the phase. -/
theorem Phase.kills_prefix {s : State} (phase : Phase wait numSigs s) : s.kills <+: arrived (turns numSigs) := by
  have half {k : ℕ} (less : k < numSigs) : turns k ++ [.child] <+: turns numSigs := by
    refine List.IsPrefix.trans ?_ (turns_prefix_of_le less)
    rw [turns_succ]
    exact List.prefix_append _ _
  cases phase with
  | sigaction => exact List.nil_prefix
  | sigprocmask => exact List.nil_prefix
  | fork => exact List.nil_prefix
  | childTurn less _ => exact arrived_prefix (turns_prefix_of_le (Nat.le_of_lt less))
  | toParent less _ _ => exact arrived_prefix (half less)
  | parentTurn less _ => exact arrived_prefix (half less)
  | toChild less _ _ => exact arrived_prefix (turns_prefix_of_le (Nat.le_of_lt less))
  | lastToChild last _ => exact List.prefix_rfl
  | ended => exact List.prefix_rfl

theorem Rests.not_ended {scnt : ℕ} {pending : Bool} {p : Proc} (rests : Rests wait scnt pending p) :
    p.pc ≠ .failed ∧ p.pc ≠ .killed := by
  cases rests
  · simp
  · simp

theorem Phase.parent_sound {s : State} (phase : Phase wait numSigs s) :
    s.parent.pc ≠ .failed ∧ s.parent.pc ≠ .killed := by
  cases phase with
  | childTurn _ parent => exact parent.not_ended
  | toParent _ parent _ => exact parent.not_ended
  | toChild _ parent _ => exact parent.not_ended
  | _ => simp [sends, gone]

theorem Phase.child_sound {s : State} (phase : Phase wait numSigs s) {p : Proc} (is : s.child = some p) :
    p.pc ≠ .failed ∧ p.pc ≠ .killed := by
  cases phase with
  | toParent _ _ child => exact Option.some.inj is ▸ child.not_ended
  | parentTurn _ child => exact Option.some.inj is ▸ child.not_ended
  | toChild _ _ child => exact Option.some.inj is ▸ child.not_ended
  | lastToChild _ child => exact Option.some.inj is ▸ child.not_ended
  | childTurn => exact Option.some.inj is ▸ by simp [sends]
  | ended => exact Option.some.inj is ▸ by simp [gone]
  | _ => cases is

/-- Up to any moment the signals have been sent by child and parent in turn, each one to a process that was
there and had none pending. -/
theorem kills_prefix_turns {s : State} {blocked : Bool}
    (reached : Reachable (step wait numSigs) (start blocked) s) :
    s.kills <+: arrived (turns numSigs) ∧
      ∀ role p, s.proc role = some p → p.pc ≠ .failed ∧ p.pc ≠ .killed := by
  obtain ⟨es, ran⟩ := reached
  have phase := phase_of_exec ran
  refine ⟨phase.kills_prefix, fun role p is => ?_⟩
  cases role with
  | parent => exact Option.some.inj is ▸ phase.parent_sound
  | child => exact phase.child_sound is

/-- The turn comes back to the child once. -/
theorem kills_of_two_rounds :
    arrived (turns 2) <+: arrived (turns 2) ∧
      ∀ role p, State.proc ⟨gone, some gone, arrived (turns 2)⟩ role = some p → p.pc ≠ .failed ∧ p.pc ≠ .killed :=
  kills_prefix_turns (show Reachable (step .sigsuspend 2) (start false) ⟨gone, some gone, arrived (turns 2)⟩ from
    ⟨[.parent, .parent, .parent, .child, .child, .parent, .parent, .parent, .child, .child, .child, .parent,
      .parent, .parent, .child], rfl⟩)

theorem step_ne_none {s : State} {role : Role} {p : Proc} (is : s.proc role = some p)
    (acts : p.act wait numSigs role ≠ none) : step wait numSigs s role ≠ none := by
  rw [step, is, Option.bind_some]
  simpa using acts

/-- Until the end the process whose turn it is, or who has a signal, can go on. -/
theorem Phase.progress {s : State} (phase : Phase wait numSigs s) :
    s = ⟨gone, some gone, arrived (turns numSigs)⟩ ∨ ∃ role, step wait numSigs s role ≠ none := by
  cases phase with
  | sigaction => exact .inr ⟨.parent, step_ne_none rfl (by simp)⟩
  | sigprocmask => exact .inr ⟨.parent, step_ne_none rfl (by simp)⟩
  | fork => exact .inr ⟨.parent, step_ne_none rfl (by simp)⟩
  | childTurn => exact .inr ⟨.child, step_ne_none rfl (by simp [sends])⟩
  | toParent _ parent _ => exact .inr ⟨.parent, step_ne_none rfl (parent.act_pending_ne_none _)⟩
  | parentTurn => exact .inr ⟨.parent, step_ne_none rfl (by simp [sends])⟩
  | toChild _ _ child => exact .inr ⟨.child, step_ne_none rfl (child.act_pending_ne_none _)⟩
  | lastToChild _ child => exact .inr ⟨.child, step_ne_none rfl (child.act_pending_ne_none _)⟩
  | ended => exact .inl rfl

theorem remaining_start (blocked : Bool) : (start blocked).remaining numSigs = 6 * numSigs + 3 := by
  simp only [start, State.remaining, Role.remaining, Option.map_none, Option.getD_none]
  omega

theorem complete_ended : State.Complete numSigs ⟨gone, some gone, arrived (turns numSigs)⟩ where
  parent := rfl
  child := ⟨gone, rfl, rfl⟩
  kills := rfl
  quiet role p is := by
    cases role
    · cases is
      rfl
    · cases is
      rfl

theorem remaining_of_complete {s : State} (complete : s.Complete numSigs) : s.remaining numSigs = 0 := by
  obtain ⟨p, is, exited⟩ := complete.child
  rw [State.remaining, complete.parent, is, Option.map_some, exited]
  rfl

/-- A run that cannot go on has ended well, and exactly the runs of full length have. -/
theorem Phase.remaining_eq_zero_iff {s : State} (phase : Phase wait numSigs s) :
    (s.remaining numSigs = 0 ↔ s.Complete numSigs) ∧
      (Terminal (step wait numSigs) s ↔ s.Complete numSigs) := by
  rcases phase.progress with rfl | ⟨role, moves⟩
  · refine ⟨iff_of_true rfl complete_ended, iff_of_true (fun role => ?_) complete_ended⟩
    cases role <;> rfl
  · obtain ⟨t, taken⟩ := Option.ne_none_iff_exists'.mp moves
    have fewer := (phase_step role phase taken).2
    have left : s.remaining numSigs ≠ 0 := by omega
    have incomplete : ¬ s.Complete numSigs := fun complete => left (remaining_of_complete complete)
    exact ⟨iff_of_false left incomplete, iff_of_false (fun terminal => moves (terminal role)) incomplete⟩

theorem exec_length_add {s t : State} {es : List Role} (ran : exec (step wait numSigs) s es = some t)
    (phase : Phase wait numSigs s) : es.length + t.remaining numSigs = s.remaining numSigs := by
  induction es generalizing s with
  | nil =>
    cases ran
    exact Nat.zero_add _
  | cons role es ih =>
    obtain ⟨middle, taken, rest⟩ := exec_cons_eq_some.mp ran
    obtain ⟨later, fewer⟩ := phase_step role phase taken
    have tail := ih rest later
    rw [List.length_cons]
    omega

/-- Whatever the scheduler does, the two processes end after the same number of events, and not before every
signal has been sent and received. -/
theorem ends_after_all_signals {s : State} {blocked : Bool} {es : List Role}
    (ran : exec (step wait numSigs) (start blocked) es = some s) :
    es.length ≤ 6 * numSigs + 3 ∧ (Terminal (step wait numSigs) s ↔ s.Complete numSigs) ∧
      (es.length = 6 * numSigs + 3 ↔ s.Complete numSigs) := by
  have phase := phase_of_exec ran
  have counted := exec_length_add ran .sigaction
  rw [remaining_start] at counted
  obtain ⟨zero, terminal⟩ := phase.remaining_eq_zero_iff
  refine ⟨by omega, terminal, ?_⟩
  rw [← zero]
  omega

/-- The first signal is sent before the parent waits for it. -/
theorem two_rounds_end :
    15 ≤ 6 * 2 + 3 ∧
      (Terminal (step .sigwaitinfo 2) ⟨gone, some gone, arrived (turns 2)⟩ ↔
        State.Complete 2 ⟨gone, some gone, arrived (turns 2)⟩) ∧
      (15 = 6 * 2 + 3 ↔ State.Complete 2 ⟨gone, some gone, arrived (turns 2)⟩) :=
  ends_after_all_signals (show exec (step .sigwaitinfo 2) (start true)
    [.parent, .parent, .parent, .child, .parent, .parent, .parent, .child, .child, .child, .parent, .parent,
      .parent, .child, .child] = some _ from rfl)

end SystemProgramming.SigSpeed
