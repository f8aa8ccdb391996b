import SystemProgramming.Signals.Frame

/-! # The functions against the System V interface

The interface keeps for each signal whether it is blocked and its disposition, and a call is about
one signal. Run beside the program on the same calls, it agrees with the program on a signal until
another signal's `sigset` unblocks it or `sigignore` is called for it, which installs the handler
`sa` never got: `SIG_DFL`.
-/

namespace SystemProgramming.Signals

open Lib

/-! ## The interface -/

/-- What System V keeps for a signal. -/
structure Status where
  blocked : Bool
  disp : Sighandler
deriving DecidableEq, Repr

/-- What `sigset` returns for a signal of this status. -/
def Status.previous (status : Status) : Sighandler :=
  if status.blocked then .sigHold else status.disp

/-- `saved` holds the blocked statuses `sigpause` restores. -/
structure SystemV where
  status : ℤ → Status
  saved : Option (ℤ → Bool)

/-- What a call does to the signal it is made for. -/
def Call.change (status : Status) : Call → Status
  | .sigset _ _ disp =>
    if disp = .sigHold then { status with blocked := true } else ⟨false, disp⟩
  | .sighold _ => { status with blocked := true }
  | .sigrelse _ => { status with blocked := false }
  | .sigignore _ => { status with disp := .sigIgn }
  | .sigpause _ => { status with blocked := false }

def SystemV.enter (v : SystemV) (c : Call) : SystemV where
  status := Function.update v.status c.sig (c.change (v.status c.sig))
  saved :=
    match c with
    | .sigpause _ => some fun sig => (v.status sig).blocked
    | .sigset _ _ _ | .sighold _ | .sigrelse _ | .sigignore _ => v.saved

def SystemV.step (v : SystemV) : Event → Option SystemV
  | .call c =>
    match v.saved with
    | none => some (v.enter c)
    | some _ => none
  | .caught => v.saved.map fun blocked =>
    { status := fun sig => ⟨blocked sig, (v.status sig).disp⟩, saved := none }

/-! ## The program beside the interface -/

def State.status (s : State) (sig : ℤ) : Status :=
  ⟨s.mask.held sig, (s.dispositions.action sig).handler⟩

/-- The interface's view of a state in which no call is under way. -/
def State.systemV (s : State) : SystemV := ⟨s.status, none⟩

/-- Both machines take the same event. -/
def stepBoth (both : State × SystemV) (e : Event) : Option (State × SystemV) :=
  (Signals.step both.1 e).bind fun s => (both.2.step e).map fun v => (s, v)

/-- The event leaves the signal as System V has it, and its `sigset` returns what System V's does. -/
def AsSystemV (sig : ℤ) (both : State × SystemV) (e : Event) : Prop :=
  (∀ after, stepBoth both e = some after → after.1.status sig = after.2.status sig) ∧
    ∀ oact disp, e = .call (.sigset oact sig disp) →
      (mySigset both.1 oact sig disp).2 = (both.2.status sig).previous

/-- A call made for another signal leaves this one alone: it does not install a disposition while
this one is blocked. -/
def Spares (s : State) (sig : ℤ) : Call → Prop
  | .sigset _ _ disp => disp = .sigHold ∨ s.mask.held sig = false
  | .sighold _ | .sigrelse _ | .sigignore _ | .sigpause _ => True

/-- A call made for this signal does to it what System V says: it is not `sigignore`, and it does not
have to change `SIGKILL` or `SIGSTOP`. For these two `my_sigset` returns what `oact` happens to hold. -/
def Obeys (sig : ℤ) : Call → Prop
  | .sigset oact _ disp => changeable sig = true ∨ disp = .sigDfl ∧ oact.handler = .sigDfl
  | .sighold _ => changeable sig = true
  | .sigignore _ => False
  | .sigrelse _ | .sigpause _ => True

/-- The event is none of those in which the program departs from System V for this signal. -/
def Conforms (sig : ℤ) (both : State × SystemV) : Event → Prop
  | .call c => if c.sig = sig then Obeys sig c else Spares both.1 sig c
  | .caught => True

/-! ## One call -/

section

variable {sig : ℤ} (s : State) (oact : Sigaction) (signal : available sig = true)

include signal

theorem status_sigset_hold :
    (mySigset s oact sig .sigHold).1.status sig = ⟨changeable sig, (s.status sig).disp⟩ := by
  have blocked : (mySigset s oact sig .sigHold).1.mask.held sig = changeable sig := by
    rw [held_sigset_hold, if_pos rfl, reserved_eq_false signal]
    cases held : s.mask.held sig with
    | false => simp
    | true => simp [s.mask.blockable sig held]
  have kept := dispositions_sigset_hold s oact sig
  simp only [State.status, blocked, kept]

theorem status_sigset {disp : Sighandler} (installs : disp ≠ .sigHold) :
    (mySigset s oact sig disp).1.status sig =
      ⟨false, if changeable sig then disp else .sigDfl⟩ := by
  have unblocked := held_sigset s oact sig sig installs
  rw [reserved_eq_false signal, Bool.and_false] at unblocked
  have table := dispositions_sigset s oact sig installs
  simp only [State.status, unblocked, table, sigaction, signal, Bool.true_and]
  by_cases possible : changeable sig = true
  · simp [possible, Dispositions.install]
  · simp [possible, s.dispositions.fixed sig (by simpa using possible)]

/-- The value `my_sigset` returns for a signal. -/
theorem mySigset_result (disp : Sighandler) :
    (mySigset s oact sig disp).2 =
      if disp = .sigHold ∨ changeable sig = true then (s.status sig).previous else oact.handler := by
  have member : sigismember s.mask.held sig ≠ 0 ↔ (s.status sig).blocked = true := by
    cases held : s.mask.held sig <;>
      simp [sigismember, isSignal_of_available signal, held, State.status]
  by_cases holds : disp = .sigHold
  · subst holds
    have result : (mySigset s oact sig .sigHold).2 =
        if sigismember s.mask.held sig ≠ 0 then .sigHold
        else (sigaction s.dispositions sig none { oact with mask := s.mask.held }).2.1.handler := by
      simp only [mySigset, if_true]
      exact apply_ite Prod.snd _ _ _
    have found : (sigaction s.dispositions sig none { oact with mask := s.mask.held }).2.1.handler =
        (s.status sig).disp := by
      simp [sigaction, signal, State.status]
    rw [result, found, if_congr member rfl rfl, if_pos (Or.inl rfl)]
    rfl
  · have result : (mySigset s oact sig disp).2 =
        if sigismember s.mask.held sig ≠ 0 then .sigHold
        else (sigaction s.dispositions sig (some ⟨disp, 0, sigemptyset⟩) oact).2.1.handler := by
      simp only [mySigset, if_neg holds]
      rfl
    rw [result, if_congr member rfl rfl]
    cases possible : changeable sig with
    | true =>
      rw [if_pos (Or.inr rfl)]
      simp only [sigaction, signal, possible, Bool.and_self, if_true]
      rfl
    | false => simp [sigaction, possible, holds, State.status, s.mask.held_eq_false possible]

end

/-- A call for another signal changes this one exactly if it does not spare it. -/
theorem status_enter_of_ne {s : State} {c : Call} {sig : ℤ} (signal : available sig = true)
    (different : sig ≠ c.sig) :
    (s.enter c).status sig = s.status sig ↔ Spares s sig c := by
  have action := congrArg Sigaction.handler (enter_action_of_ne s c different)
  have same : (s.enter c).status sig = s.status sig ↔
      (s.enter c).mask.held sig = s.mask.held sig := by
    simp [State.status, action]
  have free := reserved_eq_false signal
  rw [same]
  cases c with
  | sigset oact other disp =>
    by_cases holds : disp = .sigHold
    · subst holds
      exact iff_of_true ((held_sigset_hold s oact other sig).trans (if_neg different)) (.inl rfl)
    · have unblocked := held_sigset s oact other sig holds
      rw [free, Bool.and_false] at unblocked
      simp only [State.enter, unblocked, Spares, holds, false_or]
      exact eq_comm
  | sighold other =>
    refine iff_of_true ?_ trivial
    have stored := held_sighold s other sig
    rwa [if_neg (show sig ≠ other from different), free, Bool.not_false, Bool.and_true] at stored
  | sigrelse other =>
    refine iff_of_true ?_ trivial
    have stored := held_sigrelse s other sig
    rwa [if_neg (show sig ≠ other from different), free, Bool.not_false, Bool.and_true] at stored
  | sigpause other => exact iff_of_true ((held_sigpause s other sig).trans (if_neg different)) trivial
  | sigignore other => exact iff_of_true rfl trivial

theorem status_sigignore (s : State) (sig : ℤ) (signal : available sig = true)
    (unset : s.sa.handler = .sigDfl) :
    (mySigignore s sig).1.status sig = ⟨s.mask.held sig, .sigDfl⟩ := by
  simp only [mySigignore, State.status, State.syncSa, sigaction, signal, Bool.true_and]
  by_cases possible : changeable sig = true
  · simp [possible, Dispositions.install, unset]
  · simp [possible, s.dispositions.fixed sig (by simpa using possible)]

theorem status_sighold (s : State) (sig : ℤ) (signal : available sig = true) :
    (mySighold s sig).1.status sig = ⟨changeable sig, (s.status sig).disp⟩ := by
  have stored := held_sighold s sig sig
  rw [if_pos rfl, reserved_eq_false signal, Bool.not_false, Bool.and_true] at stored
  exact congrArg₂ Status.mk stored rfl

theorem status_sigrelse (s : State) (sig : ℤ) :
    (mySigrelse s sig).1.status sig = ⟨false, (s.status sig).disp⟩ :=
  congrArg₂ Status.mk ((held_sigrelse s sig sig).trans (if_pos rfl)) rfl

theorem status_sigpause (s : State) (sig : ℤ) (signal : available sig = true) :
    (mySigpause s sig).status sig = ⟨false, (s.status sig).disp⟩ := by
  have stored := held_sigpause s sig sig
  rw [if_pos rfl, reserved_eq_false signal, Bool.and_false] at stored
  exact congrArg₂ Status.mk stored rfl

/-- `my_sigset` has the effect and the result of System V's `sigset` exactly if it obeys. -/
theorem sigset_obeys_iff {s : State} {oact : Sigaction} {sig : ℤ} {disp : Sighandler}
    (signal : available sig = true) :
    ((mySigset s oact sig disp).1.status sig =
        Call.change (s.status sig) (.sigset oact sig disp) ∧
      (mySigset s oact sig disp).2 = (s.status sig).previous) ↔ Obeys sig (.sigset oact sig disp) := by
  rw [mySigset_result s oact signal disp]
  by_cases holds : disp = .sigHold
  · subst holds
    rw [status_sigset_hold s oact signal]
    simp [Call.change, Obeys]
  · rw [status_sigset s oact signal holds]
    cases possible : changeable sig with
    | true => simp [Call.change, Obeys, holds, possible]
    | false =>
      have default : s.status sig = ⟨false, .sigDfl⟩ :=
        congrArg₂ Status.mk (s.mask.held_eq_false possible) (s.dispositions.fixed sig possible)
      simp [Call.change, Status.previous, Obeys, holds, possible, default, eq_comm]

/-- The call returns what System V's function returns, as far as the interface says. -/
def Answers (s : State) : Call → Prop
  | .sigset oact sig disp => (mySigset s oact sig disp).2 = (s.status sig).previous
  | .sighold _ | .sigrelse _ | .sigignore _ | .sigpause _ => True

/-- A call for a signal has the effect and the result of System V exactly if it obeys. -/
theorem obeys_iff {s : State} {c : Call} (signal : available c.sig = true)
    (unset : s.sa.handler = .sigDfl) :
    ((s.enter c).status c.sig = c.change (s.status c.sig) ∧ Answers s c) ↔ Obeys c.sig c := by
  cases c with
  | sigset oact sig disp => exact sigset_obeys_iff signal
  | sighold sig => simp [State.enter, Call.sig, Call.change, status_sighold s sig signal, Answers, Obeys]
  | sigrelse sig => simp [State.enter, Call.sig, Call.change, status_sigrelse, Answers, Obeys]
  | sigpause sig => simp [State.enter, Call.sig, Call.change, status_sigpause s sig signal, Answers, Obeys]
  | sigignore sig =>
    simp [State.enter, Call.sig, Call.change, status_sigignore s sig signal unset, Answers, Obeys]

/-- The two machines agree on the signal, now and after the call under way. -/
structure Agree (sig : ℤ) (both : State × SystemV) : Prop where
  now : both.1.status sig = both.2.status sig
  after : both.1.saved.map (fun mask => mask.held sig) = both.2.saved.map (fun blocked => blocked sig)
  /-- No function stores a handler in `sa`. -/
  unset : both.1.sa.handler = .sigDfl

theorem enter_unset (s : State) (c : Call) : (s.enter c).sa.handler = s.sa.handler := by
  cases c with
  | sigset oact sig disp =>
    simp only [State.enter, mySigset]
    split
    · split <;> rfl
    · rfl
  | sighold sig | sigrelse sig | sigignore sig | sigpause sig => rfl

/-! ## Runs -/

theorem stepBoth_eq_some {both after : State × SystemV} {e : Event} :
    stepBoth both e = some after ↔
      Signals.step both.1 e = some after.1 ∧ both.2.step e = some after.2 := by
  unfold stepBoth
  cases Signals.step both.1 e <;> cases both.2.step e <;> simp [Prod.ext_iff]

theorem step_call {s t : State} {c : Call} (taken : step s (.call c) = some t) :
    s.saved = none ∧ t = s.enter c := by
  unfold step at taken
  cases saved : s.saved with
  | none => exact ⟨rfl, by simpa [saved] using taken.symm⟩
  | some mask => simp [saved] at taken

theorem systemV_step_call {v w : SystemV} {c : Call} (taken : v.step (.call c) = some w) :
    v.saved = none ∧ w = v.enter c := by
  unfold SystemV.step at taken
  cases saved : v.saved with
  | none => exact ⟨rfl, by simpa [saved] using taken.symm⟩
  | some blocked => simp [saved] at taken

/-- One call keeps the agreement on a signal and answers for it exactly if the call conforms. -/
theorem Agree.enter_iff {sig : ℤ} {both : State × SystemV} {c : Call} (inv : Agree sig both)
    (signal : available sig = true) :
    ((both.1.enter c).status sig = (both.2.enter c).status sig ∧
      (c.sig = sig → Answers both.1 c)) ↔ Conforms sig both (.call c) := by
  by_cases same : c.sig = sig
  · subst same
    have changed : (both.2.enter c).status c.sig = c.change (both.1.status c.sig) := by
      rw [inv.now]
      exact Function.update_self c.sig _ _
    simp only [changed, Conforms, if_true, true_imp_iff]
    exact obeys_iff signal inv.unset
  · have kept : (both.2.enter c).status sig = both.1.status sig := by
      rw [inv.now]
      exact Function.update_of_ne (Ne.symm same) _ _
    simp only [kept, Conforms, same, if_false, false_imp_iff, and_true]
    exact status_enter_of_ne signal (Ne.symm same)

/-- What the end of a call will restore is agreed on too. -/
theorem Agree.enter_after {sig : ℤ} {both : State × SystemV} (c : Call) (inv : Agree sig both) :
    (both.1.enter c).saved.map (fun mask => mask.held sig) =
      (both.2.enter c).saved.map (fun blocked => blocked sig) := by
  cases c with
  | sigpause other => exact congrArg (fun status => some status.blocked) inv.now
  | sigset oact other disp =>
    rw [enter_saved both.1 (.sigset oact other disp) nofun]
    exact inv.after
  | sighold other | sigrelse other | sigignore other => exact inv.after

/-- A handler has returned: both machines restore the same for the signal. -/
theorem Agree.caught {sig : ℤ} {both after : State × SystemV} (inv : Agree sig both)
    (taken : stepBoth both .caught = some after) : Agree sig after := by
  obtain ⟨left, right⟩ := stepBoth_eq_some.mp taken
  obtain ⟨mask, saved, restored⟩ := Option.map_eq_some_iff.mp left
  obtain ⟨blocked, remembered, returned⟩ := Option.map_eq_some_iff.mp right
  have same := inv.after
  rw [saved, remembered, Option.map_some, Option.map_some, Option.some.injEq] at same
  constructor
  · rw [← restored, ← returned]
    exact congrArg₂ Status.mk same (congrArg Status.disp inv.now)
  · rw [← restored, ← returned]
    rfl
  · rw [← restored]
    exact inv.unset

theorem Agree.step {sig : ℤ} {both after : State × SystemV} {e : Event} (inv : Agree sig both)
    (signal : available sig = true) (conforms : Conforms sig both e)
    (taken : stepBoth both e = some after) : Agree sig after := by
  cases e with
  | caught => exact inv.caught taken
  | call c =>
    obtain ⟨left, right⟩ := stepBoth_eq_some.mp taken
    obtain ⟨-, left⟩ := step_call left
    obtain ⟨-, right⟩ := systemV_step_call right
    constructor
    · rw [left, right]
      exact ((inv.enter_iff signal).mpr conforms).1
    · rw [left, right]
      exact inv.enter_after c
    · rw [left, enter_unset]
      exact inv.unset

theorem Agree.asSystemV_iff {sig : ℤ} {both after : State × SystemV} {e : Event}
    (inv : Agree sig both) (signal : available sig = true) (taken : stepBoth both e = some after) :
    AsSystemV sig both e ↔ Conforms sig both e := by
  cases e with
  | caught =>
    refine iff_of_true ⟨fun _ also => (inv.caught also).now, nofun⟩ trivial
  | call c =>
    obtain ⟨left, right⟩ := stepBoth_eq_some.mp taken
    obtain ⟨-, left⟩ := step_call left
    obtain ⟨-, right⟩ := systemV_step_call right
    rw [← inv.enter_iff signal]
    apply and_congr
    · rw [← left, ← right]
      constructor
      · exact fun all => all after taken
      · intro same other also
        cases taken.symm.trans also
        exact same
    · rw [← inv.now]
      constructor
      · intro all same
        cases c with
        | sigset oact other disp =>
          cases same
          exact all oact disp rfl
        | sighold other | sigrelse other | sigignore other | sigpause other => trivial
      · rintro answers oact disp ⟨⟩
        exact answers rfl

/-- The interface can take every event the program takes. -/
theorem step_follows {s t : State} {v : SystemV} {e : Event} (taken : step s e = some t)
    (together : s.saved.isSome = v.saved.isSome) :
    ∃ w, v.step e = some w ∧ t.saved.isSome = w.saved.isSome := by
  cases e with
  | call c =>
    obtain ⟨running, rfl⟩ := step_call taken
    have idle : v.saved = none := by
      rw [running, Option.isSome_none, eq_comm, Option.isSome_eq_false_iff] at together
      exact Option.isNone_iff_eq_none.mp together
    refine ⟨v.enter c, by simp [SystemV.step, idle], ?_⟩
    cases c with
    | sigpause sig => rfl
    | sigset oact sig disp =>
      rw [enter_saved s (.sigset oact sig disp) nofun]
      exact together
    | sighold sig | sigrelse sig | sigignore sig => exact together
  | caught =>
    obtain ⟨mask, saved, rfl⟩ := Option.map_eq_some_iff.mp taken
    rw [saved, Option.isSome_some, eq_comm, Option.isSome_iff_exists] at together
    obtain ⟨blocked, remembered⟩ := together
    exact ⟨_, by rw [SystemV.step, remembered]; rfl, rfl⟩

theorem run_follows {s t : State} {v : SystemV} {es : List Event} (ran : exec step s es = some t)
    (together : s.saved.isSome = v.saved.isSome) :
    ∃ w, exec stepBoth (s, v) es = some (t, w) := by
  induction es generalizing s v with
  | nil =>
    cases ran
    exact ⟨v, rfl⟩
  | cons e es ih =>
    obtain ⟨middle, taken, rest⟩ := exec_cons_eq_some.mp ran
    obtain ⟨w, followed, still⟩ := step_follows taken together
    obtain ⟨last, tail⟩ := ih rest still
    exact ⟨last, exec_cons_eq_some.mpr ⟨(middle, w), stepBoth_eq_some.mpr ⟨taken, followed⟩, tail⟩⟩

/-- The two machines before the first call. -/
def startBoth (mask : Procmask) (dispositions : Dispositions) : State × SystemV :=
  (start mask dispositions, (start mask dispositions).systemV)

/-- Along a run the program treats a signal as System V does at each event exactly if each event
conforms. -/
theorem run_asSystemV_iff (mask : Procmask) (dispositions : Dispositions) {sig : ℤ}
    (signal : available sig = true) {es : List Event} {last : State}
    (ran : exec step (start mask dispositions) es = some last) :
    AllSteps stepBoth (AsSystemV sig) (startBoth mask dispositions) es ↔
      AllSteps stepBoth (Conforms sig) (startBoth mask dispositions) es := by
  obtain ⟨v, together⟩ := run_follows (v := (start mask dispositions).systemV) ran rfl
  apply allSteps_congr_of_run (I := Agree sig) _ _ together
  · exact ⟨rfl, rfl, rfl⟩
  · exact fun both e after inv taken => inv.asSystemV_iff signal taken
  · exact fun both e after inv conforms taken => inv.step signal conforms taken

/-- The calls of `main.c` without an argument, and the child's pause. -/
theorem main_asSystemV :
    AllSteps stepBoth (AsSystemV sigusr1) (startBoth (.ofSigset sigemptyset) allDefault)
      [.call (.sigset nothing sigusr1 handler), .call (.sighold sigusr1), .call (.sigrelse sigusr1),
        .call (.sigpause sigusr1), .caught] := by
  refine (run_asSystemV_iff _ _ (by decide) rfl).mpr ?_
  have possible : changeable sigusr1 = true := by decide
  exact ⟨.inl possible, fun _ _ => ⟨possible, fun _ _ => ⟨trivial, fun _ _ => ⟨trivial, fun _ _ =>
    ⟨trivial, fun _ _ => trivial⟩⟩⟩⟩⟩

/-- `sigignore(SIGUSR1)` leaves the default disposition. -/
theorem sigignore_not_asSystemV :
    ¬ AllSteps stepBoth (AsSystemV sigusr1) (startBoth (.ofSigset sigemptyset) allDefault)
      [.call (.sigset nothing sigusr1 handler), .call (.sigignore sigusr1)] := by
  rintro ⟨-, rest⟩
  have second := (rest _ rfl).1.1 _ rfl
  exact absurd (congrArg Status.disp second) (by decide)

end SystemProgramming.Signals
