import SystemProgramming.Signals.Model
import Mathlib.Tactic.Common

/-! # What a call leaves to the other signals

`my_sigset` reloads `sa` with the whole mask before it unblocks `sa`, so installing a disposition
unblocks every signal but the reserved ones. `my_sighold` and `my_sigrelse` store the whole mask
without these. The other paths change one signal only. For each function the mask and the
dispositions it leaves are stated once, for every signal.
-/

namespace SystemProgramming.Signals

open Lib

/-! ## Signal sets and masks -/

theorem isSignal_of_changeable {sig : ℤ} (possible : changeable sig = true) : isSignal sig = true := by
  simp only [changeable, Bool.and_eq_true] at possible
  exact possible.1.1

theorem available_eq {sig : ℤ} (possible : changeable sig = true) : available sig = !reserved sig := by
  rw [available, isSignal_of_changeable possible, Bool.true_and]

theorem reserved_eq_false {sig : ℤ} (taken : available sig = true) : reserved sig = false := by
  simp only [available, Bool.and_eq_true, Bool.not_eq_true'] at taken
  exact taken.2

theorem isSignal_of_available {sig : ℤ} (taken : available sig = true) : isSignal sig = true := by
  simp only [available, Bool.and_eq_true] at taken
  exact taken.1

theorem sigaddset_self (set : Sigset) (sig : ℤ) : sigaddset set sig sig = (set sig || available sig) := by
  cases taken : available sig <;> simp [sigaddset, taken]

theorem sigdelset_self (set : Sigset) (sig : ℤ) : sigdelset set sig sig = (set sig && !available sig) := by
  cases taken : available sig <;> simp [sigdelset, taken]

theorem sigaddset_of_ne {set : Sigset} {sig other : ℤ} (different : other ≠ sig) :
    sigaddset set sig other = set other := by
  unfold sigaddset
  split
  · exact Function.update_of_ne different _ _
  · rfl

theorem sigdelset_of_ne {set : Sigset} {sig other : ℤ} (different : other ≠ sig) :
    sigdelset set sig other = set other := by
  unfold sigdelset
  split
  · exact Function.update_of_ne different _ _
  · rfl

@[simp] theorem Procmask.held_ofSigset (set : Sigset) (sig : ℤ) :
    (Procmask.ofSigset set).held sig = (set sig && changeable sig) := rfl

theorem Procmask.held_eq_false {sig : ℤ} (mask : Procmask) (fixed : changeable sig = false) :
    mask.held sig = false := by
  by_contra held
  have possible := mask.blockable sig (by simpa using held)
  simp [fixed] at possible

@[simp] theorem Procmask.held_and_changeable (mask : Procmask) (sig : ℤ) :
    (mask.held sig && changeable sig) = mask.held sig := by
  cases possible : changeable sig with
  | false => simp [mask.held_eq_false possible]
  | true => simp

theorem Procmask.held_add (mask : Procmask) (sig other : ℤ) :
    (clearReserved (sigaddset mask.held sig) other && changeable other) =
      ((if other = sig then changeable sig else mask.held other) && !reserved other) := by
  unfold clearReserved
  split
  · next same =>
    subst same
    rw [sigaddset_self]
    cases possible : changeable other with
    | false => simp
    | true => cases kept : reserved other <;> simp [available_eq possible, kept]
  · next different =>
    rw [sigaddset_of_ne different, Bool.and_right_comm, mask.held_and_changeable]

theorem Procmask.held_delete (mask : Procmask) (sig other : ℤ) :
    (sigdelset mask.held sig other && changeable other) =
      if other = sig then mask.held sig && reserved sig else mask.held other := by
  split
  · next same =>
    subst same
    rw [sigdelset_self]
    cases possible : changeable other with
    | false => simp [mask.held_eq_false possible]
    | true => simp [available_eq possible]
  · next different => simp [sigdelset_of_ne different]

/-! ## The mask each call leaves -/

theorem held_sigset_hold (s : State) (oact : Sigaction) (sig other : ℤ) :
    (mySigset s oact sig .sigHold).1.mask.held other =
      if other = sig then s.mask.held sig || changeable sig && !reserved sig else s.mask.held other := by
  have blocked : (mySigset s oact sig .sigHold).1.mask.held other =
      ((s.mask.held other || clearReserved (sigaddset s.mask.held sig) other) && changeable other) := by
    simp only [mySigset, if_true]
    split <;> rfl
  rw [blocked, Bool.and_or_distrib_right, Procmask.held_add, Procmask.held_and_changeable]
  split
  · next same => rw [same]
  · cases s.mask.held other <;> rfl

/-- Installing a disposition leaves nothing blocked but reserved signals. -/
theorem held_sigset {disp : Sighandler} (s : State) (oact : Sigaction) (sig other : ℤ)
    (installs : disp ≠ .sigHold) :
    (mySigset s oact sig disp).1.mask.held other = (s.mask.held other && reserved other) := by
  have unblocked : (mySigset s oact sig disp).1.mask.held other =
      ((s.mask.held other && !clearReserved (sigaddset s.mask.held sig) other) && changeable other) := by
    simp only [mySigset, if_neg installs]
    rfl
  rw [unblocked, Bool.and_right_comm, Procmask.held_and_changeable]
  cases held : s.mask.held other with
  | false => rfl
  | true =>
    have added := s.mask.held_add sig other
    rw [s.mask.blockable other held, Bool.and_true, held] at added
    have present : (if other = sig then changeable sig else true) = true := by
      split
      · next same => exact same ▸ s.mask.blockable other held
      · rfl
    rw [added, present]
    simp

theorem held_sighold (s : State) (sig other : ℤ) :
    (mySighold s sig).1.mask.held other =
      ((if other = sig then changeable sig else s.mask.held other) && !reserved other) := by
  exact s.mask.held_add sig other

theorem held_sigrelse (s : State) (sig other : ℤ) :
    (mySigrelse s sig).1.mask.held other =
      if other = sig then false else s.mask.held other && !reserved other := by
  have stored : (mySigrelse s sig).1.mask.held other =
      ((sigdelset s.mask.held sig other && changeable other) && !reserved other) := Bool.and_right_comm ..
  rw [stored, Procmask.held_delete]
  split
  · next same =>
    subst same
    cases reserved other <;> simp
  · rfl

theorem held_sigpause (s : State) (sig other : ℤ) :
    (mySigpause s sig).mask.held other =
      if other = sig then s.mask.held sig && reserved sig else s.mask.held other := by
  exact s.mask.held_delete sig other

/-! ## The dispositions each call leaves -/

theorem Dispositions.install_action_of_ne {sig other : ℤ} (table : Dispositions) (act : Sigaction)
    (different : other ≠ sig) : (table.install sig act).action other = table.action other := by
  unfold Dispositions.install
  split
  · exact Function.update_of_ne different _ _
  · rfl

theorem sigaction_of_ne {act : Option Sigaction} {oact : Sigaction} {sig other : ℤ}
    (table : Dispositions) (different : other ≠ sig) :
    (sigaction table sig act oact).1.action other = table.action other := by
  cases act with
  | none =>
    simp only [sigaction]
    split <;> rfl
  | some act =>
    simp only [sigaction]
    split
    · exact table.install_action_of_ne _ different
    · rfl

theorem dispositions_sigset_hold (s : State) (oact : Sigaction) (sig : ℤ) :
    (mySigset s oact sig .sigHold).1.dispositions = s.dispositions := by
  simp only [mySigset, if_true]
  split <;> rfl

theorem dispositions_sigset {disp : Sighandler} (s : State) (oact : Sigaction) (sig : ℤ)
    (installs : disp ≠ .sigHold) :
    (mySigset s oact sig disp).1.dispositions =
      (sigaction s.dispositions sig (some ⟨disp, 0, sigemptyset⟩) oact).1 := by
  simp only [mySigset, if_neg installs]
  rfl

theorem enter_action_of_ne (s : State) (c : Call) {other : ℤ} (different : other ≠ c.sig) :
    (s.enter c).dispositions.action other = s.dispositions.action other := by
  cases c with
  | sigset oact sig disp =>
    by_cases holds : disp = .sigHold
    · subst holds
      exact congrArg (fun table => table.action other) (dispositions_sigset_hold s oact sig)
    · exact (congrArg (fun table => table.action other) (dispositions_sigset s oact sig holds)).trans
        (sigaction_of_ne _ different)
  | sigignore sig => exact sigaction_of_ne _ different
  | sighold sig | sigrelse sig | sigpause sig => rfl

/-! ## Whole calls -/

/-- The call returns and has not changed the status of any other signal. -/
def Framed (s : State) (c : Call) : Prop :=
  ∃ t, complete s c = some t ∧ ∀ other, other ≠ c.sig →
    t.mask.held other = s.mask.held other ∧
      t.dispositions.action other = s.dispositions.action other

/-- No signal but `sig` is blocked, among the reserved ones or among the others. -/
def OthersFree (s : State) (sig : ℤ) (kept : Bool) : Prop :=
  ∀ other, other ≠ sig → reserved other = kept → s.mask.held other = false

/-- A call that installs a disposition finds no other signal blocked, reserved ones apart, and a call
that stores the whole mask finds no reserved one blocked. -/
def NoOtherHeld (s : State) : Call → Prop
  | .sigset _ sig disp => disp ≠ .sigHold → OthersFree s sig false
  | .sighold sig | .sigrelse sig => OthersFree s sig true
  | .sigignore _ | .sigpause _ => True

theorem enter_saved (s : State) (c : Call) (lasting : ∀ sig, c ≠ .sigpause sig) :
    (s.enter c).saved = s.saved := by
  cases c with
  | sigset oact sig disp =>
    simp only [State.enter, mySigset]
    split
    · split <;> rfl
    · rfl
  | sigpause sig => exact absurd rfl (lasting sig)
  | sighold sig | sigrelse sig | sigignore sig => rfl

/-- What a call that has returned leaves: only `my_sigpause` puts the mask back at its end. -/
theorem complete_eq {s : State} (c : Call) (running : s.saved = none) :
    complete s c = some (match c with
      | .sigpause sig => { s.enter (.sigpause sig) with mask := s.mask, saved := none }
      | .sigset oact sig disp => s.enter (.sigset oact sig disp)
      | .sighold sig => s.enter (.sighold sig)
      | .sigrelse sig => s.enter (.sigrelse sig)
      | .sigignore sig => s.enter (.sigignore sig)) := by
  cases c <;> simp [complete, Call.events, exec, step, running, State.enter, mySigpause,
    State.syncSa, State.deleteFromSa]

theorem complete_saved {s t : State} {c : Call} (running : s.saved = none)
    (returned : complete s c = some t) : t.saved = none := by
  rw [complete_eq c running, Option.some.injEq] at returned
  subst returned
  cases c with
  | sigpause sig => rfl
  | sigset oact sig disp => exact (enter_saved s (.sigset oact sig disp) nofun).trans running
  | sighold sig => exact (enter_saved s (.sighold sig) nofun).trans running
  | sigrelse sig => exact (enter_saved s (.sigrelse sig) nofun).trans running
  | sigignore sig => exact (enter_saved s (.sigignore sig) nofun).trans running

theorem and_reserved_eq_iff {s : State} {sig : ℤ} :
    (∀ other, other ≠ sig → (s.mask.held other && reserved other) = s.mask.held other) ↔
      OthersFree s sig false := by
  refine forall₂_congr fun other _ => ?_
  cases s.mask.held other <;> cases reserved other <;> simp

theorem and_not_reserved_eq_iff {s : State} {sig : ℤ} :
    (∀ other, other ≠ sig → (s.mask.held other && !reserved other) = s.mask.held other) ↔
      OthersFree s sig true := by
  refine forall₂_congr fun other _ => ?_
  cases s.mask.held other <;> cases reserved other <;> simp

/-- The mask after a call that has returned, as far as the other signals go. -/
theorem complete_held_iff {s t : State} {c : Call} (running : s.saved = none)
    (returned : complete s c = some t) :
    (∀ other, other ≠ c.sig → t.mask.held other = s.mask.held other) ↔ NoOtherHeld s c := by
  rw [complete_eq c running, Option.some.injEq] at returned
  subst returned
  cases c with
  | sigset oact sig disp =>
    by_cases holds : disp = .sigHold
    · subst holds
      exact iff_of_true (fun other different => (held_sigset_hold s oact sig other).trans (if_neg different))
        (fun installs => absurd rfl installs)
    · simp only [State.enter, held_sigset s oact sig _ holds, Call.sig, and_reserved_eq_iff, NoOtherHeld]
      exact ⟨fun free _ => free, fun free => free holds⟩
  | sighold sig =>
    rw [NoOtherHeld, ← and_not_reserved_eq_iff]
    refine forall₂_congr fun other (different : other ≠ sig) => ?_
    have stored : (mySighold s sig).1.mask.held other = (s.mask.held other && !reserved other) := by
      rw [held_sighold, if_neg different]
    exact Eq.congr_left stored
  | sigrelse sig =>
    rw [NoOtherHeld, ← and_not_reserved_eq_iff]
    exact forall₂_congr fun other different =>
      Eq.congr_left ((held_sigrelse s sig other).trans (if_neg different))
  | sigignore sig | sigpause sig => exact iff_of_true (fun _ _ => rfl) trivial

theorem complete_action_of_ne {s t : State} {c : Call} {other : ℤ} (running : s.saved = none)
    (returned : complete s c = some t) (different : other ≠ c.sig) :
    t.dispositions.action other = s.dispositions.action other := by
  rw [complete_eq c running, Option.some.injEq] at returned
  subst returned
  cases c <;> exact enter_action_of_ne s _ different

theorem framed_iff {s : State} (c : Call) (running : s.saved = none) :
    Framed s c ↔ NoOtherHeld s c := by
  have returned := complete_eq c running
  rw [← complete_held_iff running returned]
  constructor
  · rintro ⟨t, also, same⟩ other different
    cases returned.symm.trans also
    exact (same other different).1
  · intro held
    exact ⟨_, returned, fun other different =>
      ⟨held other different, complete_action_of_ne running returned different⟩⟩

/-- A sequence of calls leaves the other signals alone at each call exactly if every call that
installs a disposition finds no other signal blocked, and none that would unblock a reserved one finds
it blocked. -/
theorem calls_framed_iff (mask : Procmask) (dispositions : Dispositions) (calls : List Call) :
    AllSteps complete Framed (start mask dispositions) calls ↔
      AllSteps complete NoOtherHeld (start mask dispositions) calls := by
  apply allSteps_congr (I := fun s => s.saved = none)
  · exact fun s c running => framed_iff c running
  · exact fun s c t running returned => complete_saved running returned
  · rfl

/-- Two signals. -/
def sigusr1 : ℤ := 10

def sigusr2 : ℤ := 12

def handler : Sighandler := .function 0x1000

def nothing : Sigaction := ⟨.sigDfl, 0, sigemptyset⟩

def allDefault : Dispositions := ⟨fun _ => nothing, fun _ _ => rfl⟩

/-- `sigset(SIGUSR1, handler)` while `SIGUSR2` is held. -/
theorem sigset_not_framed :
    ¬ AllSteps complete Framed (start (.ofSigset (sigaddset sigemptyset sigusr2)) allDefault)
      [.sigset nothing sigusr1 handler] := by
  rintro ⟨framed, -⟩
  have alone := (framed_iff _ rfl).mp framed
  exact absurd (alone (by decide) sigusr2 (by decide) (by decide)) (by decide)

end SystemProgramming.Signals
