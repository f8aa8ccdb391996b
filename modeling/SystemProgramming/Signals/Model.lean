import SystemProgramming.Lib.Run
import Mathlib.Data.Int.Notation
import Mathlib.Logic.Function.Basic

/-! # The System V signal functions of `hw7/22-4`

`systemv.c` implements `sigset`, `sighold`, `sigrelse`, `sigignore` and `sigpause` on top of
`sigprocmask`, `sigaction` and `sigsuspend`. The kernel part of the state is the thread's mask and
the table of dispositions; the program part is the thread-local `sa`. Signal numbers are `int`
values. Between the two stands the C library, which keeps two signals for its threads: it refuses
them and takes them out of the sets that go to `sigprocmask`, so that they are never blocked by a
program, but the mask a program is started with may hold them. A call of `my_sigpause` lasts until a
caught signal ends `sigsuspend`, which is an event of its own.
-/

namespace SystemProgramming.Signals

open Lib

/-- `sighandler_t`: the values `<signal.h>` reserves and the addresses of functions. -/
inductive Sighandler where
  | sigErr
  | sigDfl
  | sigIgn
  | sigHold
  | function (address : ℕ)
deriving DecidableEq, Repr

def sigkill : ℤ := 9

def sigstop : ℤ := 19

/-- The numbers below `_NSIG`. -/
def isSignal (sig : ℤ) : Bool := decide (1 ≤ sig) && decide (sig ≤ 64)

/-- The signals the C library keeps for itself: `SIGCANCEL` and `SIGSETXID`. -/
def reserved (sig : ℤ) : Bool := decide (sig = 32) || decide (sig = 33)

/-- The numbers the functions of the C library take. -/
def available (sig : ℤ) : Bool := isSignal sig && !reserved sig

/-- Nobody can block `SIGKILL` and `SIGSTOP` or give them another disposition. -/
def changeable (sig : ℤ) : Bool := isSignal sig && decide (sig ≠ sigkill) && decide (sig ≠ sigstop)

/-! ## Signal sets -/

/-- `sigset_t`. -/
abbrev Sigset := ℤ → Bool

def sigemptyset : Sigset := fun _ => false

/-- A number that is refused leaves the set as it is; the callers ignore the -1. -/
def sigaddset (set : Sigset) (sig : ℤ) : Sigset :=
  if available sig then Function.update set sig true else set

def sigdelset (set : Sigset) (sig : ℤ) : Sigset :=
  if available sig then Function.update set sig false else set

/-- It answers for the reserved signals too. -/
def sigismember (set : Sigset) (sig : ℤ) : ℤ :=
  if isSignal sig then (if set sig then 1 else 0) else -1

/-! ## The kernel -/

/-- A mask the kernel holds never contains a signal that cannot be blocked. -/
structure Procmask where
  held : Sigset
  blockable : ∀ sig, held sig = true → changeable sig = true

/-- The kernel drops what cannot be blocked from the sets it is given. -/
def Procmask.ofSigset (set : Sigset) : Procmask where
  held := fun sig => set sig && changeable sig
  blockable := fun _ both => (Bool.and_eq_true_iff.mp both).2

inductive How where
  | sigBlock
  | sigUnblock
  | sigSetmask
deriving DecidableEq, Repr

/-- What the C library takes out of a set before `sigprocmask` hands it to the kernel. -/
def clearReserved (set : Sigset) : Sigset := fun sig => set sig && !reserved sig

/-- The mask after `sigprocmask(how, &set, _)`. -/
def sigprocmask (mask : Procmask) (how : How) (set : Sigset) : Procmask :=
  match how with
  | .sigBlock => .ofSigset fun sig => mask.held sig || clearReserved set sig
  | .sigUnblock => .ofSigset fun sig => mask.held sig && !clearReserved set sig
  | .sigSetmask => .ofSigset (clearReserved set)

/-- `struct sigaction`. -/
structure Sigaction where
  handler : Sighandler
  flags : BitVec 32
  mask : Sigset

/-- The table of dispositions. -/
structure Dispositions where
  action : ℤ → Sigaction
  fixed : ∀ sig, changeable sig = false → (action sig).handler = .sigDfl

/-- The table after an action is stored; the kernel refuses with `EINVAL` what cannot change. -/
def Dispositions.install (table : Dispositions) (sig : ℤ) (act : Sigaction) : Dispositions :=
  if possible : changeable sig = true then
    { action := Function.update table.action sig { act with mask := (Procmask.ofSigset act.mask).held }
      fixed := by
        intro other unchangeable
        have different : other ≠ sig := by
          rintro rfl
          exact absurd possible (by simp [unchangeable])
        simpa [Function.update_of_ne different] using table.fixed other unchangeable }
  else table

/-- `sigaction(sig, act, &oact)`: the table, the value of `oact` afterwards and the result. -/
def sigaction (table : Dispositions) (sig : ℤ) (act : Option Sigaction) (oact : Sigaction) :
    Dispositions × Sigaction × ℤ :=
  match act with
  | none => if available sig then (table, table.action sig, 0) else (table, oact, -1)
  | some act =>
    if available sig && changeable sig then (table.install sig act, table.action sig, 0) else (table, oact, -1)

/-! ## The program -/

/-- `saved` is the mask `sigsuspend` puts back when a call of `my_sigpause` is under way. -/
structure State where
  mask : Procmask
  dispositions : Dispositions
  sa : Sigaction
  saved : Option Procmask

/-- Any mask and any dispositions; thread-local storage starts zeroed, and 0 is `SIG_DFL`. -/
def start (mask : Procmask) (dispositions : Dispositions) : State where
  mask := mask
  dispositions := dispositions
  sa := ⟨.sigDfl, 0, sigemptyset⟩
  saved := none

/-- `SYNC_SA`: with a null set `sigprocmask` ignores `how` and only stores the mask. -/
def State.syncSa (s : State) : State := { s with sa := { s.sa with mask := s.mask.held } }

def State.addToSa (s : State) (sig : ℤ) : State :=
  { s with sa := { s.sa with mask := sigaddset s.sa.mask sig } }

def State.deleteFromSa (s : State) (sig : ℤ) : State :=
  { s with sa := { s.sa with mask := sigdelset s.sa.mask sig } }

/-- `oact` is what the uninitialised variable of this name holds on entry. -/
def mySigset (s : State) (oact : Sigaction) (sig : ℤ) (disp : Sighandler) : State × Sighandler :=
  let s := s.syncSa.addToSa sig
  if disp = .sigHold then
    let oact := { oact with mask := s.mask.held }
    let s := { s with mask := sigprocmask s.mask .sigBlock s.sa.mask }
    if sigismember oact.mask sig ≠ 0 then (s, .sigHold)
    else (s, (sigaction s.dispositions sig none oact).2.1.handler)
  else
    let act : Sigaction := ⟨disp, 0, sigemptyset⟩
    let changed := sigaction s.dispositions sig (some act) oact
    let oact := { changed.2.1 with mask := s.mask.held }
    let s := { s with
      dispositions := changed.1
      mask := sigprocmask s.mask .sigUnblock s.sa.mask }
    (s, if sigismember oact.mask sig ≠ 0 then .sigHold else oact.handler)

def mySighold (s : State) (sig : ℤ) : State × ℤ :=
  let s := s.syncSa.addToSa sig
  ({ s with mask := sigprocmask s.mask .sigSetmask s.sa.mask }, 0)

def mySigrelse (s : State) (sig : ℤ) : State × ℤ :=
  let s := s.syncSa.deleteFromSa sig
  ({ s with mask := sigprocmask s.mask .sigSetmask s.sa.mask }, 0)

/-- The handler of `sa` is passed on as it is. -/
def mySigignore (s : State) (sig : ℤ) : State × ℤ :=
  let s := s.syncSa
  let s := { s with sa := { s.sa with mask := sigemptyset, flags := 0 } }
  let changed := sigaction s.dispositions sig (some s.sa) s.sa
  ({ s with dispositions := changed.1 }, changed.2.2)

/-- Up to the wait inside `sigsuspend`, which hands its set to the kernel as it is. -/
def mySigpause (s : State) (sig : ℤ) : State :=
  let s := s.syncSa.deleteFromSa sig
  { s with mask := .ofSigset s.sa.mask, saved := some s.mask }

/-! ## Sequences of calls -/

inductive Call where
  | sigset (oact : Sigaction) (sig : ℤ) (disp : Sighandler)
  | sighold (sig : ℤ)
  | sigrelse (sig : ℤ)
  | sigignore (sig : ℤ)
  | sigpause (sig : ℤ)

/-- The signal a call is made for. -/
def Call.sig : Call → ℤ
  | .sigset _ sig _ | .sighold sig | .sigrelse sig | .sigignore sig | .sigpause sig => sig

def State.enter (s : State) : Call → State
  | .sigset oact sig disp => (mySigset s oact sig disp).1
  | .sighold sig => (mySighold s sig).1
  | .sigrelse sig => (mySigrelse s sig).1
  | .sigignore sig => (mySigignore s sig).1
  | .sigpause sig => mySigpause s sig

/-- A call, or the end of `sigsuspend` after a handler has run. -/
inductive Event where
  | call (c : Call)
  | caught

def step (s : State) : Event → Option State
  | .call c =>
    match s.saved with
    | none => some (s.enter c)
    | some _ => none
  | .caught => s.saved.map fun mask => { s with mask := mask, saved := none }

/-- From the call of a function to its return. -/
def Call.events : Call → List Event
  | .sigpause sig => [.call (.sigpause sig), .caught]
  | c => [.call c]

def complete (s : State) (c : Call) : Option State := exec step s c.events

end SystemProgramming.Signals
