import SystemProgramming.Lib.Machine
import Mathlib.Data.Int.Notation

/-! # The real-time timer and `my_alarm` of `test/1`

Time is discrete, in the microseconds of `struct timeval`. Calls take no time: any number of them may lie
between two ticks. `Posix.alarm` is the reference.
-/

namespace SystemProgramming.Alarm

open Lib

structure Timeval where
  tvSec : ℕ
  tvUsec : ℕ
deriving DecidableEq, Repr

structure Itimerval where
  itInterval : Timeval
  itValue : Timeval
deriving DecidableEq, Repr

def Timeval.micros (time : Timeval) : ℕ := time.tvSec * 1000000 + time.tvUsec

def Timeval.ofMicros (micros : ℕ) : Timeval where
  tvSec := micros / 1000000
  tvUsec := micros % 1000000

/-- `ITIMER_REAL`: the time left, 0 when the timer is off, and what it is reloaded with. -/
structure Timer where
  value : ℕ
  interval : ℕ
deriving DecidableEq, Repr

namespace Timer

def getitimer (timer : Timer) : Itimerval where
  itInterval := .ofMicros timer.interval
  itValue := .ofMicros timer.value

/-- The status, the old setting and the timer. Microseconds that make up a second are invalid, and switching
the timer off clears the interval. -/
def setitimer (new : Itimerval) (timer : Timer) : ℤ × Itimerval × Timer :=
  if new.itInterval.tvUsec < 1000000 ∧ new.itValue.tvUsec < 1000000 then
    (0, timer.getitimer, ⟨new.itValue.micros, if new.itValue.micros = 0 then 0 else new.itInterval.micros⟩)
  else (-1, timer.getitimer, timer)

/-- A microsecond passes; whether `SIGALRM` is delivered. -/
def tick (timer : Timer) : Bool × Timer :=
  match timer.value with
  | 0 => (false, timer)
  | 1 => (true, { timer with value := timer.interval })
  | left + 2 => (false, { timer with value := left + 1 })

section

variable {timer : Timer}

theorem tick_of_off (off : timer.value = 0) : timer.tick = (false, timer) := by
  rw [tick, off]

theorem tick_of_last (last : timer.value = 1) : timer.tick = (true, ⟨timer.interval, timer.interval⟩) := by
  rw [tick, last]

theorem tick_of_running (running : 1 < timer.value) :
    timer.tick = (false, ⟨timer.value - 1, timer.interval⟩) := by
  obtain ⟨left, same⟩ := Nat.exists_eq_add_of_le' running
  rw [tick, same]
  rfl

end

end Timer

def myAlarm (seconds : UInt32) (timer : Timer) : UInt32 × Timer :=
  let cur := timer.getitimer
  let new := { cur with itValue.tvSec := cur.itValue.tvSec + seconds.toNat }
  let (status, _, timer) := timer.setitimer new
  -- the `int` becomes an `unsigned int`
  (UInt32.ofInt status, timer)

/-- What `alarm` is to do: the pending alarm is replaced, and what was left of it reported in seconds,
rounded up. -/
def Posix.alarm (seconds : UInt32) (timer : Timer) : ℕ × Timer :=
  ((timer.value + 999999) / 1000000, ⟨seconds.toNat * 1000000, 0⟩)

inductive Event where
  | tick
  | alarm (seconds : UInt32)
deriving DecidableEq, Repr

/-- What the process sees: the signals, and the results of its calls. -/
inductive Observation where
  | passed (sigalrm : Bool)
  | returned (left : ℕ)
deriving DecidableEq, Repr

/-- A program in which `alarm` is `my_alarm`. -/
def react (timer : Timer) : Event → Observation × Timer
  | .tick => (.passed timer.tick.1, timer.tick.2)
  | .alarm seconds => (.returned (myAlarm seconds timer).1.toNat, (myAlarm seconds timer).2)

/-- The same program with the `alarm` of POSIX. -/
def Posix.react (timer : Timer) : Event → Observation × Timer
  | .tick => (.passed timer.tick.1, timer.tick.2)
  | .alarm seconds => (.returned (alarm seconds timer).1, (alarm seconds timer).2)

/-- Signals and results are those of POSIX, however long the time behind the last call. -/
def Agrees (timer : Timer) (events : List Event) : Prop :=
  ∀ n, outputs react timer (events ++ List.replicate n .tick) =
    outputs Posix.react timer (events ++ List.replicate n .tick)

/-- A call finds no pending alarm and, unless it asks for none, no interval. -/
def Idle (timer : Timer) : Event → Prop
  | .tick => True
  | .alarm seconds => timer.value = 0 ∧ (seconds = 0 ∨ timer.interval = 0)

instance (timer : Timer) : (event : Event) → Decidable (Idle timer event)
  | .tick => inferInstanceAs (Decidable True)
  | .alarm seconds => inferInstanceAs (Decidable (timer.value = 0 ∧ (seconds = 0 ∨ timer.interval = 0)))

end SystemProgramming.Alarm
