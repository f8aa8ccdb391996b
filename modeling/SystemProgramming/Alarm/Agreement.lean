import SystemProgramming.Alarm.Model

/-! # When `my_alarm` is `alarm`

From equal timers a call on an idle timer leaves equal timers. A call while an alarm is pending shows at once,
by its result. A call on a timer that is off but has an interval does not, but the alarm repeats: the timers
have diverged, and time alone brings it out.
-/

namespace SystemProgramming.Alarm

open Lib

@[simp] theorem Timeval.micros_ofMicros (micros : ℕ) : (ofMicros micros).micros = micros :=
  Nat.div_add_mod' micros 1000000

theorem Timeval.tvUsec_ofMicros_lt (micros : ℕ) : (ofMicros micros).tvUsec < 1000000 :=
  Nat.mod_lt micros (by decide)

theorem Timeval.micros_add (time : Timeval) (seconds : ℕ) :
    ({ time with tvSec := time.tvSec + seconds } : Timeval).micros = time.micros + seconds * 1000000 := by
  simp only [micros]
  omega

/-- The call succeeds, prolongs what is pending and keeps the interval. -/
theorem myAlarm_eq (seconds : UInt32) (timer : Timer) :
    myAlarm seconds timer = (0, ⟨timer.value + seconds.toNat * 1000000,
      if timer.value + seconds.toNat * 1000000 = 0 then 0 else timer.interval⟩) := by
  have success : UInt32.ofInt 0 = 0 := rfl
  simp only [myAlarm, Timer.getitimer, Timer.setitimer, Timeval.tvUsec_ofMicros_lt, and_self, if_true,
    Timeval.micros_add, Timeval.micros_ofMicros, success]

/-- A tick treats equal timers alike; so does a call on an idle timer. -/
theorem react_of_idle {timer : Timer} {event : Event} (idle : Idle timer event) :
    react timer event = Posix.react timer event := by
  cases event with
  | tick => rfl
  | alarm seconds =>
    obtain ⟨off, once⟩ := idle
    have rounded : 999999 / 1000000 = 0 := rfl
    simp only [react, Posix.react, Posix.alarm, myAlarm_eq, off, Nat.zero_add, rounded, UInt32.toNat_zero]
    rcases once with rfl | once
    · simp only [UInt32.toNat_zero, Nat.zero_mul, if_true]
    · simp only [once, ite_self]

/-- The alarm of the first timer repeats and that of the second, if there is one, comes no later. -/
structure Diverged (mine posix : Timer) : Prop where
  pending : 0 < mine.value
  earlier : posix.value ≤ mine.value
  repeats : 0 < mine.interval
  once : posix.interval = 0

section

variable {mine posix : Timer}

/-- `my_alarm` reports nothing, `alarm` what was left. -/
theorem alarm_shows (pending : 0 < posix.value) (seconds : UInt32) :
    (react mine (.alarm seconds)).1 ≠ (Posix.react posix (.alarm seconds)).1 := by
  simp only [react, Posix.react, Posix.alarm, myAlarm_eq, ne_eq, Observation.returned.injEq]
  change 0 ≠ _
  omega

theorem alarm_diverges {seconds : UInt32} (running : 0 < mine.value + seconds.toNat * 1000000)
    (repeats : 0 < mine.interval) :
    Diverged (react mine (.alarm seconds)).2 (Posix.react posix (.alarm seconds)).2 := by
  simp only [react, Posix.react, Posix.alarm, myAlarm_eq, if_neg (Nat.ne_of_gt running)]
  exact ⟨running, Nat.le_add_left _ _, repeats, rfl⟩

end

/-- A call that is not on an idle timer shows, or the timers diverge. -/
theorem diverged_of_not_idle {timer : Timer} {event : Event} (busy : ¬ Idle timer event) :
    (react timer event).1 ≠ (Posix.react timer event).1 ∨
      Diverged (react timer event).2 (Posix.react timer event).2 := by
  cases event with
  | tick => exact absurd trivial busy
  | alarm seconds =>
    rcases Nat.eq_zero_or_pos timer.value with off | pending
    · right
      obtain ⟨some, more⟩ : seconds ≠ 0 ∧ timer.interval ≠ 0 := by
        simpa only [Idle, off, true_and, not_or] using busy
      have positive : 0 < seconds.toNat := Nat.pos_of_ne_zero fun none => some (UInt32.toNat_inj.mp none)
      exact alarm_diverges (by omega) (Nat.pos_of_ne_zero more)
    · exact .inl (alarm_shows pending seconds)

/-- Ticks until the alarm of the first timer comes alone. -/
def untilAlone (mine posix : Timer) : ℕ :=
  mine.value + if posix.value = mine.value then mine.interval else 0

/-- As long as both alarms come together or not at all, the one that repeats is still to come. -/
theorem Diverged.tick {mine posix : Timer} (apart : Diverged mine posix) : mine.tick.1 ≠ posix.tick.1 ∨
    Diverged mine.tick.2 posix.tick.2 ∧ untilAlone mine.tick.2 posix.tick.2 < untilAlone mine posix := by
  obtain ⟨pending, earlier, repeats, once⟩ := apart
  rcases Nat.eq_or_lt_of_le pending with last | running
  · rw [Timer.tick_of_last last.symm]
    rcases Nat.eq_zero_or_pos posix.value with off | together
    · rw [Timer.tick_of_off off]
      exact .inl Bool.noConfusion
    · right
      have also : posix.value = 1 := by omega
      rw [Timer.tick_of_last also]
      refine ⟨⟨repeats, once ▸ Nat.zero_le _, repeats, once⟩, ?_⟩
      simp only [untilAlone, once, also, ← last, if_neg (Nat.ne_of_lt repeats), if_true]
      omega
  · rw [Timer.tick_of_running running]
    rcases Nat.lt_trichotomy posix.value 1 with off | alone | both
    · right
      have off : posix.value = 0 := by omega
      rw [Timer.tick_of_off off]
      refine ⟨⟨by simp only; omega, by simp only; omega, repeats, once⟩, ?_⟩
      simp only [untilAlone]
      split_ifs <;> omega
    · rw [Timer.tick_of_last alone]
      exact .inl Bool.noConfusion
    · right
      rw [Timer.tick_of_running both]
      refine ⟨⟨by simp only; omega, by simp only; omega, repeats, once⟩, ?_⟩
      simp only [untilAlone]
      split_ifs <;> omega

/-- A call shows as long as there is an alarm to report; later ones leave the timers apart. -/
theorem Diverged.alarm {mine posix : Timer} (apart : Diverged mine posix) (seconds : UInt32) :
    (react mine (.alarm seconds)).1 ≠ (Posix.react posix (.alarm seconds)).1 ∨
      Diverged (react mine (.alarm seconds)).2 (Posix.react posix (.alarm seconds)).2 := by
  rcases Nat.eq_zero_or_pos posix.value with off | pending
  · exact .inr (alarm_diverges (Nat.add_pos_left apart.pending _) apart.repeats)
  · exact .inl (alarm_shows pending seconds)

theorem distinguishing_diverged : Distinguishing react Posix.react .tick untilAlone Diverged where
  stays mine posix event apart := by
    cases event with
    | tick =>
      simp only [react, Posix.react, ne_eq, Observation.passed.injEq]
      exact apart.tick.imp_right And.left
    | alarm seconds => exact apart.alarm seconds
  nears mine posix apart := by
    simp only [react, Posix.react, ne_eq, Observation.passed.injEq]
    exact apart.tick.imp_right And.right

/-- `my_alarm` is `alarm` for exactly the programs that call it on an idle timer only. -/
theorem agrees_iff_idle (timer : Timer) (events : List Event) :
    Agrees timer events ↔ AllSteps (moves react) Idle timer events := by
  apply forall_outputs_eq_iff (R := (· = ·)) distinguishing_diverged
  · intro timer
    trivial
  · rintro timer _ event rfl idle
    exact ⟨congrArg Prod.fst (react_of_idle idle), congrArg Prod.snd (react_of_idle idle)⟩
  · rintro timer _ event rfl busy
    exact diverged_of_not_idle busy
  · rfl

/-- Two calls in a row: the second one is to shorten the wait and to report the first. -/
theorem not_agrees_twice : ¬ Agrees ⟨0, 0⟩ [.alarm 5, .alarm 3] := by
  intro agrees
  have now := agrees 0
  revert now
  decide

end SystemProgramming.Alarm
