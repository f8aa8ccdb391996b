import SystemProgramming.Lib.Run
import Mathlib.Algebra.Ring.Int.Defs
import Mathlib.Data.Int.Notation
import Mathlib.Logic.Function.Basic

/-! # The reports of the consumers of `hw10`

A consumer reports by `sigqueue` to the parent, which has forked all consumers and then the
producer, so no report comes before. Until `collect_child` blocks the two signals the first one
kills the parent. While they are blocked the kernel keeps one pending report for each signal number and
discards the others. `sigtimedwait` times out only when every consumer has reported and nothing is
pending.
-/

namespace SystemProgramming.Broadcast.Collect

open Lib

inductive Sig
  | SIGUSR1
  | SIGUSR2
  deriving DecidableEq

/-- `AVA_SIG[n % 2]`. -/
def avaSig (n : ℕ) : Sig := if n % 2 = 0 then .SIGUSR1 else .SIGUSR2

/-- The number of consumers and the failure count each of them reports. -/
structure Call where
  consumerNum : ℕ
  failNum : ℕ → ℤ

variable (x : Call)

inductive Parent
  /-- Before `sigprocmask`. -/
  | unblocked
  /-- At the head of the loop. -/
  | loop (i : ℕ) (failedSum : ℤ)
  | returned (failedSum : ℤ)
  /-- By a signal that is not blocked. -/
  | killed
  deriving DecidableEq

structure State where
  parent : Parent
  /-- The consumer whose report is pending. -/
  pending : Sig → Option ℕ
  /-- The consumers that have reported. -/
  reported : List ℕ
  /-- The consumers whose reports the parent has added up. -/
  counted : List ℕ

def start : State := ⟨.unblocked, fun _ => none, [], []⟩

inductive Event
  | sigprocmask
  /-- A consumer calls `sigqueue`. -/
  | sigqueue (n : ℕ)
  /-- `sigtimedwait` returns a signal. -/
  | sigtimedwait (sig : Sig)
  | timeout
  /-- The loop ends. -/
  | leave

/-- What the kernel does with a signal. -/
def deliver (n : ℕ) (s : State) : State :=
  match s.parent with
  | .unblocked => { s with parent := .killed }
  | .killed => s
  | .loop _ _ | .returned _ =>
    match s.pending (avaSig n) with
    | none => { s with pending := Function.update s.pending (avaSig n) (some n) }
    | some _ => s

def step (s : State) : Event → Option State
  | .sigprocmask =>
    match s.parent with
    | .unblocked => some { s with parent := .loop 0 0 }
    | .loop _ _ => none
    | .returned _ => none
    | .killed => none
  | .sigqueue n =>
    if n < x.consumerNum ∧ n ∉ s.reported then
      some { deliver n s with reported := s.reported ++ [n] }
    else none
  | .sigtimedwait sig =>
    match s.parent, s.pending sig with
    | .loop i failedSum, some n =>
      if i < x.consumerNum then
        some { s with
          parent := .loop (i + 1) ((failedSum + x.failNum n) % 2 ^ 32)
          pending := Function.update s.pending sig none
          counted := s.counted ++ [n] }
      else none
    | _, _ => none
  | .timeout =>
    match s.parent with
    | .loop i failedSum =>
      if i < x.consumerNum ∧ (∀ n < x.consumerNum, n ∈ s.reported) ∧ s.pending .SIGUSR1 = none ∧
          s.pending .SIGUSR2 = none then
        some { s with parent := .returned failedSum }
      else none
    | .unblocked => none
    | .returned _ => none
    | .killed => none
  | .leave =>
    match s.parent with
    | .loop i failedSum =>
      if i < x.consumerNum then none else some { s with parent := .returned failedSum }
    | .unblocked => none
    | .returned _ => none
    | .killed => none

/-- A report comes when the signals are blocked and no other one with its number is pending. -/
def Heard (s : State) : Event → Prop
  | .sigqueue n => s.parent ≠ .unblocked ∧ s.parent ≠ .killed ∧ s.pending (avaSig n) = none
  | .sigprocmask => True
  | .sigtimedwait _ => True
  | .timeout => True
  | .leave => True

end SystemProgramming.Broadcast.Collect
