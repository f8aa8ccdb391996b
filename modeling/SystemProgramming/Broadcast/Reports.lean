import SystemProgramming.Broadcast.Collect
import SystemProgramming.Lib.Update
import Mathlib.Data.List.Perm.Basic
import Mathlib.Data.Finset.Range
import Mathlib.Data.Finset.Card
import Mathlib.Algebra.BigOperators.Group.List.Basic
import Mathlib.Data.Int.Order.Basic

/-! # The sum of the reports

A report that is not pending and not added up never will be, and a parent that is killed adds up
nothing. Both happen exactly at a report that comes too early or while another one with its number
is pending, so the runs without such a report are those in which every report is counted.
-/

namespace SystemProgramming.Broadcast.Collect

open Lib

variable (x : Call)

/-! ## What an event can do -/

section

variable {x} {s t : State}

theorem step_sigprocmask (taken : step x s .sigprocmask = some t) :
    s.parent = .unblocked ∧ t = { s with parent := .loop 0 0 } := by
  simp only [step] at taken
  split at taken
  case h_1 unblocked => exact ⟨unblocked, (Option.some.inj taken).symm⟩
  all_goals nomatch taken

theorem step_sigqueue {n : ℕ} (taken : step x s (.sigqueue n) = some t) :
    n < x.consumerNum ∧ n ∉ s.reported ∧ t = { deliver n s with reported := s.reported ++ [n] } := by
  simp only [step] at taken
  split_ifs at taken with enabled
  exact ⟨enabled.1, enabled.2, (Option.some.inj taken).symm⟩

theorem step_sigtimedwait {sig : Sig} (taken : step x s (.sigtimedwait sig) = some t) :
    ∃ i failedSum n, s.parent = .loop i failedSum ∧ s.pending sig = some n ∧
      t = { s with
        parent := .loop (i + 1) ((failedSum + x.failNum n) % 2 ^ 32)
        pending := Function.update s.pending sig none
        counted := s.counted ++ [n] } := by
  simp only [step] at taken
  split at taken
  case h_1 i failedSum n loop pending =>
    split_ifs at taken
    exact ⟨i, failedSum, n, loop, pending, (Option.some.inj taken).symm⟩
  case h_2 => nomatch taken

theorem step_timeout (taken : step x s .timeout = some t) :
    ∃ i failedSum, s.parent = .loop i failedSum ∧ (∀ n < x.consumerNum, n ∈ s.reported) ∧
      (∀ sig, s.pending sig = none) ∧ t = { s with parent := .returned failedSum } := by
  simp only [step] at taken
  split at taken
  case h_1 i failedSum loop =>
    split_ifs at taken with idle
    obtain ⟨-, all, usr1, usr2⟩ := idle
    refine ⟨i, failedSum, loop, all, fun sig => ?_, (Option.some.inj taken).symm⟩
    cases sig with
    | SIGUSR1 => exact usr1
    | SIGUSR2 => exact usr2
  all_goals nomatch taken

theorem step_leave (taken : step x s .leave = some t) :
    ∃ i failedSum, s.parent = .loop i failedSum ∧ x.consumerNum ≤ i ∧
      t = { s with parent := .returned failedSum } := by
  simp only [step] at taken
  split at taken
  case h_1 i failedSum loop =>
    split_ifs at taken with more
    exact ⟨i, failedSum, loop, not_lt.mp more, (Option.some.inj taken).symm⟩
  all_goals nomatch taken

/-- The three ways a signal can go. -/
theorem deliver_cases (n : ℕ) (s : State) :
    s.parent = .unblocked ∧ deliver n s = { s with parent := .killed } ∨
      s.parent ≠ .unblocked ∧ (s.parent = .killed ∨ s.pending (avaSig n) ≠ none) ∧ deliver n s = s ∨
      s.parent ≠ .unblocked ∧ s.parent ≠ .killed ∧ s.pending (avaSig n) = none ∧
        deliver n s = { s with pending := Function.update s.pending (avaSig n) (some n) } := by
  rw [deliver]
  cases s.parent with
  | unblocked => exact .inl ⟨rfl, rfl⟩
  | killed => exact .inr (.inl ⟨nofun, .inl rfl, rfl⟩)
  | loop i failedSum =>
    cases pending : s.pending (avaSig n) with
    | none => exact .inr (.inr ⟨nofun, nofun, rfl, rfl⟩)
    | some k => exact .inr (.inl ⟨nofun, .inr nofun, rfl⟩)
  | returned failedSum =>
    cases pending : s.pending (avaSig n) with
    | none => exact .inr (.inr ⟨nofun, nofun, rfl, rfl⟩)
    | some k => exact .inr (.inl ⟨nofun, .inr nofun, rfl⟩)

end

/-! ## The invariant -/

/-- `failed_sum` after the reports of these consumers. -/
def sumOf (consumers : List ℕ) : ℤ := (consumers.map x.failNum).sum

theorem sumOf_concat (consumers : List ℕ) (n : ℕ) :
    sumOf x (consumers ++ [n]) = sumOf x consumers + x.failNum n := by
  rw [sumOf, List.map_append, List.sum_append, List.map_singleton, List.sum_singleton]
  rfl

structure Inv (s : State) : Prop where
  within : ∀ n ∈ s.reported, n < x.consumerNum
  pending : ∀ sig n, s.pending sig = some n → n ∈ s.reported ∧ n ∉ s.counted ∧ avaSig n = sig
  counted : ∀ n ∈ s.counted, n ∈ s.reported
  nodup : s.counted.Nodup
  unblocked : s.parent = .unblocked → s.counted = []
  loop : ∀ i failedSum, s.parent = .loop i failedSum →
    i = s.counted.length ∧ failedSum = sumOf x s.counted % 2 ^ 32
  returned : ∀ failedSum, s.parent = .returned failedSum → failedSum = sumOf x s.counted % 2 ^ 32 ∧
    (∀ n < x.consumerNum, n ∈ s.reported) ∧ ∀ sig, s.pending sig = none

theorem inv_start : Inv x start where
  within _ member := nomatch member
  pending _ _ pending := nomatch pending
  counted _ member := nomatch member
  nodup := .nil
  unblocked _ := rfl
  loop _ _ loop := nomatch loop
  returned _ returned := nomatch returned

section

variable {x} {s t : State}

/-- As many different consumers as there are are all of them. -/
theorem Inv.all_counted (inv : Inv x s) (enough : x.consumerNum ≤ s.counted.length) {n : ℕ}
    (less : n < x.consumerNum) : n ∈ s.counted := by
  have inside : s.counted ⊆ List.range x.consumerNum := fun k member =>
    List.mem_range.mpr (inv.within k (inv.counted k member))
  have perm := (List.subperm_of_subset inv.nodup inside).perm_of_length_le
    (by rw [List.length_range]; exact enough)
  exact perm.mem_iff.mpr (List.mem_range.mpr less)

/-- A consumer has reported, whatever became of its report. -/
theorem Inv.report (inv : Inv x s) {n : ℕ} (less : n < x.consumerNum) :
    Inv x { s with reported := s.reported ++ [n] } := by
  constructor
  · intro k member
    obtain old | new := List.mem_append.mp member
    · exact inv.within k old
    · exact List.mem_singleton.mp new ▸ less
  · intro sig k held
    obtain ⟨reported, rest⟩ := inv.pending sig k held
    exact ⟨List.mem_append_left _ reported, rest⟩
  · intro k member
    exact List.mem_append_left _ (inv.counted k member)
  · exact inv.nodup
  · exact inv.unblocked
  · exact inv.loop
  · intro failedSum returned
    obtain ⟨sum, all, idle⟩ := inv.returned failedSum returned
    exact ⟨sum, fun k less => List.mem_append_left _ (all k less), idle⟩

theorem inv_step {e : Event} (inv : Inv x s) (taken : step x s e = some t) : Inv x t := by
  cases e with
  | sigprocmask =>
    obtain ⟨unblocked, rfl⟩ := step_sigprocmask taken
    refine ⟨inv.within, inv.pending, inv.counted, inv.nodup, nofun, fun i failedSum loop => ?_, nofun⟩
    cases loop
    rw [inv.unblocked unblocked]
    exact ⟨rfl, rfl⟩
  | sigqueue n =>
    obtain ⟨less, fresh, rfl⟩ := step_sigqueue taken
    have next := inv.report less
    obtain ⟨-, delivered⟩ | ⟨-, -, delivered⟩ | ⟨-, -, -, delivered⟩ := deliver_cases n s
    · rw [delivered]
      exact ⟨next.within, next.pending, next.counted, next.nodup, nofun, nofun, nofun⟩
    · rw [delivered]
      exact next
    · rw [delivered]
      refine ⟨next.within, fun sig k held => ?_, next.counted, next.nodup, next.unblocked, next.loop,
        fun failedSum returned => absurd ((inv.returned failedSum returned).2.1 n less) fresh⟩
      obtain ⟨rfl, ⟨⟩⟩ | ⟨-, held⟩ := update_eq_some.mp held
      · exact ⟨List.mem_append_right _ (List.mem_singleton_self n),
          fun member => fresh (inv.counted n member), rfl⟩
      · exact next.pending sig k held
  | sigtimedwait sig =>
    obtain ⟨i, failedSum, n, loop, pending, rfl⟩ := step_sigtimedwait taken
    obtain ⟨reported, uncounted, sig_⟩ := inv.pending sig n pending
    obtain ⟨rfl, rfl⟩ := inv.loop i failedSum loop
    constructor
    · exact inv.within
    · intro other k held
      obtain ⟨different, held⟩ := update_none_eq_some.mp held
      obtain ⟨reported', uncounted', rfl⟩ := inv.pending other k held
      refine ⟨reported', fun member => ?_, rfl⟩
      obtain old | new := List.mem_append.mp member
      · exact uncounted' old
      · exact different (List.mem_singleton.mp new ▸ sig_)
    · intro k member
      obtain old | new := List.mem_append.mp member
      · exact inv.counted k old
      · exact List.mem_singleton.mp new ▸ reported
    · exact List.nodup_append.mpr ⟨inv.nodup, List.pairwise_singleton _ n, fun a old b new same =>
        uncounted (List.mem_singleton.mp new ▸ same ▸ old)⟩
    · nofun
    · intro i failedSum loop
      cases loop
      constructor
      · rw [List.length_append]
        rfl
      · rw [Int.emod_add_emod, ← sumOf_concat]
    · nofun
  | timeout =>
    obtain ⟨i, failedSum, loop, all, idle, rfl⟩ := step_timeout taken
    refine ⟨inv.within, inv.pending, inv.counted, inv.nodup, nofun, nofun, fun sum returned => ?_⟩
    cases returned
    exact ⟨(inv.loop i failedSum loop).2, all, idle⟩
  | leave =>
    obtain ⟨i, failedSum, loop, full, rfl⟩ := step_leave taken
    obtain ⟨count, sum⟩ := inv.loop i failedSum loop
    refine ⟨inv.within, inv.pending, inv.counted, inv.nodup, nofun, nofun, fun _ returned => ?_⟩
    cases returned
    refine ⟨sum, fun n less => inv.counted n (inv.all_counted (count ▸ full) less), fun sig => ?_⟩
    by_contra held
    obtain ⟨n, pending⟩ := Option.ne_none_iff_exists'.mp held
    obtain ⟨reported, uncounted, -⟩ := inv.pending sig n pending
    exact uncounted (inv.all_counted (count ▸ full) (inv.within n reported))

/-! ## Lost reports -/

/-- The parent is dead, or a report is neither counted nor pending. -/
def Damaged (s : State) : Prop :=
  s.parent = .killed ∨ ∃ n ∈ s.reported, n ∉ s.counted ∧ s.pending (avaSig n) ≠ some n

/-- What is lost stays lost. -/
theorem damaged_step {e : Event} (inv : Inv x s) (damaged : Damaged s) (taken : step x s e = some t) :
    Damaged t := by
  obtain killed | ⟨k, reported, uncounted, lost⟩ := damaged
  · cases e with
    | sigprocmask => nomatch killed.symm.trans (step_sigprocmask taken).1
    | sigqueue n =>
      obtain ⟨-, -, rfl⟩ := step_sigqueue taken
      obtain ⟨alive, -⟩ | ⟨-, -, delivered⟩ | ⟨-, alive, -⟩ := deliver_cases n s
      · nomatch killed.symm.trans alive
      · rw [delivered]
        exact .inl killed
      · exact absurd killed alive
    | sigtimedwait sig =>
      obtain ⟨i, failedSum, n, loop, -⟩ := step_sigtimedwait taken
      nomatch killed.symm.trans loop
    | timeout =>
      obtain ⟨i, failedSum, loop, -⟩ := step_timeout taken
      nomatch killed.symm.trans loop
    | leave =>
      obtain ⟨i, failedSum, loop, -⟩ := step_leave taken
      nomatch killed.symm.trans loop
  · cases e with
    | sigprocmask =>
      obtain ⟨-, rfl⟩ := step_sigprocmask taken
      exact .inr ⟨k, reported, uncounted, lost⟩
    | sigqueue n =>
      obtain ⟨-, fresh, rfl⟩ := step_sigqueue taken
      have kept := List.mem_append_left [n] reported
      obtain ⟨-, delivered⟩ | ⟨-, -, delivered⟩ | ⟨-, -, -, delivered⟩ := deliver_cases n s
      · rw [delivered]
        exact .inl rfl
      · rw [delivered]
        exact .inr ⟨k, kept, uncounted, lost⟩
      · rw [delivered]
        refine .inr ⟨k, kept, uncounted, fun held => ?_⟩
        obtain ⟨-, ⟨⟩⟩ | ⟨-, held⟩ := update_eq_some.mp held
        · exact fresh reported
        · exact lost held
    | sigtimedwait sig =>
      obtain ⟨i, failedSum, n, -, pending, rfl⟩ := step_sigtimedwait taken
      obtain ⟨-, -, rfl⟩ := inv.pending sig n pending
      refine .inr ⟨k, reported, fun member => ?_, fun held => ?_⟩
      · obtain old | new := List.mem_append.mp member
        · exact uncounted old
        · exact lost (List.mem_singleton.mp new ▸ pending)
      · exact lost (update_none_eq_some.mp held).2
    | timeout =>
      obtain ⟨i, failedSum, -, -, -, rfl⟩ := step_timeout taken
      exact .inr ⟨k, reported, uncounted, lost⟩
    | leave =>
      obtain ⟨i, failedSum, -, -, rfl⟩ := step_leave taken
      exact .inr ⟨k, reported, uncounted, lost⟩

/-- A parent that goes on does no damage. -/
theorem not_damaged_of_parent (sound : ¬ Damaged s) {parent : Parent} (alive : parent ≠ .killed) :
    ¬ Damaged { s with parent := parent } := by
  rintro (killed | lost)
  · exact alive killed
  · exact sound (.inr lost)

/-- A report does damage exactly when it is not heard, and nothing else does. -/
theorem heard_iff {e : Event} (inv : Inv x s) (sound : ¬ Damaged s) (taken : step x s e = some t) :
    Heard s e ↔ ¬ Damaged t := by
  have held (k : ℕ) (reported : k ∈ s.reported) (uncounted : k ∉ s.counted) :
      s.pending (avaSig k) = some k := by
    by_contra lost
    exact sound (.inr ⟨k, reported, uncounted, lost⟩)
  cases e with
  | sigprocmask =>
    obtain ⟨-, rfl⟩ := step_sigprocmask taken
    exact iff_of_true trivial (not_damaged_of_parent sound nofun)
  | sigqueue n =>
    obtain ⟨-, fresh, rfl⟩ := step_sigqueue taken
    obtain ⟨unblocked, delivered⟩ | ⟨blocked, ignored, delivered⟩ | ⟨blocked, alive, free, delivered⟩ :=
      deliver_cases n s
    · rw [delivered]
      exact iff_of_false (fun heard => heard.1 unblocked) (not_not_intro (.inl rfl))
    · rw [delivered]
      refine iff_of_false (fun heard => ignored.elim heard.2.1 fun taken => taken heard.2.2)
        (not_not_intro ?_)
      -- the report that is pending is an older one
      refine ignored.elim .inl fun _ => .inr ⟨n, List.mem_append_right _ (List.mem_singleton_self n),
        fun member => fresh (inv.counted n member), fun pending => fresh (inv.pending _ n pending).1⟩
    · rw [delivered]
      refine iff_of_true ⟨blocked, alive, free⟩ ?_
      rintro (killed | ⟨k, member, uncounted, lost⟩)
      · exact alive killed
      · obtain old | new := List.mem_append.mp member
        · have pending := held k old uncounted
          refine lost ((Function.update_of_ne (fun same => ?_) ..).trans pending)
          rw [same, free] at pending
          nomatch pending
        · obtain rfl := List.mem_singleton.mp new
          exact lost (Function.update_self ..)
  | sigtimedwait sig =>
    obtain ⟨i, failedSum, n, -, pending, rfl⟩ := step_sigtimedwait taken
    apply iff_of_true trivial
    rintro (killed | ⟨k, reported, uncounted, lost⟩)
    · nomatch killed
    · have pending' := held k reported fun member => uncounted (List.mem_append_left _ member)
      refine lost ((Function.update_of_ne (fun same => ?_) ..).trans pending')
      rw [same, pending] at pending'
      cases pending'
      exact uncounted (List.mem_append_right _ (List.mem_singleton_self _))
  | timeout =>
    obtain ⟨i, failedSum, -, -, -, rfl⟩ := step_timeout taken
    exact iff_of_true trivial (not_damaged_of_parent sound nofun)
  | leave =>
    obtain ⟨i, failedSum, -, -, rfl⟩ := step_leave taken
    exact iff_of_true trivial (not_damaged_of_parent sound nofun)

end

/-! ## Termination -/

def pendingNum (pending : Sig → Option ℕ) : ℕ :=
  (pending .SIGUSR1).toList.length + (pending .SIGUSR2).toList.length

def Parent.fuel : Parent → ℕ
  | .unblocked => 2
  | .loop _ _ => 1
  | .returned _ => 0
  | .killed => 0

/-- A bound on the events that are left. -/
def State.fuel (s : State) : ℕ :=
  2 * ((Finset.range x.consumerNum).filter (· ∉ s.reported)).card + pendingNum s.pending +
    s.parent.fuel

theorem pendingNum_send {pending : Sig → Option ℕ} {sig : Sig} (n : ℕ) (free : pending sig = none) :
    pendingNum (Function.update pending sig (some n)) = pendingNum pending + 1 := by
  cases sig <;> simp [pendingNum, free, Nat.add_comm]

theorem pendingNum_take {pending : Sig → Option ℕ} {sig : Sig} {n : ℕ} (held : pending sig = some n) :
    pendingNum pending = pendingNum (Function.update pending sig none) + 1 := by
  cases sig <;> simp [pendingNum, held, Nat.add_comm]

theorem deliver_fuel (n : ℕ) (s : State) :
    pendingNum (deliver n s).pending + (deliver n s).parent.fuel ≤
      pendingNum s.pending + s.parent.fuel + 1 := by
  obtain ⟨unblocked, delivered⟩ | ⟨-, -, delivered⟩ | ⟨-, -, free, delivered⟩ := deliver_cases n s
  · rw [delivered, unblocked]
    exact Nat.le_add_right _ 3
  · rw [delivered]
    exact Nat.le_succ _
  · rw [delivered]
    dsimp only
    rw [pendingNum_send n free]
    omega

theorem unreported_lt {reported : List ℕ} {n : ℕ} (less : n < x.consumerNum) (fresh : n ∉ reported) :
    ((Finset.range x.consumerNum).filter (· ∉ reported ++ [n])).card <
      ((Finset.range x.consumerNum).filter (· ∉ reported)).card := by
  apply Finset.card_lt_card
  rw [Finset.ssubset_iff_of_subset]
  · refine ⟨n, Finset.mem_filter.mpr ⟨Finset.mem_range.mpr less, fresh⟩, fun member => ?_⟩
    exact (Finset.mem_filter.mp member).2 (List.mem_append_right _ (List.mem_singleton_self n))
  · intro k member
    obtain ⟨inside, silent⟩ := Finset.mem_filter.mp member
    exact Finset.mem_filter.mpr ⟨inside, fun reports => silent (List.mem_append_left _ reports)⟩

theorem step_fuel {s t : State} {e : Event} (taken : step x s e = some t) : t.fuel x < s.fuel x := by
  cases e with
  | sigprocmask =>
    obtain ⟨unblocked, rfl⟩ := step_sigprocmask taken
    simp only [State.fuel, unblocked, Parent.fuel]
    omega
  | sigqueue n =>
    obtain ⟨less, fresh, rfl⟩ := step_sigqueue taken
    have fewer := unreported_lt x less fresh
    have sent := deliver_fuel n s
    simp only [State.fuel]
    omega
  | sigtimedwait sig =>
    obtain ⟨i, failedSum, n, loop, pending, rfl⟩ := step_sigtimedwait taken
    have fewer := pendingNum_take pending
    simp only [State.fuel, loop, Parent.fuel]
    omega
  | timeout =>
    obtain ⟨i, failedSum, loop, -, -, rfl⟩ := step_timeout taken
    simp only [State.fuel, loop, Parent.fuel]
    omega
  | leave =>
    obtain ⟨i, failedSum, loop, -, rfl⟩ := step_leave taken
    simp only [State.fuel, loop, Parent.fuel]
    omega

/-! ## Whole runs -/

/-- `collect_child` has returned the sum of all reports, each counted once. -/
def Collects (s : State) : Prop :=
  ∃ failedSum, s.parent = .returned failedSum ∧ failedSum = sumOf x (List.range x.consumerNum) ∧
    s.counted.Perm (List.range x.consumerNum)

/-- When nothing can happen any more and nothing is lost, everything is counted. -/
theorem Inv.complete {s : State} (inv : Inv x s) (terminal : Terminal (step x) s)
    (sound : ¬ Damaged s) :
    (∃ failedSum, s.parent = .returned failedSum) ∧ s.counted.Perm (List.range x.consumerNum) := by
  have reported (n : ℕ) (less : n < x.consumerNum) : n ∈ s.reported := by
    by_contra fresh
    have stuck := terminal (.sigqueue n)
    rw [step, if_pos ⟨less, fresh⟩] at stuck
    nomatch stuck
  have counted (n : ℕ) (less : n < x.consumerNum) (idle : ∀ sig, s.pending sig = none) :
      n ∈ s.counted := by
    by_contra uncounted
    exact sound (.inr ⟨n, reported n less, uncounted, by rw [idle]; nofun⟩)
  cases parent : s.parent with
  | unblocked =>
    have stuck := terminal .sigprocmask
    simp only [step, parent] at stuck
    nomatch stuck
  | killed => exact absurd (.inl parent) sound
  | loop i failedSum =>
    -- the parent can go on with a signal, a timeout or the end of its loop
    exfalso
    by_cases more : i < x.consumerNum
    · have idle (sig : Sig) : s.pending sig = none := by
        cases held : s.pending sig with
        | none => rfl
        | some n =>
          have stuck := terminal (.sigtimedwait sig)
          simp only [step, parent, held, if_pos more] at stuck
          nomatch stuck
      have stuck := terminal .timeout
      simp only [step, parent] at stuck
      rw [if_pos ⟨more, reported, idle _, idle _⟩] at stuck
      nomatch stuck
    · have stuck := terminal .leave
      simp only [step, parent, if_neg more] at stuck
      nomatch stuck
  | returned failedSum =>
    obtain ⟨-, -, idle⟩ := inv.returned failedSum parent
    refine ⟨⟨failedSum, rfl⟩, ?_⟩
    rw [List.perm_ext_iff_of_nodup inv.nodup List.nodup_range]
    intro n
    rw [List.mem_range]
    exact ⟨fun member => inv.within n (inv.counted n member), fun less => counted n less idle⟩

theorem Inv.collects_iff {s : State} (inv : Inv x s) (terminal : Terminal (step x) s) :
    Collects x s ↔ ¬ Damaged s ∧
      0 ≤ sumOf x (List.range x.consumerNum) ∧ sumOf x (List.range x.consumerNum) < 2 ^ 32 := by
  have whole (perm : s.counted.Perm (List.range x.consumerNum)) :
      sumOf x s.counted = sumOf x (List.range x.consumerNum) := (perm.map x.failNum).sum_eq
  constructor
  · rintro ⟨failedSum, parent, sum, perm⟩
    have modulo := (inv.returned failedSum parent).1
    rw [whole perm] at modulo
    refine ⟨?_, by omega, by omega⟩
    rintro (killed | ⟨n, reported, uncounted, -⟩)
    · nomatch killed.symm.trans parent
    · exact uncounted (perm.mem_iff.mpr (List.mem_range.mpr (inv.within n reported)))
  · rintro ⟨sound, nonneg, fits⟩
    obtain ⟨⟨failedSum, parent⟩, perm⟩ := inv.complete x terminal sound
    refine ⟨failedSum, parent, ?_, perm⟩
    rw [(inv.returned failedSum parent).1, whole perm, Int.emod_eq_of_lt nonneg fits]

/-- Every run ends, and it ends with the sum of all reports exactly if every report was heard and the
sum fits `failed_sum`. -/
theorem collects_iff_heard :
    (∃ bound, ∀ es s, exec (step x) start es = some s → es.length ≤ bound) ∧
      ∀ es s, exec (step x) start es = some s → Terminal (step x) s →
        (Collects x s ↔ AllSteps (step x) Heard start es ∧
          0 ≤ sumOf x (List.range x.consumerNum) ∧ sumOf x (List.range x.consumerNum) < 2 ^ 32) := by
  constructor
  · refine ⟨start.fuel x, fun es s ran => ?_⟩
    have := exec_length_le (μ := State.fuel x) (fun _ _ _ taken => step_fuel x taken) ran
    omega
  · intro es s ran terminal
    have inv : Inv x s := exec_invariant (fun _ _ _ inv taken => inv_step inv taken) ran (inv_start x)
    have intact : ¬ Damaged start := by
      rintro (killed | ⟨n, reported, -⟩)
      · nomatch killed
      · nomatch reported
    rw [inv.collects_iff x terminal, allSteps_iff_undamaged (I := Inv x)
      (fun _ _ _ inv taken => inv_step inv taken)
      (fun _ _ _ inv damaged taken => damaged_step inv damaged taken)
      (fun _ _ _ inv sound taken => heard_iff inv sound taken) ran (inv_start x) intact]

/-! ## Three consumers -/

theorem Inv.terminal_of_returned {s : State} (inv : Inv x s) {failedSum : ℤ}
    (parent : s.parent = .returned failedSum) : Terminal (step x) s := by
  intro e
  cases e with
  | sigqueue n =>
    exact if_neg fun enabled => enabled.2 ((inv.returned failedSum parent).2.1 n enabled.1)
  | sigprocmask => simp only [step, parent]
  | sigtimedwait sig => simp only [step, parent]
  | timeout => simp only [step, parent]
  | leave => simp only [step, parent]

/-- They have lost 1, 2 and 3 messages. -/
def threeConsumers : Call := ⟨3, fun n => n + 1⟩

theorem inv_threeConsumers {es : List Event} {s : State}
    (ran : exec (step threeConsumers) start es = some s) : Inv threeConsumers s :=
  exec_invariant (fun _ _ _ inv taken => inv_step inv taken) ran (inv_start _)

/-- The first and the third consumer report by the same signal, one after the other is counted. -/
def inTurn : List Event :=
  [.sigprocmask, .sigqueue 0, .sigqueue 1, .sigtimedwait .SIGUSR1, .sigqueue 2, .sigtimedwait .SIGUSR1,
    .sigtimedwait .SIGUSR2, .leave]

def inTurnEnd : State := (exec (step threeConsumers) start inTurn).get (by decide +kernel)

theorem collects_iff_heard_inTurn :
    Collects threeConsumers inTurnEnd ↔ AllSteps (step threeConsumers) Heard start inTurn ∧
      0 ≤ sumOf threeConsumers (List.range 3) ∧ sumOf threeConsumers (List.range 3) < 2 ^ 32 := by
  have ran : exec (step threeConsumers) start inTurn = some inTurnEnd := (Option.some_get _).symm
  have parent : inTurnEnd.parent = .returned 6 := by decide +kernel
  exact (collects_iff_heard threeConsumers).2 inTurn inTurnEnd ran
    ((inv_threeConsumers ran).terminal_of_returned _ parent)

/-- The report of the third consumer comes while that of the first is pending. -/
def atOnce : List Event :=
  [.sigprocmask, .sigqueue 0, .sigqueue 2, .sigqueue 1, .sigtimedwait .SIGUSR1, .sigtimedwait .SIGUSR2,
    .timeout]

def atOnceEnd : State := (exec (step threeConsumers) start atOnce).get (by decide +kernel)

/-- It is not part of the sum. -/
theorem not_collects_atOnce : ¬ ∀ s, Reachable (step threeConsumers) start s →
    Terminal (step threeConsumers) s → Collects threeConsumers s := by
  intro collects
  have ran : exec (step threeConsumers) start atOnce = some atOnceEnd := (Option.some_get _).symm
  have parent : atOnceEnd.parent = .returned 3 := by decide +kernel
  obtain ⟨failedSum, returned, sum, -⟩ := collects atOnceEnd ⟨atOnce, ran⟩
    ((inv_threeConsumers ran).terminal_of_returned _ parent)
  cases parent.symm.trans returned
  exact absurd sum (by decide)

end SystemProgramming.Broadcast.Collect
