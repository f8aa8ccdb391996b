import SystemProgramming.Broadcast.EndMarker

/-! # Runs without loss

A producer that gives the consumer time to go round the ring once between two writes loses no message. The
consumer then has seen every message but possibly the newest one, and as long as it has not seen that
one the reads since the last write and those up to its slot are fewer than the slots.
-/

namespace SystemProgramming.Broadcast

open Lib

variable (x : Config)

/-- At least `b` reads are completed between two consecutive writes, where `since` counts the reads after
the last write before the events, if there is one. -/
def Spaced (b : ℕ) : Option ℕ → List Event → Prop
  | _, [] => True
  | since, .read :: es => Spaced b (since.map (· + 1)) es
  | since, .write :: es => (∀ n ∈ since, b ≤ n) ∧ Spaced b (some 0) es

/-- The message written last. The zeroed slots look like message 0. -/
def newest (s : State) : ℕ := min (s.sent - 1) (x.messageNum - 1)

structure CaughtUp (since : Option ℕ) (s : State) : Prop where
  first : since = none ↔ s.sent = 0
  counted : (s.consumer.counter : ℤ) = s.consumer.prev + 1
  slots : ∀ j, (s.slots j).dataIn ≤ newest x s
  prev_le : s.consumer.prev ≤ newest x s
  prev_ge : newest x s ≤ s.consumer.prev + 1
  /-- The newest message is still in its slot and the consumer comes to it in time. -/
  pending : s.consumer.prev < newest x s → ∀ n ∈ since, s.sent ≤ x.messageNum ∧
    (s.slots ((s.sent - 1) % x.bufferNum)).dataIn = newest x s ∧
    n + ahead x s.consumer.i ((s.sent - 1) % x.bufferNum) < x.bufferNum
  returned : ∀ n, s.consumer.returned = some n → n = 0

theorem caughtUp_start : CaughtUp x none start where
  first := iff_of_true rfl rfl
  counted := rfl
  slots _ := Int.natCast_nonneg _
  prev_le := by
    rw [newest]
    exact Int.le_trans (by decide) (Int.natCast_nonneg _)
  prev_ge := by simp [newest, start]
  pending _ _ member := by cases member
  returned _ returned := by cases returned

section

variable {x} {s t : State} {since : Option ℕ}

theorem CaughtUp.write (some_ : 0 < x.messageNum) (marked : Marked x s) (inv : CaughtUp x since s)
    (more : s.sent ≤ x.messageNum) (spaced : ∀ n ∈ since, x.bufferNum ≤ n) :
    CaughtUp x (some 0) (producerWrite x s) := by
  have seen : s.sent ≠ 0 → s.consumer.prev = newest x s := by
    intro later
    obtain ⟨n, here⟩ := Option.ne_none_iff_exists'.mp (mt inv.first.mp later)
    have enough := spaced n here
    by_contra unseen
    have := inv.prev_le
    have := (inv.pending (by omega) n here).2.2
    omega
  have prev_le := inv.prev_le
  have prev_ge := inv.prev_ge
  have sent : (producerWrite x s).sent = s.sent + 1 := rfl
  have consumer : (producerWrite x s).consumer = s.consumer := rfl
  constructor
  · exact iff_of_false (Option.some_ne_none _) (Nat.succ_ne_zero _)
  · exact inv.counted
  · intro j
    have old := inv.slots j
    rw [producerWrite_dataIn]
    simp only [newest, sent] at old ⊢
    split_ifs <;> omega
  · simp only [newest, sent, consumer] at prev_le ⊢
    omega
  · simp only [newest, sent, consumer] at prev_ge seen ⊢
    omega
  · intro unseen n here
    cases here
    have message : s.sent < x.messageNum := by
      simp only [newest, sent, consumer] at unseen seen
      omega
    refine ⟨message, ?_, ?_⟩
    · rw [producerWrite_dataIn, sent, Nat.add_sub_cancel, if_pos rfl, if_pos message, newest, sent]
      omega
    · rw [Nat.zero_add]
      exact ahead_lt marked.index (Nat.mod_lt _ x.positive)
  · exact inv.returned

theorem CaughtUp.read (some_ : 0 < x.messageNum) (marked : Marked x s) (inv : CaughtUp x since s)
    (running : s.consumer.returned = none) :
    CaughtUp x (since.map (· + 1)) { s with
      consumer := s.consumer.read x (s.slots s.consumer.i).dataIn
      reads := s.reads ++ [s.slots s.consumer.i] } := by
  obtain ⟨counter, prev, returned⟩ := read_spec s.consumer (s.slots s.consumer.i).dataIn marked.prev
  have above := marked.prev
  have counted := inv.counted
  have value := inv.slots s.consumer.i
  have prev_le := inv.prev_le
  have prev_ge := inv.prev_ge
  constructor
  · rw [Option.map_eq_none_iff]
    exact inv.first
  · dsimp only
    rw [counter, prev]
    split_ifs with newer <;> omega
  · exact inv.slots
  · dsimp only
    rw [prev]
    exact max_le inv.prev_le value
  · dsimp only
    rw [prev]
    change (newest x s : ℤ) ≤ _
    omega
  · intro unseen n here
    dsimp only at unseen ⊢
    rw [prev] at unseen
    change _ < (newest x s : ℤ) at unseen
    obtain ⟨before, last, rfl⟩ := Option.mem_map.mp here
    obtain ⟨messages, slot, near⟩ := inv.pending (by omega) before last
    have away : s.consumer.i ≠ (s.sent - 1) % x.bufferNum := by
      intro reached
      rw [reached, slot] at unseen
      omega
    have message : (s.slots s.consumer.i).dataIn ≠ -1 := by
      have := marked.unmarked messages s.consumer.i
      omega
    have closer := ahead_advance marked.index (Nat.mod_lt _ x.positive) away
    refine ⟨messages, slot, ?_⟩
    rw [read_i message]
    omega
  · intro n ends
    dsimp only at ends
    rw [returned, running] at ends
    split_ifs at ends with last
    have past : x.messageNum < s.sent := by
      by_contra early
      have := marked.unmarked (not_lt.mp early) s.consumer.i
      omega
    -- the last message has been counted when the end marker is there
    have seen : s.consumer.prev = newest x s := by
      obtain ⟨n, here⟩ := Option.ne_none_iff_exists'.mp (mt inv.first.mp (by omega))
      by_contra unseen
      have := (inv.pending (by omega) n here).1
      omega
    rw [← Option.some.inj ends, counted, seen, newest]
    omega

theorem caughtUp_of_exec (some_ : 0 < x.messageNum) {es : List Event} (marked : Marked x s)
    (inv : CaughtUp x since s) (spaced : Spaced x.bufferNum since es)
    (ran : exec (step x) s es = some t) : ∃ since, CaughtUp x since t := by
  induction es generalizing s since with
  | nil =>
    cases ran
    exact ⟨since, inv⟩
  | cons e es ih =>
    obtain ⟨middle, taken, rest⟩ := exec_cons_eq_some.mp ran
    have kept := marked_step marked taken
    cases e with
    | write =>
      obtain ⟨enough, spaced⟩ := spaced
      obtain ⟨more, rfl⟩ := step_write taken
      exact ih kept (inv.write some_ marked more enough) spaced rest
    | read =>
      obtain ⟨running, rfl⟩ := step_read taken
      exact ih kept (inv.read some_ marked running) spaced rest

theorem spaced_append_reads {b : ℕ} {es : List Event} (spaced : Spaced b since es) (k : ℕ) :
    Spaced b since (es ++ List.replicate k .read) := by
  induction es generalizing since with
  | nil =>
    induction k generalizing since with
    | zero => trivial
    | succ k ih => exact @ih (since.map (· + 1)) trivial
  | cons e es ih =>
    cases e with
    | write => exact ⟨spaced.1, ih spaced.2⟩
    | read => exact @ih (since.map (· + 1)) spaced

end

/-- A consumer that completes at least `buffer_num` reads between any two consecutive writes returns 0
lost messages if it returns, and it returns when it reads on after the end marker. -/
theorem lossless_of_spaced (some_ : 0 < x.messageNum) {es : List Event} {s : State}
    (spaced : Spaced x.bufferNum none es) (ran : exec (step x) start es = some s) :
    (∀ n, s.consumer.returned = some n → n = 0) ∧
      (s.sent = x.messageNum + 1 → s.consumer.returned = none →
        ∃ k ≤ x.bufferNum, ∃ t, exec (step x) s (List.replicate k .read) = some t ∧
          t.consumer.returned = some 0) := by
  have marked := marked_of_exec (marked_start x) ran
  constructor
  · obtain ⟨since, inv⟩ := caughtUp_of_exec some_ (marked_start x) (caughtUp_start x) spaced ran
    exact inv.returned
  · intro sent running
    obtain ⟨k, within, t, reads, returned⟩ := returns_of_marked marked sent running
    have near := ahead_lt marked.index (Nat.mod_lt x.messageNum x.positive)
    refine ⟨k + 1, by omega, t, reads, ?_⟩
    obtain ⟨since, inv⟩ := caughtUp_of_exec some_ (marked_start x) (caughtUp_start x)
      (spaced_append_reads spaced (k + 1)) (exec_append.mpr ⟨s, ran, reads⟩)
    obtain ⟨n, ends⟩ := Option.ne_none_iff_exists'.mp returned
    rw [ends, inv.returned n ends]

/-- The consumer reads the empty slot first, then the message. -/
def oneMessageInTime : State :=
  (exec (step oneMessage) start [.read, .write, .read, .write]).get (by decide +kernel)

theorem lossless_of_spaced_oneMessage : ∃ k ≤ 1, ∃ t,
    exec (step oneMessage) oneMessageInTime (List.replicate k .read) = some t ∧
      t.consumer.returned = some 0 := by
  have ran : exec (step oneMessage) start [.read, .write, .read, .write] = some oneMessageInTime :=
    (Option.some_get _).symm
  have spaced : Spaced 1 none [.read, .write, .read, .write] := by simp [Spaced]
  exact (lossless_of_spaced oneMessage (by decide) spaced ran).2 (by decide +kernel) (by decide +kernel)

end SystemProgramming.Broadcast
