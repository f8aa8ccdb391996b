import SystemProgramming.Broadcast.Loss

/-! # The end of `consumer_job`

The loop has no counter. A consumer leaves it when it comes to the slot of the end marker, which is
the only negative value, is written once, and stays.
-/

namespace SystemProgramming.Broadcast

open Lib

variable (x : Config)

/-- The reads from index `i` before the one of slot `p`. -/
def ahead (i p : ℕ) : ℕ := if i ≤ p then p - i else p + x.bufferNum - i

/-- Where the end marker is and what it does. -/
structure Marked (s : State) : Prop where
  index : s.consumer.i < x.bufferNum
  prev : -1 ≤ s.consumer.prev
  sent : s.sent ≤ x.messageNum + 1
  unmarked : s.sent ≤ x.messageNum → ∀ j, 0 ≤ (s.slots j).dataIn
  marked : s.sent = x.messageNum + 1 → (s.slots (x.messageNum % x.bufferNum)).dataIn = -1
  running : s.sent ≤ x.messageNum → s.consumer.returned = none

theorem marked_start : Marked x start where
  index := x.positive
  prev := le_refl _
  sent := Nat.zero_le _
  unmarked _ _ := le_refl _
  marked sent := by cases sent
  running _ := rfl

section

variable {x} {s t : State}

/-- The slots after a write. -/
theorem producerWrite_dataIn (s : State) (j : ℕ) :
    ((producerWrite x s).slots j).dataIn =
      if j = s.sent % x.bufferNum then if s.sent < x.messageNum then (s.sent : ℤ) else -1
      else (s.slots j).dataIn := by
  rw [producerWrite]
  dsimp only
  rw [Function.update_apply]
  split_ifs <;> rfl

theorem advance_lt (c : Consumer) (index : c.i < x.bufferNum) : (c.advance x).i < x.bufferNum := by
  rw [Consumer.advance]
  dsimp only
  split_ifs with wraps
  · exact x.positive
  · omega

theorem ahead_lt {i p : ℕ} (index : i < x.bufferNum) (slot : p < x.bufferNum) :
    ahead x i p < x.bufferNum := by
  rw [ahead]
  split_ifs <;> omega

theorem ahead_advance {c : Consumer} {p : ℕ} (index : c.i < x.bufferNum) (slot : p < x.bufferNum)
    (away : c.i ≠ p) : ahead x (c.advance x).i p + 1 = ahead x c.i p := by
  rw [Consumer.advance]
  dsimp only
  rw [ahead, ahead]
  split_ifs <;> omega

/-- The index after a turn that does not leave the loop. -/
theorem read_i {c : Consumer} {cur : ℤ} (stays : cur ≠ -1) : (c.read x cur).i = (c.advance x).i := by
  rw [Consumer.read]
  split_ifs
  · rfl
  · rfl

/-- A read slot that holds no end marker. -/
theorem read_stays (marked : Marked x s) (running : s.consumer.returned = none)
    (stays : (s.slots s.consumer.i).dataIn ≠ -1) :
    (s.consumer.read x (s.slots s.consumer.i).dataIn).returned = none := by
  rw [(read_spec _ _ marked.prev).2.2, if_neg stays, running]

theorem Marked.write (marked : Marked x s) (more : s.sent ≤ x.messageNum) :
    Marked x (producerWrite x s) where
  index := marked.index
  prev := marked.prev
  sent := Nat.succ_le_succ more
  unmarked again j := by
    have again : s.sent + 1 ≤ x.messageNum := again
    rw [producerWrite_dataIn, if_pos (show s.sent < x.messageNum from again)]
    split_ifs with here
    · exact Int.natCast_nonneg _
    · exact marked.unmarked more j
  marked last := by
    have here : s.sent = x.messageNum := Nat.succ.inj last
    rw [producerWrite_dataIn, here, if_pos rfl, if_neg (lt_irrefl _)]
  running _ := marked.running more

theorem Marked.read (marked : Marked x s) (running : s.consumer.returned = none) :
    Marked x { s with
      consumer := s.consumer.read x (s.slots s.consumer.i).dataIn
      reads := s.reads ++ [s.slots s.consumer.i] } where
  index := by
    by_cases last : (s.slots s.consumer.i).dataIn = -1
    · dsimp only
      rw [Consumer.read, if_neg (by have := marked.prev; omega), if_pos last]
      exact marked.index
    · dsimp only
      rw [read_i last]
      exact advance_lt _ marked.index
  prev := by
    dsimp only
    rw [(read_spec _ _ marked.prev).2.1]
    exact le_max_of_le_left marked.prev
  sent := marked.sent
  unmarked := marked.unmarked
  marked := marked.marked
  running more := by
    have nonneg := marked.unmarked more s.consumer.i
    exact read_stays marked running (by omega)

theorem exec_read (running : s.consumer.returned = none) :
    exec (step x) s [.read] = some { s with
      consumer := s.consumer.read x (s.slots s.consumer.i).dataIn
      reads := s.reads ++ [s.slots s.consumer.i] } := by
  simp only [exec, step, running, Option.bind_some]

theorem marked_step {e : Event} (marked : Marked x s) (taken : step x s e = some t) : Marked x t := by
  cases e with
  | write =>
    obtain ⟨more, rfl⟩ := step_write taken
    exact marked.write more
  | read =>
    obtain ⟨running, rfl⟩ := step_read taken
    exact marked.read running

theorem marked_of_exec {es : List Event} (marked : Marked x s) (ran : exec (step x) s es = some t) :
    Marked x t := by
  apply exec_invariant (fun _ _ _ marked taken => marked_step marked taken) ran
  exact marked

/-- Reading on from any index brings the consumer to the slot of the end marker. -/
theorem returns_of_marked (marked : Marked x s) (sent : s.sent = x.messageNum + 1)
    (running : s.consumer.returned = none) :
    ∃ k ≤ ahead x s.consumer.i (x.messageNum % x.bufferNum), ∃ t,
      exec (step x) s (List.replicate (k + 1) .read) = some t ∧ t.consumer.returned ≠ none := by
  induction distance : ahead x s.consumer.i (x.messageNum % x.bufferNum) generalizing s with
  | zero =>
    have here : s.consumer.i = x.messageNum % x.bufferNum := by
      by_contra away
      have := ahead_advance marked.index (Nat.mod_lt _ x.positive) away
      omega
    refine ⟨0, le_refl 0, _, exec_read running, ?_⟩
    dsimp only
    rw [(read_spec _ _ marked.prev).2.2, here, marked.marked sent, if_pos rfl]
    exact Option.some_ne_none _
  | succ n ih =>
    by_cases last : (s.slots s.consumer.i).dataIn = -1
    · refine ⟨0, Nat.zero_le _, _, exec_read running, ?_⟩
      dsimp only
      rw [(read_spec _ _ marked.prev).2.2, if_pos last]
      exact Option.some_ne_none _
    · have away : s.consumer.i ≠ x.messageNum % x.bufferNum :=
        fun here => last (here ▸ marked.marked sent)
      have closer := ahead_advance marked.index (Nat.mod_lt _ x.positive) away
      obtain ⟨k, within, t, ran, returned⟩ := ih (marked.read running) sent
        (read_stays marked running last) (by dsimp only; rw [read_i last]; omega)
      refine ⟨k + 1, Nat.succ_le_succ within, t, ?_, returned⟩
      rw [List.replicate_succ, exec_cons_eq_some]
      exact ⟨_, by simp [step, running], ran⟩

end

/-- In every interleaving, a consumer has left its loop only if the end marker has been written, and if
it has not left the loop then, at most `buffer_num` further reads are needed. -/
theorem leaves_after_marker {s : State} (reached : Reachable (step x) start s) :
    (s.consumer.returned ≠ none → s.sent = x.messageNum + 1) ∧
      (s.sent = x.messageNum + 1 → s.consumer.returned = none →
        ∃ k ≤ x.bufferNum, ∃ t, exec (step x) s (List.replicate k .read) = some t ∧
          t.consumer.returned ≠ none) := by
  obtain ⟨es, ran⟩ := reached
  have marked := marked_of_exec (marked_start x) ran
  constructor
  · intro returned
    by_contra before
    have := marked.sent
    exact returned (marked.running (by omega))
  · intro sent running
    obtain ⟨k, within, t, reads, returned⟩ := returns_of_marked marked sent running
    have := ahead_lt marked.index (Nat.mod_lt x.messageNum x.positive)
    exact ⟨k + 1, by omega, t, reads, returned⟩

/-- The state after the end marker of one message. -/
def oneMessageMarked : State :=
  (exec (step oneMessage) start [.write, .read, .write]).get (by decide +kernel)

theorem leaves_after_marker_oneMessage : ∃ k ≤ 1, ∃ t,
    exec (step oneMessage) oneMessageMarked (List.replicate k .read) = some t ∧
      t.consumer.returned ≠ none :=
  (leaves_after_marker oneMessage ⟨[.write, .read, .write], (Option.some_get _).symm⟩).2
    (by decide +kernel) (by decide +kernel)

end SystemProgramming.Broadcast
