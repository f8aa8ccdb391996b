import SystemProgramming.Dictionary.Server

/-! # What the servers send

A reply goes out for every piece, and one for the empty word for every read after the end of the stream,
because the loop waits for a -1 that the end of a stream does not bring.
-/

namespace SystemProgramming.Dictionary.Server

open Lib

section

variable (table : Lookup5.Table) (requests : List Request)

/-- The reply under way. -/
def State.pending (s : State) : List (List UInt8) :=
  match s.pc with
  | .write text => [text]
  | .read | .left | .killed | .undefined => []

structure Account (pieces : List (List UInt8)) (s : State) : Prop where
  inLoop : s.pc ≠ .left ∧ s.pc ≠ .undefined
  cleared : s.pc = .read → s.buf = Field.init bufSize []
  /-- A killed server has lost the reply that was under way. -/
  replied : s.pc ≠ .killed → ∃ seen after, pieces = seen ++ s.incoming ∧
    s.sent ++ s.pending = seen.map (fun piece => answer table (cstr piece)) ++
      List.replicate after (answer table []) ∧ (s.incoming ≠ [] → after = 0)

theorem start_account (pieces : List (List UInt8)) : Account table pieces (start pieces) where
  inLoop := by simp [start]
  cleared := fun _ => rfl
  replied := fun _ => ⟨[], 0, rfl, rfl, fun _ => rfl⟩

variable {table requests}

/-- What a read in the loop does: the next piece is answered, or the empty word at the end. -/
theorem step_read {cut : Cut requests} {s : State} (inv : Account table cut.pieces s) (pc : s.pc = .read) :
    step table s .read = some { s with
      pc := .write (answer table (cstr (s.incoming.headD [])))
      buf := s.buf.fill (s.incoming.headD [])
      incoming := s.incoming.tail } := by
  have cleared := inv.cleared pc
  cases incoming : s.incoming with
  | nil =>
    have same : (Field.init bufSize []).fill [] = Field.init bufSize [] := by
      apply Field.ext
      simp [Field.fill, Field.init]
    have empty : s.buf.string = [] := by
      rw [cleared]
      exact Field.string_init (by decide) List.not_mem_nil
    have answered : reply table s.buf = some (answer table []) := by
      rw [reply_eq s.buf (by simp [empty]), empty]
    rw [cleared] at answered
    have zero : (0 : ℤ) ≠ EOF := by decide
    simp [step, pc, read, incoming, zero, answered, cleared, same, cstr]
  | cons piece rest =>
    obtain ⟨seen, -, pieces, -⟩ := inv.replied (by simp [pc])
    have member : piece ∈ cut.pieces := by simp [pieces, incoming]
    have string : (s.buf.fill piece).string = cstr piece := by
      rw [cleared]
      exact Field.string_fill_init (cut.fits piece member)
    have answered : reply table (s.buf.fill piece) = some (answer table (cstr piece)) := by
      rw [reply_eq _ (by rw [string]; exact cut.short member), string]
    have counted : (piece.length : ℤ) ≠ EOF := by
      unfold EOF
      omega
    simp [step, pc, read, incoming, counted, answered]

theorem step_account {cut : Cut requests} {s t : State} {e : Event} (inv : Account table cut.pieces s)
    (taken : step table s e = some t) : Account table cut.pieces t := by
  cases e with
  | read =>
    have pc : s.pc = .read := by
      by_contra other
      cases at_ : s.pc <;> simp [step, at_] at taken other
    obtain ⟨seen, after, pieces, replied, early⟩ := inv.replied (by simp [pc])
    rw [step_read inv pc] at taken
    cases taken
    refine ⟨by simp, by simp, fun _ => ?_⟩
    cases incoming : s.incoming with
    | nil =>
      refine ⟨seen, after + 1, by simpa [incoming] using pieces, ?_, by simp⟩
      simp only [State.pending, pc, List.append_nil] at replied
      simp [State.pending, replied, List.replicate_succ', cstr]
    | cons piece rest =>
      obtain rfl : after = 0 := early (by simp [incoming])
      refine ⟨seen ++ [piece], 0, by simp [pieces, incoming], ?_, fun _ => rfl⟩
      simp only [State.pending, pc, List.append_nil] at replied
      simp [State.pending, replied]
  | write =>
    cases pc : s.pc with
    | write text =>
      obtain ⟨seen, after, pieces, replied, early⟩ := inv.replied (by simp [pc])
      simp only [step, pc, Option.some.injEq] at taken
      subst taken
      refine ⟨by simp, fun _ => rfl, fun _ => ⟨seen, after, pieces, ?_, early⟩⟩
      simpa [State.pending, pc] using replied
    | read | left | killed | undefined => simp [step, pc] at taken
  | sigpipe =>
    cases pc : s.pc with
    | write text =>
      simp only [step, pc, Option.ite_none_right_eq_some, Option.some.injEq] at taken
      obtain ⟨-, rfl⟩ := taken
      exact ⟨by simp, by simp, fun alive => absurd rfl alive⟩
    | read | left | killed | undefined => simp [step, pc] at taken

theorem reachable_account {cut : Cut requests} {s : State}
    (reached : Reachable (step table) (start cut.pieces) s) : Account table cut.pieces s :=
  reached.invariant (fun _ _ _ inv taken => step_account inv taken) (start_account table cut.pieces)

/-! ## After the end of the stream -/

/-- A server that waits for input sends one more reply, whether or not there is input. -/
theorem exists_pass {cut : Cut requests} {s : State} (inv : Account table cut.pieces s)
    (pc : s.pc = .read) : ∃ t, Reachable (step table) s t ∧ t.pc = .read ∧
      t.incoming = s.incoming.tail ∧ t.sent.length = s.sent.length + 1 := by
  have first := Reachable.of_step (step_read inv pc)
  refine ⟨_, first.trans (Reachable.of_step (e := .write) rfl), rfl, rfl, ?_⟩
  simp

/-- The number of replies has no bound. -/
theorem exists_sent_length (table : Lookup5.Table) (cut : Cut requests) (n : ℕ) :
    ∃ s, Reachable (step table) (start cut.pieces) s ∧ s.pc = .read ∧
      s.incoming = cut.pieces.drop n ∧ s.sent.length = n := by
  induction n with
  | zero => exact ⟨start cut.pieces, .refl _, rfl, rfl, rfl⟩
  | succ n ih =>
    obtain ⟨s, reached, pc, incoming, sent⟩ := ih
    obtain ⟨t, more, pc, rest, next⟩ := exists_pass (reachable_account reached) pc
    refine ⟨t, reached.trans more, pc, ?_, ?_⟩
    · rw [rest, incoming, List.tail_drop]
    · rw [next, sent]

theorem not_ordered (table : Lookup5.Table) (cut : Cut requests) :
    ¬ ∀ s, Reachable (step table) (start cut.pieces) s → s.sent <+: replies table requests := by
  intro ordered
  obtain ⟨s, reached, -, -, sent⟩ := exists_sent_length table cut ((replies table requests).length + 1)
  have bound := (ordered s reached).length_le
  omega

theorem never_left (table : Lookup5.Table) (cut : Cut requests) {s : State}
    (reached : Reachable (step table) (start cut.pieces) s) : s.pc ≠ .left :=
  (reachable_account reached).inLoop.1

end

/-- Whatever the words and however they are cut, the server does not keep to one reply a word, and it
does not leave its loop. -/
theorem never_serves (table : Lookup5.Table) (requests : List Request) (cut : Cut requests) :
    ¬ Serves table requests cut := by
  intro serves
  obtain ⟨t, reached, left, -⟩ := serves.leaves (start cut.pieces) (.refl _)
  exact never_left table cut reached left

/-- A dictionary without records, and a client that sends the word `a` in one piece. -/
theorem not_serves_oneWord : ¬ ∀ (table : Lookup5.Table) (requests : List Request) (cut : Cut requests),
    Serves table requests cut := by
  intro all
  have inside : 1 * Lookup5.recordSize ≤ (List.replicate Lookup5.mapSize (0 : UInt8)).length := by
    rw [List.length_replicate]
    decide
  have serves := all ⟨List.replicate Lookup5.mapSize 0, 1, inside⟩ [⟨[97], by decide, by decide⟩]
    ⟨[[97, 0]], rfl, by decide, by decide⟩
  exact not_ordered _ _ serves.ordered

end SystemProgramming.Dictionary.Server
