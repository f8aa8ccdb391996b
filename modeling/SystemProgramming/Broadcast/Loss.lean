import SystemProgramming.Broadcast.Model
import SystemProgramming.Lib.Records
import Mathlib.Data.Finset.Image
import Mathlib.Data.List.TakeWhile
import Mathlib.Data.Finset.Card
import Mathlib.Data.Int.Cast.Basic
import Mathlib.Algebra.Ring.CharZero
import Mathlib.Data.Int.CharZero

/-! # The number of lost messages

`consumer_job` counts the records among the values it reads. A message that is first read after a newer
one is no record, and the initial content of the slots is one although it is no message. These are
the only two ways in which the count misses the messages received.
-/

namespace SystemProgramming.Broadcast

open Lib

variable (x : Config)

/-! ## What the consumer has read -/

/-- The messages it has read from slots they had been written to. -/
def received (reads : List Slot) : Finset ℕ :=
  (Finset.range x.messageNum).filter fun k => ⟨k, true⟩ ∈ reads

/-- Those of them it had not seen before it saw a newer one. -/
def stale (reads : List Slot) : Finset ℕ :=
  (received x reads).filter fun k : ℕ =>
    ∃ slot ∈ reads.takeWhile fun read : Slot => read.dataIn ≠ k, (k : ℤ) < slot.dataIn

/-- It began with the initial content of a slot and never received message 0. -/
def Phantom (reads : List Slot) : Prop := reads.head? = some ⟨0, false⟩ ∧ ⟨0, true⟩ ∉ reads

instance (reads : List Slot) : Decidable (Phantom reads) := inferInstanceAs (Decidable (_ ∧ _))

/-! ## The invariant -/

/-- What a slot can hold. -/
def Slot.Valid (slot : Slot) : Prop :=
  if slot.written then slot.dataIn = -1 ∨ 0 ≤ slot.dataIn ∧ slot.dataIn < x.messageNum
  else slot.dataIn = 0

def values (reads : List Slot) : List ℤ := reads.map Slot.dataIn

structure Inv (s : State) : Prop where
  slots : ∀ j, (s.slots j).Valid x
  reads : ∀ slot ∈ s.reads, slot.Valid x
  counter : s.consumer.counter = (records (-1) (values s.reads)).length
  prev : s.consumer.prev = (values s.reads).foldl max (-1)
  /-- The end marker is the last value read. -/
  running : s.consumer.returned = none → ∀ slot ∈ s.reads, 0 ≤ slot.dataIn
  ended : ∀ n, s.consumer.returned = some n → n = x.messageNum - s.consumer.counter ∧
    ∃ before last, s.reads = before ++ [last] ∧ last.dataIn = -1 ∧ ∀ slot ∈ before, 0 ≤ slot.dataIn

theorem inv_start : Inv x start where
  slots _ := rfl
  reads _ member := nomatch member
  counter := rfl
  prev := rfl
  running _ _ member := nomatch member
  ended _ returned := nomatch returned

section

variable {x} {s t : State}

theorem Inv.write (inv : Inv x s) : Inv x (producerWrite x s) := by
  refine ⟨fun j => ?_, inv.reads, inv.counter, inv.prev, inv.running, inv.ended⟩
  rw [producerWrite]
  dsimp only
  rw [Function.update_apply]
  split_ifs with here message
  · rw [Slot.Valid, if_pos rfl]
    dsimp only
    omega
  · rw [Slot.Valid, if_pos rfl]
    exact .inl rfl
  · exact inv.slots j

theorem read_spec (c : Consumer) (cur : ℤ) (above : -1 ≤ c.prev) :
    (c.read x cur).counter = c.counter + (if c.prev < cur then 1 else 0) ∧
      (c.read x cur).prev = max c.prev cur ∧
      (c.read x cur).returned =
        if cur = -1 then some (x.messageNum - c.counter : ℤ) else c.returned := by
  rw [Consumer.read]
  split_ifs with newer end_ end_
  · omega
  · exact ⟨rfl, (max_eq_right newer.le).symm, rfl⟩
  · exact ⟨rfl, (max_eq_left (not_lt.mp newer)).symm, rfl⟩
  · exact ⟨rfl, (max_eq_left (not_lt.mp newer)).symm, rfl⟩

theorem Inv.read (inv : Inv x s) (running : s.consumer.returned = none) :
    Inv x { s with
      consumer := s.consumer.read x (s.slots s.consumer.i).dataIn
      reads := s.reads ++ [s.slots s.consumer.i] } := by
  have above : -1 ≤ s.consumer.prev := inv.prev ▸ le_foldl_max _ _
  obtain ⟨counter, prev, returned⟩ := read_spec (x := x) s.consumer (s.slots s.consumer.i).dataIn above
  have valid := inv.slots s.consumer.i
  generalize s.slots s.consumer.i = slot at counter prev returned valid
  have values_ : values (s.reads ++ [slot]) = values s.reads ++ [slot.dataIn] := List.map_append
  constructor
  · exact inv.slots
  · intro slot' member
    obtain old | new := List.mem_append.mp member
    · exact inv.reads slot' old
    · exact List.mem_singleton.mp new ▸ valid
  · dsimp only
    rw [counter, values_, records_concat, List.length_append, ← inv.counter, ← inv.prev]
    split_ifs <;> rfl
  · dsimp only
    rw [prev, values_, List.foldl_concat, ← inv.prev]
  · intro goes
    dsimp only at goes
    rw [returned] at goes
    split_ifs at goes with last
    intro slot' member
    obtain old | new := List.mem_append.mp member
    · exact inv.running running slot' old
    · rw [List.mem_singleton.mp new]
      rw [Slot.Valid] at valid
      split_ifs at valid <;> omega
  · intro n ends
    dsimp only at ends
    rw [returned, running] at ends
    split_ifs at ends with last
    refine ⟨?_, s.reads, slot, rfl, last, inv.running running⟩
    rw [counter, if_neg (by omega), ← Option.some.inj ends]
    rfl

theorem step_write (taken : step x s .write = some t) : s.sent ≤ x.messageNum ∧ t = producerWrite x s := by
  simp only [step] at taken
  split_ifs at taken with more
  exact ⟨more, (Option.some.inj taken).symm⟩

theorem step_read (taken : step x s .read = some t) :
    s.consumer.returned = none ∧ t = { s with
      consumer := s.consumer.read x (s.slots s.consumer.i).dataIn
      reads := s.reads ++ [s.slots s.consumer.i] } := by
  cases running : s.consumer.returned with
  | none =>
    simp only [step, running] at taken
    exact ⟨rfl, (Option.some.inj taken).symm⟩
  | some n =>
    simp only [step, running] at taken
    cases taken

theorem inv_step {e : Event} (inv : Inv x s) (taken : step x s e = some t) : Inv x t := by
  cases e with
  | write =>
    obtain ⟨-, rfl⟩ := step_write taken
    exact inv.write
  | read =>
    obtain ⟨running, rfl⟩ := step_read taken
    exact inv.read running

/-! ## Counting -/

theorem mem_received {reads : List Slot} {k : ℕ} :
    k ∈ received x reads ↔ k < x.messageNum ∧ ⟨k, true⟩ ∈ reads := by
  rw [received, Finset.mem_filter, Finset.mem_range]

theorem mem_counted {reads : List Slot} {z : ℤ} :
    z ∈ (records (-1) (values reads)).toFinset ↔
      -1 < z ∧ (∃ slot ∈ reads, slot.dataIn = z) ∧
        ∀ slot ∈ reads.takeWhile (·.dataIn ≠ z), slot.dataIn < z := by
  rw [List.mem_toFinset, mem_records, values, List.mem_map, List.takeWhile_map, List.forall_mem_map]
  rfl

/-- Messages received and not counted. -/
theorem received_sdiff_counted (reads : List Slot) :
    (received x reads).map Nat.castEmbedding \ (records (-1) (values reads)).toFinset =
      (stale x reads).map Nat.castEmbedding := by
  ext z
  rw [Finset.mem_sdiff, Finset.mem_map, Finset.mem_map, mem_counted]
  constructor
  · rintro ⟨⟨k, got, rfl⟩, uncounted⟩
    refine ⟨k, Finset.mem_filter.mpr ⟨got, ?_⟩, rfl⟩
    by_contra fresh
    refine uncounted ⟨by rw [Nat.castEmbedding_apply]; omega, ⟨_, (mem_received.mp got).2, rfl⟩,
      fun slot inside => lt_of_le_of_ne ?_ ?_⟩
    · exact not_lt.mp fun greater => fresh ⟨slot, inside, greater⟩
    · have other := List.mem_takeWhile_imp inside
      exact of_decide_eq_true other
  · rintro ⟨k, old, rfl⟩
    obtain ⟨got, slot, inside, greater⟩ := Finset.mem_filter.mp old
    exact ⟨⟨k, got, rfl⟩, fun counted => absurd greater (lt_asymm (counted.2.2 slot inside))⟩

/-- The first value is no end marker if there is anything else. -/
theorem Inv.head_nonneg (inv : Inv x s) {head : Slot} {rest : List Slot} (reads : s.reads = head :: rest)
    {slot : Slot} (member : slot ∈ s.reads) (nonneg : 0 ≤ slot.dataIn) : 0 ≤ head.dataIn := by
  cases returned : s.consumer.returned with
  | none => exact inv.running returned head (reads ▸ List.mem_cons_self)
  | some n =>
    obtain ⟨-, before, last, split, end_, nonneg_⟩ := inv.ended n returned
    cases before with
    | nil =>
      rw [split, List.nil_append, List.mem_singleton] at member
      rw [member, end_] at nonneg
      omega
    | cons first before =>
      obtain rfl : head = first := (List.cons.inj (reads.symm.trans split)).1
      exact nonneg_ head List.mem_cons_self

/-- Values counted that are not messages received. -/
theorem Inv.counted_sdiff_received (inv : Inv x s) :
    (records (-1) (values s.reads)).toFinset \ (received x s.reads).map Nat.castEmbedding =
      if Phantom s.reads then {0} else ∅ := by
  have got {k : ℕ} (member : ⟨k, true⟩ ∈ s.reads) : k ∈ received x s.reads := by
    have valid := inv.reads _ member
    rw [Slot.Valid, if_pos rfl] at valid
    dsimp only at valid
    exact mem_received.mpr ⟨by omega, member⟩
  have phantom {z : ℤ} (counted : z ∈ (records (-1) (values s.reads)).toFinset)
      (lost : z ∉ (received x s.reads).map Nat.castEmbedding) : z = 0 ∧ Phantom s.reads := by
    obtain ⟨above, ⟨⟨value, written⟩, member, rfl⟩, first⟩ := mem_counted.mp counted
    have valid := inv.reads _ member
    dsimp only at above first lost
    -- a message is received where it is read
    have unmapped (k : ℕ) (read : ⟨k, true⟩ ∈ s.reads) : (k : ℤ) ≠ value := by
      rintro rfl
      exact lost (Finset.mem_map.mpr ⟨k, got read, rfl⟩)
    have initial : written = false := by
      rw [← Bool.not_eq_true]
      rintro rfl
      rw [Slot.Valid, if_pos rfl] at valid
      dsimp only at valid
      lift value to ℕ using by omega
      exact unmapped value member rfl
    subst initial
    obtain rfl : value = 0 := valid
    have unread : ⟨0, true⟩ ∉ s.reads := fun read => unmapped 0 read rfl
    refine ⟨rfl, ?_, unread⟩
    cases reads : s.reads with
    | nil => rw [reads] at member; cases member
    | cons head rest =>
      have nonneg := inv.head_nonneg reads member (le_refl 0)
      have zero : head.dataIn = 0 := by
        by_contra other
        have inside : head ∈ s.reads.takeWhile (·.dataIn ≠ 0) := by
          rw [reads, List.takeWhile_cons, if_pos (decide_eq_true other)]
          exact List.mem_cons_self
        have := first head inside
        omega
      obtain ⟨value, written⟩ := head
      cases zero
      cases written with
      | false => rfl
      | true => exact absurd (reads ▸ List.mem_cons_self) unread
  have zero (initial : Phantom s.reads) : (0 : ℤ) ∈ (records (-1) (values s.reads)).toFinset ∧
      (0 : ℤ) ∉ (received x s.reads).map Nat.castEmbedding := by
    obtain ⟨head, unread⟩ := initial
    obtain ⟨rest, reads⟩ := List.head?_eq_some_iff.mp head
    constructor
    · refine mem_counted.mpr ⟨by omega, ⟨_, List.mem_of_mem_head? head, rfl⟩, fun slot inside => ?_⟩
      rw [reads, List.takeWhile_cons, if_neg (by simp)] at inside
      cases inside
    · rw [Finset.mem_map]
      rintro ⟨k, got, same⟩
      obtain rfl : k = 0 := Nat.cast_injective same
      exact unread (mem_received.mp got).2
  ext z
  rw [Finset.mem_sdiff]
  by_cases initial : Phantom s.reads
  · rw [if_pos initial, Finset.mem_singleton]
    constructor
    · rintro ⟨counted, lost⟩
      exact (phantom counted lost).1
    · rintro rfl
      exact zero initial
  · rw [if_neg initial]
    refine iff_of_false ?_ (Finset.notMem_empty z)
    rintro ⟨counted, lost⟩
    exact initial (phantom counted lost).2

end

/-- What `consumer_job` returns is `M` minus the number of messages received exactly if the number of
messages received late is one for an initial content that was counted, and zero otherwise. -/
theorem returned_exact_iff {s : State} {n : ℤ} (reached : Reachable (step x) start s)
    (returned : s.consumer.returned = some n) :
    n = x.messageNum - (received x s.reads).card ↔
      (stale x s.reads).card = if Phantom s.reads then 1 else 0 := by
  have inv : Inv x s := reached.invariant (fun _ _ _ inv taken => inv_step inv taken) (inv_start x)
  have counted : s.consumer.counter = (records (-1) (values s.reads)).toFinset.card := by
    rw [inv.counter, List.toFinset_card_of_nodup (records_nodup _ _)]
  have late := congrArg Finset.card (received_sdiff_counted (x := x) s.reads)
  have early := congrArg Finset.card inv.counted_sdiff_received
  have balance : (records (-1) (values s.reads)).toFinset.card +
      ((received x s.reads).map Nat.castEmbedding \ (records (-1) (values s.reads)).toFinset).card =
      ((received x s.reads).map (Nat.castEmbedding (R := ℤ))).card +
      ((records (-1) (values s.reads)).toFinset \ (received x s.reads).map Nat.castEmbedding).card := by
    have left := Finset.card_sdiff_add_card ((received x s.reads).map (Nat.castEmbedding (R := ℤ)))
      (records (-1) (values s.reads)).toFinset
    have right := Finset.card_sdiff_add_card (records (-1) (values s.reads)).toFinset
      ((received x s.reads).map Nat.castEmbedding)
    rw [Finset.union_comm] at right
    omega
  rw [late, early, Finset.card_map, Finset.card_map, ← counted] at balance
  rw [(inv.ended n returned).1]
  split_ifs with phantom
  · rw [if_pos phantom, Finset.card_singleton] at balance
    omega
  · rw [if_neg phantom, Finset.card_empty] at balance
    omega

/-! ## Two exchanges of one message through one slot -/

def oneMessage : Config := ⟨1, 1, Nat.one_pos⟩

/-- The consumer waits for the message. -/
def oneMessageEnd : State :=
  (exec (step oneMessage) start [.write, .read, .write, .read]).get (by decide +kernel)

theorem returned_exact_iff_oneMessage :
    (0 : ℤ) = oneMessage.messageNum - (received oneMessage oneMessageEnd.reads).card ↔
      (stale oneMessage oneMessageEnd.reads).card = if Phantom oneMessageEnd.reads then 1 else 0 :=
  returned_exact_iff oneMessage (n := 0) ⟨[.write, .read, .write, .read], (Option.some_get _).symm⟩
    (by decide +kernel)

/-- The consumer reads the empty slot and then the end marker. -/
def missedMessageEnd : State :=
  (exec (step oneMessage) start [.read, .write, .write, .read]).get (by decide +kernel)

/-- It returns 0 although it has received nothing. -/
theorem not_exact_missedMessage : ¬ ∀ (s : State) (n : ℤ), Reachable (step oneMessage) start s →
    s.consumer.returned = some n → n = oneMessage.messageNum - (received oneMessage s.reads).card := by
  intro exact_
  have reads : missedMessageEnd.reads = [⟨0, false⟩, ⟨-1, true⟩] := by decide +kernel
  have count := exact_ missedMessageEnd 0 ⟨[.read, .write, .write, .read], (Option.some_get _).symm⟩
    (by decide +kernel)
  rw [reads] at count
  exact absurd count (by decide +kernel)

end SystemProgramming.Broadcast
