import SystemProgramming.Lib.Run
import SystemProgramming.Lib.Scanf
import Mathlib.Data.Int.Notation
import Mathlib.Logic.Function.Basic

/-! # The slots the processes of `hw10` use

The counts of the command line come from `atoi` and are not checked. The producer finds its slot by a
remainder, the consumers by counting up to `buffer_num`. An access outside the mapped region and a
division by zero end the run.
-/

namespace SystemProgramming.Broadcast.Bounds

open Lib

structure Tuple where
  dataNum : BitVec 32
  sleepTime : BitVec 32
  consumerNum : BitVec 32
  bufferNum : BitVec 32

/-- It exits with any other number of arguments. -/
def getArgv : List (List UInt8) → Option Tuple
  | [_, m, r, n, b] => some ⟨atoi m, atoi r, atoi n, atoi b⟩
  | _ => none

/-- `sizeof(struct Broadcast)`. -/
def sizeofBroadcast : ℕ := 260

variable (t : Tuple)

/-- `REAL_BROADCAST_SIZE`. -/
def realBroadcastSize : ℕ := (t.bufferNum + 1).toNat * sizeofBroadcast % 2 ^ 32

/-- `message_num`, which is an `int`. -/
def messageNum : ℤ := t.dataNum.toInt

/-- The local variables of `consumer_job`. -/
structure Consumer where
  i : ℕ
  prev : ℤ
  left : Bool

structure State where
  /-- `data_in` of the slots. -/
  slots : ℕ → ℤ
  /-- The slots the producer has written so far. -/
  sent : ℕ
  consumers : ℕ → Consumer

/-- After the `memset`. -/
def start : State := ⟨fun _ => 0, 0, fun _ => ⟨0, -1, false⟩⟩

inductive Event
  /-- `write_msg`. -/
  | write
  /-- One turn of the loop of a consumer. -/
  | read (n : ℕ)

/-- The process has not ended. The consumers are as many as `consumer_num` as an `unsigned int`. -/
def Enabled (s : State) : Event → Prop
  | .write => s.sent ≤ (messageNum t).toNat
  | .read n => n < t.consumerNum.toNat ∧ (s.consumers n).left = false

instance (s : State) : (e : Event) → Decidable (Enabled t s e)
  | .write => inferInstanceAs (Decidable (_ ≤ _))
  | .read _ => inferInstanceAs (Decidable (_ ∧ _))

/-- The slot the process uses, if there is no division by zero. -/
def index (s : State) : Event → Option ℕ
  | .write =>
    -- the operand becomes an `unsigned int`
    if t.bufferNum = 0 then none
    else some ((if s.sent < messageNum t then s.sent else t.dataNum.toNat) % t.bufferNum.toNat)
  | .read n => some (s.consumers n).i

/-- The whole slot is mapped. -/
def Mapped (i : ℕ) : Prop := (i + 1) * sizeofBroadcast ≤ realBroadcastSize t

instance (i : ℕ) : Decidable (Mapped t i) := inferInstanceAs (Decidable (_ ≤ _))

/-- To the next slot. -/
def Consumer.advance (c : Consumer) : Consumer :=
  let i := (c.i + 1) % 2 ^ 32
  { c with i := if i = t.bufferNum.toNat then 0 else i }

def Consumer.read (cur : ℤ) (c : Consumer) : Consumer :=
  if c.prev < cur then { c with prev := cur }.advance t
  else if cur = -1 then { c with left := true }
  else c.advance t

/-- What the process does with slot `i`. -/
def access (s : State) (i : ℕ) : Event → State
  | .write =>
    { s with
      slots := Function.update s.slots i (if s.sent < messageNum t then s.sent else -1)
      sent := s.sent + 1 }
  | .read n =>
    { s with consumers := Function.update s.consumers n ((s.consumers n).read t (s.slots i)) }

def step (s : State) (e : Event) : Option State :=
  if Enabled t s e then (index t s e).bind fun i => if Mapped t i then some (access t s i e) else none
  else none

/-- There is no division by zero and no slot outside the region in any run. -/
def Safe (argv : List (List UInt8)) : Prop :=
  ∀ t ∈ getArgv argv, ∀ s, Reachable (step t) start s → ∀ e, Enabled t s e → ∃ i ∈ index t s e, Mapped t i

/-- The last slot the producer comes to. -/
def lastSlot : ℕ :=
  if messageNum t < 0 then t.dataNum.toNat % t.bufferNum.toNat
  else min t.dataNum.toNat (t.bufferNum.toNat - 1)

/-- There are slots and the region has not been cut below those that are used. -/
def Fits : Prop :=
  t.bufferNum ≠ 0 ∧ if t.consumerNum = 0 then Mapped t (lastSlot t) else t.bufferNum.toNat ≤ 16519103

section

variable {t} {s next : State}

theorem bufferNum_pos (some_ : t.bufferNum ≠ 0) : 0 < t.bufferNum.toNat := by
  rw [Nat.pos_iff_ne_zero]
  intro zero
  exact some_ (BitVec.eq_of_toNat_eq zero)

/-- The region holds the slots of all consumers exactly if its size is not cut. -/
theorem mapped_last_iff (some_ : t.bufferNum ≠ 0) :
    Mapped t (t.bufferNum.toNat - 1) ↔ t.bufferNum.toNat ≤ 16519103 := by
  have positive := bufferNum_pos some_
  have bound := t.bufferNum.isLt
  have next : (t.bufferNum + 1).toNat = (t.bufferNum.toNat + 1) % 2 ^ 32 := BitVec.toNat_add _ _
  rw [Mapped, realBroadcastSize, next, sizeofBroadcast]
  omega

theorem Mapped.mono {i j : ℕ} (mapped : Mapped t j) (below : i ≤ j) : Mapped t i := by
  apply le_trans _ mapped
  exact Nat.mul_le_mul_right _ (Nat.succ_le_succ below)

theorem step_cases {e : Event} (taken : step t s e = some next) :
    Enabled t s e ∧ ∃ i ∈ index t s e, Mapped t i ∧ next = access t s i e := by
  rw [step] at taken
  split_ifs at taken with enabled
  obtain ⟨i, used, taken⟩ := Option.bind_eq_some_iff.mp taken
  split_ifs at taken with mapped
  exact ⟨enabled, i, used, mapped, (Option.some.inj taken).symm⟩

theorem step_of_mapped {e : Event} {i : ℕ} (enabled : Enabled t s e) (used : index t s e = some i)
    (mapped : Mapped t i) : step t s e = some (access t s i e) := by
  rw [step, if_pos enabled, used, Option.bind_some, if_pos mapped]

theorem advance_lt (some_ : t.bufferNum ≠ 0) {c : Consumer} (below : c.i < t.bufferNum.toNat) :
    (c.advance t).i < t.bufferNum.toNat := by
  have positive := bufferNum_pos some_
  have bound := t.bufferNum.isLt
  rw [Consumer.advance]
  dsimp only
  split_ifs with wraps
  · exact positive
  · omega

theorem read_lt (some_ : t.bufferNum ≠ 0) {c : Consumer} (cur : ℤ) (below : c.i < t.bufferNum.toNat) :
    (c.read t cur).i < t.bufferNum.toNat := by
  rw [Consumer.read]
  split_ifs
  · exact advance_lt some_ below
  · exact below
  · exact advance_lt some_ below

/-- The consumers stay on the ring. -/
theorem consumers_lt (some_ : t.bufferNum ≠ 0) (reached : Reachable (step t) start s) (n : ℕ) :
    (s.consumers n).i < t.bufferNum.toNat := by
  have kept := reached.invariant (I := fun s => ∀ n, (s.consumers n).i < t.bufferNum.toNat)
    (fun s e next below taken => by
      obtain ⟨-, i, -, -, rfl⟩ := step_cases taken
      cases e with
      | write => exact below
      | read m =>
        intro n
        simp only [access]
        by_cases same : n = m
        · rw [same, Function.update_self]
          exact read_lt some_ _ (below m)
        · rw [Function.update_of_ne same]
          exact below n)
  exact kept (fun _ => bufferNum_pos some_) n

theorem toNat_of_nonneg (nonneg : ¬ messageNum t < 0) : (t.dataNum.toNat : ℤ) = messageNum t := by
  rw [messageNum, BitVec.toInt_eq_toNat_cond] at nonneg ⊢
  split_ifs at nonneg ⊢
  · rfl
  · have := t.dataNum.isLt
    omega

/-- The producer stays below its last slot. -/
theorem index_write_le (some_ : t.bufferNum ≠ 0) (s : State) :
    ∃ i ∈ index t s .write, i ≤ lastSlot t ∧ i < t.bufferNum.toNat := by
  have positive := bufferNum_pos some_
  rw [index, if_neg some_]
  refine ⟨_, rfl, ?_, Nat.mod_lt _ positive⟩
  rw [lastSlot]
  split_ifs with message negative negative
  · omega
  · have small := Nat.mod_le s.sent t.bufferNum.toNat
    have below := Nat.mod_lt s.sent positive
    have exact_ := toNat_of_nonneg negative
    omega
  · exact le_refl _
  · have small := Nat.mod_le t.dataNum.toNat t.bufferNum.toNat
    have below := Nat.mod_lt t.dataNum.toNat positive
    omega

/-- The initial content of a slot moves a consumer on. -/
theorem read_zero (c : Consumer) :
    (c.read t 0).i = (c.advance t).i ∧ (c.read t 0).left = c.left := by
  rw [Consumer.read, if_neg (show ¬ (0 : ℤ) = -1 by decide)]
  split_ifs
  · exact ⟨rfl, rfl⟩
  · exact ⟨rfl, rfl⟩

/-- While every access is inside the region, the producer gets as far as it wants. -/
theorem exists_sent (safe : ∀ s, Reachable (step t) start s → ∀ e, Enabled t s e →
      ∃ i ∈ index t s e, Mapped t i) {k : ℕ} (within : k ≤ (messageNum t).toNat) :
    ∃ s, Reachable (step t) start s ∧ s.sent = k := by
  induction k with
  | zero => exact ⟨start, .refl _, rfl⟩
  | succ k ih =>
    obtain ⟨s, reached, sent⟩ := ih (by omega)
    have enabled : Enabled t s .write := by
      rw [Enabled]
      omega
    obtain ⟨i, used, mapped⟩ := safe s reached .write enabled
    exact ⟨_, reached.trans (.of_step (step_of_mapped enabled used mapped)), congrArg (· + 1) sent⟩

/-- Likewise a consumer that runs before the producer. -/
theorem exists_consumer (some_ : t.consumerNum ≠ 0) (safe : ∀ s, Reachable (step t) start s → ∀ e,
      Enabled t s e → ∃ i ∈ index t s e, Mapped t i) {k : ℕ} (within : k < t.bufferNum.toNat) :
    ∃ s, Reachable (step t) start s ∧ (s.consumers 0).i = k ∧ (s.consumers 0).left = false ∧
      ∀ j, s.slots j = 0 := by
  induction k with
  | zero => exact ⟨start, .refl _, rfl, rfl, fun _ => rfl⟩
  | succ k ih =>
    obtain ⟨s, reached, here, left, zero⟩ := ih (by omega)
    have enabled : Enabled t s (.read 0) := by
      refine ⟨Nat.pos_iff_ne_zero.mpr fun none => some_ (BitVec.eq_of_toNat_eq none), left⟩
    obtain ⟨i, used, mapped⟩ := safe s reached (.read 0) enabled
    have bound := t.bufferNum.isLt
    obtain ⟨moves, stays⟩ := read_zero (t := t) (s.consumers 0)
    refine ⟨_, reached.trans (.of_step (step_of_mapped enabled used mapped)), ?_, ?_, zero⟩
    · simp only [access, Function.update_self, zero]
      rw [moves, Consumer.advance]
      dsimp only
      rw [here, Nat.mod_eq_of_lt (by omega), if_neg (by omega)]
    · simp only [access, Function.update_self, zero]
      rw [stays, left]

end

theorem mapped_of_fits (fits : Fits t) {s : State} (reached : Reachable (step t) start s) {e : Event}
    (enabled : Enabled t s e) : ∃ i ∈ index t s e, Mapped t i := by
  obtain ⟨some_, fits⟩ := fits
  cases e with
  | write =>
    obtain ⟨i, used, last, below⟩ := index_write_le some_ s
    refine ⟨i, used, ?_⟩
    split_ifs at fits with none
    · exact fits.mono last
    · exact ((mapped_last_iff some_).mpr fits).mono (by omega)
  | read n =>
    refine ⟨_, rfl, ?_⟩
    split_ifs at fits with none
    · have count := enabled.1
      rw [none] at count
      exact absurd count (Nat.not_lt_zero n)
    · have below := consumers_lt some_ reached n
      exact ((mapped_last_iff some_).mpr fits).mono (by omega)

theorem fits_of_mapped (safe : ∀ s, Reachable (step t) start s → ∀ e, Enabled t s e →
    ∃ i ∈ index t s e, Mapped t i) : Fits t := by
  have some_ : t.bufferNum ≠ 0 := by
    intro zero
    obtain ⟨i, used, -⟩ := safe start (.refl _) .write (Nat.zero_le _)
    rw [index, if_pos zero] at used
    cases used
  have positive := bufferNum_pos some_
  refine ⟨some_, ?_⟩
  split_ifs with none
  · rw [lastSlot]
    split_ifs with negative
    · obtain ⟨i, used, mapped⟩ := safe start (.refl _) .write (Nat.zero_le _)
      rw [index, if_neg some_, if_neg (by rw [start]; omega)] at used
      rwa [Option.mem_some_iff.mp used]
    · have exact_ := toNat_of_nonneg negative
      obtain ⟨s, reached, sent⟩ := exists_sent (k := min t.dataNum.toNat (t.bufferNum.toNat - 1))
        safe (by omega)
      obtain ⟨i, used, mapped⟩ := safe s reached .write (by rw [Enabled]; omega)
      rw [index, if_neg some_, sent, Option.mem_some_iff] at used
      suffices same : i = min t.dataNum.toNat (t.bufferNum.toNat - 1) from same ▸ mapped
      rw [← used]
      split_ifs with message
      · exact Nat.mod_eq_of_lt (by omega)
      · rw [Nat.mod_eq_of_lt (by omega)]
        omega
  · obtain ⟨s, reached, here, left, -⟩ := exists_consumer (k := t.bufferNum.toNat - 1) none safe (by omega)
    obtain ⟨i, used, mapped⟩ := safe s reached (.read 0)
      ⟨Nat.pos_iff_ne_zero.mpr fun zero => none (BitVec.eq_of_toNat_eq zero), left⟩
    rw [← mapped_last_iff some_, ← here]
    rwa [Option.mem_some_iff.mp used]

/-- Nothing goes wrong in any run exactly if there is a slot and the size of the region is not cut; without
consumers only the slots the producer comes to have to be in the region. -/
theorem safe_iff_fits (argv : List (List UInt8)) : Safe argv ↔ ∀ t ∈ getArgv argv, Fits t := by
  constructor
  · intro safe t accepted
    exact fits_of_mapped t (safe t accepted)
  · intro fits t accepted s reached e enabled
    exact mapped_of_fits t (fits t accepted) reached enabled

/-- `main.elf 1 1 1 0`. -/
theorem not_safe_no_slots : ¬ Safe [[109], [49], [49], [49], [48]] := by
  intro safe
  obtain ⟨i, used, -⟩ := safe _ rfl start (.refl _) .write (Nat.zero_le _)
  cases used

end SystemProgramming.Broadcast.Bounds
