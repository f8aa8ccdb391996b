import SystemProgramming.Lib.Run
import Mathlib.Data.Int.Notation
import Mathlib.Logic.Function.Basic
import Mathlib.Data.Int.Order.Basic

/-! # The broadcast ring of `hw10`

The producer writes the messages `0` to `message_num - 1` and then `-1` to the slots in turn. A consumer
reads the slots in turn at its own speed. Each access is one atomic load or store; the delays of
the producer allow every interleaving. The counts stay in the range of `int`.
-/

namespace SystemProgramming.Broadcast

open Lib

/-- `message_num`, which is also `data_num`, and `buffer_num`. -/
structure Config where
  messageNum : ℕ
  bufferNum : ℕ
  positive : 0 < bufferNum

variable (x : Config)

/-- `struct Broadcast` without its text. -/
structure Slot where
  dataIn : ℤ
  /-- The producer has written the slot. -/
  written : Bool
  deriving DecidableEq

/-- The local variables of `consumer_job` and its result. -/
structure Consumer where
  i : ℕ
  counter : ℕ
  prev : ℤ
  returned : Option ℤ

structure State where
  slots : ℕ → Slot
  /-- The slots the producer has written so far, the final one included. -/
  sent : ℕ
  consumer : Consumer
  /-- The slots as the consumer read them. -/
  reads : List Slot

/-- After the `memset`. -/
def start : State := ⟨fun _ => ⟨0, false⟩, 0, ⟨0, 0, -1, none⟩, []⟩

/-- `write_msg` with the next message. -/
def producerWrite (s : State) : State :=
  { s with
    slots := Function.update s.slots (s.sent % x.bufferNum)
      ⟨if s.sent < x.messageNum then s.sent else -1, true⟩
    sent := s.sent + 1 }

/-- To the next slot. -/
def Consumer.advance (c : Consumer) : Consumer :=
  { c with i := if c.i + 1 = x.bufferNum then 0 else c.i + 1 }

/-- One turn of the loop of `consumer_job`. -/
def Consumer.read (cur : ℤ) (c : Consumer) : Consumer :=
  if c.prev < cur then { c with counter := c.counter + 1, prev := cur }.advance x
  else if cur = -1 then { c with returned := some (x.messageNum - c.counter) }
  else c.advance x

inductive Event
  | write
  | read

def step (s : State) : Event → Option State
  | .write => if s.sent ≤ x.messageNum then some (producerWrite x s) else none
  | .read =>
    match s.consumer.returned with
    | none =>
      let slot := s.slots s.consumer.i
      some { s with consumer := s.consumer.read x slot.dataIn, reads := s.reads ++ [slot] }
    | some _ => none

end SystemProgramming.Broadcast
