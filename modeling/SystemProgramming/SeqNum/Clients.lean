import SystemProgramming.GetNum.Model
import SystemProgramming.SeqNum.Model

/-! # The service with its clients

The server in its loop and any number of processes that run `fifo_seqnum_client`. A client makes its FIFO,
writes one request, waits for the response and removes the FIFO when it exits; what it prints is written out
then. No call of the server fails, and no FIFO is left over from earlier processes.

The field `owners` is history: no step reads it.
-/

namespace SystemProgramming.SeqNum

open Lib GetNum

/-- The processes that run the client, each with its arguments. -/
structure Site (ι : Type) where
  pid : ι → BitVec 32
  /-- `argv[1]`, if there is one. -/
  argv1 : ι → Option Bytes
  pid_injective : Function.Injective pid

def help : Bytes := ['-', '-', 'h', 'e', 'l', 'p'].map fun c => UInt8.ofNat c.toNat

/-- `req.seqLen`. -/
def seqLen : Option Bytes → Except Bytes ℤ
  | none => .ok 1
  | some arg => getInt (some arg) gnGt0 (some (bytes "seq-len".toList))

/-- Where a client is; `clientFd` is the FIFO it has open. -/
inductive ClientPc where
  | usage
  | mkfifo
  | getInt
  | write (seqLen : BitVec 32)
  | openRead
  /-- Inside `open` or `read`, until the server has written or closed the FIFO. -/
  | read (clientFd : ℕ)
  /-- In `exit`, with what is still to be written out. -/
  | removeFifo (stdout : Option (BitVec 32)) (clientFd : Option ℕ)
  | close (stdout : Option (BitVec 32)) (clientFd : ℕ)
  | ended (stdout : Option (BitVec 32))
deriving DecidableEq, Repr

/-- `pipes` are the responses that have not been read, `hungUp` the FIFOs the server has closed again, `owners`
the clients that have made the FIFOs. -/
structure Net (ι : Type) where
  server : State
  clients : ι → ClientPc
  pipes : ℕ → List (BitVec 32)
  hungUp : ℕ → Bool
  owners : List ι

variable {ι : Type}

def netStart : Net ι where
  server := start
  clients _ := .usage
  pipes _ := []
  hungUp _ := false
  owners := []

inductive NetEvent (ι : Type) where
  | server
  | client (i : ι)
deriving DecidableEq, Repr

/-- What the step of the server does to the FIFOs. -/
def Net.transmit (n : Net ι) (s : State) : Net ι :=
  match n.server.pc with
  | .writeResponse _ fifo =>
    { n with
      server := s
      pipes :=
        if n.server.readers fifo = 0 then n.pipes
        else Function.update n.pipes fifo (n.pipes fifo ++ [n.server.seqNum])
      hungUp := Function.update n.hungUp fifo true }
  | .readRequest | .openClient _ | .waitReader _ _ => { n with server := s }

variable [DecidableEq ι] (x : Site ι)

def Net.goTo (n : Net ι) (i : ι) (pc : ClientPc) : Net ι := { n with clients := Function.update n.clients i pc }

def clientStep (n : Net ι) (i : ι) : Option (Net ι) :=
  match n.clients i with
  | .usage => some (n.goTo i (if x.argv1 i = some help then .ended none else .mkfifo))
  | .mkfifo =>
    some { n.goTo i .getInt with server := n.server.mkfifo (x.pid i), owners := n.owners ++ [i] }
  | .getInt =>
    match seqLen (x.argv1 i) with
    | .error _ => some (n.goTo i (.removeFifo none none))
    | .ok len => some (n.goTo i (.write (BitVec.ofInt 32 len)))
  | .write len =>
    (step n.server (.request ⟨x.pid i, len⟩)).map fun s => { n.goTo i .openRead with server := s }
  | .openRead =>
    match n.server.names (x.pid i) with
    | none => some (n.goTo i (.removeFifo none none))
    | some fifo => some { n.goTo i (.read fifo) with server := n.server.openRead fifo }
  | .read fifo =>
    match n.pipes fifo with
    | resp :: rest =>
      some { n.goTo i (.removeFifo (some resp) (some fifo)) with pipes := Function.update n.pipes fifo rest }
    | [] =>
      -- "Can't read response from server"
      if n.hungUp fifo then some (n.goTo i (.removeFifo none (some fifo))) else none
  | .removeFifo stdout clientFd =>
    (step n.server (.unlink (x.pid i))).map fun s =>
      { n.goTo i (match clientFd with
          | none => .ended stdout
          | some fifo => .close stdout fifo) with server := s }
  | .close stdout fifo =>
    (step n.server (.closeRead fifo)).map fun s => { n.goTo i (.ended stdout) with server := s }
  | .ended _ => none

def netStep (n : Net ι) : NetEvent ι → Option (Net ι)
  | .server => (stepServer n.server false).map n.transmit
  | .client i => clientStep x n i

end SystemProgramming.SeqNum
