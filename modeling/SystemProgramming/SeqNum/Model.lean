import SystemProgramming.Lib.LittleEndian
import SystemProgramming.Lib.Run
import Mathlib.Logic.Function.Basic
import Mathlib.Tactic.Common

/-! # The sequence-number service of `hw8/44-6`

Clients write requests into the server's FIFO. The server reads them, opens the FIFO named after the
client's pid and writes the start of the allocated range into it. The environment is the set of all
processes that may act on these FIFOs: well-behaved clients, `dos_client` and processes that write
anything. An open for writing waits until some process opens the FIFO for reading, a read from the
server's FIFO waits until there is a byte. The server holds a write end of its own FIFO, so it never
sees the end of the stream, and ignores `SIGPIPE`.

The fields `consumed`, `sent`, `accepted` and `served` are history: no step reads them.
-/

namespace SystemProgramming.SeqNum

open Lib

/-- `struct request`. -/
structure Request where
  pid : BitVec 32
  seqLen : BitVec 32
deriving DecidableEq, Repr

/-- `sizeof(struct request)`. -/
def requestSize : ℕ := 8

def pipeBuf : ℕ := 4096

/-- The bytes a client writes. -/
def Request.encode (req : Request) : List UInt8 :=
  Lib.encode 4 req.pid.toNat ++ Lib.encode 4 req.seqLen.toNat

/-- What eight bytes read into `req` mean. -/
def Request.decode (bytes : List UInt8) : Request where
  pid := BitVec.ofNat 32 (unsigned (bytes.take 4))
  seqLen := BitVec.ofNat 32 (unsigned (bytes.drop 4))

/-- How the server got on with a client's FIFO. -/
inductive Outcome where
  | openFailed
  | writeFailed
  | delivered
deriving DecidableEq, Repr

/-- A request the server is through with, and `seqNum` at that moment. -/
structure Served where
  req : Request
  seqNum : BitVec 32
  outcome : Outcome
deriving DecidableEq, Repr

/-- Where the server is. FIFOs are numbered in the order they are made. -/
inductive ServerPc where
  | readRequest
  | openClient (req : Request)
  /-- Inside `open`, with nobody reading. -/
  | waitReader (req : Request) (fifo : ℕ)
  | writeResponse (req : Request) (fifo : ℕ)
deriving DecidableEq, Repr

/-- `names` are the FIFOs of the clients that have a name now, `readers` counts the descriptors open
for reading. -/
structure State where
  pc : ServerPc
  seqNum : BitVec 32
  queue : List UInt8
  names : BitVec 32 → Option ℕ
  readers : ℕ → ℕ
  made : ℕ
  consumed : ℕ
  sent : List (ℕ × Request)
  accepted : List (ℕ × Request)
  served : List Served

/-- The server before its loop, with no client yet. -/
def start : State where
  pc := .readRequest
  seqNum := 0
  queue := []
  names := fun _ => none
  readers := fun _ => 0
  made := 0
  consumed := 0
  sent := []
  accepted := []
  served := []

/-! ## The server -/

/-- `read(serverFd, &req, sizeof(struct request))`: what is there, but no more than asked for. -/
def State.read (s : State) : State :=
  let bytes := s.queue.take requestSize
  let rest := { s with
    queue := s.queue.drop requestSize
    consumed := s.consumed + bytes.length }
  if bytes.length ≠ requestSize then rest
  else { rest with
    pc := .openClient (.decode bytes)
    accepted := s.accepted ++ [(s.consumed, .decode bytes)] }

/-- `continue` after a failed open: the counter stays. -/
def State.giveUp (s : State) (req : Request) : State :=
  { s with pc := .readRequest, served := s.served ++ [⟨req, s.seqNum, .openFailed⟩] }

/-- The end of the loop body: the response is written or not, the counter advances. -/
def State.respond (s : State) (req : Request) (outcome : Outcome) : State :=
  { s with
    pc := .readRequest
    seqNum := s.seqNum + req.seqLen
    served := s.served ++ [⟨req, s.seqNum, outcome⟩] }

/-- The server's next system call; `failure` makes an open or a write fail for a reason of the
kernel's. The `fcntl` calls after the open succeed, the descriptor being open. -/
def stepServer (s : State) (failure : Bool) : Option State :=
  match s.pc with
  | .readRequest => if s.queue = [] then none else some s.read
  | .openClient req =>
    match failure, s.names req.pid with
    | true, _ => some (s.giveUp req)
    | false, none => some (s.giveUp req)
    | false, some fifo =>
      if s.readers fifo = 0 then some { s with pc := .waitReader req fifo }
      else some { s with pc := .writeResponse req fifo }
  | .waitReader _ _ => none
  | .writeResponse req fifo =>
    if failure ∨ s.readers fifo = 0 then some (s.respond req .writeFailed)
    else some (s.respond req .delivered)

/-! ## The other processes -/

inductive Event where
  | server (failure : Bool)
  /-- A well-behaved client writes its request. -/
  | request (req : Request)
  /-- Another process writes something else. -/
  | write (bytes : List UInt8)
  | mkfifo (pid : BitVec 32)
  | unlink (pid : BitVec 32)
  | openRead (pid : BitVec 32)
  | closeRead (fifo : ℕ)
deriving DecidableEq, Repr

def State.mkfifo (s : State) (pid : BitVec 32) : State :=
  match s.names pid with
  | some _ => s
  | none => { s with names := Function.update s.names pid (some s.made), made := s.made + 1 }

/-- The first reader ends the server's wait. -/
def State.openRead (s : State) (fifo : ℕ) : State :=
  { s with
    readers := Function.update s.readers fifo (s.readers fifo + 1)
    pc :=
      match s.pc with
      | .waitReader req waited => if waited = fifo then .writeResponse req waited else s.pc
      | .readRequest | .openClient _ | .writeResponse _ _ => s.pc }

def step (s : State) : Event → Option State
  | .server failure => stepServer s failure
  | .request req => some { s with
      queue := s.queue ++ req.encode
      sent := s.sent ++ [(s.consumed + s.queue.length, req)] }
  | .write bytes =>
    if 1 ≤ bytes.length ∧ bytes.length ≤ pipeBuf then some { s with queue := s.queue ++ bytes }
    else none
  | .mkfifo pid => some (s.mkfifo pid)
  | .unlink pid => some { s with names := Function.update s.names pid none }
  | .openRead pid => (s.names pid).map s.openRead
  | .closeRead fifo =>
    if s.readers fifo = 0 then none
    else some { s with readers := Function.update s.readers fifo (s.readers fifo - 1) }

/-- The calls of `fifo_seqnum_client.c`, whose FIFO is the given one. -/
def client (req : Request) (fifo : ℕ) : List Event :=
  [.mkfifo req.pid, .request req, .openRead req.pid, .closeRead fifo, .unlink req.pid]

/-- The calls of `dos_client.c`. -/
def dosClient (req : Request) : List Event := [.mkfifo req.pid, .request req, .unlink req.pid]

/-! ## What one step can do -/

/-- The steps of the server, each with the condition under which it is taken. -/
inductive ServerMove (s : State) (failure : Bool) : State → Prop
  | discard (pc : s.pc = .readRequest) (nonempty : s.queue ≠ [])
      (short : s.queue.length < requestSize) :
      ServerMove s failure { s with queue := [], consumed := s.consumed + s.queue.length }
  | accept (pc : s.pc = .readRequest) (whole : requestSize ≤ s.queue.length) :
      ServerMove s failure { s with
        queue := s.queue.drop requestSize
        consumed := s.consumed + requestSize
        pc := .openClient (.decode (s.queue.take requestSize))
        accepted := s.accepted ++ [(s.consumed, .decode (s.queue.take requestSize))] }
  | giveUp (req : Request) (pc : s.pc = .openClient req)
      (closed : failure = true ∨ s.names req.pid = none) : ServerMove s failure (s.giveUp req)
  | wait (req : Request) (fifo : ℕ) (pc : s.pc = .openClient req) (allowed : failure = false)
      (named : s.names req.pid = some fifo) (alone : s.readers fifo = 0) :
      ServerMove s failure { s with pc := .waitReader req fifo }
  | opened (req : Request) (fifo : ℕ) (pc : s.pc = .openClient req) (allowed : failure = false)
      (named : s.names req.pid = some fifo) (read : s.readers fifo ≠ 0) :
      ServerMove s failure { s with pc := .writeResponse req fifo }
  | lost (req : Request) (fifo : ℕ) (pc : s.pc = .writeResponse req fifo) :
      ServerMove s failure (s.respond req .writeFailed)
  | delivered (req : Request) (fifo : ℕ) (pc : s.pc = .writeResponse req fifo) :
      ServerMove s failure (s.respond req .delivered)

theorem read_move {s : State} {failure : Bool} (pc : s.pc = .readRequest) (nonempty : s.queue ≠ []) :
    ServerMove s failure s.read := by
  rcases Nat.lt_or_ge s.queue.length requestSize with short | whole
  · have all : s.read = { s with queue := [], consumed := s.consumed + s.queue.length } := by
      simp only [State.read, List.take_of_length_le short.le, List.drop_of_length_le short.le,
        if_pos short.ne]
    rw [all]
    exact .discard pc nonempty short
  · have eight : (s.queue.take requestSize).length = requestSize := by
      rw [List.length_take]
      omega
    have part : s.read = { s with
        queue := s.queue.drop requestSize
        consumed := s.consumed + requestSize
        pc := .openClient (.decode (s.queue.take requestSize))
        accepted := s.accepted ++ [(s.consumed, .decode (s.queue.take requestSize))] } := by
      simp only [State.read, eight, ne_eq, not_true, if_false]
    rw [part]
    exact .accept pc whole

theorem stepServer_move {s t : State} {failure : Bool} (taken : stepServer s failure = some t) :
    ServerMove s failure t := by
  unfold stepServer at taken
  split at taken
  case h_1 pc =>
    split at taken
    · cases taken
    · next nonempty =>
      cases taken
      exact read_move pc nonempty
  case h_2 req pc =>
    split at taken
    case h_1 =>
      cases taken
      exact .giveUp req pc (.inl rfl)
    case h_2 unnamed =>
      cases taken
      exact .giveUp req pc (.inr unnamed)
    case h_3 fifo named =>
      split at taken
      · next alone =>
        cases taken
        exact .wait req fifo pc rfl named alone
      · next read =>
        cases taken
        exact .opened req fifo pc rfl named read
  case h_3 => cases taken
  case h_4 req fifo pc =>
    split at taken
    · cases taken
      exact .lost req fifo pc
    · cases taken
      exact .delivered req fifo pc

/-- What no other process touches. -/
structure Untouched (s t : State) : Prop where
  seqNum : t.seqNum = s.seqNum
  consumed : t.consumed = s.consumed
  accepted : t.accepted = s.accepted
  served : t.served = s.served
  /-- Other processes only end a wait. -/
  pc : t.pc = s.pc ∨ ∃ req fifo, s.pc = .waitReader req fifo ∧ t.pc = .writeResponse req fifo

theorem mkfifo_untouched (s : State) (pid : BitVec 32) : Untouched s (s.mkfifo pid) := by
  unfold State.mkfifo
  split <;> exact ⟨rfl, rfl, rfl, rfl, .inl rfl⟩

theorem openRead_untouched (s : State) (fifo : ℕ) : Untouched s (s.openRead fifo) := by
  refine ⟨rfl, rfl, rfl, rfl, ?_⟩
  cases at_ : s.pc with
  | waitReader req waited =>
    by_cases same : waited = fifo
    · exact .inr ⟨req, waited, rfl, by simp [State.openRead, at_, same]⟩
    · exact .inl (by simp [State.openRead, at_, same])
  | readRequest => exact .inl (by simp [State.openRead, at_])
  | openClient req => exact .inl (by simp [State.openRead, at_])
  | writeResponse req fifo => exact .inl (by simp [State.openRead, at_])

theorem step_untouched {s t : State} {e : Event} (other : ∀ failure, e ≠ .server failure)
    (taken : step s e = some t) : Untouched s t := by
  cases e with
  | server failure => exact absurd rfl (other failure)
  | request req =>
    cases taken
    exact ⟨rfl, rfl, rfl, rfl, .inl rfl⟩
  | write bytes =>
    simp only [step] at taken
    split at taken
    · cases taken
      exact ⟨rfl, rfl, rfl, rfl, .inl rfl⟩
    · cases taken
  | mkfifo pid =>
    cases taken
    exact mkfifo_untouched s pid
  | unlink pid =>
    cases taken
    exact ⟨rfl, rfl, rfl, rfl, .inl rfl⟩
  | openRead pid =>
    obtain ⟨fifo, -, rfl⟩ := Option.map_eq_some_iff.mp taken
    exact openRead_untouched s fifo
  | closeRead fifo =>
    simp only [step] at taken
    split at taken
    · cases taken
    · cases taken
      exact ⟨rfl, rfl, rfl, rfl, .inl rfl⟩

end SystemProgramming.SeqNum
