import SystemProgramming.Lib.Run
import Mathlib.Logic.Function.Basic
import Mathlib.Tactic.Common

/-! # The message-queue file server of `hw9/52-3`

Each client opens the reply queue, sends a request to the server's queue and copies the messages it
receives to its standard output. The server forks a child for each request, which opens the reply
queue by the name in the request and sends the file block by block. A queue is unlinked by name; who
has it open keeps it. A send waits while the queue is full, a receive while it is empty. Each system
call is one step of the client, the server or the child that makes it, so a list of events is an
interleaving. Forks succeed, the server's queue exists and no signal but `SIGCHLD` is delivered.

`sender`, `answers` and `received` are history: no step reads them.
-/

namespace SystemProgramming.QueueServer

open Lib

/-- `MSG_SIZE`. -/
def msgSize : ℕ := 8192 - 4

/-- `mq_maxmsg` of a queue opened with null attributes. -/
def maxMsg : ℕ := 10

/-- `FOO_PATH`, the path every client uses. -/
def fooPath : List Char := ['/', 'f', 'o', 'o', '_']

/-- The field `data` of `struct responseMsg`. -/
structure Data where
  bytes : List UInt8
  size : bytes.length = msgSize

def Data.zero : Data := ⟨List.replicate msgSize 0, List.length_replicate⟩

/-- The buffer after bytes are stored at its start. -/
def Data.fill (data : Data) (block : List UInt8) (fits : block.length ≤ msgSize) : Data where
  bytes := block ++ data.bytes.drop block.length
  size := by
    rw [List.length_append, List.length_drop, data.size]
    omega

/-- The bytes before the first null byte. -/
def Data.text (data : Data) : List UInt8 := data.bytes.takeWhile fun b => b ≠ 0

/-- A command-line argument that passes the client's check. -/
structure Pathname where
  bytes : List UInt8
  short : bytes.length ≤ 4095

/-- `"Couldn't open "`. -/
def couldntOpen : List UInt8 := [67, 111, 117, 108, 100, 110, 39, 116, 32, 111, 112, 101, 110, 32]

inductive Mtype where
  | failure
  | data
  | finished
deriving DecidableEq, Repr

/-- `struct responseMsg`. -/
structure ResponseMsg where
  mtype : Mtype
  data : Data

/-- A response on its way, and the client whose request it answers. -/
structure Response where
  msg : ResponseMsg
  answers : ℕ

/-- `struct requestMsg`, and the client that sent it. -/
structure RequestMsg where
  clientPath : List Char
  pathname : Pathname
  sender : ℕ

inductive ClientPc where
  | create
  | reopen
  | request
  | write
  | receive
  | unlink
  | exited
  | failed
deriving DecidableEq, Repr

/-- `clientId` is empty where `mq_open` returned -1. -/
structure Client where
  pc : ClientPc
  pathname : Pathname
  clientId : Option ℕ
  resp : ResponseMsg
  stdout : List UInt8

inductive ChildPc where
  | openQueue
  | openFile
  | read
  | send
  | sendEnd
  | sendFailure
  | exited
deriving DecidableEq, Repr

/-- `fd` is the part of the file that has not been read. -/
structure Child where
  pc : ChildPc
  req : RequestMsg
  clientId : Option ℕ
  fd : List UInt8
  resp : ResponseMsg

/-- Queues are numbered in the order they are made; `names` are the linked ones. -/
structure State where
  clients : List Client
  children : List Child
  requests : List RequestMsg
  queues : List (List Response)
  names : List Char → Option ℕ
  files : List UInt8 → Option (List UInt8)
  received : List (ℕ × ℕ)

/-- A client before it opens its queue. -/
def newClient (pathname : Pathname) : Client where
  pc := .create
  pathname := pathname
  clientId := none
  resp := ⟨.data, .zero⟩
  stdout := []

/-- Any clients, any files, and no reply queue yet. -/
def start (files : List UInt8 → Option (List UInt8)) (pathnames : List Pathname) : State where
  clients := pathnames.map newClient
  children := []
  requests := []
  queues := []
  names := fun _ => none
  files := files
  received := []

def State.setClient (s : State) (i : ℕ) (c : Client) : State := { s with clients := s.clients.set i c }

def State.setChild (s : State) (j : ℕ) (ch : Child) : State := { s with children := s.children.set j ch }

@[simp] theorem State.setClient_files (s : State) (i : ℕ) (c : Client) :
    (s.setClient i c).files = s.files := rfl

@[simp] theorem State.setChild_files (s : State) (j : ℕ) (ch : Child) :
    (s.setChild j ch).files = s.files := rfl

/-! ## The client -/

/-- What the client does with a message it has received. -/
def Client.take (c : Client) (msg : ResponseMsg) : Client :=
  match msg.mtype with
  | .failure => { c with pc := .failed, resp := msg, stdout := c.stdout ++ (msg.data.text ++ [10]) }
  | .data => { c with pc := .write, resp := msg }
  | .finished => { c with pc := .unlink, resp := msg }

/-- The next system call of `pmsg_file_client.c`. -/
def stepClient (s : State) (i : ℕ) (c : Client) : Option State :=
  match c.pc with
  | .create =>
    match s.names fooPath with
    | some _ => some (s.setClient i { c with pc := .reopen })
    | none => some ({ s with
        queues := s.queues ++ [[]]
        names := Function.update s.names fooPath (some s.queues.length) }.setClient i
          { c with pc := .request, clientId := some s.queues.length })
  | .reopen => some (s.setClient i { c with pc := .request, clientId := s.names fooPath })
  | .request =>
    if s.requests.length < maxMsg then
      some ({ s with requests := s.requests ++ [RequestMsg.mk fooPath c.pathname i] }.setClient i
        { c with pc := .write })
    else none
  -- the block is written before the first message is received
  | .write => some (s.setClient i { c with pc := .receive, stdout := c.stdout ++ c.resp.data.bytes })
  | .receive =>
    match c.clientId with
    | none => some (s.setClient i { c with pc := .write })
    | some q =>
      match s.queues[q]? with
      | some (r :: rest) => some ({ s with
          queues := s.queues.set q rest
          received := s.received ++ [(i, r.answers)] }.setClient i (c.take r.msg))
      | some [] => none
      | none => none
  | .unlink => some ({ s with names := Function.update s.names fooPath none }.setClient i
      { c with pc := .exited })
  | .exited => none
  | .failed => none

/-! ## The server -/

/-- `mq_receive` and `fork`. -/
def stepServer (s : State) : Option State :=
  match s.requests with
  | [] => none
  | req :: rest => some { s with
      requests := rest
      children := s.children ++ [⟨.openQueue, req, none, [], ⟨.data, .zero⟩⟩] }

/-- How `mq_send` ends: it waits, it returns -1, or the message is in the queue. -/
inductive MqSend where
  | waits
  | fails
  | sent (queues : List (List Response))

def mqSend (queues : List (List Response)) (clientId : Option ℕ) (r : Response) : MqSend :=
  match clientId with
  | none => .fails
  | some q =>
    match queues[q]? with
    | none => .fails
    | some mail => if mail.length < maxMsg then .sent (queues.set q (mail ++ [r])) else .waits

/-- `"Couldn't open "` and the path in a zeroed buffer. -/
def failureData (pathname : Pathname) : Data :=
  Data.zero.fill (couldntOpen ++ pathname.bytes) (by
    have short := pathname.short
    simp only [couldntOpen, msgSize, List.length_append, List.length_cons, List.length_nil]
    omega)

/-- The message a child has prepared is sent; then it goes on, or gives up if the send failed. -/
def Child.send (s : State) (j : ℕ) (ch : Child) (next giveUp : Child) : Option State :=
  match mqSend s.queues ch.clientId ⟨ch.resp, ch.req.sender⟩ with
  | .waits => none
  | .fails => some (s.setChild j giveUp)
  | .sent queues => some ({ s with queues := queues }.setChild j next)

/-- The next system call of `serveRequest`. -/
def stepChild (s : State) (j : ℕ) (ch : Child) : Option State :=
  let atEnd : Child := { ch with pc := .sendEnd, resp := { ch.resp with mtype := .finished } }
  match ch.pc with
  | .openQueue => some (s.setChild j { ch with pc := .openFile, clientId := s.names ch.req.clientPath })
  | .openFile =>
    match s.files ch.req.pathname.bytes with
    | none =>
      some (s.setChild j { ch with pc := .sendFailure, resp := ⟨.failure, failureData ch.req.pathname⟩ })
    | some content => some (s.setChild j { ch with pc := .read, fd := content, resp := ⟨.data, .zero⟩ })
  | .read =>
    if ch.fd = [] then some (s.setChild j atEnd)
    else some (s.setChild j { ch with
      pc := .send
      fd := ch.fd.drop msgSize
      resp := { ch.resp with
        data := ch.resp.data.fill (ch.fd.take msgSize) (List.length_take_le msgSize ch.fd) } })
  | .send => ch.send s j { ch with pc := .read } atEnd
  | .sendEnd => ch.send s j { ch with pc := .exited } { ch with pc := .exited }
  | .sendFailure => ch.send s j { ch with pc := .exited } { ch with pc := .exited }
  | .exited => none

inductive Event where
  | client (i : ℕ)
  | server
  | child (j : ℕ)
deriving DecidableEq, Repr

def step (s : State) : Event → Option State
  | .client i => (s.clients[i]?).bind (stepClient s i)
  | .server => stepServer s
  | .child j => (s.children[j]?).bind (stepChild s j)

end SystemProgramming.QueueServer
