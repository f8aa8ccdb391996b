import SystemProgramming.Lib.Confluence
import SystemProgramming.Lib.CString
import SystemProgramming.Lib.LittleEndian
import SystemProgramming.Lib.Memory

/-! # The queue file server and client of `hw8/46-2`

One exchange: a client, and the server from its receive loop to the child it forks for the request.
Both structures begin with a 4-byte integer, but the kernel takes 8 bytes of them as the type of a
message and copies the text from and to offset 8. The bytes behind a structure are whatever the
stack holds. The server's parent has no further part in the exchange after the fork, and `msgsnd`
waits for space in a queue, which the other side always makes.
-/

namespace SystemProgramming.FileServer

open Lib

/-- `MSG_SIZE`. -/
def msgSize : ℕ := 8192

/-- `PATH_MAX`. -/
def pathMax : ℕ := 4096

/-- `REQ_MSG_SIZE`. -/
def reqMsgSize : ℕ := 4 + pathMax

def mtFailure : ℤ := -1

def mtData : ℤ := 1

def mtEnd : ℤ := 0

/-- An `int` in memory. -/
def int (value : ℤ) : Bytes := encode 4 (value % 2 ^ 32).toNat

/-- The `int` at the start of a structure: `clientId` or `mtype`. -/
def readInt (memory : Memory) : ℤ := signed (memory.load 0 4)

/-- The offset of `pathname` and `data`. -/
def dataOffset : ℕ := 4

/-- A message in a queue: the 8 bytes of its type and its text. -/
structure Message where
  mtype : Bytes
  text : Bytes

/-- The kernel's `msgsnd`; `none` is EINVAL. -/
def msgsnd (memory : Memory) (msgsz : ℕ) : Option Message :=
  if signed (memory.load 0 8) < 1 then none
  else some ⟨memory.load 0 8, memory.load 8 msgsz⟩

/-- The kernel's `msgrcv` of a message that is not too long. -/
def msgrcv (memory : Memory) (message : Message) : Memory :=
  (memory.store 0 message.mtype).store 8 message.text

/-- A NUL-terminated string of at most `PATH_MAX` bytes. -/
def cString (memory : Memory) (offset : ℕ) : Bytes :=
  (memory.load offset pathMax).takeWhile (· != 0)

/-- One exchange: the client's argument, the identifier of its queue, what `open` and `read` find
under a name, and what the stacks hold where the structures will be. -/
structure Exchange where
  pathname : Bytes
  clientId : ℕ
  files : Bytes → Option Bytes
  clientStack : Memory
  serverStack : Memory
  /-- An argument of `main`, which ends at its first NUL. -/
  isString : 0 ∉ pathname
  /-- The client's own checks. -/
  notHelp : pathname ≠ bytes ['-', '-', 'h', 'e', 'l', 'p']
  notLong : pathname.length ≤ 4095
  /-- Identifiers are nonnegative `int`s. -/
  clientId_lt : clientId < 2 ^ 31

variable (x : Exchange)

/-! ## The client -/

inductive ClientPc
  | request
  | loop
  /-- `errExit("msgsnd")`. -/
  | refused
  /-- `exit(EXIT_FAILURE)` on the failure message. -/
  | failed
  /-- `exit(EXIT_SUCCESS)` behind the loop. -/
  | succeeded
  deriving DecidableEq

structure Client where
  pc : ClientPc
  resp : Memory
  totBytes : ℤ
  numMsgs : ℤ

def requestMsg : Memory :=
  ((x.clientStack.store 0 (int x.clientId)).store dataOffset (List.replicate pathMax 0)).store
    dataOffset (x.pathname ++ [0])

def clientStart : Client where
  pc := .request
  resp := (x.clientStack.store 0 (int mtData)).store dataOffset (List.replicate msgSize 0)
  totBytes := 0
  numMsgs := -1

/-- The body of the receive loop behind `msgrcv`. -/
def receive (c : Client) (resp : Memory) (msgLen : ℤ) : Client :=
  if readInt resp = mtFailure then { c with pc := .failed, resp := resp }
  else
    { c with
      resp := resp
      totBytes := c.totBytes + msgLen * readInt resp
      numMsgs := c.numMsgs + 1 }

def clientAct (c : Client) (inbox : List Message) :
    Option (Client × List Message × List Message) :=
  match c.pc with
  | .request =>
    match msgsnd (requestMsg x) (x.pathname.length + 1) with
    | none => some ({ c with pc := .refused }, inbox, [])
    | some message => some ({ c with pc := .loop }, inbox, [message])
  | .loop =>
    if readInt c.resp = 0 then some ({ c with pc := .succeeded }, inbox, [])
    else
      match inbox with
      | [] => none
      | message :: rest =>
        -- E2BIG leaves the message in the queue and the structure as it was
        if msgSize < message.text.length then some (receive c c.resp (-1), message :: rest, [])
        else some (receive c (msgrcv c.resp message) message.text.length, rest, [])
  | .refused => none
  | .failed => none
  | .succeeded => none

/-! ## The server -/

inductive ServerPc
  | listen
  | serveRequest
  /-- At the top of the transmit loop, with the rest of the file. -/
  | transmit (rest : Bytes)
  /-- Behind the loop. -/
  | finish
  | exited
  deriving DecidableEq

structure Server where
  pc : ServerPc
  req : Memory
  resp : Memory
  /-- How many calls of `msgsnd` have failed. -/
  rejected : ℕ

def serverStart : Server where
  pc := .listen
  req := x.serverStack
  resp := x.serverStack
  rejected := 0

/-- `msgsnd(req->clientId, ...)`: there is one client queue. -/
def respond (s : Server) (resp : Memory) (msgsz : ℕ) : Option Message :=
  if readInt s.req = x.clientId then msgsnd resp msgsz else none

/-- The failure message with its text, `"Couldn't open "` and the path. -/
def failureText (pathname : Bytes) : Bytes :=
  bytes ['C', 'o', 'u', 'l', 'd', 'n'] ++ [39] ++ bytes ['t', ' ', 'o', 'p', 'e', 'n', ' '] ++
    pathname

def failureMsg (stack : Memory) (pathname : Bytes) : Memory :=
  ((stack.store 0 (int mtFailure)).store dataOffset (List.replicate msgSize 0)).store dataOffset
    (failureText pathname ++ [0])

def serverAct (s : Server) (inbox : List Message) :
    Option (Server × List Message × List Message) :=
  match s.pc with
  | .listen =>
    match inbox with
    | [] => none
    | message :: rest =>
      if reqMsgSize < message.text.length then some ({ s with pc := .exited }, message :: rest, [])
      else some ({ s with pc := .serveRequest, req := msgrcv s.req message }, rest, [])
  | .serveRequest =>
    let pathname := cString s.req dataOffset
    match x.files pathname with
    | none =>
      match respond x s (failureMsg x.serverStack pathname) ((failureText pathname).length + 1) with
      | none => some ({ s with pc := .exited, rejected := s.rejected + 1 }, inbox, [])
      | some message => some ({ s with pc := .exited }, inbox, [message])
    | some content =>
      some ({ s with
        pc := .transmit content
        resp := (x.serverStack.store 0 (int mtData)).store dataOffset (List.replicate msgSize 0) },
        inbox, [])
  | .transmit rest =>
    let numRead := (rest.take msgSize).length
    if numRead = 0 then some ({ s with pc := .finish }, inbox, [])
    else
      let resp := s.resp.store dataOffset (rest.take msgSize)
      match respond x s resp numRead with
      | none => some ({ s with pc := .finish, resp := resp, rejected := s.rejected + 1 }, inbox, [])
      | some message =>
        some ({ s with pc := .transmit (rest.drop msgSize), resp := resp }, inbox, [message])
  | .finish =>
    let resp := s.resp.store 0 (int mtEnd)
    match respond x s resp 0 with
    | none => some ({ s with pc := .exited, resp := resp, rejected := s.rejected + 1 }, inbox, [])
    | some message => some ({ s with pc := .exited, resp := resp }, inbox, [message])
  | .exited => none

/-! ## The exchange -/

theorem clientAct_stable {c d : Client} {inbox rest sent : List Message} (later : List Message)
    (act : clientAct x c inbox = some (d, rest, sent)) :
    clientAct x c (inbox ++ later) = some (d, rest ++ later, sent) := by
  obtain ⟨pc, resp, totBytes, numMsgs⟩ := c
  cases pc with
  | request =>
    simp only [clientAct] at act ⊢
    cases accepted : msgsnd (requestMsg x) (x.pathname.length + 1) with
    | none => rw [accepted] at act; cases act; rfl
    | some message => rw [accepted] at act; cases act; rfl
  | loop =>
    simp only [clientAct] at act ⊢
    by_cases ended : readInt resp = 0
    · rw [if_pos ended] at act ⊢
      cases act; rfl
    · rw [if_neg ended] at act ⊢
      cases inbox with
      | nil => nomatch act
      | cons message rest =>
        simp only [List.cons_append] at act ⊢
        split_ifs at act ⊢ with long
        · obtain ⟨client, same⟩ := Prod.mk.inj (Option.some.inj act)
          obtain ⟨rfl, rfl⟩ := Prod.mk.inj same
          rw [client, List.cons_append]
        · obtain ⟨client, same⟩ := Prod.mk.inj (Option.some.inj act)
          obtain ⟨rfl, rfl⟩ := Prod.mk.inj same
          rw [client]
  | refused => nomatch act
  | failed => nomatch act
  | succeeded => nomatch act

theorem serverAct_stable {s t : Server} {inbox rest sent : List Message} (later : List Message)
    (act : serverAct x s inbox = some (t, rest, sent)) :
    serverAct x s (inbox ++ later) = some (t, rest ++ later, sent) := by
  obtain ⟨pc, req, resp, rejected⟩ := s
  cases pc with
  | listen =>
    cases inbox with
    | nil => nomatch act
    | cons message rest =>
      simp only [serverAct, List.cons_append] at act ⊢
      split_ifs at act ⊢ with long
      · cases act; rfl
      · cases act; rfl
  | serveRequest =>
    simp only [serverAct] at act ⊢
    split at act
    · split at act
      · cases act; rfl
      · cases act; rfl
    · cases act; rfl
  | transmit content =>
    simp only [serverAct] at act ⊢
    split_ifs at act ⊢
    · cases act; rfl
    · split at act
      · cases act; rfl
      · cases act; rfl
  | finish =>
    simp only [serverAct] at act ⊢
    split at act
    · cases act; rfl
    · cases act; rfl
  | exited => nomatch act

def client : Party Client Message Message := ⟨clientAct x, clientAct_stable x⟩

def server : Party Server Message Message := ⟨serverAct x, serverAct_stable x⟩

abbrev State := Duplex Client Server Message Message

/-- The client is on the left, the server on the right. -/
def step : State → Side → Option State := duplexStep (client x) (server x)

def start : State := ⟨clientStart x, serverStart x, [], []⟩

/-- Every response is accepted, and the client ends on the failure message if the file cannot be
opened and otherwise on the end message, having counted the bytes of the file. -/
def Delivered (s : State) : Prop :=
  s.right.rejected = 0 ∧
    match x.files x.pathname with
    | none => s.left.pc = .failed
    | some content => s.left.pc = .succeeded ∧ s.left.totBytes = content.length

/-- However the two interleave, the exchange comes to an end and the file is delivered. -/
def Transfers : Prop :=
  (∃ bound, ∀ es s, exec (step x) (start x) es = some s → es.length ≤ bound) ∧
    ∀ s, Reachable (step x) (start x) s → Terminal (step x) s → Delivered x s

end SystemProgramming.FileServer
