import SystemProgramming.FileServer.Model
import SystemProgramming.Lib.Update

/-! # One server and its clients

The clients share the queue of the server, and each has a queue of its own, which a child of the server finds by
the identifier in the request. The parent goes back to its loop as soon as it has forked, so the children answer
at the same time. Signals of the terminal and the end of the server by them are left out.
-/

namespace SystemProgramming.FileServer

open Lib

/-- A number of clients and what they and the server find. The identifiers of their queues differ. -/
structure Site (ι : Type) where
  files : Bytes → Option Bytes
  pathname : ι → Bytes
  clientId : ι → ℕ
  clientStack : ι → Memory
  /-- Where `main` of the server will have its structure. -/
  reqStack : Memory
  /-- Where a child will have its structure, by the identifier in the request it serves. -/
  childStack : ℤ → Memory
  /-- The client whose queue has the identifier. -/
  owner : ℤ → Option ι
  owner_eq_some : ∀ id i, owner id = some i ↔ (clientId i : ℤ) = id
  isString : ∀ i, 0 ∉ pathname i
  notHelp : ∀ i, pathname i ≠ bytes ['-', '-', 'h', 'e', 'l', 'p']
  notLong : ∀ i, (pathname i).length ≤ 4095
  clientId_lt : ∀ i, clientId i < 2 ^ 31

variable {ι : Type} (site : Site ι)

/-- The exchange of one client as if it were alone with the server. -/
def Site.exchange (i : ι) : Exchange where
  pathname := site.pathname i
  clientId := site.clientId i
  files := site.files
  clientStack := site.clientStack i
  serverStack := site.childStack (site.clientId i)
  isString := site.isString i
  notHelp := site.notHelp i
  notLong := site.notLong i
  clientId_lt := site.clientId_lt i

/-- `msgsnd` to a queue that exists or not. -/
def send (queue : Bool) (resp : Memory) (msgsz : ℕ) : Option Message :=
  if queue then msgsnd resp msgsz else none

/-- One act of a child. -/
def serveRequest (files : Bytes → Option Bytes) (stack : Memory) (queue : Bool) (s : Server) :
    Option (Server × List Message) :=
  match s.pc with
  | .listen => none
  | .serveRequest =>
    let pathname := cString s.req dataOffset
    match files pathname with
    | none =>
      match send queue (failureMsg stack pathname) ((failureText pathname).length + 1) with
      | none => some ({ s with pc := .exited, rejected := s.rejected + 1 }, [])
      | some message => some ({ s with pc := .exited }, [message])
    | some content =>
      some ({ s with
        pc := .transmit content
        resp := (stack.store 0 (int mtData)).store dataOffset (List.replicate msgSize 0) }, [])
  | .transmit rest =>
    let numRead := (rest.take msgSize).length
    if numRead = 0 then some ({ s with pc := .finish }, [])
    else
      let resp := s.resp.store dataOffset (rest.take msgSize)
      match send queue resp numRead with
      | none => some ({ s with pc := .finish, resp := resp, rejected := s.rejected + 1 }, [])
      | some message => some ({ s with pc := .transmit (rest.drop msgSize), resp := resp }, [message])
  | .finish =>
    let resp := s.resp.store 0 (int mtEnd)
    match send queue resp 0 with
    | none => some ({ s with pc := .exited, resp := resp, rejected := s.rejected + 1 }, [])
    | some message => some ({ s with pc := .exited, resp := resp }, [message])
  | .exited => none

/-- All processes and all queues. -/
structure Net (ι : Type) where
  clients : ι → Client
  /-- The queue of the server. -/
  requests : List Message
  /-- The server's parent is in its loop. -/
  listening : Bool
  req : Memory
  /-- In the order of their forks. -/
  children : List Server
  queues : ι → List Message

inductive Event (ι : Type)
  | client (i : ι)
  | main
  | child (k : ℕ)

/-- A client or a child acts, or the parent receives a request and forks. -/
def netStep [DecidableEq ι] (n : Net ι) : Event ι → Option (Net ι)
  | .client i =>
    (clientAct (site.exchange i) (n.clients i) (n.queues i)).map fun (c, rest, sent) =>
      { n with
        clients := Function.update n.clients i c
        queues := Function.update n.queues i rest
        requests := n.requests ++ sent }
  | .main =>
    match n.listening, n.requests with
    | true, message :: rest =>
      -- E2BIG ends the loop and leaves the message in the queue
      if reqMsgSize < message.text.length then some { n with listening := false }
      else
        let req := msgrcv n.req message
        some { n with
          requests := rest
          req := req
          children := n.children ++ [⟨.serveRequest, req, site.childStack (readInt req), 0⟩] }
    | _, _ => none
  | .child k =>
    n.children[k]?.bind fun c =>
      let owner := site.owner (readInt c.req)
      (serveRequest site.files (site.childStack (readInt c.req)) owner.isSome c).map fun (d, sent) =>
        { n with
          children := n.children.set k d
          queues :=
            match owner with
            | none => n.queues
            | some i => Function.update n.queues i (n.queues i ++ sent) }

def netStart : Net ι where
  clients i := clientStart (site.exchange i)
  requests := []
  listening := true
  req := site.reqStack
  children := []
  queues _ := []

/-- The child that serves the client has no response rejected, and the client ends as in `Delivered`. -/
def NetDelivered (n : Net ι) (i : ι) : Prop :=
  (∀ c ∈ n.children, readInt c.req = site.clientId i → c.rejected = 0) ∧
    match site.files (site.pathname i) with
    | none => (n.clients i).pc = .failed
    | some content => (n.clients i).pc = .succeeded ∧ (n.clients i).totBytes = content.length

end SystemProgramming.FileServer
