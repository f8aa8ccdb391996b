import SystemProgramming.Dictionary.Client
import SystemProgramming.Dictionary.Server

/-! # The server and its clients over Unix sockets

The parent of `usock_server.c`, which forks a child for each connection, and any number of clients. What one call
of `write` sends to a Unix socket arrives whole, and `read` takes all that has arrived, as far as it fits. A `fork`
succeeds, and each child maps the file for itself; that the first has extended it with zeros shows in no mapping.
-/

namespace SystemProgramming.Dictionary.Service

open Lib

/-- The file, what is mapped behind it in the children, and the client programs: what they read from stdin, and
what their `try_it` holds in each round. -/
structure Site (ι : Type) where
  file : List UInt8
  behind : List Dictrec
  stdin : ι → List UInt8
  stack : ι → ℕ → Dictrec

inductive ClientPc where
  | connect
  | fgets
  /-- In `lookup`, behind its `write`. -/
  | read (word : Field wordSize)
  | ended
  | killed
  | undefined

def ClientPc.closed : ClientPc → Bool
  | .connect => false
  | .fgets => false
  | .read _ => false
  | .ended => true
  | .killed => true
  | .undefined => true

inductive ChildPc where
  | absent
  | connect
  | read (table : Lookup5.Table)
  | write (table : Lookup5.Table) (reply : List UInt8)
  | left
  | killed
  | undefined

def ChildPc.closed : ChildPc → Bool
  | .absent => false
  | .connect => false
  | .read _ => false
  | .write _ _ => false
  | .left => true
  | .killed => true
  | .undefined => true

/-- A client with its connection and the child that serves it; `shown` is what it has printed. -/
structure Session where
  client : ClientPc
  stdin : List UInt8
  round : ℕ
  shown : List UInt8
  child : ChildPc
  buf : Field Server.bufSize
  toServer : List UInt8
  toClient : List UInt8

/-- `pending` are the connections that have not been accepted. -/
structure State (ι : Type) where
  sessions : ι → Session
  pending : List ι

variable {ι : Type}

def start (x : Site ι) : State ι where
  sessions i := ⟨.connect, x.stdin i, 0, [], .absent, Field.init Server.bufSize [], [], []⟩
  pending := []

/-- " : " -/
def separator : List UInt8 := [32, 58, 32]

/-- `printf("%s : %s", try_it.word, try_it.text)` -/
def Session.printf (s : Session) (word : Field wordSize) (text : Field textSize) : Session :=
  if 0 ∈ text.bytes then
    { s with
      client := .fgets
      round := s.round + 1
      shown := s.shown ++ (word.string ++ separator ++ text.string) }
  else { s with client := .undefined }

/-- The `write` of `lookup`, with the NUL. -/
def Session.ask (s : Session) (word : Field wordSize) : Session :=
  -- SIGPIPE
  if s.child.closed then { s with client := .killed }
  else { s with client := .read word, toServer := s.toServer ++ (word.string ++ [0]) }

/-- The loop of `main` with `lookup` of lookup7, on what `try_it` holds. -/
def clientStep (stack : ℕ → Dictrec) (s : Session) : Option Session :=
  match s.client with
  | .fgets =>
    if s.stdin = [] then some { s with client := .ended }
    -- of an empty string the byte in front of the field is overwritten
    else if ((stack s.round).word.fill (Client.piece s.stdin ++ [0])).string = [] then
      some { s with client := .undefined }
    else
      some (({ s with stdin := s.stdin.drop (Client.piece s.stdin).length } : Session).ask
        (Client.query (stack s.round).word s.stdin))
  | .read word =>
    if s.toClient = [] then
      if s.child.closed then some (s.printf word (stack s.round).text) else none
    else
      some (({ s with toClient := s.toClient.drop textSize } : Session).printf word
        ((stack s.round).text.fill (s.toClient.take textSize)))
  | .connect | .ended | .killed | .undefined => none

/-- What `read(cli_fd, buf, 256)` returns, if it does. -/
def Session.receive (s : Session) : Option (ℤ × Session) :=
  if s.toServer = [] then
    if s.client.closed then some (0, s) else none
  else
    some ((s.toServer.take Server.bufSize).length, { s with
      buf := s.buf.fill (s.toServer.take Server.bufSize)
      toServer := s.toServer.drop Server.bufSize })

/-- The loop behind its `read`. -/
def Session.lookup (s : Session) (table : Lookup5.Table) (count : ℤ) : Session :=
  if count = Server.EOF then { s with child := .left }
  else
    match Server.reply table s.buf with
    | some text => { s with child := .write table text }
    | none => { s with child := .undefined }

/-- `serve_request` -/
def childStep (file : List UInt8) (behind : List Dictrec) (s : Session) : Option Session :=
  match s.child with
  | .connect =>
    match Lookup5.initDictTable file behind with
    | some table => some { s with child := .read table }
    -- SIGSEGV
    | none => some { s with child := .killed }
  | .read table =>
    s.receive.map fun got => got.2.lookup table got.1
  | .write table reply =>
    -- SIGPIPE
    if s.client.closed then some { s with child := .killed }
    else some { s with
      child := .read table
      buf := Field.init Server.bufSize []
      toClient := s.toClient ++ reply }
  | .absent | .left | .killed | .undefined => none

/-- `listen(sd, 8)`. `connect` waits while there are more. -/
def backlog : ℕ := 8

inductive Event (ι : Type) where
  | connect (i : ι)
  | accept
  | client (i : ι)
  | child (i : ι)

variable [DecidableEq ι] (x : Site ι)

def State.set (s : State ι) (i : ι) (session : Session) : State ι :=
  { s with sessions := Function.update s.sessions i session }

def step (s : State ι) : Event ι → Option (State ι)
  | .connect i =>
    match (s.sessions i).client with
    | .connect =>
      if s.pending.length ≤ backlog then
        some { s.set i { s.sessions i with client := .fgets } with pending := s.pending ++ [i] }
      else none
    | _ => none
  | .accept =>
    match s.pending with
    | [] => none
    | i :: rest => some { s.set i { s.sessions i with child := .connect } with pending := rest }
  | .client i => (clientStep (x.stack i) (s.sessions i)).map (s.set i)
  | .child i => (childStep x.file x.behind (s.sessions i)).map (s.set i)

end SystemProgramming.Dictionary.Service
