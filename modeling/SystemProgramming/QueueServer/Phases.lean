import SystemProgramming.Lib.Update
import SystemProgramming.QueueServer.Model

/-! # One client at a time

As long as no client opens the reply queue while another one is under way, the system is idle or
working for one client, and the work goes through fixed phases: the request is queued, a child serves
it, the last message is queued, the client has it. In each phase everything queued answers that
client, and what the client has written, what is queued and what the child has still to send make up
the block it writes first and the answer to its request.
-/

namespace SystemProgramming.QueueServer

open Lib

/-! ## What a client is sent -/

/-- The blocks a child sends when the buffer holds `data` and `fd` is left of the file. -/
def blocks (data : Data) (fd : List UInt8) : List UInt8 :=
  if fd = [] then []
  else
    let next := data.fill (fd.take msgSize) (List.length_take_le msgSize fd)
    next.bytes ++ blocks next (fd.drop msgSize)
termination_by fd.length
decreasing_by
  rename_i nonempty
  have positive := List.length_pos_of_ne_nil nonempty
  simp only [List.length_drop, msgSize]
  omega

theorem blocks_nil (data : Data) : blocks data [] = [] := by
  rw [blocks, if_pos rfl]

theorem blocks_of_ne_nil {fd : List UInt8} (data : Data) (nonempty : fd ≠ []) :
    blocks data fd = (data.fill (fd.take msgSize) (List.length_take_le msgSize fd)).bytes ++
      blocks (data.fill (fd.take msgSize) (List.length_take_le msgSize fd)) (fd.drop msgSize) := by
  rw [blocks, if_neg nonempty]

/-- What a client writes when it receives a message. -/
def ResponseMsg.shown (msg : ResponseMsg) : List UInt8 :=
  match msg.mtype with
  | .failure => msg.data.text ++ [10]
  | .data => msg.data.bytes
  | .finished => []

/-- What a client writes for the messages that answer a request. -/
def answer (files : List UInt8 → Option (List UInt8)) (pathname : Pathname) : List UInt8 :=
  match files pathname.bytes with
  | none => (failureData pathname).text ++ [10]
  | some content => blocks .zero content

/-- What is shown for the messages a child has still to send. -/
def Child.rest (files : List UInt8 → Option (List UInt8)) (ch : Child) : List UInt8 :=
  match ch.pc with
  | .openQueue | .openFile => answer files ch.req.pathname
  | .read => blocks ch.resp.data ch.fd
  | .send => ch.resp.shown ++ blocks ch.resp.data ch.fd
  | .sendEnd | .sendFailure => ch.resp.shown
  | .exited => []

/-- The type of the message a child has prepared. -/
def Child.Prepared (ch : Child) : Prop :=
  match ch.pc with
  | .read | .send => ch.resp.mtype = .data
  | .sendEnd => ch.resp.mtype = .finished
  | .sendFailure => ch.resp.mtype = .failure
  | .openQueue | .openFile | .exited => True

/-- The block a client is about to write. -/
def Client.pending (c : Client) : List UInt8 :=
  match c.pc with
  | .create | .reopen | .request | .write => c.resp.data.bytes
  | .receive | .unlink | .exited | .failed => []

/-- Everything a client writes: a block of zeros and the answer. -/
def expected (files : List UInt8 → Option (List UInt8)) (pathname : Pathname) : List UInt8 :=
  Data.zero.bytes ++ answer files pathname

/-! ## The phases -/

/-- A client that has not begun, or is through with its whole answer. -/
inductive Settled (files : List UInt8 → Option (List UInt8)) (c : Client) : Prop
  | fresh (new : c = newClient c.pathname)
  | ended (pc : c.pc = .exited ∨ c.pc = .failed) (output : c.stdout = expected files c.pathname)

/-- Nothing is queued and no child is running. -/
structure Quiet (s : State) : Prop where
  requests : s.requests = []
  children : ∀ ch ∈ s.children, ch.pc = .exited
  queues : ∀ mail ∈ s.queues, mail = []

/-- A client that has sent its request and not had the whole answer. -/
structure Waiting (s : State) (c : Client) (q : ℕ) : Prop where
  pc : c.pc = .write ∨ c.pc = .receive
  clientId : c.clientId = some q
  named : s.names fooPath = some q

/-- The work for a client, in the order of its phases. -/
inductive Work (s : State) (i : ℕ) (c : Client) : Prop
  | starting (pc : c.pc = .reopen) (named : s.names fooPath ≠ none) (quiet : Quiet s)
      (output : c.stdout ++ c.pending = Data.zero.bytes)
  | opened (q : ℕ) (pc : c.pc = .request) (clientId : c.clientId = some q)
      (named : s.names fooPath = some q) (quiet : Quiet s)
      (output : c.stdout ++ c.pending = Data.zero.bytes)
  | requested (q : ℕ) (waiting : Waiting s c q) (requests : s.requests = [⟨fooPath, c.pathname, i⟩])
      (children : ∀ ch ∈ s.children, ch.pc = .exited)
      (queues : ∀ mail ∈ s.queues, mail = [])
      (output : c.stdout ++ c.pending = Data.zero.bytes)
  | serving (q : ℕ) (j : ℕ) (ch : Child) (mail : List Response) (waiting : Waiting s c q)
      (requests : s.requests = []) (child : s.children[j]? = some ch) (running : ch.pc ≠ .exited)
      (req : ch.req = ⟨fooPath, c.pathname, i⟩) (queue : ch.pc = .openQueue ∨ ch.clientId = some q)
      (children : EveryOther (fun ch => ch.pc = .exited) s.children j)
      (here : s.queues[q]? = some mail)
      (queues : EveryOther (fun mail => mail = []) s.queues q)
      (ours : ∀ r ∈ mail, r.answers = i ∧ r.msg.mtype = .data) (prepared : ch.Prepared)
      (output : c.stdout ++ c.pending ++ mail.flatMap (fun r => r.msg.shown) ++ ch.rest s.files =
        expected s.files c.pathname)
  | answered (q : ℕ) (mail : List Response) (last : Response) (waiting : Waiting s c q)
      (requests : s.requests = []) (children : ∀ ch ∈ s.children, ch.pc = .exited)
      (here : s.queues[q]? = some (mail ++ [last]))
      (queues : EveryOther (fun mail => mail = []) s.queues q)
      (ours : ∀ r ∈ mail, r.answers = i ∧ r.msg.mtype = .data)
      (final : last.answers = i ∧ last.msg.mtype ≠ .data)
      (output : c.stdout ++ c.pending ++ mail.flatMap (fun r => r.msg.shown) ++ last.msg.shown =
        expected s.files c.pathname)
  | ending (pc : c.pc = .unlink) (quiet : Quiet s) (output : c.stdout = expected s.files c.pathname)

/-- No client is under way, or one. -/
inductive Phase (s : State) : Prop
  | idle (clients : ∀ c ∈ s.clients, Settled s.files c) (quiet : Quiet s)
  | active (i : ℕ) (c : Client) (client : s.clients[i]? = some c)
      (others : EveryOther (Settled s.files) s.clients i) (work : Work s i c)

/-- What holds as long as clients come one at a time. -/
structure OneByOne (s : State) : Prop where
  phase : Phase s
  named : ∀ q, s.names fooPath = some q → q < s.queues.length
  own : ∀ x ∈ s.received, x.2 = x.1

/-- The client has a queue, or is about to ask for it again. -/
def ClientPc.underWay : ClientPc → Bool
  | .reopen | .request | .write | .receive | .unlink => true
  | .create | .exited | .failed => false

/-- A client that opens its reply queue finds no other client under way. -/
def Alone (s : State) : Event → Prop
  | .client i => ∀ c ∈ s.clients[i]?, c.pc = .create →
      EveryOther (fun other => other.pc.underWay = false) s.clients i
  | .server => True
  | .child _ => True

instance (s : State) : (e : Event) → Decidable (Alone s e)
  | .client i => inferInstanceAs (Decidable (∀ c ∈ s.clients[i]?, c.pc = .create →
      EveryOther (fun other => other.pc.underWay = false) s.clients i))
  | .server => isTrue trivial
  | .child _ => isTrue trivial

theorem start_oneByOne (files : List UInt8 → Option (List UInt8)) (pathnames : List Pathname) :
    OneByOne (start files pathnames) where
  phase := by
    refine .idle (fun c member => .fresh ?_) ⟨rfl, nofun, nofun⟩
    obtain ⟨pathname, -, rfl⟩ := List.mem_map.mp member
    rfl
  named := nofun
  own := nofun

end SystemProgramming.QueueServer
