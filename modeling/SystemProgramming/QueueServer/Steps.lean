import SystemProgramming.QueueServer.Phases

/-! # From phase to phase

Each step of the client, the server or a child leads from a phase of the work to the same or a later
one, and no other client, request or child can take a step meanwhile.
-/

namespace SystemProgramming.QueueServer

open Lib

/-! ## The steps of a client -/

/-- The active client after a step that concerns no other client. -/
theorem Phase.setClient {s t : State} {i : ℕ} {c c' : Client} (client : s.clients[i]? = some c)
    (others : EveryOther (Settled s.files) s.clients i) (files : t.files = s.files)
    (clients : t.clients = s.clients.set i c') (work : Work t i c') : Phase t := by
  refine .active i c' ?_ ?_ work
  · rw [clients]
    exact getElem?_set_here client
  · rw [clients, files]
    exact others.set c'

theorem stepClient_write {s : State} {i : ℕ} {c : Client} (pc : c.pc = .write) :
    stepClient s i c =
      some (s.setClient i { c with pc := .receive, stdout := c.stdout ++ c.resp.data.bytes }) := by
  simp [stepClient, pc]

theorem stepClient_receive {s : State} {i q : ℕ} {c : Client} {r : Response} {rest : List Response}
    (pc : c.pc = .receive) (clientId : c.clientId = some q) (here : s.queues[q]? = some (r :: rest)) :
    stepClient s i c = some ({ s with
      queues := s.queues.set q rest
      received := s.received ++ [(i, r.answers)] }.setClient i (c.take r.msg)) := by
  simp [stepClient, pc, clientId, here]

/-- A waiting client writes the block it has, or takes the first message of its queue. -/
theorem Waiting.stepClient_cases {s t : State} {i q : ℕ} {c : Client} (waiting : Waiting s c q)
    (taken : stepClient s i c = some t) :
    (∃ c', t = s.setClient i c' ∧ Waiting t c' q ∧ c'.pathname = c.pathname ∧
      c'.stdout ++ c'.pending = c.stdout ++ c.pending) ∨
    c.pc = .receive ∧ ∃ r rest, s.queues[q]? = some (r :: rest) ∧ t = { s with
      queues := s.queues.set q rest
      received := s.received ++ [(i, r.answers)] }.setClient i (c.take r.msg) := by
  rcases waiting.pc with pc | pc
  · left
    cases (stepClient_write pc).symm.trans taken
    refine ⟨_, rfl, ⟨.inr rfl, waiting.clientId, waiting.named⟩, rfl, ?_⟩
    simp [Client.pending, pc]
  · right
    refine ⟨pc, ?_⟩
    cases here : s.queues[q]? with
    | none => simp [stepClient, pc, waiting.clientId, here] at taken
    | some mail =>
      cases mail with
      | nil => simp [stepClient, pc, waiting.clientId, here] at taken
      | cons r rest =>
        cases (stepClient_receive pc waiting.clientId here).symm.trans taken
        exact ⟨r, rest, rfl, rfl⟩

/-- A block that is received is pending next, and the client goes on waiting. -/
theorem Waiting.take_data {s : State} {q : ℕ} {c : Client} {msg : ResponseMsg} (waiting : Waiting s c q)
    (data : msg.mtype = .data) (pc : c.pc = .receive) :
    Waiting s (c.take msg) q ∧ (c.take msg).pathname = c.pathname ∧
      (c.take msg).stdout ++ (c.take msg).pending = c.stdout ++ c.pending ++ msg.shown := by
  have took : c.take msg = { c with pc := .write, resp := msg } := by rw [Client.take, data]
  rw [took]
  refine ⟨⟨.inl rfl, waiting.clientId, waiting.named⟩, rfl, ?_⟩
  simp [Client.pending, pc, ResponseMsg.shown, data]

/-- What the history of the receives gains from one step. -/
def OwnGrowth (s t : State) : Prop :=
  ∀ x ∈ t.received, x ∈ s.received ∨ x.2 = x.1

theorem OwnGrowth.of_eq {s t : State} (same : t.received = s.received) : OwnGrowth s t :=
  fun _ known => .inl (same ▸ known)

theorem OwnGrowth.receive {s t : State} {i : ℕ} (one : t.received = s.received ++ [(i, i)]) :
    OwnGrowth s t := by
  intro x known
  rw [one] at known
  rcases List.mem_append.mp known with old | new
  · exact .inl old
  · cases List.mem_singleton.mp new
    exact .inr rfl

/-- The phases before the request is sent. -/
theorem Work.stepClient_starting {s t : State} {i : ℕ} {c : Client}
    (client : s.clients[i]? = some c) (others : EveryOther (Settled s.files) s.clients i)
    (pc : c.pc = .reopen) (named : s.names fooPath ≠ none) (quiet : Quiet s)
    (output : c.stdout ++ c.pending = Data.zero.bytes) (taken : stepClient s i c = some t) :
    Phase t ∧ OwnGrowth s t := by
  obtain ⟨q, name⟩ := Option.ne_none_iff_exists'.mp named
  simp only [stepClient, pc, Option.some.injEq] at taken
  subst taken
  refine ⟨?_, .of_eq rfl⟩
  refine Phase.setClient client others rfl rfl ?_
  refine Work.opened q rfl name name ⟨quiet.requests, quiet.children, quiet.queues⟩ ?_
  simpa [Client.pending, pc] using output

theorem Work.stepClient_opened {s t : State} {i q : ℕ} {c : Client}
    (client : s.clients[i]? = some c) (others : EveryOther (Settled s.files) s.clients i)
    (pc : c.pc = .request) (clientId : c.clientId = some q) (named : s.names fooPath = some q)
    (quiet : Quiet s) (output : c.stdout ++ c.pending = Data.zero.bytes)
    (taken : stepClient s i c = some t) : Phase t ∧ OwnGrowth s t := by
  have room : s.requests.length < maxMsg := by simp [quiet.requests, maxMsg]
  simp only [stepClient, pc, if_pos room, Option.some.injEq] at taken
  subst taken
  refine ⟨?_, .of_eq rfl⟩
  refine Phase.setClient client others rfl rfl ?_
  refine Work.requested q ⟨.inl rfl, clientId, named⟩ ?_ quiet.children quiet.queues ?_
  · simp [State.setClient, quiet.requests]
  · simpa [Client.pending, pc] using output

theorem Work.stepClient_requested {s t : State} {i q : ℕ} {c : Client}
    (client : s.clients[i]? = some c) (others : EveryOther (Settled s.files) s.clients i)
    (waiting : Waiting s c q) (requests : s.requests = [⟨fooPath, c.pathname, i⟩])
    (children : ∀ ch ∈ s.children, ch.pc = .exited) (queues : ∀ mail ∈ s.queues, mail = [])
    (output : c.stdout ++ c.pending = Data.zero.bytes) (taken : stepClient s i c = some t) :
    Phase t ∧ OwnGrowth s t := by
  rcases waiting.stepClient_cases taken with ⟨c', rfl, still, name, printed⟩ | ⟨-, r, rest, there, -⟩
  · refine ⟨Phase.setClient client others rfl rfl ?_, .of_eq rfl⟩
    exact Work.requested q still (name ▸ requests) children queues (printed.trans output)
  · nomatch queues _ (List.mem_of_getElem? there)

theorem Work.stepClient_serving {s t : State} {i q j : ℕ} {c : Client} {ch : Child}
    {mail : List Response} (client : s.clients[i]? = some c)
    (others : EveryOther (Settled s.files) s.clients i) (waiting : Waiting s c q)
    (requests : s.requests = []) (child : s.children[j]? = some ch) (running : ch.pc ≠ .exited)
    (req : ch.req = ⟨fooPath, c.pathname, i⟩) (queue : ch.pc = .openQueue ∨ ch.clientId = some q)
    (children : EveryOther (fun ch => ch.pc = .exited) s.children j)
    (here : s.queues[q]? = some mail) (queues : EveryOther (fun mail => mail = []) s.queues q)
    (ours : ∀ r ∈ mail, r.answers = i ∧ r.msg.mtype = .data) (prepared : ch.Prepared)
    (output : c.stdout ++ c.pending ++ mail.flatMap (fun r => r.msg.shown) ++ ch.rest s.files =
      expected s.files c.pathname) (taken : stepClient s i c = some t) :
    Phase t ∧ OwnGrowth s t := by
  rcases waiting.stepClient_cases taken with ⟨c', rfl, still, name, printed⟩ | ⟨pc, r, rest, there, rfl⟩
  · refine ⟨Phase.setClient client others rfl rfl ?_, .of_eq rfl⟩
    refine Work.serving q j ch mail still requests child running (name ▸ req) queue children here queues
      ours prepared ?_
    rw [printed, name]
    exact output
  · cases here.symm.trans there
    obtain ⟨⟨mine, data⟩, later⟩ := List.forall_mem_cons.mp ours
    refine ⟨Phase.setClient client others rfl rfl ?_, .receive (i := i) (by simp [State.setClient, mine])⟩
    obtain ⟨⟨still, clientId, named⟩, name, printed⟩ := waiting.take_data data pc
    refine Work.serving q j ch rest ⟨still, clientId, named⟩ requests child running (name ▸ req) queue children
      (getElem?_set_here here) (queues.set rest) later prepared ?_
    rw [printed, name]
    simpa using output

theorem Work.stepClient_answered {s t : State} {i q : ℕ} {c : Client} {mail : List Response}
    {last : Response} (client : s.clients[i]? = some c)
    (others : EveryOther (Settled s.files) s.clients i) (waiting : Waiting s c q)
    (requests : s.requests = []) (children : ∀ ch ∈ s.children, ch.pc = .exited)
    (here : s.queues[q]? = some (mail ++ [last]))
    (queues : EveryOther (fun mail => mail = []) s.queues q)
    (ours : ∀ r ∈ mail, r.answers = i ∧ r.msg.mtype = .data)
    (final : last.answers = i ∧ last.msg.mtype ≠ .data)
    (output : c.stdout ++ c.pending ++ mail.flatMap (fun r => r.msg.shown) ++ last.msg.shown =
      expected s.files c.pathname) (taken : stepClient s i c = some t) :
    Phase t ∧ OwnGrowth s t := by
  rcases waiting.stepClient_cases taken with ⟨c', rfl, still, name, printed⟩ | ⟨pc, r, rest, there, rfl⟩
  · refine ⟨Phase.setClient client others rfl rfl ?_, .of_eq rfl⟩
    refine Work.answered q mail last still requests children here queues ours final ?_
    rw [printed, name]
    exact output
  · cases mail with
    | cons first mail =>
      cases here.symm.trans there
      obtain ⟨⟨mine, data⟩, later⟩ := List.forall_mem_cons.mp ours
      refine ⟨Phase.setClient client others rfl rfl ?_, .receive (i := i) (by simp [State.setClient, mine])⟩
      obtain ⟨⟨still, clientId, named⟩, name, printed⟩ := waiting.take_data data pc
      refine Work.answered q mail last ⟨still, clientId, named⟩ requests children (getElem?_set_here here)
        (queues.set _) later final ?_
      rw [printed, name]
      simpa using output
    | nil =>
      cases here.symm.trans there
      refine ⟨?_, .receive (i := i) (by simp [State.setClient, final.1])⟩
      have quiet : Quiet ({ s with
          queues := s.queues.set q []
          received := s.received ++ [(i, last.answers)] }.setClient i (c.take last.msg)) :=
        ⟨requests, children, queues.forall_set here rfl⟩
      cases mtype : last.msg.mtype with
      | data => exact absurd mtype final.2
      | failure =>
        refine .idle ?_ quiet
        refine others.forall_set client (.ended (.inr ?_) ?_)
        · simp [Client.take, mtype]
        · simpa [Client.take, mtype, Client.pending, pc, ResponseMsg.shown] using output
      | finished =>
        refine Phase.setClient client others rfl rfl (.ending ?_ quiet ?_)
        · simp [Client.take, mtype]
        · simpa [Client.take, mtype, Client.pending, pc, ResponseMsg.shown] using output

theorem Work.stepClient_ending {s t : State} {i : ℕ} {c : Client}
    (client : s.clients[i]? = some c) (others : EveryOther (Settled s.files) s.clients i)
    (pc : c.pc = .unlink) (quiet : Quiet s) (output : c.stdout = expected s.files c.pathname)
    (taken : stepClient s i c = some t) : Phase t ∧ OwnGrowth s t := by
  simp only [stepClient, pc, Option.some.injEq] at taken
  subst taken
  refine ⟨?_, .of_eq rfl⟩
  refine .idle ?_ ⟨quiet.requests, quiet.children, quiet.queues⟩
  exact others.forall_set client (.ended (.inl rfl) output)

/-- A step of the client that is under way. -/
theorem Work.stepClient {s t : State} {i : ℕ} {c : Client} (client : s.clients[i]? = some c)
    (others : EveryOther (Settled s.files) s.clients i) (work : Work s i c)
    (taken : stepClient s i c = some t) : Phase t ∧ OwnGrowth s t := by
  cases work with
  | starting pc named quiet output =>
    exact stepClient_starting client others pc named quiet output taken
  | opened q pc clientId named quiet output =>
    exact stepClient_opened client others pc clientId named quiet output taken
  | requested q waiting requests children queues output =>
    exact stepClient_requested client others waiting requests children queues output taken
  | serving q j ch mail waiting requests child running req queue children here queues ours prepared
      output =>
    exact stepClient_serving client others waiting requests child running req queue children here
      queues ours prepared output taken
  | answered q mail last waiting requests children here queues ours final output =>
    exact stepClient_answered client others waiting requests children here queues ours final output
      taken
  | ending pc quiet output => exact stepClient_ending client others pc quiet output taken

/-- A settled client can only open its queue. -/
theorem Settled.stepClient {s t : State} {i : ℕ} {c : Client} (settled : Settled s.files c)
    (taken : stepClient s i c = some t) : c = newClient c.pathname := by
  cases settled with
  | fresh new => exact new
  | ended pc output => rcases pc with pc | pc <;> simp [QueueServer.stepClient, pc] at taken

/-- The first step of a client while the system is idle. -/
theorem Phase.stepClient_create {s t : State} {i : ℕ} {c : Client} (client : s.clients[i]? = some c)
    (clients : ∀ c ∈ s.clients, Settled s.files c) (quiet : Quiet s) (new : c = newClient c.pathname)
    (taken : stepClient s i c = some t) : Phase t ∧ OwnGrowth s t := by
  have others := EveryOther.of_forall clients i
  have pc : c.pc = .create := by rw [new]; rfl
  have output : c.stdout ++ c.resp.data.bytes = Data.zero.bytes := by rw [new]; rfl
  simp only [QueueServer.stepClient, pc] at taken
  cases named : s.names fooPath with
  | some q =>
    simp only [named, Option.some.injEq] at taken
    subst taken
    refine ⟨?_, .of_eq rfl⟩
    refine Phase.setClient client others rfl rfl ?_
    exact .starting rfl (by simp [State.setClient, named]) ⟨quiet.requests, quiet.children, quiet.queues⟩
      output
  | none =>
    simp only [named, Option.some.injEq] at taken
    subst taken
    refine ⟨?_, .of_eq rfl⟩
    refine Phase.setClient client others rfl rfl ?_
    refine .opened s.queues.length rfl rfl (by simp [State.setClient])
      ⟨quiet.requests, quiet.children, ?_⟩ output
    intro mail member
    rcases List.mem_append.mp member with old | new
    · exact quiet.queues mail old
    · exact List.mem_singleton.mp new

/-! ## The steps of the server and its children -/

/-- The server forks a child for the one request. -/
theorem Work.stepServer {s t : State} {i : ℕ} {c : Client} (client : s.clients[i]? = some c)
    (others : EveryOther (Settled s.files) s.clients i)
    (bound : ∀ q, s.names fooPath = some q → q < s.queues.length) (work : Work s i c)
    (taken : stepServer s = some t) : Phase t := by
  have none_waiting (requests : s.requests = []) : False := by
    simp [QueueServer.stepServer, requests] at taken
  cases work with
  | starting _ _ quiet | opened _ _ _ _ quiet | ending _ quiet => exact (none_waiting quiet.requests).elim
  | serving _ _ _ _ _ requests | answered _ _ _ _ requests => exact (none_waiting requests).elim
  | requested q waiting requests children queues output =>
    simp only [QueueServer.stepServer, requests, Option.some.injEq] at taken
    subst taken
    have here : s.queues[q]? = some [] := by
      have inside := bound q waiting.named
      rw [List.getElem?_eq_getElem inside]
      exact congrArg some (queues _ (List.getElem_mem inside))
    refine .active i c client others ?_
    refine .serving q s.children.length _ [] ⟨waiting.pc, waiting.clientId, waiting.named⟩ rfl
      List.getElem?_concat_length ?_ rfl (.inl rfl) (.concat children _) here (.of_forall queues q) ?_
      trivial ?_
    · simp
    · simp
    · simp [Child.rest, expected, output]

/-- The child the phase is about, after a step that concerns nobody else. -/
theorem Work.serving_setChild {s : State} {i q j : ℕ} {c : Client} {ch ch' : Child}
    {mail : List Response} (waiting : Waiting s c q) (requests : s.requests = [])
    (child : s.children[j]? = some ch) (running : ch'.pc ≠ .exited)
    (req : ch'.req = ⟨fooPath, c.pathname, i⟩) (queue : ch'.clientId = some q)
    (children : EveryOther (fun ch => ch.pc = .exited) s.children j)
    (here : s.queues[q]? = some mail) (queues : EveryOther (fun mail => mail = []) s.queues q)
    (ours : ∀ r ∈ mail, r.answers = i ∧ r.msg.mtype = .data) (prepared : ch'.Prepared)
    (output : c.stdout ++ c.pending ++ mail.flatMap (fun r => r.msg.shown) ++ ch'.rest s.files =
      expected s.files c.pathname) : Work (s.setChild j ch') i c :=
  .serving q j ch' mail ⟨waiting.pc, waiting.clientId, waiting.named⟩ requests
    (getElem?_set_here child) running req (.inr queue) (children.set ch') here queues ours prepared output

/-- A send into a queue that exists waits or leaves the message there. -/
theorem Child.send_eq_some {s t : State} {j q : ℕ} {ch next giveUp : Child} {mail : List Response}
    (queue : ch.clientId = some q) (here : s.queues[q]? = some mail)
    (taken : ch.send s j next giveUp = some t) :
    t = { s with queues := s.queues.set q (mail ++ [Response.mk ch.resp ch.req.sender]) }.setChild j next := by
  simp only [Child.send, mqSend, queue, here] at taken
  by_cases room : mail.length < maxMsg
  · simp only [if_pos room, Option.some.injEq] at taken
    exact taken.symm
  · simp [if_neg room] at taken

/-- A step of the child that serves the request. -/
theorem Work.stepChild_serving {s t : State} {i q j : ℕ} {c : Client} {ch : Child}
    {mail : List Response} (client : s.clients[i]? = some c)
    (others : EveryOther (Settled s.files) s.clients i) (waiting : Waiting s c q)
    (requests : s.requests = []) (child : s.children[j]? = some ch)
    (req : ch.req = ⟨fooPath, c.pathname, i⟩) (queue : ch.pc = .openQueue ∨ ch.clientId = some q)
    (children : EveryOther (fun ch => ch.pc = .exited) s.children j)
    (here : s.queues[q]? = some mail) (queues : EveryOther (fun mail => mail = []) s.queues q)
    (ours : ∀ r ∈ mail, r.answers = i ∧ r.msg.mtype = .data) (prepared : ch.Prepared)
    (output : c.stdout ++ c.pending ++ mail.flatMap (fun r => r.msg.shown) ++ ch.rest s.files =
      expected s.files c.pathname) (taken : stepChild s j ch = some t) : Phase t := by
  have opened (later : ch.pc ≠ .openQueue) : ch.clientId = some q := queue.resolve_left later
  cases pc : ch.pc with
  | openQueue =>
    simp only [stepChild, pc, Option.some.injEq] at taken
    subst taken
    refine .active i c client others (serving_setChild waiting requests child nofun req ?_ children here
      queues ours trivial ?_)
    · simp [req, waiting.named]
    · simpa [Child.rest, pc] using output
  | openFile =>
    have id := opened (by simp [pc])
    simp only [stepChild, pc] at taken
    cases file : s.files ch.req.pathname.bytes with
    | none =>
      simp only [file, Option.some.injEq] at taken
      subst taken
      refine .active i c client others (serving_setChild waiting requests child nofun req id children
        here queues ours rfl ?_)
      simpa [Child.rest, pc, answer, file, ResponseMsg.shown] using output
    | some content =>
      simp only [file, Option.some.injEq] at taken
      subst taken
      refine .active i c client others (serving_setChild waiting requests child nofun req id children
        here queues ours rfl ?_)
      simpa [Child.rest, pc, answer, file] using output
  | read =>
    have id := opened (by simp [pc])
    have data : ch.resp.mtype = .data := by simpa [Child.Prepared, pc] using prepared
    simp only [stepChild, pc] at taken
    by_cases empty : ch.fd = []
    · simp only [if_pos empty, Option.some.injEq] at taken
      subst taken
      refine .active i c client others (serving_setChild waiting requests child nofun req id children
        here queues ours rfl ?_)
      simpa [Child.rest, pc, empty, blocks_nil, ResponseMsg.shown] using output
    · simp only [if_neg empty, Option.some.injEq] at taken
      subst taken
      refine .active i c client others (serving_setChild waiting requests child nofun req id children
        here queues ours data ?_)
      rw [Child.rest, pc] at output
      simp only [blocks_of_ne_nil ch.resp.data empty] at output
      simpa [Child.rest, ResponseMsg.shown, data] using output
  | send =>
    have id := opened (by simp [pc])
    have data : ch.resp.mtype = .data := by simpa [Child.Prepared, pc] using prepared
    simp only [stepChild, pc] at taken
    cases Child.send_eq_some id here taken
    refine .active i c client others ?_
    refine serving_setChild ⟨waiting.pc, waiting.clientId, waiting.named⟩ requests child nofun req id
      children (getElem?_set_here here) (queues.set _) ?_ data ?_
    · intro r member
      rcases List.mem_append.mp member with old | new
      · exact ours r old
      · cases List.mem_singleton.mp new
        exact ⟨by rw [req], data⟩
    · simpa [Child.rest, pc] using output
  | sendEnd | sendFailure =>
    have id := opened (by simp [pc])
    have final : ch.resp.mtype ≠ .data := by
      simp only [Child.Prepared, pc] at prepared
      simp [prepared]
    simp only [stepChild, pc] at taken
    cases Child.send_eq_some id here taken
    refine .active i c client others (.answered q mail ⟨ch.resp, ch.req.sender⟩
      ⟨waiting.pc, waiting.clientId, waiting.named⟩ requests (children.forall_set child rfl)
      (getElem?_set_here here) (queues.set _) ours ⟨by rw [req], final⟩ ?_)
    simpa [Child.rest, pc] using output
  | exited => simp [stepChild, pc] at taken

theorem Work.stepChild {s t : State} {i k : ℕ} {c : Client} {there : Child}
    (client : s.clients[i]? = some c) (others : EveryOther (Settled s.files) s.clients i)
    (work : Work s i c) (at_ : s.children[k]? = some there) (taken : stepChild s k there = some t) :
    Phase t := by
  have running : there.pc ≠ .exited := by
    intro finished
    simp [QueueServer.stepChild, finished] at taken
  have none_running (children : ∀ ch ∈ s.children, ch.pc = .exited) : False :=
    running (children there (List.mem_of_getElem? at_))
  cases work with
  | starting _ _ quiet | opened _ _ _ _ quiet | ending _ quiet => exact (none_running quiet.children).elim
  | requested _ _ _ children | answered _ _ _ _ _ children => exact (none_running children).elim
  | serving q j ch mail waiting requests child _ req queue children here queues ours prepared output =>
    obtain rfl : k = j := children.eq_of_not at_ running
    cases child.symm.trans at_
    exact stepChild_serving client others waiting requests child req queue children here queues ours
      prepared output taken

/-! ## What no step changes -/

/-- The files and the arguments of the clients stay, and a name is always that of a queue. -/
structure Frame (s t : State) : Prop where
  files : t.files = s.files
  pathnames : t.clients.map Client.pathname = s.clients.map Client.pathname
  named : (∀ q, s.names fooPath = some q → q < s.queues.length) →
    ∀ q, t.names fooPath = some q → q < t.queues.length

/-- A child changes the contents of queues and itself. -/
theorem stepChild_eq {s t : State} {j : ℕ} {ch : Child} (taken : stepChild s j ch = some t) :
    ∃ queues ch', t = { s with queues := queues }.setChild j ch' ∧
      queues.length = s.queues.length := by
  have sending {next giveUp : Child} (taken : ch.send s j next giveUp = some t) :
      ∃ queues ch', t = { s with queues := queues }.setChild j ch' ∧
        queues.length = s.queues.length := by
    simp only [Child.send, mqSend] at taken
    split at taken
    · cases taken
    · exact ⟨s.queues, giveUp, (Option.some.inj taken).symm, rfl⟩
    · next queues sent =>
      refine ⟨queues, next, (Option.some.inj taken).symm, ?_⟩
      split at sent
      · cases sent
      · split at sent
        · cases sent
        · split at sent
          · cases sent
            exact List.length_set
          · cases sent
  unfold stepChild at taken
  split at taken
  case h_1 => exact ⟨s.queues, _, (Option.some.inj taken).symm, rfl⟩
  case h_2 => split at taken <;> exact ⟨s.queues, _, (Option.some.inj taken).symm, rfl⟩
  case h_3 => split at taken <;> exact ⟨s.queues, _, (Option.some.inj taken).symm, rfl⟩
  case h_7 => cases taken
  all_goals exact sending taken

theorem pathnames_set {clients : List Client} {i : ℕ} {c c' : Client} (here : clients[i]? = some c)
    (same : c'.pathname = c.pathname) :
    (clients.set i c').map Client.pathname = clients.map Client.pathname := by
  have there : (clients.map Client.pathname)[i]? = some c.pathname := by
    rw [List.getElem?_map, here]
    rfl
  obtain ⟨inside, value⟩ := List.getElem?_eq_some_iff.mp there
  rw [List.map_set, same, ← value, List.set_getElem_self]

theorem stepClient_frame {s t : State} {i : ℕ} {c : Client} (client : s.clients[i]? = some c)
    (taken : stepClient s i c = some t) : Frame s t := by
  unfold stepClient at taken
  split at taken
  case h_1 =>
    split at taken
    · cases taken
      exact ⟨rfl, pathnames_set client rfl, fun bound => bound⟩
    · cases taken
      refine ⟨rfl, pathnames_set client rfl, fun _ q name => ?_⟩
      simp only [State.setClient, Function.update_self, Option.some.injEq] at name
      simp [State.setClient, ← name]
  case h_2 =>
    cases taken
    exact ⟨rfl, pathnames_set client rfl, fun bound => bound⟩
  case h_3 =>
    split at taken
    · cases taken
      exact ⟨rfl, pathnames_set client rfl, fun bound => bound⟩
    · cases taken
  case h_4 =>
    cases taken
    exact ⟨rfl, pathnames_set client rfl, fun bound => bound⟩
  case h_5 =>
    split at taken
    · cases taken
      exact ⟨rfl, pathnames_set client rfl, fun bound => bound⟩
    · split at taken
      · next r rest here =>
        cases taken
        have same : (c.take r.msg).pathname = c.pathname := by
          unfold Client.take
          split <;> rfl
        refine ⟨rfl, pathnames_set client same, fun bound q name => ?_⟩
        simpa [State.setClient] using bound q name
      · cases taken
      · cases taken
  case h_6 =>
    cases taken
    refine ⟨rfl, pathnames_set client rfl, fun _ q name => ?_⟩
    simp [State.setClient] at name
  all_goals cases taken

theorem step_frame {s t : State} {e : Event} (taken : step s e = some t) : Frame s t := by
  cases e with
  | client i =>
    obtain ⟨c, client, moved⟩ := Option.bind_eq_some_iff.mp taken
    exact stepClient_frame client moved
  | server =>
    simp only [step, QueueServer.stepServer] at taken
    split at taken
    · cases taken
    · cases taken
      exact ⟨rfl, rfl, fun bound => bound⟩
  | child j =>
    obtain ⟨ch, -, moved⟩ := Option.bind_eq_some_iff.mp taken
    obtain ⟨queues, ch', rfl, same⟩ := stepChild_eq moved
    exact ⟨rfl, rfl, fun bound q name => same ▸ bound q name⟩

theorem Work.underWay {s : State} {i : ℕ} {c : Client} (work : Work s i c) :
    c.pc.underWay = true := by
  cases work with
  | starting pc => rw [pc]; rfl
  | opened q pc => rw [pc]; rfl
  | ending pc => rw [pc]; rfl
  | requested q waiting | serving q _ _ _ waiting | answered q _ _ waiting =>
    rcases waiting.pc with pc | pc <;> rw [pc] <;> rfl

/-! ## Whole runs -/

theorem Phase.step {s t : State} {e : Event} (phase : Phase s)
    (bound : ∀ q, s.names fooPath = some q → q < s.queues.length) (alone : Alone s e)
    (taken : step s e = some t) : Phase t ∧ OwnGrowth s t := by
  cases e with
  | client k =>
    obtain ⟨c, client, moved⟩ := Option.bind_eq_some_iff.mp taken
    cases phase with
    | idle clients quiet =>
      have settled := clients c (List.mem_of_getElem? client)
      exact stepClient_create client clients quiet (settled.stepClient moved) moved
    | active i active there others work =>
      by_cases same : k = i
      · subst same
        cases client.symm.trans there
        exact work.stepClient client others moved
      · have new := (others k c same client).stepClient moved
        have pc : c.pc = .create := by rw [new]; rfl
        have finished := alone c client pc i active (Ne.symm same) there
        simp [work.underWay] at finished
  | server =>
    have own : OwnGrowth s t := by
      simp only [QueueServer.step, stepServer] at taken
      split at taken
      · cases taken
      · cases taken
        exact .of_eq rfl
    cases phase with
    | idle clients quiet => simp [QueueServer.step, stepServer, quiet.requests] at taken
    | active i c client others work => exact ⟨work.stepServer client others bound taken, own⟩
  | child k =>
    obtain ⟨ch, at_, moved⟩ := Option.bind_eq_some_iff.mp taken
    have own : OwnGrowth s t := by
      obtain ⟨queues, ch', rfl, -⟩ := stepChild_eq moved
      exact .of_eq rfl
    cases phase with
    | idle clients quiet =>
      have finished := quiet.children ch (List.mem_of_getElem? at_)
      simp [stepChild, finished] at moved
    | active i c client others work => exact ⟨work.stepChild client others at_ moved, own⟩

theorem step_oneByOne (s : State) (e : Event) (t : State) (inv : OneByOne s) (alone : Alone s e)
    (taken : step s e = some t) : OneByOne t := by
  obtain ⟨phase, own⟩ := inv.phase.step inv.named alone taken
  refine ⟨phase, (step_frame taken).named inv.named, fun x known => ?_⟩
  exact (own x known).elim (inv.own x) id

/-- As long as clients open their queues one at a time, everything is as for one client. -/
theorem run_oneByOne {files : List UInt8 → Option (List UInt8)} {pathnames : List Pathname}
    {es : List Event} {s : State} (ran : exec step (start files pathnames) es = some s)
    (alone : AllSteps step Alone (start files pathnames) es) : OneByOne s :=
  exec_invariant_of_allSteps step_oneByOne ran alone (start_oneByOne files pathnames)

end SystemProgramming.QueueServer
