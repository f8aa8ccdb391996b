import SystemProgramming.FileServer.Concurrent
import SystemProgramming.FileServer.Transfer
import SystemProgramming.Lib.Parts

/-! # Each client as if it were alone

A request is in the queue of the server once, and one child serves it. So what a client sees of the server is an
exchange of its own: the parent's `msgrcv` of its request and the acts of that child. The other clients and their
children come between these events and change nothing about them.
-/

namespace SystemProgramming.FileServer

open Lib

/-! ## One process -/

section

variable (x : Exchange) {files : Bytes → Option Bytes} {stack : Memory} {queue : Bool} {s t : Server}
  {sent : List Message}

/-- A child is the server of an exchange behind its `msgrcv`. -/
theorem serverAct_eq_serveRequest (forked : s.pc ≠ .listen) (inbox : List Message) :
    serverAct x s inbox =
      (serveRequest x.files x.serverStack (decide (readInt s.req = x.clientId)) s).map fun (t, sent) =>
        (t, inbox, sent) := by
  have same (resp : Memory) (size : ℕ) :
      respond x s resp size = send (decide (readInt s.req = x.clientId)) resp size := by
    simp only [respond, send, decide_eq_true_eq]
  obtain ⟨pc, req, resp, rejected⟩ := s
  cases pc with
  | listen => exact absurd rfl forked
  | serveRequest =>
    simp only [serverAct, serveRequest, same]
    cases x.files (cString req dataOffset) with
    | none =>
      cases send _ (failureMsg x.serverStack (cString req dataOffset)) _
      · rfl
      · rfl
    | some content => rfl
  | transmit rest =>
    simp only [serverAct, serveRequest, same]
    split_ifs
    · rfl
    · cases send _ (resp.store dataOffset (rest.take msgSize)) _
      · rfl
      · rfl
  | finish =>
    simp only [serverAct, serveRequest, same]
    cases send _ (resp.store 0 (int mtEnd)) _
    · rfl
    · rfl
  | exited => rfl

/-- It reads nothing but the pathname of the request it has copied. -/
theorem serveRequest_with_req {req : Memory} (path : cString req dataOffset = cString s.req dataOffset) :
    serveRequest files stack queue { s with req := req } =
      (serveRequest files stack queue s).map fun (t, sent) => ({ t with req := req }, sent) := by
  obtain ⟨pc, _, resp, rejected⟩ := s
  cases pc with
  | listen => rfl
  | serveRequest =>
    simp only [serveRequest, path]
    cases files _ with
    | none =>
      cases send queue (failureMsg stack _) _
      · rfl
      · rfl
    | some content => rfl
  | transmit rest =>
    simp only [serveRequest]
    split_ifs
    · rfl
    · cases send queue (resp.store dataOffset (rest.take msgSize)) _
      · rfl
      · rfl
  | finish =>
    simp only [serveRequest]
    cases send queue (resp.store 0 (int mtEnd)) _
    · rfl
    · rfl
  | exited => rfl

theorem serveRequest_keeps (acts : serveRequest files stack queue s = some (t, sent)) :
    t.req = s.req ∧ t.pc ≠ .listen := by
  obtain ⟨pc, req, resp, rejected⟩ := s
  cases pc with
  | listen => cases acts
  | serveRequest =>
    simp only [serveRequest] at acts
    cases found : files (cString req dataOffset) with
    | none =>
      rw [found] at acts
      cases accepted : send queue (failureMsg stack (cString req dataOffset)) _ with
      | none => rw [accepted] at acts; cases acts; exact ⟨rfl, nofun⟩
      | some message => rw [accepted] at acts; cases acts; exact ⟨rfl, nofun⟩
    | some content => rw [found] at acts; cases acts; exact ⟨rfl, nofun⟩
  | transmit rest =>
    simp only [serveRequest] at acts
    split_ifs at acts
    · cases acts; exact ⟨rfl, nofun⟩
    · split at acts
      · cases acts; exact ⟨rfl, nofun⟩
      · cases acts; exact ⟨rfl, nofun⟩
  | finish =>
    simp only [serveRequest] at acts
    split at acts
    · cases acts; exact ⟨rfl, nofun⟩
    · cases acts; exact ⟨rfl, nofun⟩
  | exited => cases acts

theorem act_of_step_left {c : Client} {toLeft toRight : List Message} {u : State}
    (moves : step x ⟨c, s, toLeft, toRight⟩ .left = some u) : ∃ acted, clientAct x c toLeft = some acted := by
  simp only [step, duplexStep, client, Option.map_eq_some_iff] at moves
  obtain ⟨acted, acts, -⟩ := moves
  exact ⟨acted, acts⟩

theorem act_of_step_right {c : Client} {toLeft toRight : List Message} {u : State}
    (moves : step x ⟨c, s, toLeft, toRight⟩ .right = some u) : ∃ acted, serverAct x s toRight = some acted := by
  simp only [step, duplexStep, server, Option.map_eq_some_iff] at moves
  obtain ⟨acted, acts, -⟩ := moves
  exact ⟨acted, acts⟩

/-- The client has sent its request. -/
def Asked (c : Client) : Prop := c.pc ≠ .request ∧ c.pc ≠ .refused

/-- The request as the kernel takes it. -/
def request : Message := ⟨(requestMsg x).load 0 8, (requestMsg x).load 8 (x.pathname.length + 1)⟩

theorem asked_of_loop {c : Client} (pc : c.pc = .loop) : Asked c := by simp [Asked, pc]

theorem asked_receive {c : Client} (pc : c.pc = .loop) (resp : Memory) (msgLen : ℤ) :
    Asked (receive c resp msgLen) := by
  rw [receive]
  split_ifs
  · simp [Asked]
  · exact asked_of_loop pc

/-- A client sends nothing but its request, and once. -/
theorem clientAct_cases {c d : Client} {inbox rest : List Message}
    (acts : clientAct x c inbox = some (d, rest, sent)) :
    ¬ Asked c ∧ c.pc = .request ∧
        (¬ Asked d ∧ sent = [] ∨ Asked d ∧ sent = [request x]) ∨
      Asked c ∧ Asked d ∧ sent = [] := by
  obtain ⟨pc, resp, totBytes, numMsgs⟩ := c
  cases pc with
  | request =>
    left
    refine ⟨fun asked => asked.1 rfl, rfl, ?_⟩
    simp only [clientAct] at acts
    cases accepted : msgsnd (requestMsg x) (x.pathname.length + 1) with
    | none =>
      rw [accepted] at acts
      cases acts
      exact .inl ⟨fun asked => asked.2 rfl, rfl⟩
    | some message =>
      rw [accepted] at acts
      cases acts
      obtain ⟨-, rfl⟩ := (msgsnd_eq_some_iff _ _ _).mp accepted
      exact .inr ⟨asked_of_loop rfl, rfl⟩
  | loop =>
    refine .inr ⟨asked_of_loop rfl, ?_⟩
    simp only [clientAct] at acts
    split_ifs at acts
    · cases acts
      exact ⟨by simp [Asked], rfl⟩
    · cases inbox with
      | nil => cases acts
      | cons message more =>
        dsimp only at acts
        split_ifs at acts
        · cases acts
          exact ⟨asked_receive rfl _ _, rfl⟩
        · cases acts
          exact ⟨asked_receive rfl _ _, rfl⟩
  | refused => cases acts
  | failed => cases acts
  | succeeded => cases acts

theorem carries_request : Carries (request x) x.clientId (x.pathname.length + 1) :=
  ⟨_, rfl, readInt_requestMsg x⟩

/-- The request fits the structure of the server. -/
theorem request_not_long : ¬ reqMsgSize < (request x).text.length := by
  have short := x.notLong
  rw [(carries_request x).length_text, reqMsgSize, pathMax]
  omega

end

/-! ## All processes -/

section

variable {ι : Type} {site : Site ι} {i j : ι}

theorem owner_clientId (site : Site ι) (i : ι) : site.owner (site.clientId i) = some i :=
  (site.owner_eq_some _ i).mpr rfl

theorem request_injective (same : request (site.exchange i) = request (site.exchange j)) : i = j := by
  have left := (carries_request (site.exchange i)).readInt_eq (fun _ => 0)
  rw [same, (carries_request (site.exchange j)).readInt_eq] at left
  have owner := owner_clientId site j
  rw [show (site.clientId j : ℤ) = site.clientId i from left, owner_clientId] at owner
  exact Option.some.inj owner

/-- A server process has the request of the client in its structure. -/
def Serves (site : Site ι) (i : ι) (s : Server) : Prop :=
  readInt s.req = site.clientId i ∧ cString s.req dataOffset = site.pathname i

theorem Serves.unique {s : Server} (left : Serves site i s) (right : Serves site j s) : i = j := by
  have owner := owner_clientId site j
  rw [← right.1, left.1, owner_clientId] at owner
  exact Option.some.inj owner

theorem Serves.owner {s : Server} (serves : Serves site i s) : site.owner (readInt s.req) = some i := by
  rw [serves.1, owner_clientId]

/-- A child acts like the server of its client's exchange, whatever else is in its copy of the request. -/
theorem serverAct_with_req {c : Server} {req : Memory} (forked : c.pc ≠ .listen) (serves : Serves site i c)
    (own : Serves site i { c with req := req }) (inbox : List Message) :
    serverAct (site.exchange i) { c with req := req } inbox =
      (serveRequest site.files (site.childStack (site.clientId i)) true c).map fun (d, sent) =>
        ({ d with req := req }, inbox, sent) := by
  have path : cString req dataOffset = cString c.req dataOffset := own.2.trans serves.2.symm
  have known : decide (readInt req = (site.exchange i).clientId) = true := decide_eq_true own.1
  rw [serverAct_eq_serveRequest (s := { c with req := req }) _ forked, serveRequest_with_req path]
  dsimp only
  rw [known, Option.map_map]
  rfl

/-- After `msgrcv`, whatever was in the structure before. -/
theorem serves_msgrcv (i : ι) (memory : Memory) (pc : ServerPc) (resp : Memory) (rejected : ℕ) :
    Serves site i ⟨pc, msgrcv memory (request (site.exchange i)), resp, rejected⟩ :=
  ⟨(carries_request _).readInt_eq memory, cString_request (site.exchange i) memory⟩

/-- Each request that has been sent is either in the queue of the server or with one child. -/
structure Proper (site : Site ι) (n : Net ι) : Prop where
  listening : n.listening = true
  requests : ∀ m ∈ n.requests, ∃ i, m = request (site.exchange i) ∧ Asked (n.clients i)
  nodup : n.requests.Nodup
  children : ∀ c ∈ n.children, c.pc ≠ .listen ∧
    ∃ i, Serves site i c ∧ Asked (n.clients i) ∧ request (site.exchange i) ∉ n.requests
  distinct : (n.children.map fun c => readInt c.req).Nodup

/-- The exchange of a client as it stands: its request has not been sent, or has not been received, or a child
serves it. -/
structure View (site : Site ι) (i : ι) (n : Net ι) (s : State) : Prop where
  left : s.left = n.clients i
  toLeft : s.toLeft = n.queues i
  right :
    s.right = serverStart (site.exchange i) ∧
        (¬ Asked (n.clients i) ∧ s.toRight = [] ∨
          request (site.exchange i) ∈ n.requests ∧ s.toRight = [request (site.exchange i)]) ∨
      s.toRight = [] ∧ ∃ (k : ℕ) (c : Server), n.children[k]? = some c ∧ Serves site i c ∧
        Serves site i s.right ∧ s.right = { c with req := s.right.req }

variable {n : Net ι}

theorem Proper.asked_of_request (proper : Proper site n) (sent : request (site.exchange i) ∈ n.requests) :
    Asked (n.clients i) := by
  obtain ⟨j, same, asked⟩ := proper.requests _ sent
  exact request_injective same ▸ asked

theorem Proper.asked_of_child (proper : Proper site n) {k : ℕ} {c : Server} (there : n.children[k]? = some c)
    (serves : Serves site i c) : Asked (n.clients i) ∧ request (site.exchange i) ∉ n.requests := by
  obtain ⟨-, j, other, asked, taken⟩ := proper.children c (List.mem_of_getElem? there)
  cases serves.unique other
  exact ⟨asked, taken⟩

/-- No two children serve one client. -/
theorem Proper.child_unique (proper : Proper site n) {k l : ℕ} {c d : Server}
    (left : n.children[k]? = some c) (right : n.children[l]? = some d) (serves : Serves site i c)
    (also : Serves site i d) : k = l := by
  have ids (k : ℕ) (c : Server) (there : n.children[k]? = some c) :
      (n.children.map fun c => readInt c.req)[k]? = some (readInt c.req) := by
    rw [List.getElem?_map, there, Option.map_some]
  have inside := lt_length_of_getElem? (ids k c left)
  refine (List.getElem?_inj inside proper.distinct).mp ?_
  rw [ids k c left, ids l d right, serves.1, also.1]

/-! ### A client acts -/

section

variable [DecidableEq ι] {c : Client} {rest sent : List Message}

theorem asked_update (later : Asked (n.clients i) → Asked c) (asked : Asked (n.clients j)) :
    Asked (Function.update n.clients i c j) := by
  rw [Function.update_apply]
  split_ifs with same
  · exact later (same ▸ asked)
  · exact asked

theorem Proper.client (proper : Proper site n)
    (acts : clientAct (site.exchange i) (n.clients i) (n.queues i) = some (c, rest, sent)) :
    Proper site { n with
      clients := Function.update n.clients i c
      queues := Function.update n.queues i rest
      requests := n.requests ++ sent } := by
  have cases := clientAct_cases _ acts
  have later : Asked (n.clients i) → Asked c := by
    rcases cases with ⟨unasked, -⟩ | ⟨-, asked, -⟩
    · exact fun asked => absurd asked unasked
    · exact fun _ => asked
  have new (m : Message) (member : m ∈ sent) :
      m = request (site.exchange i) ∧ ¬ Asked (n.clients i) ∧ Asked c := by
    rcases cases with ⟨unasked, -, ⟨-, rfl⟩ | ⟨asked, rfl⟩⟩ | ⟨-, -, rfl⟩
    · exact absurd member List.not_mem_nil
    · exact ⟨List.mem_singleton.mp member, unasked, asked⟩
    · exact absurd member List.not_mem_nil
  constructor
  · exact proper.listening
  · intro m member
    rcases List.mem_append.mp member with old | sending
    · obtain ⟨j, same, asked⟩ := proper.requests m old
      exact ⟨j, same, asked_update later asked⟩
    · obtain ⟨same, -, asked⟩ := new m sending
      refine ⟨i, same, ?_⟩
      simp only [Function.update_self, asked]
  · refine List.Nodup.append proper.nodup ?_ ?_
    · rcases cases with ⟨-, -, ⟨-, rfl⟩ | ⟨-, rfl⟩⟩ | ⟨-, -, rfl⟩
      · exact List.nodup_nil
      · exact List.nodup_singleton _
      · exact List.nodup_nil
    · intro m old sending
      obtain ⟨rfl, unasked, -⟩ := new m sending
      exact unasked (proper.asked_of_request old)
  · intro d member
    obtain ⟨forked, j, serves, asked, taken⟩ := proper.children d member
    refine ⟨forked, j, serves, asked_update later asked, fun queued => ?_⟩
    rcases List.mem_append.mp queued with old | sending
    · exact taken old
    · obtain ⟨same, unasked, -⟩ := new _ sending
      exact unasked (request_injective same ▸ asked)
  · exact proper.distinct

theorem View.client_own {s : State} (proper : Proper site n) (view : View site i n s)
    (acts : clientAct (site.exchange i) (n.clients i) (n.queues i) = some (c, rest, sent)) :
    ∃ f t, step (site.exchange i) s f = some t ∧ View site i { n with
      clients := Function.update n.clients i c
      queues := Function.update n.queues i rest
      requests := n.requests ++ sent } t := by
  obtain ⟨left, right, toLeft, toRight⟩ := s
  obtain ⟨rfl, rfl, behind⟩ := view
  refine ⟨.left, _, step_left toRight acts, by simp, by simp, ?_⟩
  have quiet (asked : Asked (n.clients i)) : sent = [] := by
    rcases clientAct_cases _ acts with ⟨unasked, -⟩ | ⟨-, -, none⟩
    · exact absurd asked unasked
    · exact none
  simp only [Function.update_self]
  rcases behind with ⟨rfl, ⟨unasked, rfl⟩ | ⟨queued, rfl⟩⟩ | ⟨rfl, k, d, there, serves, serves', same⟩
  · rcases clientAct_cases _ acts with ⟨-, -, ⟨still, rfl⟩ | ⟨-, rfl⟩⟩ | ⟨asked, -⟩
    · exact .inl ⟨rfl, .inl ⟨still, rfl⟩⟩
    · exact .inl ⟨rfl, .inr ⟨List.mem_append_right _ (List.mem_singleton_self _), rfl⟩⟩
    · exact absurd asked unasked
  · rw [quiet (proper.asked_of_request queued), List.append_nil, List.append_nil]
    exact .inl ⟨rfl, .inr ⟨queued, rfl⟩⟩
  · rw [quiet (proper.asked_of_child there serves).1, List.append_nil]
    exact .inr ⟨rfl, k, d, there, serves, serves', same⟩

theorem View.client_other {s : State} (view : View site j n s) (other : j ≠ i) (c : Client)
    (rest sent : List Message) : View site j { n with
      clients := Function.update n.clients i c
      queues := Function.update n.queues i rest
      requests := n.requests ++ sent } s := by
  obtain ⟨left, toLeft, behind⟩ := view
  refine ⟨by simp [other, left], by simp [other, toLeft], ?_⟩
  simp only [Function.update_of_ne other]
  rcases behind with ⟨start, unasked | ⟨queued, waits⟩⟩ | served
  · exact .inl ⟨start, .inl unasked⟩
  · exact .inl ⟨start, .inr ⟨List.mem_append_left _ queued, waits⟩⟩
  · exact .inr served

end

/-! ### The parent forks -/

section

variable {m : Message} {rest : List Message}

/-- The state behind the fork. -/
def Net.fork (site : Site ι) (n : Net ι) (m : Message) (rest : List Message) : Net ι :=
  { n with
    requests := rest
    req := msgrcv n.req m
    children := n.children ++ [⟨.serveRequest, msgrcv n.req m, site.childStack (readInt (msgrcv n.req m)), 0⟩] }

theorem Proper.main [DecidableEq ι] (proper : Proper site n) {t : Net ι} (taken : netStep site n .main = some t) :
    ∃ i rest, n.requests = request (site.exchange i) :: rest ∧
      t = n.fork site (request (site.exchange i)) rest := by
  cases queue : n.requests with
  | nil => simp [netStep, proper.listening, queue] at taken
  | cons m rest =>
    obtain ⟨i, rfl, -⟩ := proper.requests m (queue ▸ List.mem_cons_self ..)
    simp only [netStep, proper.listening, queue, if_neg (request_not_long _), Option.some.injEq] at taken
    refine ⟨i, rest, rfl, ?_⟩
    simp only [Net.fork, proper.listening]
    exact taken.symm

theorem Proper.fork (proper : Proper site n) (queue : n.requests = request (site.exchange i) :: rest) :
    Proper site (n.fork site (request (site.exchange i)) rest) := by
  have unique := proper.nodup
  rw [queue, List.nodup_cons] at unique
  have asked := proper.asked_of_request (i := i) (queue ▸ List.mem_cons_self ..)
  constructor
  · exact proper.listening
  · intro m member
    exact proper.requests m (queue ▸ List.mem_cons_of_mem _ member)
  · exact unique.2
  · intro d member
    rcases List.mem_append.mp member with old | new
    · obtain ⟨forked, j, serves, asked, taken⟩ := proper.children d old
      exact ⟨forked, j, serves, asked, fun queued => taken (queue ▸ List.mem_cons_of_mem _ queued)⟩
    · obtain rfl := List.mem_singleton.mp new
      exact ⟨nofun, i, serves_msgrcv i _ _ _ _, asked, unique.1⟩
  · simp only [Net.fork, List.map_append, List.map_cons, List.map_nil]
    refine List.Nodup.append proper.distinct (List.nodup_singleton _) ?_
    intro id old new
    obtain ⟨d, member, rfl⟩ := List.mem_map.mp old
    obtain ⟨k, there⟩ := List.mem_iff_getElem?.mp member
    obtain ⟨-, j, serves, -, taken⟩ := proper.children d member
    have received : Serves site i ⟨.listen, msgrcv n.req (request (site.exchange i)), n.req, 0⟩ :=
      serves_msgrcv i _ _ _ _
    have same : readInt d.req = site.clientId i := (List.mem_singleton.mp new).trans received.1
    have owner := serves.owner
    rw [same, owner_clientId, Option.some.injEq] at owner
    subst owner
    exact taken (queue ▸ List.mem_cons_self ..)

theorem View.fork_own {s : State} (proper : Proper site n) (view : View site i n s)
    (queue : n.requests = request (site.exchange i) :: rest) :
    ∃ f t, step (site.exchange i) s f = some t ∧
      View site i (n.fork site (request (site.exchange i)) rest) t := by
  obtain ⟨left, right, toLeft, toRight⟩ := s
  obtain ⟨rfl, rfl, behind⟩ := view
  have queued : request (site.exchange i) ∈ n.requests := queue ▸ List.mem_cons_self ..
  rcases behind with ⟨rfl, ⟨unasked, -⟩ | ⟨-, rfl⟩⟩ | ⟨-, k, d, there, serves, -⟩
  · exact absurd (proper.asked_of_request queued) unasked
  · have takes : serverAct (site.exchange i) (serverStart (site.exchange i)) [request (site.exchange i)] =
        some (⟨.serveRequest, msgrcv (site.exchange i).serverStack (request (site.exchange i)),
          (site.exchange i).serverStack, 0⟩, [], []) := by
      simp only [serverAct, serverStart, if_neg (request_not_long _)]
    refine ⟨.right, _, step_right (n.queues i) takes, rfl, List.append_nil _, .inr ⟨rfl, n.children.length, _,
      List.getElem?_concat_length, serves_msgrcv i _ _ _ _, serves_msgrcv i _ _ _ _, ?_⟩⟩
    have received : Serves site i ⟨.listen, msgrcv n.req (request (site.exchange i)), n.req, 0⟩ :=
      serves_msgrcv i _ _ _ _
    rw [received.1]
    rfl
  · exact absurd queued (proper.asked_of_child there serves).2

theorem View.fork_other {s : State} (view : View site j n s) (other : j ≠ i)
    (queue : n.requests = request (site.exchange i) :: rest) :
    View site j (n.fork site (request (site.exchange i)) rest) s := by
  obtain ⟨left, toLeft, behind⟩ := view
  refine ⟨left, toLeft, ?_⟩
  rcases behind with ⟨start, unasked | ⟨queued, waits⟩⟩ | ⟨waits, k, d, there, served⟩
  · exact .inl ⟨start, .inl unasked⟩
  · rw [queue] at queued
    rcases List.mem_cons.mp queued with same | queued
    · exact absurd (request_injective same) other
    · exact .inl ⟨start, .inr ⟨queued, waits⟩⟩
  · exact .inr ⟨waits, k, d, getElem?_append_of_some there, served⟩

end

/-! ### A child answers -/

section

variable [DecidableEq ι] {k : ℕ} {c d : Server} {sent : List Message}

/-- The state behind an act of a child for its client. -/
def Net.answer (n : Net ι) (k : ℕ) (d : Server) (i : ι) (sent : List Message) : Net ι :=
  { n with
    children := n.children.set k d
    queues := Function.update n.queues i (n.queues i ++ sent) }

theorem Proper.child (proper : Proper site n) {t : Net ι} (taken : netStep site n (.child k) = some t) :
    ∃ i c d sent, n.children[k]? = some c ∧ Serves site i c ∧
      serveRequest site.files (site.childStack (site.clientId i)) true c = some (d, sent) ∧
      t = n.answer k d i sent := by
  obtain ⟨c, there, taken⟩ := Option.bind_eq_some_iff.mp taken
  obtain ⟨-, i, serves, -⟩ := proper.children c (List.mem_of_getElem? there)
  obtain ⟨⟨d, sent⟩, acts, rfl⟩ := Option.map_eq_some_iff.mp taken
  rw [serves.owner, serves.1] at acts
  refine ⟨i, c, d, sent, there, serves, acts, ?_⟩
  simp only [Net.answer, serves.owner]

theorem Proper.answer (proper : Proper site n) (there : n.children[k]? = some c)
    (acts : serveRequest site.files (site.childStack (site.clientId i)) true c = some (d, sent)) :
    Proper site (n.answer k d i sent) := by
  obtain ⟨same, forked⟩ := serveRequest_keeps acts
  have old := proper.children c (List.mem_of_getElem? there)
  constructor
  · exact proper.listening
  · exact proper.requests
  · exact proper.nodup
  · intro e member
    rcases List.mem_or_eq_of_mem_set member with before | rfl
    · exact proper.children e before
    · obtain ⟨-, j, serves, rest⟩ := old
      exact ⟨forked, j, ⟨same ▸ serves.1, same ▸ serves.2⟩, rest⟩
  · have ids : ((n.children.set k d).map fun c => readInt c.req) = n.children.map fun c => readInt c.req := by
      apply List.ext_getElem?
      intro l
      rw [List.map_set, same, List.getElem?_set]
      split_ifs with here inside
      · rw [← here, List.getElem?_map, there, Option.map_some]
      · exact absurd (lt_length_of_getElem? there) (by simpa using inside)
      · rfl
    rw [Net.answer, ids]
    exact proper.distinct

theorem View.answer_own {s : State} (proper : Proper site n) (view : View site i n s)
    (there : n.children[k]? = some c) (serves : Serves site i c)
    (acts : serveRequest site.files (site.childStack (site.clientId i)) true c = some (d, sent)) :
    ∃ f t, step (site.exchange i) s f = some t ∧ View site i (n.answer k d i sent) t := by
  obtain ⟨left, right, toLeft, toRight⟩ := s
  obtain ⟨rfl, rfl, behind⟩ := view
  obtain ⟨asked, taken⟩ := proper.asked_of_child there serves
  rcases behind with ⟨-, ⟨unasked, -⟩ | ⟨queued, -⟩⟩ | ⟨rfl, l, e, also, serves', own, same⟩
  · exact absurd asked unasked
  · exact absurd queued taken
  · obtain rfl := proper.child_unique there also serves serves'
    cases there.symm.trans also
    obtain ⟨pc, req, resp, rejected⟩ := right
    obtain ⟨rfl, -, rfl, rfl⟩ := Server.mk.inj same
    obtain ⟨kept, forked⟩ := serveRequest_keeps acts
    have moves := serverAct_with_req (proper.children c (List.mem_of_getElem? there)).1 serves own []
    rw [acts, Option.map_some] at moves
    refine ⟨.right, _, step_right (n.queues i) moves, rfl, by simp [Net.answer], .inr ⟨rfl, k, d,
      getElem?_set_here there, ⟨kept ▸ serves.1, kept ▸ serves.2⟩, own, rfl⟩⟩

theorem View.answer_other {s : State} (view : View site j n s) (other : j ≠ i)
    (there : n.children[k]? = some c) (serves : Serves site i c) (d : Server) (sent : List Message) :
    View site j (n.answer k d i sent) s := by
  obtain ⟨left, toLeft, behind⟩ := view
  refine ⟨left, by simp [Net.answer, other, toLeft], ?_⟩
  rcases behind with start | ⟨waits, l, e, also, serves', rest⟩
  · exact .inl start
  · refine .inr ⟨waits, l, e, ?_, serves', rest⟩
    rw [Net.answer, List.getElem?_set_ne]
    · exact also
    · rintro rfl
      cases there.symm.trans also
      exact other (serves'.unique serves)

end

/-! ### The system -/

theorem proper_start (site : Site ι) : Proper site (netStart site) :=
  ⟨rfl, nofun, List.nodup_nil, nofun, List.nodup_nil⟩

theorem view_start (site : Site ι) (i : ι) : View site i (netStart site) (start (site.exchange i)) :=
  ⟨rfl, rfl, .inl ⟨rfl, .inl ⟨fun asked => asked.1 rfl, rfl⟩⟩⟩

/-- The children with the identifier of a client are the one that serves it. -/
theorem Proper.child_serves (proper : Proper site n) {c : Server} (member : c ∈ n.children)
    (known : readInt c.req = site.clientId i) : Serves site i c := by
  obtain ⟨-, j, serves, -⟩ := proper.children c member
  have owner := serves.owner
  rw [known, owner_clientId, Option.some.injEq] at owner
  exact owner ▸ serves

theorem View.child {s : State} {c : Server} (proper : Proper site n) (view : View site i n s)
    (member : c ∈ n.children) (known : readInt c.req = site.clientId i) :
    s.right = { c with req := s.right.req } := by
  have serves := proper.child_serves member known
  obtain ⟨k, there⟩ := List.mem_iff_getElem?.mp member
  obtain ⟨asked, taken⟩ := proper.asked_of_child there serves
  rcases view.right with ⟨-, ⟨unasked, -⟩ | ⟨queued, -⟩⟩ | ⟨-, l, d, also, serves', -, same⟩
  · exact absurd asked unasked
  · exact absurd queued taken
  · obtain rfl := proper.child_unique there also serves serves'
    cases there.symm.trans also
    exact same

/-- The server of a client's exchange has as many rejected responses as the children of that client. -/
theorem View.rejected_eq_zero_iff {s : State} (proper : Proper site n) (view : View site i n s) :
    s.right.rejected = 0 ↔ ∀ c ∈ n.children, readInt c.req = site.clientId i → c.rejected = 0 := by
  constructor
  · intro none c member known
    rw [view.child proper member known] at none
    exact none
  · intro none
    rcases view.right with ⟨start, -⟩ | ⟨-, k, c, there, serves, -, same⟩
    · rw [start]
      rfl
    · rw [same]
      exact none c (List.mem_of_getElem? there) serves.1

theorem View.delivered_iff {s : State} (proper : Proper site n) (view : View site i n s) :
    NetDelivered site n i ↔ Delivered (site.exchange i) s := by
  rw [NetDelivered, Delivered, view.rejected_eq_zero_iff proper, view.left]
  rfl

variable [DecidableEq ι]

theorem proper_step {n t : Net ι} {e : Event ι} (proper : Proper site n) (taken : netStep site n e = some t) :
    Proper site t := by
  cases e with
  | client i =>
    obtain ⟨⟨c, rest, sent⟩, acts, rfl⟩ := Option.map_eq_some_iff.mp taken
    exact proper.client acts
  | main =>
    obtain ⟨i, rest, queue, rfl⟩ := proper.main taken
    exact proper.fork queue
  | child k =>
    obtain ⟨i, c, d, sent, there, -, acts, rfl⟩ := proper.child taken
    exact proper.answer there acts

theorem delegates (site : Site ι) :
    Delegates (netStep site) (fun i => step (site.exchange i)) (Proper site) (View site) := by
  intro n e t proper taken
  cases e with
  | client i =>
    obtain ⟨⟨c, rest, sent⟩, acts, rfl⟩ := Option.map_eq_some_iff.mp taken
    exact ⟨i, fun _ view => view.client_own proper acts, fun _ other _ view => view.client_other other _ _ _⟩
  | main =>
    obtain ⟨i, rest, queue, rfl⟩ := proper.main taken
    exact ⟨i, fun _ view => view.fork_own proper queue, fun _ other _ view => view.fork_other other queue⟩
  | child k =>
    obtain ⟨i, c, d, sent, there, serves, acts, rfl⟩ := proper.child taken
    exact ⟨i, fun _ view => view.answer_own proper there serves acts,
      fun _ other _ view => view.answer_other other there serves _ _⟩

/-- The parent takes the requests one after the other, so one that waits does not end the run. -/
theorem reflects (site : Site ι) :
    Reflects (netStep site) (fun i => step (site.exchange i)) (Proper site) (View site) := by
  intro i n s f t proper view moves
  obtain ⟨left, right, toLeft, toRight⟩ := s
  obtain ⟨rfl, rfl, behind⟩ := view
  cases f with
  | left =>
    obtain ⟨acted, acts⟩ := act_of_step_left _ moves
    refine ⟨.client i, Option.isSome_iff_exists.mp ?_⟩
    rw [netStep, acts]
    rfl
  | right =>
    obtain ⟨acted, acts⟩ := act_of_step_right _ moves
    rcases behind with ⟨rfl, ⟨unasked, rfl⟩ | ⟨queued, rfl⟩⟩ | ⟨rfl, k, c, there, serves, own, same⟩
    · have stuck : serverAct (site.exchange i) (serverStart (site.exchange i)) [] = none := rfl
      exact absurd (stuck.symm.trans acts) nofun
    · obtain ⟨m, rest, queue⟩ := List.exists_cons_of_ne_nil (List.ne_nil_of_mem queued)
      obtain ⟨j, rfl, -⟩ := proper.requests m (queue ▸ List.mem_cons_self ..)
      refine ⟨.main, n.fork site (request (site.exchange j)) rest, ?_⟩
      simp only [netStep, proper.listening, queue, if_neg (request_not_long _), Net.fork]
    · obtain ⟨pc, req, resp, rejected⟩ := right
      obtain ⟨rfl, -, rfl, rfl⟩ := Server.mk.inj same
      rw [serverAct_with_req (proper.children c (List.mem_of_getElem? there)).1 serves own] at acts
      obtain ⟨⟨d, sent⟩, acts, -⟩ := Option.map_eq_some_iff.mp acts
      refine ⟨.child k, Option.isSome_iff_exists.mp ?_⟩
      simp only [netStep, there, Option.bind_some, serves.owner, Option.isSome_some]
      rw [serves.1, acts]
      rfl

/-- Whatever the other clients ask for and whoever goes on first, what has happened to a client, what is in its
queue and what the child that serves it does next are those of an exchange in which it is alone. -/
theorem client_alone (site : Site ι) (i : ι) {n : Net ι}
    (reached : Reachable (netStep site) (netStart site) n) :
    ∃ s, Reachable (step (site.exchange i)) (start (site.exchange i)) s ∧
      s.left = n.clients i ∧ s.toLeft = n.queues i ∧
        ∀ c ∈ n.children, readInt c.req = site.clientId i → s.right = { c with req := s.right.req } := by
  have proper := reached.invariant (fun _ _ _ => proper_step) (proper_start site)
  obtain ⟨s, alone, view⟩ :=
    (delegates site).exists_view (fun _ _ _ => proper_step) reached (proper_start site) (view_start site i)
  exact ⟨s, alone, view.left, view.toLeft, fun c member known => view.child proper member known⟩

/-- Two clients that ask for the same file. -/
def twoClients : Site Bool where
  files _ := some []
  pathname _ := bytes ['f']
  clientId second := if second then 2 else 1
  clientStack _ _ := 0
  reqStack _ := 0
  childStack _ _ := 0
  owner id := if id = 1 then some false else if id = 2 then some true else none
  owner_eq_some id i := by
    cases i
    · by_cases first : id = 1
      · simp [first]
      · simp [first, eq_comm]
    · by_cases first : id = 1
      · simp [first]
      · simp [first, eq_comm]
  isString _ := by decide
  notHelp _ := by decide
  notLong _ := by decide
  clientId_lt i := by cases i <;> decide

/-- Both have asked, and the second has been taken up first. -/
def twoClientsRun : List (Event Bool) := [.client true, .client false, .main, .child 0]

def twoClientsServed : Net Bool :=
  (exec (netStep twoClients) (netStart twoClients) twoClientsRun).get (by decide +kernel)

theorem second_client_alone :
    ∃ s, Reachable (step (twoClients.exchange true)) (start (twoClients.exchange true)) s ∧
      s.left = twoClientsServed.clients true ∧ s.toLeft = twoClientsServed.queues true ∧
        ∀ c ∈ twoClientsServed.children, readInt c.req = twoClients.clientId true →
          s.right = { c with req := s.right.req } :=
  client_alone twoClients true ⟨twoClientsRun, (Option.some_get _).symm⟩

/-- The server serves every client to the end, and the files that arrive are those whose exchange fits. -/
theorem all_clients_served [Fintype ι] (site : Site ι) :
    (∃ bound, ∀ es n, exec (netStep site) (netStart site) es = some n → es.length ≤ bound) ∧
      ∀ n, Reachable (netStep site) (netStart site) n → Terminal (netStep site) n →
        ∀ i, NetDelivered site n i ↔ Fits (site.exchange i) := by
  have commutes (x : Exchange) : Commutes (step x) := duplex_commutes (client x) (server x)
  choose runs ends ran terminal outcome using fun i => complete_run (site.exchange i)
  constructor
  · refine ⟨∑ i, (runs i).length, fun es n went => ?_⟩
    exact (delegates site).length_le (fun _ _ _ => proper_step) went (proper_start site) (view_start site)
      fun i fs t other => (commutes _).length_le (ran i) (terminal i) other
  · intro n reached stopped i
    have proper := reached.invariant (fun _ _ _ => proper_step) (proper_start site)
    obtain ⟨s, alone, view⟩ :=
      (delegates site).exists_view (fun _ _ _ => proper_step) reached (proper_start site) (view_start site i)
    have last := (reflects site).terminal proper view stopped
    obtain rfl := (commutes _).terminal_unique ⟨runs i, ran i⟩ (terminal i) alone last
    rw [view.delivered_iff proper, outcome i]

end

end SystemProgramming.FileServer
