import SystemProgramming.QueueServer.Steps

/-! # What a single client writes

A single client always gets to its end, with the block of zeros its buffer starts with and all the
blocks of the file, the last one filled up with what the buffer held before. That is longer than the
file, whatever the file holds.
-/

namespace SystemProgramming.QueueServer

open Lib

/-! ## Every step brings the end nearer -/

/-- What opening a file and sending it takes at most. -/
def service (files : List UInt8 → Option (List UInt8)) (pathname : Pathname) : ℕ :=
  match files pathname.bytes with
  | none => 5
  | some content => 8 * content.length + 6

def Client.work (files : List UInt8 → Option (List UInt8)) (c : Client) : ℕ :=
  match c.pc with
  | .create => service files c.pathname + 7
  | .reopen => service files c.pathname + 6
  | .request => service files c.pathname + 5
  | .write => 2
  | .receive => 1
  | .unlink => 1
  | .exited => 0
  | .failed => 0

def Child.work (files : List UInt8 → Option (List UInt8)) (ch : Child) : ℕ :=
  match ch.pc with
  | .openQueue => service files ch.req.pathname + 1
  | .openFile => service files ch.req.pathname
  | .read => 8 * ch.fd.length + 5
  | .send => 8 * ch.fd.length + 9
  | .sendEnd => 4
  | .sendFailure => 4
  | .exited => 0

/-- A bound on the steps left. -/
def State.work (s : State) : ℕ :=
  (s.clients.map (Client.work s.files)).sum +
    (s.requests.map fun req => service s.files req.pathname + 2).sum +
    (s.children.map (Child.work s.files)).sum + (s.queues.map fun mail => 3 * mail.length).sum

theorem Client.work_take (files : List UInt8 → Option (List UInt8)) (c : Client) (msg : ResponseMsg) :
    (c.take msg).work files ≤ 2 := by
  unfold Client.take
  split <;> simp [Client.work]

/-- A step of a client that has a queue. -/
theorem stepClient_work {s t : State} {i : ℕ} {c : Client} (client : s.clients[i]? = some c)
    (connected : c.pc = .receive → c.clientId ≠ none) (taken : stepClient s i c = some t) :
    t.work < s.work := by
  have moved (c' : Client) := sum_map_set (Client.work s.files) client c'
  unfold stepClient at taken
  split at taken
  case h_1 pc =>
    split at taken
    · next q named =>
      cases taken
      have change := moved { c with pc := .reopen }
      simp only [Client.work, pc] at change
      simp only [State.work, State.setClient]
      omega
    · next named =>
      cases taken
      have change := moved { c with pc := .request, clientId := some s.queues.length }
      simp only [Client.work, pc] at change
      simp only [State.work, State.setClient, List.map_append, List.sum_append, List.map_cons,
        List.map_nil, List.sum_cons, List.sum_nil, List.length_nil]
      omega
  case h_2 pc =>
    cases taken
    have change := moved { c with pc := .request, clientId := s.names fooPath }
    simp only [Client.work, pc] at change
    simp only [State.work, State.setClient]
    omega
  case h_3 pc =>
    split at taken
    · cases taken
      have change := moved { c with pc := .write }
      simp only [Client.work, pc] at change
      simp only [State.work, State.setClient, List.map_append, List.sum_append, List.map_cons,
        List.map_nil, List.sum_cons, List.sum_nil]
      omega
    · cases taken
  case h_4 pc =>
    cases taken
    have change := moved { c with pc := .receive, stdout := c.stdout ++ c.resp.data.bytes }
    simp only [Client.work, pc] at change
    simp only [State.work, State.setClient]
    omega
  case h_5 pc =>
    split at taken
    · next lost => exact absurd lost (connected pc)
    · next q clientId =>
      split at taken
      · next r rest here =>
        cases taken
        have change := moved (c.take r.msg)
        have fewer := sum_map_set (fun mail => 3 * mail.length) here rest
        have small := Client.work_take s.files c r.msg
        have before : c.work s.files = 1 := by simp [Client.work, pc]
        simp only [List.length_cons] at fewer
        simp only [State.work, State.setClient]
        omega
      · cases taken
      · cases taken
  case h_6 pc =>
    cases taken
    have change := moved { c with pc := .exited }
    simp only [Client.work, pc] at change
    simp only [State.work, State.setClient]
    omega
  all_goals cases taken

theorem stepServer_work {s t : State} (taken : stepServer s = some t) : t.work < s.work := by
  unfold stepServer at taken
  split at taken
  · cases taken
  · next req rest queued =>
    cases taken
    simp only [State.work, queued, List.map_append, List.sum_append, List.map_cons, List.map_nil,
      List.sum_cons, List.sum_nil, Child.work]
    omega

/-- A child that sends, however the send ends. -/
theorem Child.send_work {s t : State} {j : ℕ} {ch next giveUp : Child} (child : s.children[j]? = some ch)
    (sent : next.work s.files + 3 < ch.work s.files) (failed : giveUp.work s.files < ch.work s.files)
    (taken : ch.send s j next giveUp = some t) : t.work < s.work := by
  simp only [Child.send, mqSend] at taken
  have gone := sum_map_set (Child.work s.files) child giveUp
  have gone' := sum_map_set (Child.work s.files) child next
  split at taken
  · cases taken
  · cases taken
    simp only [State.work, State.setChild]
    omega
  · next queues ended =>
    cases taken
    split at ended
    · cases ended
    · split at ended
      · cases ended
      · next mail here =>
        split at ended
        · cases ended
          have more := sum_map_set (fun mail => 3 * mail.length) here
            (mail ++ [Response.mk ch.resp ch.req.sender])
          simp only [List.length_append, List.length_singleton] at more
          simp only [State.work, State.setChild]
          omega
        · cases ended

theorem stepChild_work {s t : State} {j : ℕ} {ch : Child} (child : s.children[j]? = some ch)
    (taken : stepChild s j ch = some t) : t.work < s.work := by
  have moved {ch' : Child} (less : ch'.work s.files < ch.work s.files) :
      (s.setChild j ch').work < s.work := by
    have change := sum_map_set (Child.work s.files) child ch'
    simp only [State.work, State.setChild]
    omega
  unfold stepChild at taken
  split at taken
  case h_1 pc =>
    cases taken
    exact moved (by simp [Child.work, pc])
  case h_2 pc =>
    split at taken
    · next none =>
      cases taken
      exact moved (by simp [Child.work, pc, service, none])
    · next content found =>
      cases taken
      exact moved (by simp [Child.work, pc, service, found])
  case h_3 pc =>
    split at taken
    · cases taken
      exact moved (by simp only [Child.work, pc]; omega)
    · next nonempty =>
      cases taken
      have positive := List.length_pos_of_ne_nil nonempty
      apply moved
      simp only [Child.work, pc, List.length_drop, msgSize]
      omega
  case h_4 pc =>
    apply Child.send_work child _ _ taken
    · simp [Child.work, pc]
    · simp only [Child.work, pc]
      omega
  case h_5 pc => apply Child.send_work child _ _ taken <;> simp [Child.work, pc]
  case h_6 pc => apply Child.send_work child _ _ taken <;> simp [Child.work, pc]
  case h_7 => cases taken

/-! ## A single client is never stuck -/

theorem stepClient_receive_isSome {s : State} {i q : ℕ} {c : Client} {mail : List Response}
    (waiting : Waiting s c q) (here : s.queues[q]? = some mail) (ready : c.pc = .write ∨ mail ≠ []) :
    ∃ t, stepClient s i c = some t := by
  rcases waiting.pc with pc | pc
  · exact ⟨_, stepClient_write pc⟩
  · cases mail with
    | nil => simp [pc] at ready
    | cons r rest => exact ⟨_, stepClient_receive pc waiting.clientId here⟩

/-- A child whose queue is empty can send. -/
theorem stepChild_isSome {s : State} {j q : ℕ} {ch : Child} (running : ch.pc ≠ .exited)
    (queue : ch.pc = .openQueue ∨ ch.clientId = some q) (here : s.queues[q]? = some []) :
    ∃ t, stepChild s j ch = some t := by
  have sends {next giveUp : Child} (id : ch.clientId = some q) :
      ∃ t, ch.send s j next giveUp = some t := by
    simp [Child.send, mqSend, id, here, maxMsg]
  cases pc : ch.pc with
  | openQueue => exact ⟨_, by rw [stepChild, pc]⟩
  | openFile => cases file : s.files ch.req.pathname.bytes <;> simp [stepChild, pc, file]
  | read => by_cases empty : ch.fd = [] <;> simp [stepChild, pc, empty]
  | send | sendEnd | sendFailure =>
    simp only [stepChild, pc]
    exact sends (queue.resolve_left (by simp [pc]))
  | exited => exact absurd pc running

/-- The client has come to its end. -/
def ClientPc.finished : ClientPc → Bool
  | .exited | .failed => true
  | .create | .reopen | .request | .write | .receive | .unlink => false

theorem client_advances {s t : State} {i : ℕ} {c : Client} (client : s.clients[i]? = some c)
    (connected : c.pc = .receive → c.clientId ≠ none) (moved : stepClient s i c = some t) :
    ∃ e t, step s e = some t ∧ t.work < s.work :=
  ⟨.client i, t, by simp [step, client, moved], stepClient_work client connected moved⟩

/-- There is always something to do for a client that is under way. -/
theorem Work.progress {s : State} {i : ℕ} {c : Client} (client : s.clients[i]? = some c)
    (work : Work s i c) : ∃ e t, step s e = some t ∧ t.work < s.work := by
  cases work with
  | starting pc named quiet output =>
    exact client_advances client (by simp [pc]) (by rw [QueueServer.stepClient, pc])
  | opened q pc clientId named quiet output =>
    have room : s.requests.length < maxMsg := by simp [quiet.requests, maxMsg]
    have moved : ∃ t, QueueServer.stepClient s i c = some t := by
      simp [QueueServer.stepClient, pc, room]
    obtain ⟨t, moved⟩ := moved
    exact client_advances client (by simp [pc]) moved
  | requested q waiting requests children queues output =>
    have moved : ∃ t, QueueServer.stepServer s = some t := by simp [QueueServer.stepServer, requests]
    obtain ⟨t, moved⟩ := moved
    exact ⟨.server, t, moved, stepServer_work moved⟩
  | serving q j ch mail waiting requests child running req queue children here queues ours prepared
      output =>
    have connected : c.pc = .receive → c.clientId ≠ none := by simp [waiting.clientId]
    by_cases ready : c.pc = .write ∨ mail ≠ []
    · obtain ⟨t, moved⟩ := stepClient_receive_isSome (i := i) waiting here ready
      exact client_advances client connected moved
    · have empty : mail = [] := by
        by_contra nonempty
        exact ready (.inr nonempty)
      rw [empty] at here
      obtain ⟨t, moved⟩ := stepChild_isSome running queue here
      exact ⟨.child j, t, by simp [step, child, moved], stepChild_work child moved⟩
  | answered q mail last waiting requests children here queues ours final output =>
    have connected : c.pc = .receive → c.clientId ≠ none := by simp [waiting.clientId]
    obtain ⟨t, moved⟩ := stepClient_receive_isSome (i := i) waiting here (.inr (by simp))
    exact client_advances client connected moved
  | ending pc quiet output => exact client_advances client (by simp [pc]) (by rw [QueueServer.stepClient, pc])

theorem OneByOne.progress {s : State} {c : Client} (inv : OneByOne s) (single : s.clients = [c])
    (running : c.pc.finished = false) : ∃ e t, step s e = some t ∧ t.work < s.work := by
  have client : s.clients[0]? = some c := by simp [single]
  cases inv.phase with
  | idle clients quiet =>
    cases clients c (List.mem_of_getElem? client) with
    | ended pc output => rcases pc with pc | pc <;> simp [pc, ClientPc.finished] at running
    | fresh new =>
      have pc : c.pc = .create := by rw [new]; rfl
      have moved : ∃ t, stepClient s 0 c = some t := by
        cases named : s.names fooPath <;> simp [stepClient, pc, named]
      obtain ⟨t, moved⟩ := moved
      exact client_advances client (by simp [pc]) moved
  | active i active there others work => exact work.progress there

/-! ## The file and what is written -/

theorem length_le_blocks (data : Data) (fd : List UInt8) : fd.length ≤ (blocks data fd).length := by
  induction bound : fd.length using Nat.strongRecOn generalizing data fd with
  | ind n ih =>
    by_cases empty : fd = []
    · simp [empty] at bound
      omega
    · have positive := List.length_pos_of_ne_nil empty
      rw [blocks_of_ne_nil data empty, List.length_append, Data.size]
      have rest := ih (fd.drop msgSize).length (by simp only [List.length_drop, msgSize]; omega)
        (data.fill (fd.take msgSize) (List.length_take_le msgSize fd)) (fd.drop msgSize) rfl
      rw [List.length_drop] at rest
      omega

/-- The zeros at the beginning make the output longer than the file. -/
theorem expected_ne_file {files : List UInt8 → Option (List UInt8)} {pathname : Pathname}
    {content : List UInt8} (exists_ : files pathname.bytes = some content) :
    expected files pathname ≠ content := by
  intro same
  have long := length_le_blocks .zero content
  have lengths := congrArg List.length same
  simp only [expected, answer, exists_, List.length_append, Data.size, msgSize] at lengths
  omega

/-- A client that ends after clients came one at a time has written the zeros and its answer. -/
theorem OneByOne.output {s : State} {i : ℕ} {c : Client} (inv : OneByOne s)
    (client : s.clients[i]? = some c) (finished : c.pc.finished = true) :
    c.stdout = expected s.files c.pathname := by
  have settled : Settled s.files c := by
    cases inv.phase with
    | idle clients quiet => exact clients c (List.mem_of_getElem? client)
    | active k active there others work =>
      apply others i c _ client
      rintro rfl
      cases client.symm.trans there
      have busy := work.underWay
      cases pc : c.pc <;> simp [pc, ClientPc.finished, ClientPc.underWay] at finished busy
  cases settled with
  | fresh new =>
    rw [new] at finished
    cases finished
  | ended pc output => exact output

/-! ## Runs of a single client -/

/-- The one client of the system, for the path it was started with. -/
def Single (files : List UInt8 → Option (List UInt8)) (pathname : Pathname) (s : State) : Prop :=
  s.files = files ∧ s.clients.map Client.pathname = [pathname]

theorem Single.clients {files : List UInt8 → Option (List UInt8)} {pathname : Pathname} {s : State}
    (single : Single files pathname s) : ∃ c, s.clients = [c] ∧ c.pathname = pathname :=
  List.map_eq_singleton_iff.mp single.2

theorem Single.step {files : List UInt8 → Option (List UInt8)} {pathname : Pathname} {s t : State}
    {e : Event} (single : Single files pathname s) (taken : step s e = some t) :
    Single files pathname t := by
  have frame := step_frame taken
  exact ⟨frame.files.trans single.1, frame.pathnames.trans single.2⟩

/-- Where there is no other client, a client opens its queue alone. -/
theorem Single.alone {files : List UInt8 → Option (List UInt8)} {pathname : Pathname} {s : State}
    (single : Single files pathname s) (e : Event) : Alone s e := by
  obtain ⟨c, only, -⟩ := single.clients
  cases e with
  | server | child j => trivial
  | client i =>
    intro here client _ k other different there
    rw [only] at client there
    have first := lt_length_of_getElem? client
    have second := lt_length_of_getElem? there
    simp only [List.length_singleton] at first second
    omega

/-- What holds throughout the run of a single client. -/
theorem single_run {files : List UInt8 → Option (List UInt8)} {pathname : Pathname}
    {es : List Event} {s : State} (ran : exec step (start files [pathname]) es = some s) :
    OneByOne s ∧ Single files pathname s := by
  have start : OneByOne (start files [pathname]) ∧ Single files pathname (start files [pathname]) :=
    ⟨start_oneByOne files [pathname], rfl, rfl⟩
  refine exec_invariant (I := fun s => OneByOne s ∧ Single files pathname s) ?_ ran start
  rintro s e t ⟨inv, single⟩ taken
  exact ⟨step_oneByOne s e t inv (single.alone e) taken, single.step taken⟩

/-- A single client can always come to its end. -/
theorem single_client_finishes (files : List UInt8 → Option (List UInt8)) (pathname : Pathname) :
    ∃ es s c, exec step (start files [pathname]) es = some s ∧ s.clients = [c] ∧
      c.pc.finished = true := by
  have finishes : ∃ es s, exec step (start files [pathname]) es = some s ∧
      (OneByOne s ∧ Single files pathname s) ∧ ∃ c, s.clients = [c] ∧ c.pc.finished = true := by
    apply exists_exec_of_progress (μ := State.work)
    · rintro s ⟨inv, single⟩ unfinished
      obtain ⟨c, only, -⟩ := single.clients
      have running : c.pc.finished = false := by
        by_contra finished
        exact unfinished ⟨c, only, by simpa using finished⟩
      obtain ⟨e, t, taken, less⟩ := inv.progress only running
      exact ⟨e, t, taken, ⟨step_oneByOne s e t inv (single.alone e) taken, single.step taken⟩, less⟩
    · exact ⟨start_oneByOne files [pathname], rfl, rfl⟩
  obtain ⟨es, s, ran, -, c, only, finished⟩ := finishes
  exact ⟨es, s, c, ran, only, finished⟩

/-- At its end it has written the zeros and the answer. -/
theorem single_client_output {files : List UInt8 → Option (List UInt8)} {pathname : Pathname}
    {es : List Event} {s : State} {c : Client} (ran : exec step (start files [pathname]) es = some s)
    (only : s.clients = [c]) (finished : c.pc.finished = true) : c.stdout = expected files pathname := by
  obtain ⟨inv, single⟩ := single_run ran
  obtain ⟨c', only', path⟩ := single.clients
  cases List.singleton_inj.mp (only.symm.trans only')
  rw [inv.output (i := 0) (by simp [only]) finished, single.1, path]

/-- A single client can come to its end, and whenever it does it has not written the file. -/
theorem single_client_never_copies (files : List UInt8 → Option (List UInt8)) (pathname : Pathname)
    (content : List UInt8) (exists_ : files pathname.bytes = some content) :
    (∃ es s c, exec step (start files [pathname]) es = some s ∧ s.clients = [c] ∧
        c.pc.finished = true) ∧
      ∀ es s c, exec step (start files [pathname]) es = some s → s.clients = [c] →
        c.pc.finished = true → c.stdout ≠ content := by
  constructor
  · exact single_client_finishes files pathname
  · intro es s c ran only finished
    rw [single_client_output ran only finished]
    exact expected_ne_file exists_

/-- A file of two bytes. -/
theorem two_bytes_not_copied : ∃ es s c,
    exec step (start (fun _ => some [104, 105]) [⟨[120], by decide⟩]) es = some s ∧ s.clients = [c] ∧
      c.pc.finished = true ∧ c.stdout ≠ [104, 105] := by
  obtain ⟨⟨es, s, c, ran, only, finished⟩, never⟩ :=
    single_client_never_copies (fun _ => some [104, 105]) ⟨[120], by decide⟩ [104, 105] rfl
  exact ⟨es, s, c, ran, only, finished, never es s c ran only finished⟩

/-- For the empty file a block of zeros is written. -/
theorem empty_file_not_copied : ¬ ∀ es s c,
    exec step (start (fun _ => some []) [⟨[120], by decide⟩]) es = some s → s.clients = [c] →
      c.pc.finished = true → c.stdout = [] := by
  intro all
  obtain ⟨es, s, c, ran, only, finished⟩ := single_client_finishes (fun _ => some []) ⟨[120], by decide⟩
  have zeros := single_client_output ran only finished
  rw [all es s c ran only finished] at zeros
  have differs : expected (fun _ => some []) ⟨[120], by decide⟩ ≠ ([] : List UInt8) :=
    expected_ne_file rfl
  exact differs zeros.symm

end SystemProgramming.QueueServer
