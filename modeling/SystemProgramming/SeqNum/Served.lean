import SystemProgramming.Lib.Parts
import SystemProgramming.SeqNum.Service

/-! # How the service ends

Every step is one of finitely many that are left, so the clients are served however the processes are
interleaved. What they print are ranges that do not meet, exactly while there are enough numbers.
-/

namespace SystemProgramming.SeqNum

open Lib GetNum

/-! ## The steps that are left -/

/-- A request that is written leaves eight bytes for the server. -/
def ClientPc.fuel : ClientPc → ℕ
  | .usage => 16
  | .mkfifo => 15
  | .getInt => 14
  | .write _ => 13
  | .openRead => 4
  | .read _ => 3
  | .removeFifo _ _ => 2
  | .close _ _ => 1
  | .ended _ => 0

def ServerPc.fuel : ServerPc → ℕ
  | .readRequest => 0
  | .openClient _ => 3
  | .waitReader _ _ => 2
  | .writeResponse _ _ => 1

def State.fuel (s : State) : ℕ := s.queue.length + s.pc.fuel

variable {ι : Type}

def Net.fuel [Fintype ι] (n : Net ι) : ℕ := n.server.fuel + ∑ i, (n.clients i).fuel

theorem stepServer_fuel {s t : State} {failure : Bool} (taken : stepServer s failure = some t) : t.fuel < s.fuel := by
  have move := stepServer_move taken
  cases move with
  | discard pc nonempty short =>
    have := List.length_pos_iff.mpr nonempty
    simp only [State.fuel, List.length_nil]
    omega
  | accept pc whole =>
    rw [requestSize] at whole
    simp only [State.fuel, pc, ServerPc.fuel, List.length_drop, requestSize]
    omega
  | giveUp req pc closed => simp [State.fuel, State.giveUp, pc, ServerPc.fuel]
  | wait req fifo pc => simp [State.fuel, pc, ServerPc.fuel]
  | opened req fifo pc => simp [State.fuel, pc, ServerPc.fuel]
  | lost req fifo pc => simp [State.fuel, State.respond, pc, ServerPc.fuel]
  | delivered req fifo pc => simp [State.fuel, State.respond, pc, ServerPc.fuel]

theorem transmit_server (n : Net ι) (s : State) : (n.transmit s).server = s ∧ (n.transmit s).clients = n.clients := by
  rw [Net.transmit]
  split <;> exact ⟨rfl, rfl⟩

theorem openRead_fuel (s : State) (f : ℕ) : (s.openRead f).fuel ≤ s.fuel := by
  simp only [State.fuel, State.openRead]
  cases s.pc with
  | waitReader req waited =>
    dsimp only
    split_ifs
    · simp [ServerPc.fuel]
    · rfl
  | _ => rfl

variable [DecidableEq ι] {x : Site ι} {n t : Net ι}

theorem mkfifo_fuel (s : State) (pid : BitVec 32) : (s.mkfifo pid).fuel = s.fuel := by
  rw [State.mkfifo]
  split <;> rfl

/-- What a client does makes it go on, and gives the server less to do than it has lost itself. -/
theorem clientStep_fuel {i : ι} (taken : clientStep x n i = some t) :
    ∃ pc, t.clients = Function.update n.clients i pc ∧
      t.server.fuel + pc.fuel < n.server.fuel + (n.clients i).fuel := by
  cases here : n.clients i with
  | usage =>
    simp only [clientStep, here, Option.some.injEq] at taken
    subst taken
    refine ⟨_, rfl, ?_⟩
    split_ifs
    · exact Nat.add_lt_add_left (by decide) _
    · exact Nat.add_lt_add_left (by decide) _
  | mkfifo =>
    simp only [clientStep, here, Option.some.injEq] at taken
    subst taken
    refine ⟨_, rfl, ?_⟩
    rw [mkfifo_fuel]
    exact Nat.add_lt_add_left (by decide) _
  | getInt =>
    simp only [clientStep, here] at taken
    split at taken
    · cases taken
      exact ⟨_, rfl, Nat.add_lt_add_left (by decide) _⟩
    · cases taken
      exact ⟨_, rfl, Nat.add_lt_add_left (show 13 < 14 by decide) _⟩
  | write len =>
    simp only [clientStep, here, step, Option.map_some, Option.some.injEq] at taken
    subst taken
    refine ⟨_, rfl, ?_⟩
    simp only [State.fuel, List.length_append, Request.length_encode, requestSize, ClientPc.fuel]
    omega
  | openRead =>
    simp only [clientStep, here] at taken
    split at taken
    · cases taken
      exact ⟨_, rfl, Nat.add_lt_add_left (by decide) _⟩
    · next fifo _ =>
      cases taken
      exact ⟨_, rfl, Nat.add_lt_add_of_le_of_lt (openRead_fuel n.server fifo) (by simp [ClientPc.fuel])⟩
  | read fifo =>
    simp only [clientStep, here] at taken
    split at taken
    · cases taken
      exact ⟨_, rfl, Nat.add_lt_add_left (by simp [ClientPc.fuel]) _⟩
    · split_ifs at taken
      cases taken
      exact ⟨_, rfl, Nat.add_lt_add_left (by simp [ClientPc.fuel]) _⟩
  | removeFifo stdout clientFd =>
    simp only [clientStep, here, step, Option.map_some, Option.some.injEq] at taken
    subst taken
    refine ⟨_, rfl, Nat.add_lt_add_left ?_ _⟩
    cases clientFd with
    | none => simp [ClientPc.fuel]
    | some fifo => simp [ClientPc.fuel]
  | close stdout fifo =>
    simp only [clientStep, here, step] at taken
    split_ifs at taken
    · cases taken
    · cases taken
      exact ⟨_, rfl, Nat.add_lt_add_left (by simp [ClientPc.fuel]) _⟩
  | ended stdout => simp [clientStep, here] at taken

theorem netStep_fuel [Fintype ι] (n : Net ι) (e : NetEvent ι) (t : Net ι) (taken : netStep x n e = some t) :
    t.fuel < n.fuel := by
  cases e with
  | server =>
    obtain ⟨s, moved, rfl⟩ := Option.map_eq_some_iff.mp taken
    obtain ⟨server, clients⟩ := transmit_server n s
    have less := stepServer_fuel moved
    rw [Net.fuel, Net.fuel, server, clients]
    omega
  | client i =>
    obtain ⟨pc, clients, less⟩ := clientStep_fuel taken
    have sum := sum_update ClientPc.fuel n.clients i pc
    rw [Net.fuel, Net.fuel, clients]
    omega

/-! ## Where the service stops -/

/-- Without a step that is left the server waits for a request, and all clients have ended. -/
theorem ended_of_terminal {o : Order ι} (inv : Inv x n o) (terminal : Terminal (netStep x) n) :
    o.current = none ∧ o.pending = [] ∧ ∀ i, ∃ stdout, n.clients i = .ended stdout := by
  have server : stepServer n.server false = none := Option.map_eq_none_iff.mp (terminal .server)
  have stops (i : ι) : clientStep x n i = none := terminal (.client i)
  have current : o.current = none := by
    cases current : o.current with
    | none => rfl
    | some i =>
      have serving := inv.serving
      obtain ⟨f, readers, name, fifo, -, condition⟩ := inv.phase_current current
      rw [current] at serving
      cases serving with
      | openClient pc =>
        have found : n.server.names (x.request i).pid = some f := name
        simp only [stepServer, pc, found] at server
        split_ifs at server
      | waitReader pc named closed =>
        obtain rfl := Option.some.inj (name.symm.trans named)
        rcases condition with ⟨here, -⟩ | ⟨-, rfl⟩
        · have opens := stops i
          simp [clientStep, here, name] at opens
        · exact absurd (fifo.readers.symm.trans closed) (by decide)
      | writeResponse pc =>
        simp only [stepServer, pc] at server
        split_ifs at server
  have pending : o.pending = [] := by
    have serving := inv.serving
    rw [current] at serving
    cases serving with
    | readRequest pc =>
      simp only [stepServer, pc, ite_eq_left_iff, reduceCtorEq, imp_false, not_not] at server
      rw [inv.queue, List.flatMap_eq_nil_iff] at server
      rw [List.eq_nil_iff_forall_not_mem]
      intro i member
      have short := congrArg List.length (server i member)
      rw [Request.length_encode] at short
      cases short
  refine ⟨current, pending, fun i => ?_⟩
  have phase := inv.clients i
  have step := stops i
  generalize standing : o.standing i = at_ at phase
  have free : at_ ≠ .asked := by
    rw [← standing, Order.standing, current, pending]
    split_ifs with served asked
    · decide
    · cases asked
    · decide
  cases phase with
  | usage here => simp [clientStep, here] at step
  | mkfifo here => simp [clientStep, here] at step
  | getInt here =>
    simp only [clientStep, here] at step
    split at step <;> cases step
  | write here => simp [clientStep, here, SeqNum.step] at step
  | openRead => exact absurd rfl free
  | read => exact absurd rfl free
  | answered here _ _ fifo => simp [clientStep, here, fifo.pipe] at step
  | removeFifo here => simp [clientStep, here, SeqNum.step] at step
  | close here _ _ fifo => simp [clientStep, here, SeqNum.step, fifo.readers] at step
  | ended here => exact ⟨_, here⟩
  | refused here => simp [clientStep, here, SeqNum.step] at step
  | rejected here => exact ⟨_, here⟩

theorem Inv.of_ended {o : Order ι} {i : ι} {stdout : Option (BitVec 32)} (inv : Inv x n o)
    (here : n.clients i = .ended stdout) : n.server.names (x.pid i) = none ∧
      (stdout = none ∧ x.len i = none ∧ o.standing i = .unasked ∨
        ∃ v, stdout = some v ∧ x.len i ≠ none ∧ Given x n i v ∧ o.standing i = .served) := by
  have phase := inv.clients i
  generalize standing : o.standing i = at_ at phase
  cases phase with
  | ended at_end valid unnamed given =>
    cases here.symm.trans at_end
    exact ⟨unnamed, .inr ⟨_, rfl, valid, given, rfl⟩⟩
  | rejected at_end invalid unnamed =>
    cases here.symm.trans at_end
    exact ⟨unnamed, .inl ⟨rfl, invalid, rfl⟩⟩
  | usage elsewhere => cases here.symm.trans elsewhere
  | mkfifo elsewhere => cases here.symm.trans elsewhere
  | getInt elsewhere => cases here.symm.trans elsewhere
  | write elsewhere => cases here.symm.trans elsewhere
  | openRead elsewhere => cases here.symm.trans elsewhere
  | read elsewhere => cases here.symm.trans elsewhere
  | answered elsewhere => cases here.symm.trans elsewhere
  | removeFifo elsewhere => cases here.symm.trans elsewhere
  | close elsewhere => cases here.symm.trans elsewhere
  | refused elsewhere => cases here.symm.trans elsewhere

/-! ## The responses -/

/-- The responses to the requests that name this process. -/
def State.responses (s : State) (pid : BitVec 32) : List Served := s.served.filter fun r => r.req.pid = pid

section

variable {o : Order ι} {i : ι} {v : BitVec 32}

theorem Inv.nodup_served (inv : Inv x n o) : o.served.Nodup := (List.nodup_append.mp inv.distinct).1

theorem Inv.pids (inv : Inv x n o) : (n.server.served.map fun s => s.req.pid) = o.served.map x.pid := by
  have same := congrArg (List.map fun r => r.1.pid) inv.served
  rw [List.map_map, List.map_map] at same
  exact same

/-- A client whose request has not been served has no response. -/
theorem Inv.responses_unserved (inv : Inv x n o) (unserved : i ∉ o.served) : n.server.responses (x.pid i) = [] := by
  rw [State.responses, List.filter_eq_nil_iff]
  intro s member same
  have pid : x.pid i ∈ n.server.served.map fun s => s.req.pid :=
    List.mem_map.mpr ⟨s, member, of_decide_eq_true same⟩
  rw [inv.pids, List.mem_map_of_injective x.pid_injective] at pid
  exact unserved pid

/-- A client is given one response. -/
theorem Inv.responses_given (inv : Inv x n o) (given : Given x n i v) :
    n.server.responses (x.pid i) = [⟨x.request i, v, .delivered⟩] := by
  have nodup : (n.server.served.map fun s => s.req.pid).Nodup := by
    rw [inv.pids]
    exact inv.nodup_served.map x.pid_injective
  exact filter_eq_of_nodup_map nodup given

end

/-- All processes come to an end. A client prints a number if and only if its arguments ask for some; then it is that
of the one response to its request, and there is no response otherwise. -/
theorem every_client_served [Fintype ι] (x : Site ι) :
    (∃ bound, ∀ es n, exec (netStep x) netStart es = some n → es.length ≤ bound) ∧
      ∀ n, Reachable (netStep x) netStart n → Terminal (netStep x) n →
        ∀ i, n.server.names (x.pid i) = none ∧
          ∃ stdout, n.clients i = .ended stdout ∧ (stdout ≠ none ↔ ∃ len, Asks (x.argv1 i) len) ∧
            n.server.responses (x.pid i) = (stdout.map fun v => ⟨x.request i, v, .delivered⟩).toList := by
  constructor
  · refine ⟨(netStart : Net ι).fuel, fun es n ran => ?_⟩
    have := exec_length_le (μ := Net.fuel) netStep_fuel ran
    omega
  · intro n reached terminal i
    obtain ⟨o, inv⟩ := exists_inv reached
    obtain ⟨stdout, here⟩ := (ended_of_terminal inv terminal).2.2 i
    obtain ⟨unnamed, outcome⟩ := inv.of_ended here
    refine ⟨unnamed, stdout, here, ?_⟩
    rw [← len_ne_none_iff]
    rcases outcome with ⟨rfl, invalid, unasked⟩ | ⟨v, rfl, valid, given, -⟩
    · have unserved : i ∉ o.served := by
        intro served
        rw [Order.standing, if_pos served] at unasked
        cases unasked
      constructor
      · exact iff_of_false (not_not_intro rfl) (not_not_intro invalid)
      · exact inv.responses_unserved unserved
    · constructor
      · exact iff_of_true (Option.some_ne_none v) valid
      · exact inv.responses_given given

/-! ## The numbers -/

/-- What the clients do to the server is what the environment may do to it. -/
theorem server_step {e : NetEvent ι} (taken : netStep x n e = some t) :
    t.server = n.server ∨ ∃ f, step n.server f = some t.server := by
  cases e with
  | server =>
    obtain ⟨s, moved, rfl⟩ := Option.map_eq_some_iff.mp taken
    rw [(transmit_server n s).1]
    exact .inr ⟨.server false, moved⟩
  | client i =>
    have went : clientStep x n i = some t := taken
    cases here : n.clients i with
    | usage =>
      simp only [clientStep, here, Option.some.injEq] at went
      exact .inl (went ▸ rfl)
    | mkfifo =>
      simp only [clientStep, here, Option.some.injEq] at went
      exact .inr ⟨.mkfifo (x.pid i), went ▸ rfl⟩
    | getInt =>
      simp only [clientStep, here] at went
      split at went
      · cases went
        exact .inl rfl
      · cases went
        exact .inl rfl
    | write len =>
      simp only [clientStep, here, Option.map_eq_some_iff] at went
      obtain ⟨s, moved, rfl⟩ := went
      exact .inr ⟨_, moved⟩
    | openRead =>
      simp only [clientStep, here] at went
      split at went
      · cases went
        exact .inl rfl
      · next fifo named =>
        cases went
        exact .inr ⟨.openRead (x.pid i), by simp [step, named]⟩
    | read fifo =>
      simp only [clientStep, here] at went
      split at went
      · cases went
        exact .inl rfl
      · split_ifs at went
        cases went
        exact .inl rfl
    | removeFifo stdout clientFd =>
      simp only [clientStep, here, Option.map_eq_some_iff] at went
      obtain ⟨s, moved, rfl⟩ := went
      exact .inr ⟨_, moved⟩
    | close stdout fifo =>
      simp only [clientStep, here, Option.map_eq_some_iff] at went
      obtain ⟨s, moved, rfl⟩ := went
      exact .inr ⟨_, moved⟩
    | ended => simp [clientStep, here] at went

theorem counted_of_reachable (reached : Reachable (netStep x) netStart n) : Counted n.server := by
  refine reached.invariant (I := fun n => Counted n.server) (fun n e t counted taken => ?_) start_counted
  rcases server_step taken with same | ⟨f, moved⟩
  · rw [same]
    exact counted
  · exact step_counted n.server f t.server counted moved

/-- The numbers a client has printed: the first one, and as many as it asked for. -/
def numbers (x : Site ι) (n : Net ι) (i : ι) : Set (BitVec 32) :=
  match n.clients i with
  | .ended (some v) => arc v (x.request i).seqLen.toNat
  | _ => ∅

omit [DecidableEq ι] in
theorem admitted {i : ι} (valid : x.len i ≠ none) : Admitted (x.request i) := by
  obtain ⟨len, some_⟩ := Option.ne_none_iff_exists'.mp valid
  obtain ⟨k, asks, rfl⟩ := (len_eq_some_iff x).mp some_
  have range : 0 < k ∧ k < 2 ^ 31 := by
    cases argv1 : x.argv1 i with
    | none =>
      rw [argv1] at asks
      obtain rfl : k = 1 := asks
      decide
    | some arg =>
      rw [argv1] at asks
      exact asks.2
  rw [Admitted, Site.request, some_, Option.getD_some, BitVec.toNat_ofInt]
  omega

section

variable {o : Order ι} {a b : ℕ} {s r : Served} {i j : ι} {v : BitVec 32}

/-- The requests are served in their order. -/
theorem Inv.served_get (inv : Inv x n o) (here : n.server.served[a]? = some s) :
    ∃ i, o.served[a]? = some i ∧ s.req = x.request i ∧ s.outcome = .delivered := by
  have same := congrArg (·[a]?) inv.served
  simp only [List.getElem?_map, here, Option.map_some] at same
  obtain ⟨i, there, equal⟩ := Option.map_eq_some_iff.mp same.symm
  obtain ⟨request, outcome⟩ := Prod.mk.inj equal
  exact ⟨i, there, request.symm, outcome.symm⟩

/-- The response stands where the client has its turn. -/
theorem Inv.given_get (inv : Inv x n o) (given : Given x n i v) (there : o.served[a]? = some i) :
    n.server.served[a]? = some ⟨x.request i, v, .delivered⟩ := by
  obtain ⟨b, here⟩ := List.mem_iff_getElem?.mp given
  obtain ⟨j, same, request, -⟩ := inv.served_get here
  obtain rfl : i = j := x.pid_injective (congrArg Request.pid request)
  have once : a = b := by
    have inside := lt_length_of_getElem? there
    exact (List.getElem?_inj inside inv.nodup_served).mp (there.trans same.symm)
  rw [once, here]

theorem Inv.given_mem (inv : Inv x n o) (given : Given x n i v) : ∃ a : ℕ, o.served[a]? = some i := by
  obtain ⟨a, here⟩ := List.mem_iff_getElem?.mp given
  obtain ⟨j, same, request, -⟩ := inv.served_get here
  obtain rfl : i = j := x.pid_injective (congrArg Request.pid request)
  exact ⟨a, same⟩

theorem Inv.valid_of_served (inv : Inv x n o) (member : i ∈ o.served) : x.len i ≠ none := by
  have phase := inv.clients i
  rw [Order.standing, if_pos member] at phase
  cases phase with
  | answered _ valid => exact valid
  | removeFifo _ valid => exact valid
  | close _ valid => exact valid
  | ended _ valid => exact valid

theorem Inv.admitted_served (inv : Inv x n o) : ∀ s ∈ n.server.served, Admitted s.req := by
  intro s member
  obtain ⟨a, here⟩ := List.mem_iff_getElem?.mp member
  obtain ⟨i, there, request, -⟩ := inv.served_get here
  exact request ▸ admitted (inv.valid_of_served (List.mem_of_getElem? there))

/-- The server has given out what the clients asked for. -/
theorem Inv.total_eq (inv : Inv x n o) :
    total n.server.served = (o.served.map fun i => (x.request i).seqLen.toNat).sum := by
  have advances : n.server.served.map Served.advance = o.served.map fun i => (x.request i).seqLen.toNat := by
    apply List.ext_getElem?
    intro a
    rw [List.getElem?_map, List.getElem?_map]
    cases here : n.server.served[a]? with
    | none =>
      have lengths := congrArg List.length inv.served
      rw [List.length_map, List.length_map] at lengths
      rw [List.getElem?_eq_none (lengths ▸ List.getElem?_eq_none_iff.mp here)]
      rfl
    | some s =>
      obtain ⟨i, there, request, delivered⟩ := inv.served_get here
      rw [there, Option.map_some, Option.map_some, s.advance_of_delivered delivered, request]
  rw [total, advances]

/-- Two ranges are apart when there is room between their starts. -/
theorem Inv.disjoint_iff (inv : Inv x n o) (counted : Counted n.server) (order : a < b)
    (first : n.server.served[a]? = some s) (second : n.server.served[b]? = some r) :
    Disjoint s.range r.range ↔
      s.req.seqLen.toNat ≤ gap n.server.served a b ∧ gap n.server.served a b + r.req.seqLen.toNat ≤ 2 ^ 32 := by
  have left := inv.admitted_served s (List.mem_of_getElem? first)
  have right := inv.admitted_served r (List.mem_of_getElem? second)
  rw [← counted.distance order.le first second]
  exact arc_disjoint_iff left.1 right.1 s.req.seqLen.isLt.le r.req.seqLen.isLt.le

theorem Inv.roomBetween_iff (inv : Inv x n o) : RoomBetween n.server.served ↔ total n.server.served ≤ 2 ^ 32 := by
  apply roomBetween_iff_total_le inv.admitted_served
  intro s member
  obtain ⟨a, here⟩ := List.mem_iff_getElem?.mp member
  obtain ⟨-, -, -, delivered⟩ := inv.served_get here
  rw [delivered]
  decide

/-- Behind the numbers of a client there is the response it was given. -/
theorem Inv.printed (inv : Inv x n o) (here : n.clients i = .ended (some v)) :
    ∃ a : ℕ, o.served[a]? = some i ∧ n.server.served[a]? = some ⟨x.request i, v, .delivered⟩ := by
  obtain ⟨-, outcome⟩ := inv.of_ended here
  rcases outcome with ⟨none, -⟩ | ⟨w, some_, -, given, -⟩
  · cases none
  · cases some_
    obtain ⟨a, there⟩ := inv.given_mem given
    exact ⟨a, there, inv.given_get given there⟩

omit [DecidableEq ι] in
theorem numbers_of_ended (here : n.clients i = .ended (some v)) :
    numbers x n i = Served.range ⟨x.request i, v, .delivered⟩ := by
  rw [numbers, here]
  rfl

omit [DecidableEq ι] in
theorem ended_of_mem {k : BitVec 32} (member : k ∈ numbers x n i) : ∃ v, n.clients i = .ended (some v) := by
  rw [numbers] at member
  split at member
  · exact ⟨_, ‹_›⟩
  · cases member

theorem Inv.disjoint_of_room (inv : Inv x n o) (counted : Counted n.server) (room : RoomBetween n.server.served)
    (other : i ≠ j) : Disjoint (numbers x n i) (numbers x n j) := by
  rw [Set.disjoint_left]
  intro k mine yours
  obtain ⟨v, first⟩ := ended_of_mem mine
  obtain ⟨w, second⟩ := ended_of_mem yours
  obtain ⟨a, there, left⟩ := inv.printed first
  obtain ⟨b, there', right⟩ := inv.printed second
  rw [numbers_of_ended first] at mine
  rw [numbers_of_ended second] at yours
  rcases Nat.lt_trichotomy a b with order | rfl | order
  · have apart := (inv.disjoint_iff counted order left right).mpr (room a b _ _ order left right rfl rfl)
    exact Set.disjoint_left.mp apart mine yours
  · exact absurd (Option.some.inj (there.symm.trans there')) other
  · have apart := (inv.disjoint_iff counted order right left).mpr (room b a _ _ order right left rfl rfl)
    exact Set.disjoint_left.mp apart yours mine

/-- At the end all that was given out has been printed. -/
theorem Inv.exists_printed (inv : Inv x n o) (terminal : Terminal (netStep x) n)
    (here : n.server.served[a]? = some s) : ∃ i, o.served[a]? = some i ∧ numbers x n i = s.range := by
  obtain ⟨i, there, -⟩ := inv.served_get here
  obtain ⟨stdout, ended⟩ := (ended_of_terminal inv terminal).2.2 i
  obtain ⟨-, outcome⟩ := inv.of_ended ended
  rcases outcome with ⟨-, invalid, -⟩ | ⟨v, rfl, -, given, -⟩
  · exact absurd invalid (inv.valid_of_served (List.mem_of_getElem? there))
  · cases here.symm.trans (inv.given_get given there)
    exact ⟨i, there, numbers_of_ended ended⟩

theorem Inv.room_of_disjoint (inv : Inv x n o) (terminal : Terminal (netStep x) n) (counted : Counted n.server)
    (apart : ∀ i j, i ≠ j → Disjoint (numbers x n i) (numbers x n j)) : RoomBetween n.server.served := by
  intro a b s r order first second _ _
  rw [← inv.disjoint_iff counted order first second]
  obtain ⟨i, there, left⟩ := inv.exists_printed terminal first
  obtain ⟨j, there', right⟩ := inv.exists_printed terminal second
  rw [← left, ← right]
  apply apart
  rintro rfl
  have inside := lt_length_of_getElem? there
  exact order.ne ((List.getElem?_inj inside inv.nodup_served).mp (there.trans there'.symm))

variable [Fintype ι]

theorem Inv.total_le (inv : Inv x n o) : total n.server.served ≤ ∑ i, (x.request i).seqLen.toNat := by
  rw [inv.total_eq, ← List.sum_toFinset _ inv.nodup_served]
  exact Finset.sum_le_sum_of_subset (Finset.subset_univ _)

theorem Inv.total_terminal (inv : Inv x n o) (terminal : Terminal (netStep x) n) :
    total n.server.served = ∑ i, (x.request i).seqLen.toNat := by
  rw [inv.total_eq, ← List.sum_toFinset _ inv.nodup_served]
  refine Finset.sum_subset (Finset.subset_univ _) fun i _ outside => ?_
  obtain ⟨stdout, ended⟩ := (ended_of_terminal inv terminal).2.2 i
  obtain ⟨-, outcome⟩ := inv.of_ended ended
  rcases outcome with ⟨-, invalid, -⟩ | ⟨v, -, -, given, -⟩
  · rw [Site.request, invalid]
    rfl
  · obtain ⟨a, there⟩ := inv.given_mem given
    exact absurd (List.mem_toFinset.mpr (List.mem_of_getElem? there)) outside

end

/-- No number is printed for two clients as long as all they ask for fits the word size, and in the end only
then. -/
theorem numbers_apart [Fintype ι] (x : Site ι) :
    (∑ i, (x.request i).seqLen.toNat ≤ 2 ^ 32 →
      ∀ n, Reachable (netStep x) netStart n → ∀ i j, i ≠ j → Disjoint (numbers x n i) (numbers x n j)) ∧
    ∀ n, Reachable (netStep x) netStart n → Terminal (netStep x) n →
      (∀ i j, i ≠ j → Disjoint (numbers x n i) (numbers x n j)) →
        ∑ i, (x.request i).seqLen.toNat ≤ 2 ^ 32 := by
  constructor
  · intro fits n reached i j other
    obtain ⟨o, inv⟩ := exists_inv reached
    have counted := counted_of_reachable reached
    have room := roomBetween_of_total_le inv.admitted_served (inv.total_le.trans fits)
    exact inv.disjoint_of_room counted room other
  · intro n reached terminal apart
    obtain ⟨o, inv⟩ := exists_inv reached
    have counted := counted_of_reachable reached
    rw [← inv.total_terminal terminal, ← inv.roomBetween_iff]
    exact inv.room_of_disjoint terminal counted apart

end SystemProgramming.SeqNum
