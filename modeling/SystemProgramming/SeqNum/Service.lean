import SystemProgramming.SeqNum.Clients
import SystemProgramming.SeqNum.Framing
import SystemProgramming.SeqNum.Ranges

/-! # Every client gets its numbers

The requests are served in the order in which they are written, each once. The invariant says for each client
where it is, what its FIFO holds and whether its request is still to come, in the queue or in work, or served.
-/

namespace SystemProgramming.SeqNum

open Lib GetNum

variable {ι : Type} (x : Site ι)

/-- What `getInt` lets the client ask for. -/
def Site.len (i : ι) : Option (BitVec 32) :=
  match seqLen (x.argv1 i) with
  | .error _ => none
  | .ok len => some (BitVec.ofInt 32 len)

def Site.request (i : ι) : Request := ⟨x.pid i, (x.len i).getD 0⟩

/-! ## What a client asks for -/

/-- The number the arguments ask for. -/
def Asks : Option Bytes → ℤ → Prop
  | none, n => n = 1
  | some arg, n => Denotes 10 arg n ∧ 0 < n ∧ n < 2 ^ 31

theorem seqLen_eq_ok_iff {argv1 : Option Bytes} {n : ℤ} : seqLen argv1 = .ok n ↔ Asks argv1 n := by
  cases argv1 with
  | none =>
    simp only [seqLen, Except.ok.injEq, Asks]
    exact eq_comm
  | some arg =>
    have ten : base gnGt0 = 10 := by decide
    have positive : Allowed gnGt0 n ↔ 0 < n := by
      rw [Allowed]
      exact ⟨fun allowed => allowed.2 (by decide), fun low => ⟨fun _ => low.le, fun _ => low⟩⟩
    rw [seqLen, getInt_eq_ok, getNum_eq_ok_iff, Asks]
    constructor
    · rintro ⟨⟨text, same, denotes, -, allowed⟩, -, high⟩
      cases same
      exact ⟨ten ▸ denotes, positive.mp allowed, high⟩
    · rintro ⟨denotes, low, high⟩
      exact ⟨⟨arg, rfl, ten.symm ▸ denotes, ⟨by omega, by omega⟩, positive.mpr low⟩, by omega, high⟩

theorem len_eq_some_iff {i : ι} {len : BitVec 32} :
    x.len i = some len ↔ ∃ n, Asks (x.argv1 i) n ∧ len = BitVec.ofInt 32 n := by
  rw [Site.len]
  cases got : seqLen (x.argv1 i) with
  | error out =>
    simp only [reduceCtorEq, false_iff, not_exists, not_and]
    intro n asks
    rw [seqLen_eq_ok_iff.mpr asks] at got
    cases got
  | ok n =>
    rw [Option.some.injEq]
    constructor
    · rintro rfl
      exact ⟨n, seqLen_eq_ok_iff.mp got, rfl⟩
    · rintro ⟨m, asks, rfl⟩
      rw [seqLen_eq_ok_iff.mpr asks] at got
      cases got
      rfl

theorem len_ne_none_iff {i : ι} : x.len i ≠ none ↔ ∃ n, Asks (x.argv1 i) n := by
  rw [Option.ne_none_iff_exists']
  simp only [len_eq_some_iff]
  constructor
  · rintro ⟨_, n, asks, -⟩
    exact ⟨n, asks⟩
  · rintro ⟨n, asks⟩
    exact ⟨_, n, asks, rfl⟩

/-- `--help` is no number. -/
theorem len_help {i : ι} (asks : x.argv1 i = some help) : x.len i = none := by
  rw [Option.eq_none_iff_forall_ne_some]
  intro len valid
  obtain ⟨n, number, -⟩ := (len_eq_some_iff x).mp valid
  rw [asks] at number
  have whole : (strtol 10 help).rest = [] := by rw [strtol_of_denotes (by decide) number.1]
  exact absurd whole (by decide +kernel)

/-! ## Where a client is -/

/-- The FIFO number `f` is that of the client, and in this condition. -/
structure Fifo (n : Net ι) (i : ι) (f readers : ℕ) (pipe : List (BitVec 32)) (hungUp : Bool) : Prop where
  owner : n.owners[f]? = some i
  readers : n.server.readers f = readers
  pipe : n.pipes f = pipe
  hungUp : n.hungUp f = hungUp

/-- How far the request of a client is. -/
inductive Standing where
  | unasked
  | asked
  | served
deriving DecidableEq

/-- The response to the client is `v`. -/
def Given (n : Net ι) (i : ι) (v : BitVec 32) : Prop := ⟨x.request i, v, .delivered⟩ ∈ n.server.served

inductive Phase (n : Net ι) (i : ι) : Standing → Prop where
  | usage : n.clients i = .usage → n.server.names (x.pid i) = none → Phase n i .unasked
  | mkfifo : n.clients i = .mkfifo → n.server.names (x.pid i) = none → Phase n i .unasked
  | getInt {f : ℕ} : n.clients i = .getInt → n.server.names (x.pid i) = some f → Fifo n i f 0 [] false →
      Phase n i .unasked
  | write {f : ℕ} {len : BitVec 32} : n.clients i = .write len → x.len i = some len →
      n.server.names (x.pid i) = some f → Fifo n i f 0 [] false → Phase n i .unasked
  | openRead {f : ℕ} : n.clients i = .openRead → x.len i ≠ none → n.server.names (x.pid i) = some f →
      Fifo n i f 0 [] false → Phase n i .asked
  | read {f : ℕ} : n.clients i = .read f → x.len i ≠ none → n.server.names (x.pid i) = some f →
      Fifo n i f 1 [] false → Phase n i .asked
  | answered {f : ℕ} {v : BitVec 32} : n.clients i = .read f → x.len i ≠ none →
      n.server.names (x.pid i) = some f → Fifo n i f 1 [v] true → Given x n i v → Phase n i .served
  | removeFifo {f : ℕ} {v : BitVec 32} : n.clients i = .removeFifo (some v) (some f) → x.len i ≠ none →
      n.server.names (x.pid i) = some f → Fifo n i f 1 [] true → Given x n i v → Phase n i .served
  | close {f : ℕ} {v : BitVec 32} : n.clients i = .close (some v) f → x.len i ≠ none →
      n.server.names (x.pid i) = none → Fifo n i f 1 [] true → Given x n i v → Phase n i .served
  | ended {v : BitVec 32} : n.clients i = .ended (some v) → x.len i ≠ none →
      n.server.names (x.pid i) = none → Given x n i v → Phase n i .served
  | refused {f : ℕ} : n.clients i = .removeFifo none none → x.len i = none →
      n.server.names (x.pid i) = some f → Fifo n i f 0 [] false → Phase n i .unasked
  | rejected : n.clients i = .ended none → x.len i = none → n.server.names (x.pid i) = none →
      Phase n i .unasked

/-! ## What a step leaves alone -/

section

variable {x} {n t : Net ι} {i : ι} {f : ℕ} {standing : Standing}

/-- Nothing the phase of the client speaks of is different. -/
structure Same (x : Site ι) (n t : Net ι) (i : ι) : Prop where
  pc : t.clients i = n.clients i
  name : t.server.names (x.pid i) = n.server.names (x.pid i)
  owner : ∀ f : ℕ, n.owners[f]? = some i → t.owners[f]? = some i
  fifo : ∀ f : ℕ, n.owners[f]? = some i →
    t.server.readers f = n.server.readers f ∧ t.pipes f = n.pipes f ∧ t.hungUp f = n.hungUp f
  served : ∀ s ∈ n.server.served, s ∈ t.server.served

theorem Fifo.same {readers : ℕ} {pipe : List (BitVec 32)} {hungUp : Bool} (fifo : Fifo n i f readers pipe hungUp)
    (same : Same x n t i) : Fifo t i f readers pipe hungUp := by
  obtain ⟨readers', pipe', hungUp'⟩ := same.fifo f fifo.owner
  exact ⟨same.owner f fifo.owner, readers'.trans fifo.readers, pipe'.trans fifo.pipe, hungUp'.trans fifo.hungUp⟩

theorem Phase.same (phase : Phase x n i standing) (same : Same x n t i) : Phase x t i standing := by
  have pc := same.pc
  have name := same.name
  cases phase with
  | usage here unnamed => exact .usage (pc.trans here) (name.trans unnamed)
  | mkfifo here unnamed => exact .mkfifo (pc.trans here) (name.trans unnamed)
  | getInt here named fifo => exact .getInt (pc.trans here) (name.trans named) (fifo.same same)
  | write here valid named fifo => exact .write (pc.trans here) valid (name.trans named) (fifo.same same)
  | openRead here valid named fifo => exact .openRead (pc.trans here) valid (name.trans named) (fifo.same same)
  | read here valid named fifo => exact .read (pc.trans here) valid (name.trans named) (fifo.same same)
  | answered here valid named fifo given =>
    exact .answered (pc.trans here) valid (name.trans named) (fifo.same same) (same.served _ given)
  | removeFifo here valid named fifo given =>
    exact .removeFifo (pc.trans here) valid (name.trans named) (fifo.same same) (same.served _ given)
  | close here valid unnamed fifo given =>
    exact .close (pc.trans here) valid (name.trans unnamed) (fifo.same same) (same.served _ given)
  | ended here valid unnamed given =>
    exact .ended (pc.trans here) valid (name.trans unnamed) (same.served _ given)
  | refused here invalid named fifo =>
    exact .refused (pc.trans here) invalid (name.trans named) (fifo.same same)
  | rejected here invalid unnamed => exact .rejected (pc.trans here) invalid (name.trans unnamed)

end

/-! ## The invariant -/

/-- The client whose request the server is working on. -/
inductive Serving (n : Net ι) : Option ι → Prop where
  | readRequest : n.server.pc = .readRequest → Serving n none
  | openClient {i : ι} : n.server.pc = .openClient (x.request i) → Serving n (some i)
  | waitReader {i : ι} {f : ℕ} : n.server.pc = .waitReader (x.request i) f → n.server.names (x.pid i) = some f →
      n.server.readers f = 0 → Serving n (some i)
  | writeResponse {i : ι} {f : ℕ} : n.server.pc = .writeResponse (x.request i) f →
      n.server.names (x.pid i) = some f → n.server.readers f = 1 → Serving n (some i)

/-- The clients whose requests have been written, in this order. -/
structure Order (ι : Type) where
  served : List ι
  current : Option ι
  pending : List ι

def Order.all (o : Order ι) : List ι := o.served ++ (o.current.toList ++ o.pending)

variable [DecidableEq ι]

def Order.standing (o : Order ι) (i : ι) : Standing :=
  if i ∈ o.served then .served else if i ∈ o.current.toList ++ o.pending then .asked else .unasked

structure Inv (n : Net ι) (o : Order ι) : Prop where
  made : n.server.made = n.owners.length
  fresh : ∀ f, n.server.made ≤ f → n.server.readers f = 0 ∧ n.pipes f = [] ∧ n.hungUp f = false
  queue : n.server.queue = o.pending.flatMap fun i => (x.request i).encode
  distinct : o.all.Nodup
  serving : Serving x n o.current
  served : (n.server.served.map fun s => (s.req, s.outcome)) = o.served.map fun i => (x.request i, .delivered)
  clients : ∀ i, Phase x n i (o.standing i)

section

variable {x} {n t : Net ι} {i j : ι} {f : ℕ} {o : Order ι}

theorem inv_start : Inv x netStart ⟨[], none, []⟩ where
  made := rfl
  fresh _ _ := ⟨rfl, rfl, rfl⟩
  queue := rfl
  distinct := List.nodup_nil
  serving := .readRequest rfl
  served := rfl
  clients _ := .usage rfl rfl

theorem Inv.standing_current (inv : Inv x n o) (current : o.current = some i) : o.standing i = .asked := by
  have distinct := inv.distinct
  have member : i ∈ o.current.toList ++ o.pending := by simp [current]
  rw [Order.standing, if_neg, if_pos member]
  exact fun served => List.disjoint_of_nodup_append distinct served member

/-- What the server does before it writes concerns its own state only. -/
theorem Inv.of_server {s : State} {o' : Order ι} (inv : Inv x n o) (pc : ∀ req f, n.server.pc ≠ .writeResponse req f)
    (same : s.names = n.server.names ∧ s.readers = n.server.readers ∧ s.made = n.server.made ∧
      s.served = n.server.served)
    (all : o'.all = o.all) (before : o'.served = o.served)
    (queue : s.queue = o'.pending.flatMap fun i => (x.request i).encode)
    (serving : Serving x { n with server := s } o'.current) : Inv x (n.transmit s) o' := by
  obtain ⟨names, readers, made, served⟩ := same
  have stays : n.transmit s = { n with server := s } := by
    rw [Net.transmit]
    split
    · exact absurd ‹_› (pc _ _)
    all_goals rfl
  have standing (i : ι) : o'.standing i = o.standing i := by
    have later : o'.current.toList ++ o'.pending = o.current.toList ++ o.pending := by
      have all := all
      rw [Order.all, Order.all, before] at all
      exact List.append_cancel_left all
    rw [Order.standing, Order.standing, before, later]
  rw [stays]
  refine ⟨made.trans inv.made, fun f above => ?_, queue, all ▸ inv.distinct, serving, ?_, fun i => ?_⟩
  · rw [show s.readers f = n.server.readers f by rw [readers]]
    exact inv.fresh f (made ▸ above)
  · rw [before, ← inv.served]
    exact congrArg _ served
  · rw [standing i]
    refine (inv.clients i).same ⟨rfl, ?_, fun _ owned => owned, fun f _ => ⟨?_, rfl, rfl⟩, ?_⟩
    · exact congrFun names (x.pid i)
    · exact congrFun readers f
    · intro served' member
      exact (congrArg (served' ∈ ·) served).mpr member

theorem read_append {s : State} {req : Request} {rest : List UInt8} (queue : s.queue = req.encode ++ rest) :
    s.read = { s with
      queue := rest
      consumed := s.consumed + requestSize
      pc := .openClient req
      accepted := s.accepted ++ [(s.consumed, req)] } := by
  have front : s.queue.take requestSize = req.encode := by
    rw [queue]
    exact List.take_left' req.length_encode
  have behind : s.queue.drop requestSize = rest := by
    rw [queue]
    exact List.drop_left' req.length_encode
  simp only [State.read, front, behind, req.length_encode, Request.decode_encode, ne_eq, not_true, if_false]

/-- The client the server works for waits, with its FIFO open or not. -/
theorem Inv.phase_current (inv : Inv x n o) (current : o.current = some i) :
    ∃ f readers, n.server.names (x.pid i) = some f ∧ Fifo n i f readers [] false ∧ x.len i ≠ none ∧
      (n.clients i = .openRead ∧ readers = 0 ∨ n.clients i = .read f ∧ readers = 1) := by
  have phase := inv.clients i
  rw [inv.standing_current current] at phase
  cases phase with
  | openRead here valid named fifo => exact ⟨_, 0, named, fifo, valid, .inl ⟨here, rfl⟩⟩
  | read here valid named fifo => exact ⟨_, 1, named, fifo, valid, .inr ⟨here, rfl⟩⟩

theorem Order.standing_serve (served pending : List ι) (i : ι) :
    (Order.mk (served ++ [i]) none pending).standing i = .served ∧
      ∀ j ≠ i, (Order.mk (served ++ [i]) none pending).standing j = (Order.mk served (some i) pending).standing j := by
  constructor
  · simp [Order.standing]
  · intro j other
    have first : j ∈ served ++ [i] ↔ j ∈ served := by simp [other]
    have second : j ∈ (none : Option ι).toList ++ pending ↔ j ∈ (some i).toList ++ pending := by simp [other]
    simp only [Order.standing, first, second]

/-- The response is written into the FIFO of the client, which has it open. -/
theorem inv_writeResponse {served pending : List ι} (inv : Inv x n ⟨served, some i, pending⟩)
    (pc : n.server.pc = .writeResponse (x.request i) f) (named : n.server.names (x.pid i) = some f)
    (readers : n.server.readers f = 1) :
    Inv x (n.transmit (n.server.respond (x.request i) .delivered)) ⟨served ++ [i], none, pending⟩ := by
  obtain ⟨f', count, name, fifo, valid, condition⟩ := inv.phase_current rfl
  obtain rfl : f' = f := Option.some.inj (name.symm.trans named)
  have opened : n.clients i = .read f' := by
    rcases condition with ⟨-, rfl⟩ | ⟨here, -⟩
    · exact absurd (fifo.readers.symm.trans readers) (by decide)
    · exact here
  have result : n.transmit (n.server.respond (x.request i) .delivered) =
      { n with
        server := n.server.respond (x.request i) .delivered
        pipes := Function.update n.pipes f' [n.server.seqNum]
        hungUp := Function.update n.hungUp f' true } := by
    simp only [Net.transmit, pc, readers, one_ne_zero, if_false, fifo.pipe, List.nil_append]
  have inside : f' < n.server.made := by
    rw [inv.made]
    exact lt_length_of_getElem? fifo.owner
  have standing := Order.standing_serve served pending i
  rw [result]
  refine ⟨inv.made, fun f above => ?_, inv.queue, ?_, .readRequest rfl, ?_, fun j => ?_⟩
  · obtain ⟨readers, pipe, hungUp⟩ := inv.fresh f above
    have other : f ≠ f' := by
      rintro rfl
      exact absurd (show n.server.made ≤ f from above) (by omega)
    exact ⟨readers, (Function.update_of_ne other ..).trans pipe, (Function.update_of_ne other ..).trans hungUp⟩
  · have distinct := inv.distinct
    simpa [Order.all] using distinct
  · have before := inv.served
    simp only [State.respond, List.map_append, List.map_cons, List.map_nil]
    rw [before]
  · by_cases same : j = i
    · subst same
      rw [standing.1]
      refine .answered (f := f') (v := n.server.seqNum) opened valid name ?_ ?_
      · exact ⟨fifo.owner, readers, Function.update_self .., Function.update_self ..⟩
      · exact List.mem_append_right _ (List.mem_singleton.mpr rfl)
    · rw [standing.2 j same]
      refine (inv.clients j).same ⟨rfl, rfl, fun _ owned => owned, fun f owned => ?_, fun _ => List.mem_append_left _⟩
      have other : f ≠ f' := by
        rintro rfl
        exact same (Option.some.inj (owned.symm.trans fifo.owner))
      exact ⟨rfl, Function.update_of_ne other .., Function.update_of_ne other ..⟩

theorem inv_server {s : State} (inv : Inv x n o) (taken : stepServer n.server false = some s) :
    ∃ o', Inv x (n.transmit s) o' := by
  obtain ⟨served, current, pending⟩ := o
  have serving := inv.serving
  cases serving with
  | readRequest pc =>
    simp only [stepServer, pc, Option.ite_none_left_eq_some, Option.some.injEq] at taken
    obtain ⟨nonempty, rfl⟩ := taken
    cases pending with
    | nil => exact absurd inv.queue nonempty
    | cons i pending =>
      have queue : n.server.queue = (x.request i).encode ++ pending.flatMap fun i => (x.request i).encode :=
        inv.queue
      refine ⟨⟨served, some i, pending⟩, ?_⟩
      rw [read_append queue]
      exact inv.of_server (by simp [pc]) ⟨rfl, rfl, rfl, rfl⟩ rfl rfl rfl (.openClient rfl)
  | @openClient i pc =>
    obtain ⟨f, readers, named, fifo, -, condition⟩ := inv.phase_current rfl
    have name : n.server.names (x.request i).pid = some f := named
    simp only [stepServer, pc, name] at taken
    refine ⟨⟨served, some i, pending⟩, ?_⟩
    rcases condition with ⟨-, rfl⟩ | ⟨-, rfl⟩
    · rw [if_pos fifo.readers, Option.some.injEq] at taken
      subst taken
      exact inv.of_server (by simp [pc]) ⟨rfl, rfl, rfl, rfl⟩ rfl rfl inv.queue (.waitReader rfl named fifo.readers)
    · rw [if_neg (by rw [fifo.readers]; decide), Option.some.injEq] at taken
      subst taken
      exact inv.of_server (by simp [pc]) ⟨rfl, rfl, rfl, rfl⟩ rfl rfl inv.queue
        (.writeResponse rfl named fifo.readers)
  | waitReader pc => simp [stepServer, pc] at taken
  | writeResponse pc named readers =>
    simp only [stepServer, pc, readers, Bool.false_eq_true, one_ne_zero, or_self, if_false, Option.some.injEq] at taken
    subst taken
    exact ⟨_, inv_writeResponse inv pc named readers⟩

/-! ## The steps of a client -/

/-- What a client leaves alone. -/
structure Keeps (x : Site ι) (n t : Net ι) (i : ι) : Prop where
  clients : ∀ j ≠ i, t.clients j = n.clients j
  names : ∀ pid ≠ x.pid i, t.server.names pid = n.server.names pid
  owners : ∀ (f : ℕ) (j : ι), n.owners[f]? = some j → t.owners[f]? = some j
  fifos : ∀ f : ℕ, n.owners[f]? ≠ some i →
    t.server.readers f = n.server.readers f ∧ t.pipes f = n.pipes f ∧ t.hungUp f = n.hungUp f
  served : t.server.served = n.server.served

omit [DecidableEq ι] in
theorem Keeps.same (keeps : Keeps x n t i) (other : j ≠ i) : Same x n t j where
  pc := keeps.clients j other
  name := keeps.names _ fun same => other (x.pid_injective same)
  owner f := keeps.owners f j
  fifo f owned := keeps.fifos f fun own => other (Option.some.inj (owned.symm.trans own))
  served _ member := keeps.served ▸ member

/-- The server does not work for a client whose request is not in its hands. -/
theorem Inv.serving_of_keeps (inv : Inv x n o) (keeps : Keeps x n t i) (pc : t.server.pc = n.server.pc)
    (other : o.current ≠ some i) : Serving x t o.current := by
  have serving := inv.serving
  cases current : o.current with
  | none =>
    rw [current] at serving
    cases serving with
    | readRequest here => exact .readRequest (pc.trans here)
  | some k =>
    have same := keeps.same fun same : k = i => other (same ▸ current)
    obtain ⟨f, readers, name, fifo, -⟩ := inv.phase_current current
    obtain ⟨count, -⟩ := same.fifo f fifo.owner
    rw [current] at serving
    cases serving with
    | openClient here => exact .openClient (pc.trans here)
    | waitReader here named closed =>
      obtain rfl := Option.some.inj (name.symm.trans named)
      exact .waitReader (pc.trans here) (same.name.trans named) (count.trans closed)
    | writeResponse here named opened =>
      obtain rfl := Option.some.inj (name.symm.trans named)
      exact .writeResponse (pc.trans here) (same.name.trans named) (count.trans opened)

theorem Inv.of_keeps (inv : Inv x n o) (keeps : Keeps x n t i) (own : Phase x t i (o.standing i))
    (made : t.server.made = t.owners.length) (grows : n.server.made ≤ t.server.made)
    (queue : t.server.queue = n.server.queue) (serving : Serving x t o.current) : Inv x t o where
  made := made
  fresh f above := by
    have outside : n.owners[f]? ≠ some i := by
      rw [List.getElem?_eq_none (inv.made ▸ grows.trans above)]
      exact nofun
    obtain ⟨readers, pipe, hungUp⟩ := keeps.fifos f outside
    rw [readers, pipe, hungUp]
    exact inv.fresh f (grows.trans above)
  queue := queue.trans inv.queue
  distinct := inv.distinct
  serving := serving
  served := by rw [keeps.served, inv.served]
  clients j := by
    by_cases same : j = i
    · exact same ▸ own
    · exact (inv.clients j).same (keeps.same same)

theorem Inv.not_current (inv : Inv x n o) (free : o.standing i ≠ .asked) : o.current ≠ some i :=
  fun current => free (inv.standing_current current)

theorem keeps_goTo (n : Net ι) (i : ι) (pc : ClientPc) : Keeps x n (n.goTo i pc) i where
  clients _ other := Function.update_of_ne other ..
  names _ _ := rfl
  owners _ _ owned := owned
  fifos _ _ := ⟨rfl, rfl, rfl⟩
  served := rfl

theorem goTo_self (n : Net ι) (i : ι) (pc : ClientPc) : (n.goTo i pc).clients i = pc := Function.update_self ..

/-- A client goes on by itself. -/
theorem Inv.goTo {pc : ClientPc} (inv : Inv x n o) (free : o.standing i ≠ .asked)
    (own : Phase x (n.goTo i pc) i (o.standing i)) : Inv x (n.goTo i pc) o :=
  inv.of_keeps (keeps_goTo n i pc) own inv.made le_rfl rfl
    (inv.serving_of_keeps (keeps_goTo n i pc) rfl (inv.not_current free))

theorem inv_usage (inv : Inv x n o) (standing : o.standing i = .unasked)
    (unnamed : n.server.names (x.pid i) = none) :
    Inv x (n.goTo i (if x.argv1 i = some help then .ended none else .mkfifo)) o := by
  apply inv.goTo (by rw [standing]; decide)
  rw [standing]
  split_ifs with asks
  · exact .rejected (goTo_self ..) (len_help x asks) unnamed
  · exact .mkfifo (goTo_self ..) unnamed

theorem inv_mkfifo (inv : Inv x n o) (standing : o.standing i = .unasked)
    (unnamed : n.server.names (x.pid i) = none) :
    Inv x { n.goTo i .getInt with server := n.server.mkfifo (x.pid i), owners := n.owners ++ [i] } o := by
  have server : n.server.mkfifo (x.pid i) = { n.server with
      names := Function.update n.server.names (x.pid i) (some n.server.made)
      made := n.server.made + 1 } := by
    rw [State.mkfifo, unnamed]
  rw [server]
  have keeps : Keeps x n { n.goTo i .getInt with
      server := { n.server with
        names := Function.update n.server.names (x.pid i) (some n.server.made)
        made := n.server.made + 1 }
      owners := n.owners ++ [i] } i := by
    refine ⟨fun _ other => Function.update_of_ne other .., fun _ other => Function.update_of_ne other .., ?_,
      fun _ _ => ⟨rfl, rfl, rfl⟩, rfl⟩
    exact fun f j owned => getElem?_append_of_some owned
  refine inv.of_keeps keeps ?_ ?_ (Nat.le_succ _) rfl
    (inv.serving_of_keeps keeps rfl (inv.not_current (by rw [standing]; decide)))
  · obtain ⟨readers, pipe, hungUp⟩ := inv.fresh n.server.made le_rfl
    rw [standing]
    refine .getInt (goTo_self ..) (Function.update_self ..) ⟨?_, readers, pipe, hungUp⟩
    rw [inv.made]
    exact List.getElem?_concat_length
  · simp [inv.made]

theorem inv_getInt (inv : Inv x n o) (standing : o.standing i = .unasked)
    (named : n.server.names (x.pid i) = some f) (fifo : Fifo n i f 0 [] false) {t : Net ι}
    (here : n.clients i = .getInt) (taken : clientStep x n i = some t) : Inv x t o := by
  have free : o.standing i ≠ .asked := by rw [standing]; decide
  simp only [clientStep, here] at taken
  cases got : seqLen (x.argv1 i) with
  | error out =>
    rw [got] at taken
    cases taken
    apply inv.goTo free
    rw [standing]
    exact .refused (goTo_self ..) (by rw [Site.len, got]) named ⟨fifo.owner, fifo.readers, fifo.pipe, fifo.hungUp⟩
  | ok len =>
    rw [got] at taken
    cases taken
    apply inv.goTo free
    rw [standing]
    exact .write (goTo_self ..) (by rw [Site.len, got]) named ⟨fifo.owner, fifo.readers, fifo.pipe, fifo.hungUp⟩

theorem inv_write {len : BitVec 32} (inv : Inv x n o) (standing : o.standing i = .unasked)
    (valid : x.len i = some len) (named : n.server.names (x.pid i) = some f) (fifo : Fifo n i f 0 [] false)
    {s : State} (taken : step n.server (.request ⟨x.pid i, len⟩) = some s) :
    Inv x { n.goTo i .openRead with server := s } { o with pending := o.pending ++ [i] } := by
  cases taken
  have keeps : Keeps x n { n.goTo i .openRead with server := { n.server with
      queue := n.server.queue ++ Request.encode ⟨x.pid i, len⟩
      sent := n.server.sent ++ [(n.server.consumed + n.server.queue.length, ⟨x.pid i, len⟩)] } } i :=
    ⟨fun _ other => Function.update_of_ne other .., fun _ _ => rfl, fun _ _ owned => owned,
      fun _ _ => ⟨rfl, rfl, rfl⟩, rfl⟩
  obtain ⟨fresh, unread⟩ : i ∉ o.served ∧ i ∉ o.current.toList ++ o.pending := by
    rw [Order.standing] at standing
    split_ifs at standing with served asked
    exact ⟨served, asked⟩
  have asked : Order.standing { o with pending := o.pending ++ [i] } i = .asked := by
    rw [Order.standing, if_neg fresh, if_pos]
    simp
  have others (j : ι) (other : j ≠ i) :
      Order.standing { o with pending := o.pending ++ [i] } j = o.standing j := by
    have same : j ∈ o.current.toList ++ (o.pending ++ [i]) ↔ j ∈ o.current.toList ++ o.pending := by simp [other]
    simp only [Order.standing, same]
  have request : x.request i = ⟨x.pid i, len⟩ := by rw [Site.request, valid, Option.getD_some]
  refine ⟨inv.made, inv.fresh, ?_, ?_, ?_, inv.served, fun j => ?_⟩
  · show n.server.queue ++ Request.encode ⟨x.pid i, len⟩ = (o.pending ++ [i]).flatMap _
    rw [List.flatMap_append, ← inv.queue, List.flatMap_singleton, request]
  · have all : Order.all { o with pending := o.pending ++ [i] } = o.all ++ [i] := by
      simp [Order.all]
    rw [all]
    refine List.Nodup.append inv.distinct (List.nodup_singleton i) ?_
    intro j member last
    obtain rfl := List.mem_singleton.mp last
    rw [Order.all] at member
    exact (List.mem_append.mp member).elim fresh unread
  · exact inv.serving_of_keeps keeps rfl (inv.not_current (by rw [standing]; decide))
  · by_cases same : j = i
    · subst same
      rw [asked]
      exact .openRead (goTo_self ..) (by rw [valid]; exact nofun) named
        ⟨fifo.owner, fifo.readers, fifo.pipe, fifo.hungUp⟩
    · rw [others j same]
      exact (inv.clients j).same (keeps.same same)

/-- The client opens its FIFO, and the server goes on if it has waited for that. -/
theorem inv_openRead (inv : Inv x n o) (standing : o.standing i = .asked) (valid : x.len i ≠ none)
    (named : n.server.names (x.pid i) = some f) (fifo : Fifo n i f 0 [] false) :
    Inv x { n.goTo i (.read f) with server := n.server.openRead f } o := by
  have keeps : Keeps x n { n.goTo i (.read f) with server := n.server.openRead f } i := by
    refine ⟨fun _ other => Function.update_of_ne other .., fun _ _ => rfl, fun _ _ owned => owned,
      fun g foreign => ⟨?_, rfl, rfl⟩, rfl⟩
    have other : g ≠ f := by
      rintro rfl
      exact foreign fifo.owner
    exact Function.update_of_ne other ..
  have opened : (n.server.openRead f).readers f = 1 := by
    rw [State.openRead]
    exact (Function.update_self ..).trans (congrArg (· + 1) fifo.readers)
  refine inv.of_keeps keeps ?_ inv.made le_rfl rfl ?_
  · rw [standing]
    exact .read (goTo_self ..) valid named ⟨fifo.owner, opened, fifo.pipe, fifo.hungUp⟩
  · by_cases mine : o.current = some i
    · have serving := inv.serving
      rw [mine] at serving ⊢
      cases serving with
      | openClient pc => exact .openClient (by simp only [State.openRead, pc])
      | waitReader pc name =>
        obtain rfl := Option.some.inj (name.symm.trans named)
        exact .writeResponse (by simp only [State.openRead, pc, if_pos]) named opened
      | writeResponse _ name readers =>
        obtain rfl := Option.some.inj (name.symm.trans named)
        exact absurd (fifo.readers.symm.trans readers) (by decide)
    · refine inv.serving_of_keeps keeps ?_ mine
      have serving := inv.serving
      cases pc : n.server.pc with
      | readRequest => simp only [State.openRead, pc]
      | openClient => simp only [State.openRead, pc]
      | writeResponse => simp only [State.openRead, pc]
      | waitReader req g =>
        have apart : g ≠ f := by
          rintro rfl
          cases current : o.current with
          | none =>
            rw [current] at serving
            cases serving with
            | readRequest other => rw [pc] at other; cases other
          | some k =>
            obtain ⟨g', readers, name, other, -⟩ := inv.phase_current current
            rw [current] at serving
            cases serving with
            | openClient same => rw [pc] at same; cases same
            | writeResponse same => rw [pc] at same; cases same
            | waitReader same waited =>
              rw [pc] at same
              cases same
              obtain rfl := Option.some.inj (name.symm.trans waited)
              exact mine (current.trans (congrArg some (Option.some.inj (other.owner.symm.trans fifo.owner))))
        simp only [State.openRead, pc, if_neg apart]

theorem inv_answered {v : BitVec 32} (inv : Inv x n o) (standing : o.standing i = .served) (valid : x.len i ≠ none)
    (named : n.server.names (x.pid i) = some f) (fifo : Fifo n i f 1 [v] true) (given : Given x n i v) :
    Inv x { n.goTo i (.removeFifo (some v) (some f)) with pipes := Function.update n.pipes f [] } o := by
  have keeps : Keeps x n
      { n.goTo i (.removeFifo (some v) (some f)) with pipes := Function.update n.pipes f [] } i := by
    refine ⟨fun _ other => Function.update_of_ne other .., fun _ _ => rfl, fun _ _ owned => owned,
      fun g foreign => ⟨rfl, ?_, rfl⟩, rfl⟩
    have other : g ≠ f := by
      rintro rfl
      exact foreign fifo.owner
    exact Function.update_of_ne other ..
  refine inv.of_keeps keeps ?_ inv.made le_rfl rfl
    (inv.serving_of_keeps keeps rfl (inv.not_current (by rw [standing]; decide)))
  rw [standing]
  exact .removeFifo (goTo_self ..) valid named ⟨fifo.owner, fifo.readers, Function.update_self .., fifo.hungUp⟩ given

/-- The FIFO loses its name when a client exits. -/
theorem inv_unlink {pc : ClientPc} (inv : Inv x n o) (free : o.standing i ≠ .asked)
    (own : Phase x { n.goTo i pc with server := { n.server with
      names := Function.update n.server.names (x.pid i) none } } i (o.standing i)) :
    Inv x { n.goTo i pc with server := { n.server with
      names := Function.update n.server.names (x.pid i) none } } o := by
  have keeps : Keeps x n { n.goTo i pc with server := { n.server with
      names := Function.update n.server.names (x.pid i) none } } i :=
    ⟨fun _ other => Function.update_of_ne other .., fun _ other => Function.update_of_ne other ..,
      fun _ _ owned => owned, fun _ _ => ⟨rfl, rfl, rfl⟩, rfl⟩
  exact inv.of_keeps keeps own inv.made le_rfl rfl (inv.serving_of_keeps keeps rfl (inv.not_current free))

theorem inv_close {v : BitVec 32} (inv : Inv x n o) (standing : o.standing i = .served) (valid : x.len i ≠ none)
    (unnamed : n.server.names (x.pid i) = none) (fifo : Fifo n i f 1 [] true) (given : Given x n i v) :
    Inv x { n.goTo i (.ended (some v)) with server := { n.server with
      readers := Function.update n.server.readers f 0 } } o := by
  have keeps : Keeps x n { n.goTo i (.ended (some v)) with server := { n.server with
      readers := Function.update n.server.readers f 0 } } i := by
    refine ⟨fun _ other => Function.update_of_ne other .., fun _ _ => rfl, fun _ _ owned => owned,
      fun g foreign => ⟨?_, rfl, rfl⟩, rfl⟩
    have other : g ≠ f := by
      rintro rfl
      exact foreign fifo.owner
    exact Function.update_of_ne other ..
  refine inv.of_keeps keeps ?_ inv.made le_rfl rfl
    (inv.serving_of_keeps keeps rfl (inv.not_current (by rw [standing]; decide)))
  rw [standing]
  exact .ended (goTo_self ..) valid unnamed given

theorem inv_client (inv : Inv x n o) (taken : clientStep x n i = some t) : ∃ o', Inv x t o' := by
  have phase := inv.clients i
  generalize standing : o.standing i = at_ at phase
  cases phase with
  | usage here unnamed =>
    simp only [clientStep, here, Option.some.injEq] at taken
    exact ⟨o, taken ▸ inv_usage inv standing unnamed⟩
  | mkfifo here unnamed =>
    simp only [clientStep, here, Option.some.injEq] at taken
    exact ⟨o, taken ▸ inv_mkfifo inv standing unnamed⟩
  | getInt here named fifo => exact ⟨o, inv_getInt inv standing named fifo here taken⟩
  | write here valid named fifo =>
    simp only [clientStep, here, Option.map_eq_some_iff] at taken
    obtain ⟨s, taken, rfl⟩ := taken
    exact ⟨_, inv_write inv standing valid named fifo taken⟩
  | openRead here valid named fifo =>
    simp only [clientStep, here, named, Option.some.injEq] at taken
    exact ⟨o, taken ▸ inv_openRead inv standing valid named fifo⟩
  | read here valid named fifo => simp [clientStep, here, fifo.pipe, fifo.hungUp] at taken
  | answered here valid named fifo given =>
    simp only [clientStep, here, fifo.pipe, Option.some.injEq] at taken
    exact ⟨o, taken ▸ inv_answered inv standing valid named fifo given⟩
  | removeFifo here valid named fifo given =>
    simp only [clientStep, here, step, Option.map_some, Option.some.injEq] at taken
    subst taken
    refine ⟨o, inv_unlink inv (by rw [standing]; decide) ?_⟩
    rw [standing]
    exact .close (goTo_self ..) valid (Function.update_self ..)
      ⟨fifo.owner, fifo.readers, fifo.pipe, fifo.hungUp⟩ given
  | close here valid unnamed fifo given =>
    simp only [clientStep, here, step, fifo.readers, one_ne_zero, if_false, Option.map_some, Option.some.injEq,
      Nat.sub_self] at taken
    exact ⟨o, taken ▸ inv_close inv standing valid unnamed fifo given⟩
  | ended here => simp [clientStep, here] at taken
  | refused here invalid named fifo =>
    simp only [clientStep, here, step, Option.map_some, Option.some.injEq] at taken
    subst taken
    refine ⟨o, inv_unlink inv (by rw [standing]; decide) ?_⟩
    rw [standing]
    exact .rejected (goTo_self ..) invalid (Function.update_self ..)
  | rejected here => simp [clientStep, here] at taken

theorem inv_netStep {e : NetEvent ι} (inv : ∃ o, Inv x n o) (taken : netStep x n e = some t) : ∃ o, Inv x t o := by
  obtain ⟨o, inv⟩ := inv
  cases e with
  | server =>
    obtain ⟨s, moved, rfl⟩ := Option.map_eq_some_iff.mp taken
    exact inv_server inv moved
  | client i => exact inv_client inv taken

theorem exists_inv (reached : Reachable (netStep x) netStart n) : ∃ o, Inv x n o :=
  reached.invariant (fun _ _ _ => inv_netStep) ⟨_, inv_start⟩

end

end SystemProgramming.SeqNum
