import SystemProgramming.Dictionary.Server
import SystemProgramming.Lib.Update

/-! # The server over datagrams

In `hw11/part3` a lookup sends its 32 bytes from a fresh socket and takes the first datagram that arrives
there for the text. The network loses, duplicates and reorders what is in flight. A port stands for the
address and the port of a client's socket; the kernel gives it to one open socket at a time. `lookup`
does not close its socket, so it is closed when the process ends.
-/

namespace SystemProgramming.Dictionary.Udp

open Lib

/-- `sought->word`; what lies behind the NUL is whatever the stack held. -/
structure Query where
  word : Field wordSize
  terminated : 0 ∈ word.bytes
  nonempty : word.string ≠ []

inductive Datagram where
  | request (port : ℕ) (word : Field wordSize)
  | reply (port : ℕ) (text : Field textSize)
deriving DecidableEq

/-- The client's side of the datagram. -/
def Datagram.port : Datagram → ℕ
  | .request port _ => port
  | .reply port _ => port

structure Lookup where
  port : ℕ
  query : Query
  isOpen : Bool
  /-- What `recvfrom` stored in `sought->text`. -/
  text : Option (Field textSize)

/-- In `recvfrom` with the socket bound to the port. -/
def Lookup.waiting (l : Lookup) : Prop := l.isOpen = true ∧ l.text = none

instance (l : Lookup) : Decidable l.waiting := inferInstanceAs (Decidable (_ ∧ _))

/-- The server is in `recvfrom` or in `serve_request`. -/
inductive Pc where
  | recvfrom
  | serveRequest (port : ℕ) (buf : Field wordSize)
deriving DecidableEq

structure State where
  server : Pc
  network : List Datagram
  lookups : List Lookup

def start : State where
  server := .recvfrom
  network := []
  lookups := []

/-- `serve_request`: `try_it.text` after `lookup`. -/
def serveRequest (table : Lookup5.Table) (msg : Field wordSize) : Field textSize :=
  (Lookup5.lookup table ⟨msg, Field.init textSize Server.notFoundText⟩).2.text

inductive Event where
  | lookup (port : ℕ) (query : Query)
  | lose (datagram : ℕ)
  | duplicate (datagram : ℕ)
  | recvRequest (datagram : ℕ)
  | sendReply
  | recvReply (datagram lookup : ℕ)
  | exit (lookup : ℕ)

def step (table : Lookup5.Table) (s : State) : Event → Option State
  | .lookup port query =>
    if ∃ l ∈ s.lookups, l.isOpen = true ∧ l.port = port then none
    else some { s with
      network := .request port query.word :: s.network
      lookups := s.lookups ++ [⟨port, query, true, none⟩] }
  | .lose k => if k < s.network.length then some { s with network := s.network.eraseIdx k } else none
  | .duplicate k => s.network[k]?.map fun datagram => { s with network := datagram :: s.network }
  | .recvRequest k =>
    match s.server, s.network[k]? with
    | .recvfrom, some (.request port word) =>
      some { s with server := .serveRequest port word, network := s.network.eraseIdx k }
    | _, _ => none
  | .sendReply =>
    match s.server with
    | .serveRequest port buf =>
      some { s with server := .recvfrom, network := .reply port (serveRequest table buf) :: s.network }
    | .recvfrom => none
  | .recvReply k i =>
    match s.network[k]?, s.lookups[i]? with
    | some (.reply port text), some l =>
      if l.waiting ∧ l.port = port then
        some { s with
          network := s.network.eraseIdx k
          lookups := s.lookups.set i { l with text := some text } }
      else none
    | _, _ => none
  | .exit i =>
    match s.lookups[i]? with
    | some l =>
      if l.isOpen = true then some { s with lookups := s.lookups.set i { l with isOpen := false } } else none
    | none => none

/-! ## What a lookup should receive -/

/-- The text of the first record with the word, or that there is none. -/
def answer (table : Lookup5.Table) (word : List UInt8) : Field textSize :=
  match (List.range (table.len - 1)).find? fun i => word = Lookup5.wordAt table.memory i with
  | some i => Lookup5.textAt table.memory i
  | none => Field.init textSize Server.notFoundText

/-- Every text received is the answer to the word of the lookup that received it. -/
def Answered (table : Lookup5.Table) (s : State) : Prop :=
  ∀ l ∈ s.lookups, ∀ text, l.text = some text → text = answer table l.query.word.string

/-- A new socket gets a port to which no datagram is in flight. -/
def NoneTo (s : State) : Event → Prop
  | .lookup port _ => ∀ datagram ∈ s.network, ∀ text, datagram ≠ .reply port text
  | _ => True

/-- Nothing of an earlier lookup from the port is left, on the way to the server, on the way back or with
the server. -/
def Fresh (s : State) : Event → Prop
  | .lookup port _ => (∀ datagram ∈ s.network, datagram.port ≠ port) ∧
      ∀ buf, s.server ≠ .serveRequest port buf
  | _ => True

/-! ## What is in flight -/

/-- The datagram belongs to a lookup of this word. -/
def Datagram.Carries (table : Lookup5.Table) (word : Field wordSize) : Datagram → Prop
  | .request _ sent => sent = word
  | .reply _ text => text = serveRequest table word

structure Inv (table : Lookup5.Table) (s : State) : Prop where
  carried : ∀ datagram ∈ s.network, ∀ l ∈ s.lookups, l.waiting → l.port = datagram.port →
    datagram.Carries table l.query.word
  served : ∀ port buf, s.server = .serveRequest port buf → ∀ l ∈ s.lookups, l.waiting → l.port = port →
    buf = l.query.word
  received : ∀ l ∈ s.lookups, ∀ text, l.text = some text → text = serveRequest table l.query.word

section

variable {table : Lookup5.Table} {s t : State} {port : ℕ}

theorem inv_start (table : Lookup5.Table) : Inv table start := by
  constructor <;> simp [start]

/-- Datagrams are lost or doubled, but nobody writes one. -/
theorem Inv.network (inv : Inv table s) {network : List Datagram} (known : network ⊆ s.network) :
    Inv table { s with network := network } where
  carried datagram member := inv.carried datagram (known member)
  served := inv.served
  received := inv.received

theorem Inv.lookup (inv : Inv table s) (query : Query) (own : ∀ l ∈ s.lookups, l.isOpen = true → l.port ≠ port)
    (fresh : Fresh s (.lookup port query)) :
    Inv table { s with
      network := .request port query.word :: s.network
      lookups := s.lookups ++ [⟨port, query, true, none⟩] } where
  carried := by
    intro datagram sent l looking waits same
    rcases List.mem_cons.mp sent with rfl | sent
    · rcases List.mem_append.mp looking with looking | new
      · exact absurd same (own l looking waits.1)
      · rw [List.mem_singleton.mp new]
        rfl
    · rcases List.mem_append.mp looking with looking | new
      · exact inv.carried datagram sent l looking waits same
      · rw [List.mem_singleton.mp new] at same
        exact absurd same.symm (fresh.1 datagram sent)
  served := by
    intro other buf serving l looking waits same
    rcases List.mem_append.mp looking with looking | new
    · exact inv.served other buf serving l looking waits same
    · obtain rfl : port = other := by rwa [List.mem_singleton.mp new] at same
      exact absurd serving (fresh.2 buf)
  received := by
    intro l looking text got
    rcases List.mem_append.mp looking with looking | new
    · exact inv.received l looking text got
    · simp [List.mem_singleton.mp new] at got

theorem Inv.recvRequest (inv : Inv table s) {word : Field wordSize} (sent : .request port word ∈ s.network)
    {network : List Datagram} (known : network ⊆ s.network) :
    Inv table { s with server := .serveRequest port word, network := network } where
  carried datagram member := inv.carried datagram (known member)
  served := by
    rintro port buf ⟨⟩ l looking waits same
    exact inv.carried _ sent l looking waits same
  received := inv.received

theorem Inv.sendReply (inv : Inv table s) {buf : Field wordSize} (serving : s.server = .serveRequest port buf) :
    Inv table { s with server := .recvfrom, network := .reply port (serveRequest table buf) :: s.network } where
  carried := by
    intro datagram sent l looking waits same
    rcases List.mem_cons.mp sent with rfl | sent
    · exact congrArg (serveRequest table) (inv.served port buf serving l looking waits same)
    · exact inv.carried datagram sent l looking waits same
  served := by
    rintro port buf ⟨⟩
  received := inv.received

/-- A lookup that no longer waits. -/
theorem Inv.set (inv : Inv table s) (i : ℕ) {next : Lookup} (waits : ¬ next.waiting)
    (got : ∀ text, next.text = some text → text = serveRequest table next.query.word) :
    Inv table { s with lookups := s.lookups.set i next } where
  carried := by
    intro datagram sent other looking waiting
    rcases List.mem_or_eq_of_mem_set looking with looking | rfl
    · exact inv.carried datagram sent other looking waiting
    · exact absurd waiting waits
  served := by
    intro port buf serving other looking waiting
    rcases List.mem_or_eq_of_mem_set looking with looking | rfl
    · exact inv.served port buf serving other looking waiting
    · exact absurd waiting waits
  received := by
    intro other looking
    rcases List.mem_or_eq_of_mem_set looking with looking | rfl
    · exact inv.received other looking
    · exact got

theorem Inv.step {e : Event} (inv : Inv table s) (fresh : Fresh s e) (taken : step table s e = some t) :
    Inv table t := by
  cases e with
  | lookup port query =>
    simp only [Udp.step, Option.ite_none_left_eq_some, not_exists, not_and, Option.some.injEq] at taken
    obtain ⟨own, rfl⟩ := taken
    exact inv.lookup query own fresh
  | lose k =>
    simp only [Udp.step, Option.ite_none_right_eq_some, Option.some.injEq] at taken
    obtain ⟨-, rfl⟩ := taken
    exact inv.network (List.eraseIdx_subset)
  | duplicate k =>
    obtain ⟨datagram, there, rfl⟩ := Option.map_eq_some_iff.mp taken
    apply inv.network
    exact List.cons_subset.mpr ⟨List.mem_of_getElem? there, List.Subset.refl _⟩
  | recvRequest k =>
    simp only [Udp.step] at taken
    split at taken
    · cases taken
      exact inv.recvRequest (List.mem_of_getElem? ‹_›) List.eraseIdx_subset
    · cases taken
  | sendReply =>
    simp only [Udp.step] at taken
    split at taken
    · cases taken
      exact inv.sendReply ‹_›
    · cases taken
  | recvReply k i =>
    simp only [Udp.step] at taken
    split at taken
    · rename_i port text l there here
      simp only [Option.ite_none_right_eq_some, Option.some.injEq] at taken
      obtain ⟨⟨waits, same⟩, rfl⟩ := taken
      have carries := inv.carried _ (List.mem_of_getElem? there) l (List.mem_of_getElem? here) waits same
      have got : ∀ other, some text = some other → other = serveRequest table l.query.word := by
        rintro other ⟨⟩
        exact carries
      exact (inv.set i (by simp [Lookup.waiting]) got).network List.eraseIdx_subset
    · cases taken
  | exit i =>
    simp only [Udp.step] at taken
    split at taken
    · rename_i l here
      simp only [Option.ite_none_right_eq_some, Option.some.injEq] at taken
      obtain ⟨-, rfl⟩ := taken
      exact inv.set i (by simp [Lookup.waiting]) (inv.received l (List.mem_of_getElem? here))
    · cases taken

theorem Inv.of_exec {es : List Event} (ran : exec (Udp.step table) start es = some s)
    (met : AllSteps (Udp.step table) Fresh start es) : Inv table s :=
  exec_invariant_of_allSteps (fun _ _ _ inv fresh taken => inv.step fresh taken) ran met (inv_start table)

end

/-! ## What the server answers -/

/-- The search ends at the record without a word, which a word does not match. -/
theorem serveRequest_eq_answer {file : List UInt8} {behind : List Dictrec} {table : Lookup5.Table}
    (loaded : Lookup5.initDictTable file behind = some table) (query : Query) :
    serveRequest table query.word = answer table query.word.string := by
  obtain ⟨last, inside, ends, -, rfl⟩ := Lookup5.initDictTable_eq_some.mp loaded
  have empty : Lookup5.wordAt (Lookup5.memory file behind) last = [] := by
    rw [Lookup5.wordAt, ← List.getElem_cons_drop (List.getElem?_eq_some_iff.mp ends).1,
      (List.getElem?_eq_some_iff.mp ends).2, cstr_zero_cons]
  have unmatched : decide (query.word.string = Lookup5.wordAt (Lookup5.memory file behind) last) = false := by
    rw [empty, decide_eq_false_iff_not]
    exact query.nonempty
  rw [serveRequest, Lookup5.lookup, answer]
  simp only [List.range_succ, List.find?_append, List.find?_singleton, unmatched, Nat.add_sub_cancel,
    Bool.false_eq_true, if_false, Option.or_none]
  cases List.find? _ (List.range last) <;> rfl

/-- While ports are given out only when nothing of an earlier lookup is left. -/
theorem answered_of_fresh {file : List UInt8} {behind : List Dictrec} {table : Lookup5.Table}
    (loaded : Lookup5.initDictTable file behind = some table) {es : List Event} {s : State}
    (ran : exec (step table) start es = some s) (met : AllSteps (step table) Fresh start es) :
    Answered table s := by
  intro l looking text got
  rw [(Inv.of_exec ran met).received l looking text got, serveRequest_eq_answer loaded]

/-- One record, the word `a` with the text `1`. -/
def oneRecord : List UInt8 := 97 :: List.replicate 31 0 ++ [49]

/-- A query of one byte. -/
def oneByte (byte : UInt8) (proper : byte ≠ 0) : Query where
  word := Field.init wordSize [byte]
  terminated := by
    rw [Field.init_bytes (by simp [wordSize])]
    simp [wordSize]
  nonempty := by
    rw [Field.string_init (by simp [wordSize]) (by simpa using proper.symm)]
    simp

/-- The words `a` and `b` are looked up from one port. The request for `a` is doubled, and its second copy is lost
before the port is bound again. -/
def samePort : List Event :=
  [.lookup 1024 (oneByte 97 (by decide)), .duplicate 0, .recvRequest 0, .sendReply, .recvReply 0 0, .exit 0, .lose 0,
    .lookup 1024 (oneByte 98 (by decide)), .recvRequest 0, .sendReply, .recvReply 0 1]

theorem answered_samePort : ∃ table s, Lookup5.initDictTable oneRecord [] = some table ∧
    exec (step table) start samePort = some s ∧ Answered table s := by
  have loaded : Lookup5.initDictTable oneRecord [] = some _ := (Option.some_get (by decide +kernel)).symm
  refine ⟨_, _, loaded, rfl, @answered_of_fresh _ _ _ loaded samePort _ rfl ?_⟩
  simp [samePort, AllSteps, Fresh, step, start, Lookup.waiting]

/-- The word `a` is looked up from a port, its request is doubled, and the process ends with the answer. The
next socket gets the same port for the word `b`, and the server answers the second copy. -/
def reusedPort : List Event :=
  [.lookup 1024 (oneByte 97 (by decide)), .duplicate 0, .recvRequest 0, .sendReply, .recvReply 0 0, .exit 0,
    .lookup 1024 (oneByte 98 (by decide)), .recvRequest 1, .sendReply, .recvReply 0 1]

/-- A port is not fresh while a request from it is left. -/
theorem not_answered_of_noneTo : ¬ ∀ (file : List UInt8) (behind : List Dictrec) (table : Lookup5.Table),
    Lookup5.initDictTable file behind = some table → ∀ (es : List Event) (s : State),
      exec (step table) start es = some s → AllSteps (step table) NoneTo start es → Answered table s := by
  intro all
  have loaded : Lookup5.initDictTable oneRecord [] = some _ := (Option.some_get (by decide +kernel)).symm
  have answered := all oneRecord [] _ loaded reusedPort _ rfl (by
    simp [reusedPort, AllSteps, NoneTo, step, start, Lookup.waiting])
  have wrong := answered _ (List.mem_of_getElem? (i := 1) rfl) _ rfl
  exact absurd (congrArg (fun text => text.bytes.head?) wrong) (by decide +kernel)

end SystemProgramming.Dictionary.Udp
