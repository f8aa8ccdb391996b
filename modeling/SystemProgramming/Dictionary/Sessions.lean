import SystemProgramming.Dictionary.Answers
import SystemProgramming.Lib.Parts

/-! # All clients of the server

Any number of clients at once, each with its own child of `usock_server.c`. A connection waits until the parent
accepts it; behind that the sessions have nothing in common but the file. So every client gets its answers, in
every interleaving.
-/

namespace SystemProgramming.Dictionary.Service

open Lib WholeFile

section

variable {ι : Type} [DecidableEq ι] {x : Site ι} {records : List Record} {table : Lookup5.Table} {s t : State ι} {i : ι}

/-- The connections that wait to be accepted are those without a child. -/
structure Inv (x : Site ι) (records : List Record) (table : Lookup5.Table) (s : State ι) : Prop where
  sessions : ∀ i, Phase records table (entries records (x.stdin i)) (s.sessions i)
  waiting : ∀ i, i ∈ s.pending ↔ (s.sessions i).child = .absent ∧ (s.sessions i).client ≠ .connect
  distinct : s.pending.Nodup

omit [DecidableEq ι] in
theorem inv_start (x : Site ι) (records : List Record) (table : Lookup5.Table)
    (asks : ∀ i, Asks (x.stdin i)) : Inv x records table (start x) where
  sessions i := .connect rfl rfl rfl rfl rfl (asks i) rfl
  waiting _ := iff_of_false List.not_mem_nil fun waits => waits.2 rfl
  distinct := List.nodup_nil

theorem sessions_set (s : State ι) (i : ι) (session : Session) :
    (s.set i session).sessions = Function.update s.sessions i session := rfl

theorem sessions_set_self (s : State ι) (i : ι) (session : Session) : (s.set i session).sessions i = session := by
  rw [sessions_set, Function.update_self]

theorem sessions_set_of_ne (s : State ι) {i j : ι} (other : j ≠ i) (session : Session) :
    (s.set i session).sessions j = s.sessions j := by
  rw [sessions_set, Function.update_of_ne other]

/-- A session goes on, and the connections wait that are still without a child. -/
theorem Inv.set {session : Session} {pending : List ι} (inv : Inv x records table s)
    (phase : Phase records table (entries records (x.stdin i)) session)
    (own : i ∈ pending ↔ session.child = .absent ∧ session.client ≠ .connect)
    (others : ∀ j ≠ i, j ∈ pending ↔ j ∈ s.pending) (distinct : pending.Nodup) :
    Inv x records table { s.set i session with pending := pending } where
  sessions j := by
    change Phase _ _ _ ((s.set i session).sessions j)
    by_cases same : j = i
    · subst same
      rw [sessions_set_self]
      exact phase
    · rw [sessions_set_of_ne s same]
      exact inv.sessions j
  waiting j := by
    change j ∈ pending ↔
      ((s.set i session).sessions j).child = .absent ∧ ((s.set i session).sessions j).client ≠ .connect
    by_cases same : j = i
    · subst same
      rw [sessions_set_self]
      exact own
    · rw [sessions_set_of_ne s same, others j same]
      exact inv.waiting j
  distinct := distinct

/-- The client of a connection that has been made leaves it to the server to accept it. -/
theorem clientStep_standing {stack : ℕ → Dictrec} {old new : Session} (taken : clientStep stack old = some new) :
    old.client ≠ .connect ∧ new.client ≠ .connect ∧ new.child = old.child := by
  rw [clientStep] at taken
  split at taken
  · next here =>
    refine ⟨by simp [here], ?_⟩
    split_ifs at taken
    · cases taken
      exact ⟨by simp, rfl⟩
    · cases taken
      exact ⟨by simp, rfl⟩
    · cases taken
      rw [Session.ask]
      split_ifs <;> exact ⟨by simp, rfl⟩
  · next word here =>
    refine ⟨by simp [here], ?_⟩
    split_ifs at taken <;> cases taken <;> rw [Session.printf] <;> split_ifs <;> exact ⟨by simp, rfl⟩
  all_goals cases taken

theorem childStep_standing {file : List UInt8} {behind : List Dictrec} {old new : Session}
    (taken : childStep file behind old = some new) :
    old.child ≠ .absent ∧ new.child ≠ .absent := by
  rw [childStep] at taken
  split at taken
  · next here =>
    refine ⟨by simp [here], ?_⟩
    split at taken <;> cases taken <;> simp
  · next table here =>
    refine ⟨by simp [here], ?_⟩
    obtain ⟨⟨count, after⟩, got, rfl⟩ := Option.map_eq_some_iff.mp taken
    rw [Session.lookup, if_neg (count_ne_EOF got)]
    split <;> simp
  · next here =>
    refine ⟨by simp [here], ?_⟩
    split_ifs at taken <;> cases taken <;> simp
  all_goals cases taken

/-- A session that has not been connected is as it was made. -/
theorem Phase.of_connect {output : List UInt8} {session : Session} (phase : Phase records table output session)
    (here : session.client = .connect) : session.child = .absent ∧ session.buf = Field.init Server.bufSize [] ∧
      session.toServer = [] ∧ session.toClient = [] ∧ Asks session.stdin ∧
      session.shown ++ entries records session.stdin = output := by
  cases phase with
  | connect _ child buf toServer toClient asks whole => exact ⟨child, buf, toServer, toClient, asks, whole⟩
  | fgets elsewhere => cases here.symm.trans elsewhere
  | asked elsewhere => cases here.symm.trans elsewhere
  | served elsewhere => cases here.symm.trans elsewhere
  | answered elsewhere => cases here.symm.trans elsewhere
  | ended elsewhere => cases here.symm.trans elsewhere
  | writing elsewhere => cases here.symm.trans elsewhere
  | killed elsewhere => cases here.symm.trans elsewhere

/-- Behind `fork`, the child of a connected client is where the invariant wants it. -/
theorem Phase.fork {output : List UInt8} {session : Session} (phase : Phase records table output session)
    (child : session.child = .absent) (connected : session.client ≠ .connect) :
    Phase records table output { session with child := .connect } := by
  cases phase with
  | connect here => exact absurd here connected
  | fgets here ready toServer toClient asks whole =>
    exact .fgets here ⟨.inr (.inl rfl), ready.buf⟩ toServer toClient asks whole
  | asked here ready toServer toClient short named asks whole =>
    exact .asked here ⟨.inr (.inl rfl), ready.buf⟩ toServer toClient short named asks whole
  | served _ elsewhere => cases child.symm.trans elsewhere
  | answered here ready toServer toClient asks whole =>
    exact .answered here ⟨.inr (.inl rfl), ready.buf⟩ toServer toClient asks whole
  | ended here ready toServer whole => exact .ended here ⟨.inr (.inl rfl), ready.buf⟩ toServer whole
  | writing _ elsewhere => cases child.symm.trans elsewhere
  | killed _ elsewhere => cases child.symm.trans elsewhere

theorem inv_step (file_ : x.file = fileOf records) (ends : ∀ record ∈ records, 0 ∈ record.text.bytes)
    (room : records.length < Lookup5.capacity)
    (loaded : Lookup5.initDictTable (fileOf records) x.behind = some table) {e : Event ι} (inv : Inv x records table s)
    (taken : step x s e = some t) : Inv x records table t := by
  cases e with
  | connect i =>
    cases here : (s.sessions i).client with
    | connect =>
      simp only [step, here] at taken
      split_ifs at taken
      cases taken
      obtain ⟨child, buf, toServer, toClient, asks, whole⟩ := (inv.sessions i).of_connect here
      have fresh : i ∉ s.pending := fun waits => ((inv.waiting i).mp waits).2 here
      refine inv.set (.fgets rfl ⟨.inl child, buf⟩ toServer toClient asks whole) ?_ ?_ ?_
      · exact iff_of_true (by simp) ⟨child, by simp⟩
      · intro j other
        simp [other]
      · rw [List.nodup_append]
        exact ⟨inv.distinct, List.nodup_singleton i, fun j member k same =>
          fun equal => fresh ((List.mem_singleton.mp same) ▸ equal ▸ member)⟩
    | _ => simp [step, here] at taken
  | accept =>
    cases here : s.pending with
    | nil => simp [step, here] at taken
    | cons i rest =>
      simp only [step, here, Option.some.injEq] at taken
      subst taken
      obtain ⟨child, connected⟩ := (inv.waiting i).mp (by simp [here])
      have distinct := inv.distinct
      rw [here, List.nodup_cons] at distinct
      refine inv.set ((inv.sessions i).fork child connected) ?_ ?_ distinct.2
      · exact iff_of_false distinct.1 (by simp)
      · intro j other
        simp [here, other]
  | client i =>
    obtain ⟨session, moved, rfl⟩ := Option.map_eq_some_iff.mp taken
    obtain ⟨connected, still, child⟩ := clientStep_standing moved
    refine inv.set (phase_clientStep ends (inv.sessions i) moved) ?_ (fun _ _ => Iff.rfl) inv.distinct
    rw [child, inv.waiting i]
    exact and_congr_right fun _ => iff_of_true connected still
  | child i =>
    rw [step, file_] at taken
    obtain ⟨session, moved, rfl⟩ := Option.map_eq_some_iff.mp taken
    obtain ⟨present, still⟩ := childStep_standing moved
    refine inv.set (phase_childStep room loaded (inv.sessions i) moved) ?_ (fun _ _ => Iff.rfl) inv.distinct
    rw [inv.waiting i]
    exact iff_of_false (fun waits => present waits.1) (fun waits => still waits.1)

/-! ## The end -/

def State.fuel [Fintype ι] (s : State ι) : ℕ := ∑ i, (s.sessions i).fuel

theorem fuel_set [Fintype ι] {session : Session} {pending : List ι} (less : session.fuel < (s.sessions i).fuel) :
    ({ s.set i session with pending := pending } : State ι).fuel < s.fuel := by
  have sum := sum_update Session.fuel s.sessions i session
  have split : (s.sessions i).fuel ≤ s.fuel :=
    Finset.single_le_sum (f := fun i => (s.sessions i).fuel) (fun _ _ => Nat.zero_le _) (Finset.mem_univ i)
  change ∑ j, ((s.set i session).sessions j).fuel < s.fuel
  rw [sessions_set]
  rw [State.fuel] at split ⊢
  omega

theorem step_fuel [Fintype ι] {e : Event ι} (taken : step x s e = some t)
    (waits : ∀ i ∈ s.pending, (s.sessions i).child = .absent) : t.fuel < s.fuel := by
  cases e with
  | connect i =>
    cases here : (s.sessions i).client with
    | connect =>
      simp only [step, here] at taken
      split_ifs at taken
      cases taken
      refine fuel_set ?_
      simp only [Session.fuel, here, ClientPc.fuel, ClientPc.closed]
      omega
    | _ => simp [step, here] at taken
  | accept =>
    cases here : s.pending with
    | nil => simp [step, here] at taken
    | cons i rest =>
      simp only [step, here, Option.some.injEq] at taken
      subst taken
      refine fuel_set ?_
      simp only [Session.fuel, waits i (by simp [here]), ChildPc.fuel]
      omega
  | client i =>
    obtain ⟨session, moved, rfl⟩ := Option.map_eq_some_iff.mp taken
    exact fuel_set (clientStep_fuel moved)
  | child i =>
    obtain ⟨session, moved, rfl⟩ := Option.map_eq_some_iff.mp taken
    exact fuel_set (childStep_fuel moved)

/-- A child that cannot go on waits in its `read`. -/
theorem Ready.of_stuck {behind : List Dictrec} {session : Session}
    (loaded : Lookup5.initDictTable (fileOf records) behind = some table)
    (ready : Ready table session) (present : session.child ≠ .absent)
    (stuck : Service.childStep (fileOf records) behind session = none) : session.receive = none := by
  rcases ready.child with child | child | child
  · exact absurd child present
  · simp [Service.childStep, child, loaded] at stuck
  · simpa only [Service.childStep, child, Option.map_eq_none_iff] using stuck

/-- A session in which nobody can go on is over. -/
theorem Phase.of_stuck {output : List UInt8} {behind : List Dictrec} {session : Session} {stack : ℕ → Dictrec}
    (loaded : Lookup5.initDictTable (fileOf records) behind = some table)
    (phase : Phase records table output session)
    (connected : session.client ≠ .connect) (present : session.child ≠ .absent)
    (client : clientStep stack session = none) (child : childStep (fileOf records) behind session = none) :
    session.client = .ended ∧ session.child = .killed ∧ session.shown = output := by
  cases phase with
  | connect here => exact absurd here connected
  | fgets here => simp only [clientStep, here] at client; split_ifs at client
  | asked here ready toServer =>
    have waits := ready.of_stuck loaded present child
    simp [Session.receive, toServer] at waits
  | served here at_ => simp [childStep, at_, here, ClientPc.closed] at child
  | answered here ready _ toClient => simp [clientStep, here, toClient] at client
  | ended here ready toServer =>
    have waits := ready.of_stuck loaded present child
    simp [Session.receive, toServer, here, ClientPc.closed] at waits
  | writing here at_ => simp [childStep, at_, here, ClientPc.closed] at child
  | killed here at_ whole => exact ⟨here, at_, whole⟩

theorem Inv.of_terminal (inv : Inv x records table s) (file_ : x.file = fileOf records)
    (loaded : Lookup5.initDictTable (fileOf records) x.behind = some table) (terminal : Terminal (step x) s) (i : ι) :
    (s.sessions i).client = .ended ∧ (s.sessions i).child = .killed ∧
      (s.sessions i).shown = entries records (x.stdin i) := by
  have empty : s.pending = [] := by
    have accepted := terminal .accept
    cases here : s.pending with
    | nil => rfl
    | cons j rest => simp [step, here] at accepted
  have connected : (s.sessions i).client ≠ .connect := fun here => by
    have connects := terminal (.connect i)
    simp [step, here, empty] at connects
  have present : (s.sessions i).child ≠ .absent := fun absent =>
    absurd ((inv.waiting i).mpr ⟨absent, connected⟩) (by simp [empty])
  have client : clientStep (x.stack i) (s.sessions i) = none := Option.map_eq_none_iff.mp (terminal (.client i))
  have child : childStep x.file x.behind (s.sessions i) = none := Option.map_eq_none_iff.mp (terminal (.child i))
  rw [file_] at child
  exact (inv.sessions i).of_stuck loaded connected present client child

end

/-- One client asks for "a", another for "a" and "b". -/
def twoClients : Site Bool where
  file := fileOf [one]
  behind := []
  stdin second := if second then [97, 10, 98, 10] else [97, 10]
  stack _ _ := ⟨Field.init wordSize [], Field.init textSize []⟩

end SystemProgramming.Dictionary.Service
