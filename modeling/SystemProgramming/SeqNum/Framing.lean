import SystemProgramming.SeqNum.Model

/-! # Where requests begin and where they are read

The FIFO is a stream of bytes, so a read after a short write continues with the bytes behind it. The
position of every well-behaved request in the stream is recorded; a request is framed once it has
been accepted at its own position. A read that swallows a position inside its eight bytes is the one
thing that loses a request.
-/

namespace SystemProgramming.SeqNum

open Lib

@[simp] theorem Request.length_encode (req : Request) : req.encode.length = requestSize := by
  simp [Request.encode, requestSize]

theorem Request.decode_encode (req : Request) : Request.decode req.encode = req := by
  have lower : (Lib.encode 4 req.pid.toNat ++ Lib.encode 4 req.seqLen.toNat).take 4 =
      Lib.encode 4 req.pid.toNat := List.take_left' (by simp)
  have upper : (Lib.encode 4 req.pid.toNat ++ Lib.encode 4 req.seqLen.toNat).drop 4 =
      Lib.encode 4 req.seqLen.toNat := List.drop_left' (by simp)
  have small (n : BitVec 32) : BitVec.ofNat 32 (n.toNat % 256 ^ 4) = n := by
    apply BitVec.eq_of_toNat_eq
    have bound := n.isLt
    simp only [BitVec.toNat_ofNat]
    omega
  rw [Request.decode, Request.encode, lower, upper, unsigned_encode, unsigned_encode, small, small]

/-- The server has accepted every well-behaved request of which it has read a byte, as one request
with the client's pid and length. -/
def Framed (s : State) : Prop :=
  ∀ place req, (place, req) ∈ s.sent → place < s.consumed → (place, req) ∈ s.accepted

/-- When the server reads, no well-behaved request begins behind the first of the next eight bytes. -/
def ReadsAtBoundary (s : State) : Event → Prop
  | .server _ => s.pc = .readRequest → ∀ x ∈ s.sent,
      ¬ (s.consumed < x.1 ∧ x.1 < s.consumed + requestSize)
  | .request _ | .write _ | .mkfifo _ | .unlink _ | .openRead _ | .closeRead _ => True

instance (s : State) : (e : Event) → Decidable (ReadsAtBoundary s e)
  | .server _ => inferInstanceAs (Decidable (s.pc = .readRequest → ∀ x ∈ s.sent,
      ¬ (s.consumed < x.1 ∧ x.1 < s.consumed + requestSize)))
  | .request _ | .write _ | .mkfifo _ | .unlink _ | .openRead _ | .closeRead _ => isTrue trivial

/-- The recorded positions and the bytes not read yet. -/
structure Positions (s : State) : Prop where
  inside : ∀ place req, (place, req) ∈ s.sent → place + requestSize ≤ s.consumed + s.queue.length
  queued : ∀ place req, (place, req) ∈ s.sent → s.consumed ≤ place →
    (s.queue.drop (place - s.consumed)).take requestSize = req.encode
  read : ∀ place req, (place, req) ∈ s.accepted → place < s.consumed

theorem start_positions : Positions start := ⟨nofun, nofun, nofun⟩

/-- Bytes written behind the others leave every queued request in its place. -/
theorem take_drop_append {queue bytes : List UInt8} {place size : ℕ}
    (inside : place + size ≤ queue.length) :
    ((queue ++ bytes).drop place).take size = (queue.drop place).take size := by
  rw [List.drop_append_of_le_length (by omega), List.take_append_of_le_length]
  rw [List.length_drop]
  omega

theorem Positions.write {s : State} (inv : Positions s) (bytes : List UInt8) :
    Positions { s with queue := s.queue ++ bytes } where
  inside := by
    intro place req known
    have old := inv.inside place req known
    simp only [List.length_append]
    omega
  queued := by
    intro place req known ahead
    have old := inv.inside place req known
    have fits : place - s.consumed + requestSize ≤ s.queue.length := by
      change s.consumed ≤ place at ahead
      omega
    exact (take_drop_append fits).trans (inv.queued place req known ahead)
  read := inv.read

theorem Positions.request {s : State} (inv : Positions s) (req : Request) :
    Positions { s with
      queue := s.queue ++ req.encode
      sent := s.sent ++ [(s.consumed + s.queue.length, req)] } where
  inside := by
    intro place other known
    rcases List.mem_append.mp known with old | new
    · exact (inv.write req.encode).inside place other old
    · cases List.mem_singleton.mp new
      simp only [List.length_append, Request.length_encode]
      omega
  queued := by
    intro place other known ahead
    rcases List.mem_append.mp known with old | new
    · exact (inv.write req.encode).queued place other old ahead
    · cases List.mem_singleton.mp new
      have all : (s.queue ++ req.encode).drop s.queue.length = req.encode := List.drop_left
      simp only [Nat.add_sub_cancel_left, all]
      exact List.take_of_length_le (by simp)
  read := inv.read

theorem Positions.discard {s : State} (inv : Positions s) :
    Positions { s with queue := [], consumed := s.consumed + s.queue.length } where
  inside := inv.inside
  queued := by
    intro place req known ahead
    have inside := inv.inside place req known
    simp only [requestSize] at inside ahead
    omega
  read := by
    intro place req known
    have old := inv.read place req known
    simp only
    omega

theorem Positions.accept {s : State} (inv : Positions s) (whole : requestSize ≤ s.queue.length) :
    Positions { s with
      queue := s.queue.drop requestSize
      consumed := s.consumed + requestSize
      pc := .openClient (.decode (s.queue.take requestSize))
      accepted := s.accepted ++ [(s.consumed, .decode (s.queue.take requestSize))] } where
  inside := by
    intro place req known
    have old := inv.inside place req known
    simp only [List.length_drop]
    omega
  queued := by
    intro place req known ahead
    have old := inv.queued place req known (by simp only at ahead; omega)
    have same : requestSize + (place - (s.consumed + requestSize)) = place - s.consumed := by
      simp only at ahead
      omega
    rw [List.drop_drop, same]
    exact old
  read := by
    intro place req known
    rcases List.mem_append.mp known with old | new
    · have before := inv.read place req old
      simp only
      omega
    · cases List.mem_singleton.mp new
      simp [requestSize]

/-- The invariant only depends on the stream and its history. -/
theorem Positions.congr {s t : State} (inv : Positions s) (queue : t.queue = s.queue)
    (consumed : t.consumed = s.consumed) (sent : t.sent = s.sent) (accepted : t.accepted = s.accepted) :
    Positions t where
  inside := by
    rw [queue, consumed, sent]
    exact inv.inside
  queued := by
    rw [queue, consumed, sent]
    exact inv.queued
  read := by
    rw [consumed, accepted]
    exact inv.read

theorem step_positions (s : State) (e : Event) (t : State) (inv : Positions s)
    (taken : step s e = some t) : Positions t := by
  cases e with
  | server failure =>
    cases stepServer_move taken with
    | discard pc nonempty short => exact inv.discard
    | accept pc whole => exact inv.accept whole
    | giveUp | wait | opened | lost | delivered => exact inv.congr rfl rfl rfl rfl
  | request req =>
    cases taken
    exact inv.request req
  | write bytes =>
    simp only [step] at taken
    split at taken
    · cases taken
      exact inv.write bytes
    · cases taken
  | mkfifo pid =>
    cases taken
    unfold State.mkfifo
    split
    · exact inv
    · exact inv.congr rfl rfl rfl rfl
  | unlink pid =>
    cases taken
    exact inv.congr rfl rfl rfl rfl
  | openRead pid =>
    obtain ⟨fifo, -, rfl⟩ := Option.map_eq_some_iff.mp taken
    exact inv.congr rfl rfl rfl rfl
  | closeRead fifo =>
    simp only [step] at taken
    split at taken
    · cases taken
    · cases taken
      exact inv.congr rfl rfl rfl rfl

/-! ## Losing a request -/

/-- The history only grows, and a request is accepted where the server stands. -/
structure Grows (s t : State) : Prop where
  sent : ∀ x, x ∈ s.sent → x ∈ t.sent
  consumed : s.consumed ≤ t.consumed
  accepted : ∀ place req, (place, req) ∈ t.accepted → (place, req) ∈ s.accepted ∨ place = s.consumed

theorem Grows.of_eq {s t : State} (sent : t.sent = s.sent) (consumed : t.consumed = s.consumed)
    (accepted : t.accepted = s.accepted) : Grows s t :=
  ⟨fun _ known => sent ▸ known, consumed.ge, fun _ _ known => .inl (accepted ▸ known)⟩

theorem ServerMove.grows {s t : State} {failure : Bool} (move : ServerMove s failure t) :
    Grows s t := by
  cases move with
  | discard pc nonempty short => exact ⟨fun _ known => known, Nat.le_add_right _ _, fun _ _ => .inl⟩
  | accept pc whole =>
    refine ⟨fun _ known => known, Nat.le_add_right _ _, fun place req known => ?_⟩
    rcases List.mem_append.mp known with old | new
    · exact .inl old
    · cases List.mem_singleton.mp new
      exact .inr rfl
  | giveUp | wait | opened | lost | delivered => exact .of_eq rfl rfl rfl

theorem step_grows {s t : State} {e : Event} (taken : step s e = some t) : Grows s t := by
  have keeps (other : ∀ failure, e ≠ .server failure) (sent : ∀ x, x ∈ s.sent → x ∈ t.sent) :
      Grows s t := by
    have untouched := step_untouched other taken
    exact ⟨sent, untouched.consumed.ge, fun _ _ known => .inl (untouched.accepted ▸ known)⟩
  cases e with
  | server failure => exact (stepServer_move taken).grows
  | request req =>
    cases taken
    exact keeps (by simp) fun _ known => List.mem_append_left _ known
  | write bytes =>
    simp only [step] at taken
    split at taken <;> cases taken
    exact keeps (by simp) fun _ known => known
  | mkfifo pid =>
    cases taken
    apply keeps (by simp)
    intro _ known
    unfold State.mkfifo
    split <;> exact known
  | unlink pid =>
    cases taken
    exact keeps (by simp) fun _ known => known
  | openRead pid =>
    obtain ⟨fifo, -, rfl⟩ := Option.map_eq_some_iff.mp taken
    exact keeps (by simp) fun _ known => known
  | closeRead fifo =>
    simp only [step] at taken
    split at taken <;> cases taken
    exact keeps (by simp) fun _ known => known

/-- What is lost stays lost. -/
theorem Grows.not_framed {s t : State} (grows : Grows s t) (lost : ¬ Framed s) : ¬ Framed t := by
  intro framed
  apply lost
  intro place req known passed
  have accepted := framed place req (grows.sent _ known) (passed.trans_le grows.consumed)
  exact (grows.accepted place req accepted).resolve_right passed.ne

/-- A whole read loses nothing exactly if it begins no later than the requests inside it. -/
theorem accept_framed_iff {s : State} (inv : Positions s) (framed : Framed s)
    (pc : s.pc = .readRequest) (failure : Bool) :
    ReadsAtBoundary s (.server failure) ↔ Framed { s with
      queue := s.queue.drop requestSize
      consumed := s.consumed + requestSize
      pc := .openClient (.decode (s.queue.take requestSize))
      accepted := s.accepted ++ [(s.consumed, .decode (s.queue.take requestSize))] } := by
  constructor
  · intro boundary place req known passed
    rcases Nat.lt_trichotomy place s.consumed with before | here | behind
    · exact List.mem_append_left _ (framed place req known before)
    · have bytes := inv.queued place req known here.ge
      rw [here, Nat.sub_self, List.drop_zero] at bytes
      rw [here, bytes, Request.decode_encode]
      exact List.mem_append_right _ (List.mem_singleton_self _)
    · exact absurd ⟨behind, passed⟩ (boundary pc _ known)
  · rintro after _ ⟨place, req⟩ known inside
    have accepted := after place req known inside.2
    rcases List.mem_append.mp accepted with old | new
    · exact Nat.lt_asymm inside.1 (inv.read place req old)
    · cases List.mem_singleton.mp new
      exact Nat.lt_irrefl _ inside.1

theorem step_framed_iff {s t : State} {e : Event} (inv : Positions s) (framed : Framed s)
    (taken : step s e = some t) : ReadsAtBoundary s e ↔ Framed t := by
  cases e with
  | server failure =>
    cases stepServer_move taken with
    | discard pc nonempty short =>
      apply iff_of_true
      · rintro _ ⟨place, req⟩ known within
        have inside := inv.inside place req known
        omega
      · intro place req known passed
        have inside := inv.inside place req known
        apply framed place req known
        simp only at passed
        omega
    | accept pc whole => exact accept_framed_iff inv framed pc failure
    | giveUp req pc => exact iff_of_true (fun at_ => by simp [pc] at at_) framed
    | wait req fifo pc => exact iff_of_true (fun at_ => by simp [pc] at at_) framed
    | opened req fifo pc => exact iff_of_true (fun at_ => by simp [pc] at at_) framed
    | lost req fifo pc => exact iff_of_true (fun at_ => by simp [pc] at at_) framed
    | delivered req fifo pc => exact iff_of_true (fun at_ => by simp [pc] at at_) framed
  | request req =>
    cases taken
    apply iff_of_true trivial
    intro place other known passed
    rcases List.mem_append.mp known with old | new
    · exact framed place other old passed
    · cases List.mem_singleton.mp new
      simp only at passed
      omega
  | write bytes =>
    simp only [step] at taken
    split at taken <;> cases taken
    exact iff_of_true trivial framed
  | mkfifo pid =>
    cases taken
    apply iff_of_true trivial
    unfold State.mkfifo
    split <;> exact framed
  | unlink pid =>
    cases taken
    exact iff_of_true trivial framed
  | openRead pid =>
    obtain ⟨fifo, -, rfl⟩ := Option.map_eq_some_iff.mp taken
    exact iff_of_true trivial framed
  | closeRead fifo =>
    simp only [step] at taken
    split at taken <;> cases taken
    exact iff_of_true trivial framed

/-- After a run every well-behaved request that has been read from was handled as one request exactly
if no read of the run had the beginning of a request behind its first byte. -/
theorem framed_iff_readsAtBoundary {es : List Event} {s : State}
    (ran : exec step start es = some s) :
    Framed s ↔ AllSteps step ReadsAtBoundary start es := by
  have undamaged : AllSteps step ReadsAtBoundary start es ↔ ¬ ¬ Framed s := by
    have sound : Framed start := nofun
    apply allSteps_iff_undamaged (t := s) step_positions _ _ ran start_positions _
    · exact fun s e t _ lost taken => (step_grows taken).not_framed lost
    · intro s e t inv sound taken
      rw [not_not] at sound ⊢
      exact step_framed_iff inv sound taken
    · exact not_not_intro sound
  rw [undamaged, not_not]

/-- Three stray bytes that are read on their own do no harm. -/
theorem discarded_framed : ∃ s, exec step start
    [.write [1, 2, 3], .server false, .request ⟨7, 1⟩, .server false] = some s ∧ Framed s := by
  have ran : exec step start [.write [1, 2, 3], .server false, .request ⟨7, 1⟩, .server false] =
      some _ := (Option.some_get (by decide +kernel)).symm
  exact ⟨_, ran, (framed_iff_readsAtBoundary ran).mpr (by decide +kernel)⟩

/-- Three stray bytes with a request behind them: the server reads five bytes of the request too. -/
theorem request_not_framed : ¬ ∀ es s, exec step start es = some s → Framed s := by
  intro all
  have ran : exec step start [.write [1, 2, 3], .request ⟨7, 1⟩, .server false] = some _ :=
    (Option.some_get (by decide +kernel)).symm
  have accepted := all _ _ ran 3 ⟨7, 1⟩ (by decide +kernel) (by decide +kernel)
  exact absurd accepted (by decide +kernel)

end SystemProgramming.SeqNum
