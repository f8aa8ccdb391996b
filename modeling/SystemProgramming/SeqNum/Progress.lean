import SystemProgramming.SeqNum.Model

/-! # Who can keep the server waiting

The server reads while there are bytes and answers once a client's FIFO is open. It can only be made
to wait inside the open, which happens exactly if the FIFO exists and nobody reads it; no event of
the server ends this wait.
-/

namespace SystemProgramming.SeqNum

open Lib

/-- A request is waiting in the server's FIFO or being served. -/
def Busy (s : State) : Prop := s.queue ≠ [] ∨ s.pc ≠ .readRequest

/-- The server needs nobody to take its next step on a request. -/
def Progress (s : State) : Prop := Busy s → ∃ t, stepServer s false = some t

/-- The request whose FIFO is opened next. -/
def ServerPc.opening : ServerPc → Option Request
  | .openClient req => some req
  | .readRequest | .waitReader _ _ | .writeResponse _ _ => none

/-- When the server opens a client's FIFO, the open fails or somebody reads the FIFO. -/
def FindsReader (s : State) : Event → Prop
  | .server failure => ∀ req ∈ s.pc.opening, failure = true ∨ ∀ fifo ∈ s.names req.pid, 0 < s.readers fifo
  | .request _ | .write _ | .mkfifo _ | .unlink _ | .openRead _ | .closeRead _ => True

instance (s : State) : (e : Event) → Decidable (FindsReader s e)
  | .server failure => inferInstanceAs (Decidable (∀ req ∈ s.pc.opening, failure = true ∨
      ∀ fifo ∈ s.names req.pid, 0 < s.readers fifo))
  | .request _ | .write _ | .mkfifo _ | .unlink _ | .openRead _ | .closeRead _ => isTrue trivial

/-- The server waits for a client. -/
def ServerPc.waits : ServerPc → Bool
  | .waitReader _ _ => true
  | .readRequest | .openClient _ | .writeResponse _ _ => false

theorem progress_iff {s : State} : Progress s ↔ s.pc.waits = false := by
  constructor
  · intro progress
    cases pc : s.pc with
    | waitReader req fifo =>
      obtain ⟨t, taken⟩ := progress (.inr (by simp [pc]))
      simp [stepServer, pc] at taken
    | readRequest | openClient req | writeResponse req fifo => rfl
  · intro free busy
    cases pc : s.pc with
    | waitReader req fifo => simp [pc, ServerPc.waits] at free
    | readRequest =>
      have nonempty : s.queue ≠ [] := busy.resolve_right (not_not.mpr pc)
      exact ⟨s.read, by simp [stepServer, pc, nonempty]⟩
    | openClient req =>
      cases named : s.names req.pid with
      | none => exact ⟨s.giveUp req, by simp [stepServer, pc, named]⟩
      | some fifo => by_cases alone : s.readers fifo = 0 <;> simp [stepServer, pc, named, alone]
    | writeResponse req fifo =>
      by_cases alone : s.readers fifo = 0 <;> simp [stepServer, pc, alone]

/-- Only the open of a FIFO that nobody reads makes the server wait. -/
theorem ServerMove.waits_iff {s t : State} {failure : Bool} (move : ServerMove s failure t) :
    FindsReader s (.server failure) ↔ t.pc.waits = false := by
  cases move with
  | discard pc nonempty short =>
    exact iff_of_true (by simp [FindsReader, pc, ServerPc.opening]) (by simp [pc, ServerPc.waits])
  | accept pc whole => exact iff_of_true (by simp [FindsReader, pc, ServerPc.opening]) rfl
  | giveUp req pc closed =>
    refine iff_of_true ?_ rfl
    rcases closed with failed | unnamed
    · simp [FindsReader, failed]
    · simp [FindsReader, pc, ServerPc.opening, unnamed]
  | wait req fifo pc allowed named alone =>
    refine iff_of_false ?_ (by simp [ServerPc.waits])
    simp [FindsReader, pc, ServerPc.opening, allowed, named, alone]
  | opened req fifo pc allowed named read =>
    refine iff_of_true ?_ rfl
    simp [FindsReader, pc, ServerPc.opening, named, Nat.pos_of_ne_zero read]
  | lost req fifo pc | delivered req fifo pc =>
    exact iff_of_true (by simp [FindsReader, pc, ServerPc.opening]) rfl

theorem step_waits_iff {s t : State} {e : Event} (free : s.pc.waits = false)
    (taken : step s e = some t) : FindsReader s e ↔ t.pc.waits = false := by
  have still (other : ∀ failure, e ≠ .server failure) : t.pc.waits = false := by
    rcases (step_untouched other taken).pc with same | ⟨req, fifo, waiting, -⟩
    · rw [same]
      exact free
    · simp [waiting, ServerPc.waits] at free
  cases e with
  | server failure => exact (stepServer_move taken).waits_iff
  | request req => exact iff_of_true trivial (still nofun)
  | write bytes => exact iff_of_true trivial (still nofun)
  | mkfifo pid => exact iff_of_true trivial (still nofun)
  | unlink pid => exact iff_of_true trivial (still nofun)
  | openRead pid => exact iff_of_true trivial (still nofun)
  | closeRead fifo => exact iff_of_true trivial (still nofun)

/-- In a run the server can always go on by itself exactly if each FIFO it opens is missing or has a
reader at that moment. -/
theorem progress_throughout_iff {es : List Event} {s : State} (ran : exec step start es = some s) :
    Throughout step Progress start es ↔ AllSteps step FindsReader start es := by
  refine (allSteps_iff_throughout ?_ ran ?_).symm
  · intro s e t progress taken
    rw [progress_iff] at progress ⊢
    exact step_waits_iff progress taken
  · exact progress_iff.mpr rfl

/-- A client that opens its FIFO before the server does is answered. -/
theorem client_progress :
    Throughout step Progress start
      ((client ⟨7, 1⟩ 0).take 3 ++ [.server false, .server false, .server false]) := by
  have ran : exec step start
      ((client ⟨7, 1⟩ 0).take 3 ++ [.server false, .server false, .server false]) = some _ :=
    (Option.some_get (by decide +kernel)).symm
  exact (progress_throughout_iff ran).mpr (by decide +kernel)

/-- `dos_client` stops the server: it has read the request and waits for a reader. -/
theorem dosClient_blocks : ¬ ∀ es s, exec step start es = some s → Progress s := by
  intro all
  have ran : exec step start ((dosClient ⟨7, 1⟩).take 2 ++ [.server false, .server false]) = some _ :=
    (Option.some_get (by decide +kernel)).symm
  have free := progress_iff.mp (all _ _ ran)
  exact absurd free (by decide +kernel)

end SystemProgramming.SeqNum
