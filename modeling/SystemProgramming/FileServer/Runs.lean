import SystemProgramming.FileServer.Acceptance

/-! # What the server sends and the client reads

Each side on its own: the transmit loop up to the exit of the server, with the messages it leaves in
the client's queue, and the receive loop over such a queue. A message carries the first bytes of
its text in its type, and the receiver's structure gets them back where the sender had them.
-/

namespace SystemProgramming.FileServer

open Lib

variable (x : Exchange)

/-! ## Messages on their way -/

/-- A message sent from a structure with this tag. -/
def Carries (message : Message) (tag : ℤ) (size : ℕ) : Prop :=
  ∃ m : Memory, message = ⟨m.load 0 8, m.load 8 size⟩ ∧ readInt m = tag

/-- The receiver finds the bytes where the sender had them. -/
theorem msgrcv_apply (memory m : Memory) {size i : ℕ} (inside : i < 8 + size) :
    msgrcv memory ⟨m.load 0 8, m.load 8 size⟩ i = m i := m.store_loads memory 8 size inside

theorem Carries.readInt_eq {message : Message} {tag : ℤ} {size : ℕ}
    (carries : Carries message tag size) (memory : Memory) :
    readInt (msgrcv memory message) = tag := by
  obtain ⟨m, rfl, rfl⟩ := carries
  refine congrArg signed (Memory.load_congr _ _ fun i inside => ?_)
  exact msgrcv_apply memory m (by omega)

theorem Carries.length_text {message : Message} {tag : ℤ} {size : ℕ}
    (carries : Carries message tag size) : message.text.length = size := by
  obtain ⟨m, rfl, -⟩ := carries
  exact m.length_load 8 size

/-- The tag and four readable bytes decide whether a structure can be sent. -/
theorem msgsnd_of_low {m : Memory} {tag : ℤ} (tagged : readInt m = tag) (size : ℕ)
    (low : m 7 < 128) (nonzero : tag = 0 → ∃ j < 4, m (dataOffset + j) ≠ 0) :
    ∃ message, msgsnd m size = some message ∧ Carries message tag size := by
  exact ⟨_, (msgsnd_eq_some_iff m size _).mpr ⟨⟨low, fun zero => nonzero (tagged ▸ zero)⟩, rfl⟩, m,
    rfl, tagged⟩

theorem msgsnd_eq_none_iff (m : Memory) (size : ℕ) : msgsnd m size = none ↔
    ¬ (m 7 < 128 ∧ (readInt m = 0 → ∃ j < 4, m (dataOffset + j) ≠ 0)) := by
  rw [Option.eq_none_iff_forall_ne_some]
  simp only [ne_eq, msgsnd_eq_some_iff]
  constructor
  · intro refused accepted
    exact refused _ ⟨accepted, rfl⟩
  · rintro refused message ⟨accepted, -⟩
    exact refused accepted

/-! ## The client reads -/

section

variable {x} {c : Client} {t : Server} {message : Message} {rest : List Message}

theorem step_left (outbox : List Message) {c' : Client} {inbox rest sent : List Message}
    (act : clientAct x c inbox = some (c', rest, sent)) :
    step x ⟨c, t, inbox, outbox⟩ .left = some ⟨c', t, rest, outbox ++ sent⟩ := by
  simp only [step, duplexStep, client, act, Option.map_some]

theorem step_right (outbox : List Message) {t' : Server} {inbox rest sent : List Message}
    (act : serverAct x t inbox = some (t', rest, sent)) :
    step x ⟨c, t, outbox, inbox⟩ .right = some ⟨c, t', outbox ++ sent, rest⟩ := by
  simp only [step, duplexStep, server, act, Option.map_some]

/-- A client in its loop that has not received the end message. -/
def Waiting (c : Client) : Prop := c.pc = .loop ∧ readInt c.resp ≠ 0

theorem clientAct_message {tag : ℤ} {size : ℕ} (waiting : Waiting c)
    (carries : Carries message tag size) (short : size ≤ msgSize) (inbox : List Message) :
    clientAct x c (message :: inbox) =
      some (receive c (msgrcv c.resp message) size, inbox, []) := by
  simp only [clientAct, waiting.1, if_neg waiting.2, carries.length_text,
    if_neg (Nat.not_lt.mpr short)]

theorem receive_eq {tag : ℤ} {size : ℕ} (carries : Carries message tag size)
    (proper : tag ≠ mtFailure) : receive c (msgrcv c.resp message) size =
      { c with
        resp := msgrcv c.resp message
        totBytes := c.totBytes + size * tag
        numMsgs := c.numMsgs + 1 } := by
  rw [receive, carries.readInt_eq, if_neg proper]

/-- The blocks of a file: data messages that fit the client's structure. -/
def Blocks (sent : List Message) : Prop :=
  ∀ d ∈ sent, ∃ size ≤ msgSize, Carries d mtData size

theorem blocks_nil : Blocks [] := fun _ inside => absurd inside List.not_mem_nil

def totalLength (sent : List Message) : ℕ := (sent.map fun d => d.text.length).sum

/-- The client counts the blocks it reads. -/
theorem read_blocks (more outbox : List Message) {blocks : List Message} (data : Blocks blocks)
    (waiting : Waiting c) :
    ∃ es c', exec (step x) ⟨c, t, blocks ++ more, outbox⟩ es = some ⟨c', t, more, outbox⟩ ∧
      Waiting c' ∧ c'.totBytes = c.totBytes + totalLength blocks := by
  induction blocks generalizing c with
  | nil => exact ⟨[], c, rfl, waiting, by simp [totalLength]⟩
  | cons d blocks ih =>
    obtain ⟨size, short, carries⟩ := data d (List.mem_cons_self ..)
    have taken := step_left (t := t) outbox
      (clientAct_message (x := x) waiting carries short (blocks ++ more))
    rw [receive_eq carries (by decide), List.append_nil] at taken
    obtain ⟨es, c', ran, waits, total⟩ := ih (c := { c with
        resp := msgrcv c.resp d
        totBytes := c.totBytes + size * mtData
        numMsgs := c.numMsgs + 1 })
      (fun other member => data other (List.mem_cons_of_mem _ member))
      ⟨waiting.1, by rw [carries.readInt_eq]; decide⟩
    refine ⟨.left :: es, c', exec_cons_eq_some.mpr ⟨_, taken, ran⟩, waits, ?_⟩
    rw [total, totalLength, totalLength, List.map_cons, List.sum_cons, carries.length_text, mtData]
    push_cast
    ring

/-- The end message ends the client. -/
theorem read_end (outbox : List Message) (waiting : Waiting c)
    (carries : Carries message mtEnd 0) :
    ∃ c', exec (step x) ⟨c, t, [message], outbox⟩ [.left, .left] = some ⟨c', t, [], outbox⟩ ∧
      c'.pc = .succeeded ∧ c'.totBytes = c.totBytes := by
  have taken := step_left (t := t) outbox
    (clientAct_message (x := x) waiting carries (Nat.zero_le _) [])
  rw [receive_eq carries (by decide), List.append_nil] at taken
  have leaves : clientAct x { c with
      resp := msgrcv c.resp message
      totBytes := c.totBytes + (0 : ℕ) * mtEnd
      numMsgs := c.numMsgs + 1 } [] = some ({ c with
        pc := .succeeded
        resp := msgrcv c.resp message
        totBytes := c.totBytes + (0 : ℕ) * mtEnd
        numMsgs := c.numMsgs + 1 }, [], []) := by
    simp only [clientAct, waiting.1]
    exact if_pos (carries.readInt_eq _)
  have left := step_left (t := t) outbox leaves
  rw [List.append_nil] at left
  exact ⟨_, exec_cons_eq_some.mpr ⟨_, taken, exec_cons_eq_some.mpr ⟨_, left, rfl⟩⟩, rfl, by simp⟩

/-- The failure message ends the client. -/
theorem read_failure (outbox : List Message) {size : ℕ} (waiting : Waiting c)
    (carries : Carries message mtFailure size) (short : size ≤ msgSize) :
    ∃ c', exec (step x) ⟨c, t, [message], outbox⟩ [.left] = some ⟨c', t, [], outbox⟩ ∧
      c'.pc = .failed := by
  have taken := step_left (t := t) outbox
    (clientAct_message (x := x) waiting carries short [])
  rw [receive, if_pos (carries.readInt_eq _), List.append_nil] at taken
  exact ⟨_, exec_cons_eq_some.mpr ⟨_, taken, rfl⟩, rfl⟩

/-! ## The server answers -/

/-- All blocks of a file of this length and the end message. -/
def Complete (sent : List Message) (length : ℕ) : Prop :=
  ∃ blocks e, sent = blocks ++ [e] ∧ Blocks blocks ∧ totalLength blocks = length ∧
    Carries e mtEnd 0

/-- What the server has sent when it has exited, given whether all of it was acceptable. -/
structure Answered (good : Prop) (length : ℕ) (before : ℕ) (t : Server) (sent : List Message) :
    Prop where
  exited : t.pc = .exited
  accepted : good → t.rejected = before ∧ Complete sent length
  refused : ¬ good → before < t.rejected ∧ Blocks sent

section

variable {req m : Memory} {rejected : ℕ} {inbox : List Message}

theorem finish_run (known : readInt req = x.clientId) (c : Client) (inbox outbox : List Message)
    (m : Memory) (rejected : ℕ) :
    ∃ t sent, exec (step x) ⟨c, ⟨.finish, req, m, rejected⟩, inbox, outbox⟩ [.right] =
        some ⟨c, t, inbox ++ sent, outbox⟩ ∧
      Answered (m 7 < 128 ∧ Marked m []) 0 rejected t sent := by
  have tag : readInt (m.store 0 (int mtEnd)) = 0 := (readInt_store_tag m mtEnd).trans (by decide)
  have kept (j : ℕ) : m.store 0 (int mtEnd) (dataOffset + j) = m (dataOffset + j) :=
    m.store_above _ _ (by simp [int, dataOffset])
  have good : (m 7 < 128 ∧ Marked m []) ↔ m.store 0 (int mtEnd) 7 < 128 ∧
      (readInt (m.store 0 (int mtEnd)) = 0 → ∃ j < 4, m.store 0 (int mtEnd) (dataOffset + j) ≠ 0) := by
    rw [show (7 : ℕ) = dataOffset + 3 from rfl]
    simp only [kept, tag, true_implies]
    simp [Marked]
  cases response : msgsnd (m.store 0 (int mtEnd)) 0 with
  | none =>
    have act : serverAct x ⟨.finish, req, m, rejected⟩ outbox =
        some (⟨.exited, req, m.store 0 (int mtEnd), rejected + 1⟩, outbox, []) := by
      simp only [serverAct, respond, if_pos known, response]
    refine ⟨_, _, exec_cons_eq_some.mpr ⟨_, step_right _ act, rfl⟩, rfl, fun holds => ?_,
      fun _ => ⟨Nat.lt_succ_self _, blocks_nil⟩⟩
    exact absurd (good.mp holds) ((msgsnd_eq_none_iff _ 0).mp response)
  | some message =>
    have act : serverAct x ⟨.finish, req, m, rejected⟩ outbox =
        some (⟨.exited, req, m.store 0 (int mtEnd), rejected⟩, outbox, [message]) := by
      simp only [serverAct, respond, if_pos known, response]
    obtain ⟨⟨low, nonzero⟩, rfl⟩ := (msgsnd_eq_some_iff _ 0 _).mp response
    exact ⟨_, _, exec_cons_eq_some.mpr ⟨_, step_right _ act, rfl⟩, rfl, fun _ => ⟨rfl, [], _, rfl,
      blocks_nil, rfl, _, rfl, tag⟩, fun fails => absurd (good.mpr ⟨low, nonzero⟩) fails⟩

/-- The transmit loop sends every block exactly when all of them are acceptable. -/
theorem transmit_run (known : readInt req = x.clientId) (c : Client) (rest : Bytes) :
    ∀ (inbox outbox : List Message) (m : Memory) (rejected : ℕ), readInt m = mtData → m 7 < 128 →
    ∃ es t sent, exec (step x) ⟨c, ⟨.transmit rest, req, m, rejected⟩, inbox, outbox⟩ es =
        some ⟨c, t, inbox ++ sent, outbox⟩ ∧
      Answered (Low rest ∧ Marked m rest) rest.length rejected t sent := by
  induction size : rest.length using Nat.strong_induction_on generalizing rest with
  | _ n ih =>
    subst size
    intro inbox outbox m rejected tag low
    cases rest with
    | nil =>
      have act : serverAct x ⟨.transmit [], req, m, rejected⟩ outbox =
          some (⟨.finish, req, m, rejected⟩, outbox, []) := rfl
      have turn := step_right (c := c) inbox act
      rw [List.append_nil] at turn
      obtain ⟨t, sent, ran, exited, accepted, refused⟩ := finish_run known c inbox outbox m rejected
      have all : Low [] := nofun
      refine ⟨_, t, sent, exec_cons_eq_some.mpr ⟨_, turn, ran⟩, exited,
        fun good => accepted ⟨low, good.2⟩, fun bad => refused fun good => bad ⟨all, good.2⟩⟩
    | cons b rest =>
      generalize nonempty : b :: rest = content at ih
      have blockPos : 0 < msgSize := by decide
      have positive : (content.take msgSize).length ≠ 0 := by
        rw [← nonempty, List.length_take, List.length_cons]; omega
      have tagged : readInt (fill m content) = mtData := (readInt_store_data m _).trans tag
      have split : (Low content ∧ Marked m content) ↔ fill m content 7 < 128 ∧
          Low (content.drop msgSize) ∧ Marked (fill m content) (content.drop msgSize) := by
        rw [low_fill_iff low, marked_fill_iff m, and_assoc]
      by_cases next : fill m content 7 < 128
      · obtain ⟨message, response, carries⟩ := msgsnd_of_low tagged
          (content.take msgSize).length next (by rw [mtData]; omega)
        have act : serverAct x ⟨.transmit content, req, m, rejected⟩ outbox =
            some (⟨.transmit (content.drop msgSize), req, fill m content, rejected⟩, outbox,
              [message]) := by
          rw [fill] at response
          simp only [serverAct, respond, if_pos known, if_neg positive, response, fill]
        have less : (content.drop msgSize).length < content.length := by
          rw [List.length_drop, ← nonempty, List.length_cons]; omega
        obtain ⟨es, t, sent, ran, exited, accepted, refused⟩ :=
          ih _ less _ rfl (inbox ++ [message]) outbox (fill m content) rejected tagged next
        rw [List.append_assoc] at ran
        refine ⟨_, t, _, exec_cons_eq_some.mpr ⟨_, step_right _ act, ran⟩, exited, fun good => ?_,
          fun bad => ?_⟩
        · obtain ⟨same, blocks, e, rfl, data, total, ends⟩ := accepted (split.mp good).2
          refine ⟨same, message :: blocks, e, rfl, ?_, ?_, ends⟩
          · exact List.forall_mem_cons.mpr ⟨⟨_, List.length_take_le .., carries⟩, data⟩
          · rw [totalLength, List.map_cons, List.sum_cons, carries.length_text]
            rw [totalLength, List.length_drop] at total
            rw [total, List.length_take]
            omega
        · obtain ⟨more, data⟩ := refused fun good => bad (split.mpr ⟨next, good⟩)
          exact ⟨more, List.forall_mem_cons.mpr ⟨⟨_, List.length_take_le .., carries⟩, data⟩⟩
      · have response := (msgsnd_eq_none_iff (fill m content) (content.take msgSize).length).mpr
          fun good => next good.1
        have act : serverAct x ⟨.transmit content, req, m, rejected⟩ outbox =
            some (⟨.finish, req, fill m content, rejected + 1⟩, outbox, []) := by
          rw [fill] at response
          simp only [serverAct, respond, if_pos known, if_neg positive, response, fill]
        have turn := step_right (c := c) inbox act
        rw [List.append_nil] at turn
        obtain ⟨t, sent, ran, exited, -, refused⟩ :=
          finish_run known c inbox outbox (fill m content) (rejected + 1)
        obtain ⟨more, data⟩ := refused fun good => next good.1
        exact ⟨_, t, sent, exec_cons_eq_some.mpr ⟨_, turn, ran⟩, exited,
          fun good => absurd (split.mp good).1 next, fun _ => ⟨by omega, data⟩⟩

end

end

end SystemProgramming.FileServer
