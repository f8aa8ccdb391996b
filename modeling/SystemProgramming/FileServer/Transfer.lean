import SystemProgramming.FileServer.Runs

/-! # When the file arrives

The two sides are joined by two queues and each is deterministic, so every interleaving ends like
the schedule in which the client asks, the server answers completely and the client then reads.
There the file is delivered exactly when the request and all responses are accepted.
-/

namespace SystemProgramming.FileServer

open Lib

variable (x : Exchange)

/-! ## The request -/

theorem readInt_requestMsg : readInt (requestMsg x) = x.clientId := by
  have small := x.clientId_lt
  have value : unsigned (int x.clientId) = x.clientId := by
    rw [int, unsigned_encode]
    omega
  rw [requestMsg, readInt_store_data, readInt_store_data, readInt_store_tag, signed, value, int,
    length_encode, if_pos (by omega)]

/-- The string and the zeros behind it. -/
theorem requestMsg_apply {j : ℕ} (inside : j < pathMax) :
    requestMsg x (dataOffset + j) = (x.pathname[j]?).getD 0 := by
  rcases Nat.lt_trichotomy j x.pathname.length with less | rfl | more
  · rw [requestMsg, Memory.store_inside _ _ _ (by rw [List.length_append]; omega),
      List.getElem_append_left less, List.getElem?_eq_getElem less, Option.getD_some]
  · rw [requestMsg, Memory.store_inside _ _ _ (by simp)]
    simp
  · rw [requestMsg, Memory.store_above _ _ _ (by
        rw [List.length_append, List.length_singleton]; omega),
      Memory.store_inside _ _ _ (by simpa using inside), List.getElem_replicate,
      List.getElem?_eq_none more.le, Option.getD_none]

/-- The fourth byte of the pathname is below 0x80, and the request is not all zero. -/
def RequestFits : Prop :=
  (∀ b, x.pathname[3]? = some b → b < 128) ∧ (x.pathname = [] → x.clientId ≠ 0)

theorem requestFits_iff : RequestFits x ↔ requestMsg x 7 < 128 ∧
    (readInt (requestMsg x) = 0 → ∃ j < 4, requestMsg x (dataOffset + j) ≠ 0) := by
  have fourth : requestMsg x 7 = (x.pathname[3]?).getD 0 :=
    requestMsg_apply x (j := 3) (by decide)
  apply and_congr
  · rw [fourth]
    cases x.pathname[3]? with
    | none => simp
    | some b => simp
  · rw [readInt_requestMsg, Int.natCast_eq_zero, ← not_imp_not, not_not]
    apply imp_congr_right
    intro _
    constructor
    · intro nonempty
      obtain ⟨b, rest, split⟩ := List.exists_cons_of_ne_nil nonempty
      refine ⟨0, by decide, ?_⟩
      rw [requestMsg_apply x (by decide), split]
      rintro rfl
      exact x.isString (split ▸ List.mem_cons_self ..)
    · rintro ⟨j, small, nonzero⟩ empty
      rw [requestMsg_apply x (small.trans (by decide)), empty] at nonzero
      exact nonzero rfl

/-- The server finds the pathname in its structure. -/
theorem cString_request (memory : Memory) :
    cString (msgrcv memory ⟨(requestMsg x).load 0 8, (requestMsg x).load 8 (x.pathname.length + 1)⟩)
      dataOffset = x.pathname := by
  have short := x.notLong
  generalize received : msgrcv memory _ = m
  obtain ⟨behind, size⟩ : ∃ behind, pathMax = x.pathname.length + 1 + behind :=
    Nat.exists_eq_add_of_le (by rw [pathMax]; omega)
  have front : m.load dataOffset (x.pathname.length + 1) = x.pathname ++ [0] := by
    have same : m.load dataOffset (x.pathname.length + 1) =
        (requestMsg x).load dataOffset (x.pathname.length + 1) := by
      apply Memory.load_congr _ _
      intro i inside
      rw [← received]
      exact msgrcv_apply _ _ (by rw [dataOffset]; omega)
    have stored := Memory.load_store ((x.clientStack.store 0 (int x.clientId)).store dataOffset
      (List.replicate pathMax 0)) dataOffset (x.pathname ++ [0])
    rw [List.length_append, List.length_singleton] at stored
    exact same.trans stored
  have visible (b : UInt8) (member : b ∈ x.pathname) : (b != 0) = true := by
    rw [bne_iff_ne]
    rintro rfl
    exact x.isString member
  rw [cString, size, Memory.load_add, front, List.append_assoc,
    List.takeWhile_append_of_pos visible]
  simp

/-! ## The exchange -/

/-- The bytes of the file at the positions of the upper half: no fourth one is 0x80 or more, and
one of those in the last 8192 bytes of the file is not zero. -/
def FileFits (content : Bytes) : Prop :=
  Low content ∧
    ∃ i b, content[i]? = some b ∧ i % msgSize < 4 ∧ content.length ≤ i + msgSize ∧ b ≠ 0

/-- The request can be sent, and so can the file if there is one. -/
def Fits : Prop :=
  RequestFits x ∧ ∀ content, x.files x.pathname = some content → FileFits content

theorem terminal_of {c : Client} {t : Server} {inbox outbox : List Message}
    (clientStops : clientAct x c inbox = none) (serverStops : serverAct x t outbox = none) :
    Terminal (step x) ⟨c, t, inbox, outbox⟩ := by
  rintro (_ | _)
  · simp only [step, duplexStep, client, clientStops, Option.map_none]
  · simp only [step, duplexStep, server, serverStops, Option.map_none]

/-- The server's structure before the first `read`. -/
def transmitMsg : Memory :=
  (x.serverStack.store 0 (int mtData)).store dataOffset (List.replicate msgSize 0)

theorem transmitMsg_apply {j : ℕ} (inside : j < msgSize) : transmitMsg x (dataOffset + j) = 0 := by
  rw [transmitMsg, Memory.store_inside _ _ _ (by simpa using inside), List.getElem_replicate]

theorem readInt_transmitMsg : readInt (transmitMsg x) = mtData := by
  rw [transmitMsg, readInt_store_data, readInt_store_tag]
  decide

/-- The buffer starts out as zeros, so only the file can mark the end message. -/
theorem fileFits_iff (content : Bytes) :
    FileFits content ↔ Low content ∧ Marked (transmitMsg x) content := by
  apply and_congr_right
  intro _
  rw [Marked, or_iff_left]
  rintro ⟨j, small, -, nonzero⟩
  exact nonzero (transmitMsg_apply x (small.trans (by decide)))

/-- The failure message can always be sent: its upper half is `"Coul"`. -/
theorem failure_accepted (pathname : Bytes) (size : ℕ) :
    ∃ message, msgsnd (failureMsg x.serverStack pathname) size = some message ∧
      Carries message mtFailure size := by
  refine msgsnd_of_low ?_ size ?_ (fun zero => absurd zero (by decide))
  · rw [failureMsg, readInt_store_data, readInt_store_data, readInt_store_tag]
    decide
  · have fourth : failureMsg x.serverStack pathname (dataOffset + 3) = 108 :=
      Memory.store_inside _ _ (failureText pathname ++ [0]) (i := 3) (by simp [failureText, bytes])
    exact fourth.symm ▸ (by decide)

/-- The client and the server once the server has taken the request. -/
theorem request_run (fits : RequestFits x) : ∃ c req,
    exec (step x) (start x) [.left, .right] =
        some ⟨c, ⟨.serveRequest, req, x.serverStack, 0⟩, [], []⟩ ∧
      Waiting c ∧ c.totBytes = 0 ∧ readInt req = x.clientId ∧
      cString req dataOffset = x.pathname := by
  have short := x.notLong
  have response := (msgsnd_eq_some_iff (requestMsg x) (x.pathname.length + 1) _).mpr
    ⟨(requestFits_iff x).mp fits, rfl⟩
  have asks : clientAct x (clientStart x) [] = some ({ clientStart x with pc := .loop }, [],
      [⟨(requestMsg x).load 0 8, (requestMsg x).load 8 (x.pathname.length + 1)⟩]) := by
    simp only [clientAct, clientStart, response]
  have takes (message : Message) (size : message.text.length = x.pathname.length + 1) :
      serverAct x (serverStart x) [message] =
        some (⟨.serveRequest, msgrcv x.serverStack message, x.serverStack, 0⟩, [], []) := by
    simp only [serverAct, serverStart, size]
    exact if_neg (by rw [reqMsgSize, pathMax]; omega)
  have carries : Carries ⟨(requestMsg x).load 0 8, (requestMsg x).load 8 (x.pathname.length + 1)⟩
      x.clientId (x.pathname.length + 1) := ⟨_, rfl, readInt_requestMsg x⟩
  refine ⟨{ clientStart x with pc := .loop }, _, exec_cons_eq_some.mpr ⟨_, step_left _ asks,
    exec_cons_eq_some.mpr ⟨_, step_right _ (takes _ carries.length_text), rfl⟩⟩, ⟨rfl, ?_⟩, rfl,
    carries.readInt_eq _, cString_request x _⟩
  rw [clientStart, readInt_store_data, readInt_store_tag]
  decide

/-- A request the kernel does not accept ends the client at once. -/
theorem refused_run (unfit : ¬ RequestFits x) :
    ∃ es s, exec (step x) (start x) es = some s ∧ Terminal (step x) s ∧ ¬ Delivered x s := by
  have response := (msgsnd_eq_none_iff (requestMsg x) (x.pathname.length + 1)).mpr
    fun good => unfit ((requestFits_iff x).mpr good)
  have asks : clientAct x (clientStart x) [] =
      some ({ clientStart x with pc := .refused }, [], []) := by
    simp only [clientAct, clientStart, response]
  have stopped : Terminal (step x) ⟨{ clientStart x with pc := .refused }, serverStart x, [], []⟩ :=
    terminal_of x rfl rfl
  refine ⟨[.left], _, exec_cons_eq_some.mpr ⟨_, step_left [] asks, rfl⟩, stopped, ?_⟩
  rintro ⟨-, outcome⟩
  cases found : x.files x.pathname with
  | none => rw [found] at outcome; cases outcome
  | some content => rw [found] at outcome; cases outcome.1

/-- The failure message arrives when there is no file. -/
theorem missing_run (fits : RequestFits x) (missing : x.files x.pathname = none) :
    ∃ es s, exec (step x) (start x) es = some s ∧ Terminal (step x) s ∧ Delivered x s := by
  obtain ⟨c, req, asked, waiting, -, known, path⟩ := request_run x fits
  obtain ⟨message, response, carries⟩ :=
    failure_accepted x x.pathname ((failureText x.pathname).length + 1)
  have answers : serverAct x ⟨.serveRequest, req, x.serverStack, 0⟩ [] =
      some (⟨.exited, req, x.serverStack, 0⟩, [], [message]) := by
    simp only [serverAct, path, missing, respond, if_pos known, response]
  have short : (failureText x.pathname).length + 1 ≤ msgSize := by
    have := x.notLong
    simp only [failureText, bytes, List.length_append, List.length_map, List.length_cons,
      List.length_nil, msgSize]
    omega
  obtain ⟨c', reads, failed⟩ := read_failure (x := x)
    (t := ⟨.exited, req, x.serverStack, 0⟩) [] waiting carries short
  refine ⟨_, _, exec_append.mpr ⟨_, asked, exec_cons_eq_some.mpr ⟨_, step_right _ answers, reads⟩⟩,
    terminal_of x (by simp only [clientAct, failed]) rfl, rfl, ?_⟩
  rw [missing]
  exact failed

/-- A file arrives when all its blocks and the end message are accepted; otherwise the client
waits for the end message in vain. -/
theorem served_run (fits : RequestFits x) {content : Bytes}
    (found : x.files x.pathname = some content) :
    ∃ es s, exec (step x) (start x) es = some s ∧ Terminal (step x) s ∧
      (Delivered x s ↔ FileFits content) := by
  obtain ⟨c, req, asked, waiting, nothing, known, path⟩ := request_run x fits
  have opens : serverAct x ⟨.serveRequest, req, x.serverStack, 0⟩ [] =
      some (⟨.transmit content, req, transmitMsg x, 0⟩, [], []) := by
    simp only [serverAct, path, found, transmitMsg]
  have low : transmitMsg x 7 < 128 := by
    rw [show 7 = dataOffset + 3 from rfl, transmitMsg_apply x (by decide)]
    decide
  obtain ⟨es, t, sent, sends, exited, accepted, refused⟩ := transmit_run (x := x) known c content
    [] [] (transmitMsg x) 0 (readInt_transmitMsg x) low
  rw [← fileFits_iff] at accepted refused
  have served := exec_append.mpr ⟨_, asked, exec_cons_eq_some.mpr ⟨_, step_right _ opens, sends⟩⟩
  have stopped : serverAct x t [] = none := by simp only [serverAct, exited]
  by_cases file : FileFits content
  · obtain ⟨same, blocks, e, rfl, data, total, ends⟩ := accepted file
    obtain ⟨fs, middle, reads, waits, counted⟩ := read_blocks (x := x) (t := t) [e] [] data waiting
    obtain ⟨c', finishes, done, count⟩ := read_end (x := x) (t := t) [] waits ends
    refine ⟨_, _, exec_append.mpr ⟨_, served, exec_append.mpr ⟨_, reads, finishes⟩⟩,
      terminal_of x (by simp only [clientAct, done]) stopped, iff_of_true ⟨same, ?_⟩ file⟩
    rw [found]
    exact ⟨done, by rw [count, counted, nothing, total, Int.zero_add]⟩
  · obtain ⟨-, data⟩ := refused file
    obtain ⟨fs, c', reads, waits, -⟩ := read_blocks (x := x) (t := t) [] [] data waiting
    rw [List.append_nil] at reads
    refine ⟨_, _, exec_append.mpr ⟨_, served, reads⟩, terminal_of x ?_ stopped,
      iff_of_false ?_ file⟩
    · simp only [clientAct, waits.1, if_neg waits.2]
    · rintro ⟨-, outcome⟩
      rw [found, waits.1] at outcome
      cases outcome.1

/-- One complete run, and what it comes to. -/
theorem complete_run :
    ∃ es s, exec (step x) (start x) es = some s ∧ Terminal (step x) s ∧
      (Delivered x s ↔ Fits x) := by
  by_cases fits : RequestFits x
  · cases found : x.files x.pathname with
    | none =>
      obtain ⟨es, s, ran, terminal, delivered⟩ := missing_run x fits found
      refine ⟨es, s, ran, terminal, iff_of_true delivered ⟨fits, fun content opened => ?_⟩⟩
      nomatch found.symm.trans opened
    | some content =>
      obtain ⟨es, s, ran, terminal, outcome⟩ := served_run x fits found
      refine ⟨es, s, ran, terminal, outcome.trans ⟨fun file => ⟨fits, fun other opened => ?_⟩,
        fun both => both.2 content found⟩⟩
      exact Option.some.inj (found.symm.trans opened) ▸ file
  · obtain ⟨es, s, ran, terminal, refused⟩ := refused_run x fits
    exact ⟨es, s, ran, terminal, iff_of_false refused fun both => fits both.1⟩

/-- The exchange transfers the file exactly when the kernel accepts the request and every response,
which only the pathname, the identifier of the queue and the content of the file decide. -/
theorem transfers_iff_fits : Transfers x ↔ Fits x := by
  obtain ⟨es, s, ran, terminal, outcome⟩ := complete_run x
  have commutes : Commutes (step x) := duplex_commutes (client x) (server x)
  rw [← outcome]
  constructor
  · intro transfers
    exact transfers.2 s ⟨es, ran⟩ terminal
  · intro delivered
    refine ⟨⟨es.length, fun fs t other => commutes.length_le ran terminal other⟩, ?_⟩
    intro t reached ended
    rwa [commutes.terminal_unique ⟨es, ran⟩ terminal reached ended]

/-- A request for an empty file. -/
def emptyFile : Exchange where
  pathname := bytes ['f']
  clientId := 1
  files _ := some []
  clientStack _ := 0
  serverStack _ := 0
  isString := by decide
  notHelp := by decide
  notLong := by decide
  clientId_lt := by decide

/-- The client asks, and the server opens the file, finds its end and exits. -/
def emptyFileRun : List Side := [.left, .right, .right, .right, .right]

def emptyFileEnd : State :=
  (exec (step emptyFile) (start emptyFile) emptyFileRun).get (by decide +kernel)

/-- The end message of an empty file has type 0, and the client waits for it for ever. -/
theorem not_transfers_emptyFile : ¬ Transfers emptyFile := by
  intro transfers
  have reached : Reachable (step emptyFile) (start emptyFile) emptyFileEnd :=
    ⟨emptyFileRun, (Option.some_get _).symm⟩
  have terminal : Terminal (step emptyFile) emptyFileEnd := by
    intro side
    rw [← Option.isNone_iff_eq_none]
    cases side with
    | left => decide +kernel
    | right => decide +kernel
  have rejected : emptyFileEnd.right.rejected = 1 := by decide +kernel
  exact absurd ((transfers.2 _ reached terminal).1) (by rw [rejected]; decide)

end SystemProgramming.FileServer
