import SystemProgramming.Dictionary.Service
import SystemProgramming.Dictionary.WholeFile

/-! # Every word is answered

A client has one word under way at a time, so each word arrives as one piece, and the reply to it as well. What
a session has printed and what is still to come make up the words of its stdin with their texts, whichever step is
next. A child ends only by its first write behind a client that has closed the connection.
-/

namespace SystemProgramming.Dictionary.Service

open Lib WholeFile

/-! ## What is printed for a word -/

/-- The text of the first record with the word. -/
def meaning (records : List Record) (word : List UInt8) : List UInt8 :=
  match records.find? fun record => word = record.word.string with
  | some record => record.text.string
  | none => Server.notFoundText

def entry (records : List Record) (word : List UInt8) : List UInt8 := word ++ separator ++ meaning records word

def entries (records : List Record) (text : List UInt8) : List UInt8 := (lines text).flatMap (entry records)

/-- Lines that are words: each fits into its field, and none is empty. -/
structure Asks (text : List UInt8) : Prop where
  fits : Client.Fits text
  named : [] ∉ lines text

section

variable {records : List Record} {behind : List Dictrec} {table : Lookup5.Table} {word : List UInt8}

theorem reply_fileOf (room : records.length < Lookup5.capacity)
    (loaded : Lookup5.initDictTable (fileOf records) behind = some table) (buf : Field Server.bufSize)
    (short : buf.string.length ≤ 31) (named : buf.string ≠ []) :
    Server.reply table buf = some (meaning records buf.string ++ [0]) := by
  have fits : buf.string.length < wordSize := Nat.lt_succ_of_le short
  have string := Field.string_init fits (not_mem_cstr buf.bytes)
  rw [Server.reply_eq buf short, Server.answer, lookup_fileOf room loaded, meaning, string, if_neg named,
    WholeFile.answer, string]
  cases records.find? fun record => buf.string = record.word.string with
  | some record => rfl
  | none => exact congrArg (fun text => some (text ++ [0])) (Field.string_init (by decide) (by decide))

/-- A text with its NUL fits into the field of the client. -/
theorem meaning_fits (ends : ∀ record ∈ records, 0 ∈ record.text.bytes) (word : List UInt8) :
    0 ∉ meaning records word ∧ (meaning records word).length < textSize := by
  rw [meaning]
  split
  · next record found =>
    have member := List.mem_of_find?_eq_some found
    exact ⟨not_mem_cstr _, (Field.zero_mem_iff record.text).mp (ends record member)⟩
  · decide

theorem entries_append {line rest : List UInt8} (whole : newline ∉ line) :
    entries records (line ++ newline :: rest) = entry records line ++ entries records rest := by
  rw [entries, lines_append rest whole, List.flatMap_cons]
  rfl

theorem asks_append {line rest : List UInt8} (whole : newline ∉ line) (asks : Asks (line ++ newline :: rest)) :
    (0 ∉ line ∧ line.length + 2 ≤ wordSize) ∧ line ≠ [] ∧ Asks rest := by
  obtain ⟨fits, named⟩ := asks
  obtain ⟨here, later⟩ := (Client.fits_append whole).mp fits
  rw [lines_append rest whole, List.mem_cons, not_or] at named
  exact ⟨here, Ne.symm named.1, later, named.2⟩

end

/-! ## The steps that are left -/

def ClientPc.fuel : ClientPc → ℕ
  | .connect => 3
  | .fgets => 1
  | .read _ => 2
  | .ended => 0
  | .killed => 0
  | .undefined => 0

/-- A reply gives the client a step, as long as it is there. -/
def ChildPc.fuel (closed : Bool) : ChildPc → ℕ
  | .absent => 4
  | .connect => 3
  | .read _ => 2
  | .write _ _ => if closed then 1 else 4
  | .left => 0
  | .killed => 0
  | .undefined => 0

def Session.fuel (s : Session) : ℕ :=
  5 * s.stdin.length + s.client.fuel + s.child.fuel s.client.closed + 3 * s.toServer.length +
    if s.toClient = [] then 0 else 1

section

variable {s t : Session} {stack : ℕ → Dictrec} {file : List UInt8} {behind : List Dictrec}

/-- A child has less to do for a client that has closed the connection. -/
theorem childFuel_closed (child : ChildPc) (closed : Bool) : child.fuel true ≤ child.fuel closed := by
  cases closed with
  | false => cases child <;> simp [ChildPc.fuel]
  | true => exact le_rfl

theorem printf_fuel (word : Field wordSize) (text : Field textSize) (here : s.client = .read word) :
    (s.printf word text).fuel < s.fuel := by
  have less := childFuel_closed s.child s.client.closed
  rw [here] at less
  rw [Session.printf]
  split_ifs
  · simp only [Session.fuel, here, ClientPc.fuel, ClientPc.closed]
    omega
  · simp only [ClientPc.closed] at less
    simp only [Session.fuel, here, ClientPc.fuel, ClientPc.closed]
    omega

theorem length_piece_le (stdin : List UInt8) : (Client.piece stdin).length ≤ stdin.length := by
  rw [Client.piece, List.length_take]
  refine (Nat.min_le_right _ _).trans ?_
  rcases text_cases stdin with rfl | ⟨line, rest, whole, rfl⟩ | ⟨whole, -⟩
  · exact le_rfl
  · rw [splitLine_append rest whole]
    simp
  · rw [splitLine_whole whole]

/-- A word is shorter than what `fgets` has taken for it. -/
theorem query_shorter (word : Field wordSize) {stdin : List UInt8}
    (some_ : (word.fill (Client.piece stdin ++ [0])).string ≠ []) :
    (Client.query word stdin).string.length + 1 ≤ (Client.piece stdin).length := by
  have bound := (cstr_prefix_self (Client.piece stdin)).length_le
  rw [Client.string_fgets] at some_
  have positive := List.length_pos_iff.mpr some_
  rw [Client.string_query, List.length_dropLast]
  omega

theorem clientStep_fuel (taken : clientStep stack s = some t) : t.fuel < s.fuel := by
  rw [clientStep] at taken
  split at taken
  · next here =>
    have less := childFuel_closed s.child s.client.closed
    rw [here] at less
    simp only [ClientPc.closed] at less
    split_ifs at taken with finished empty
    · cases taken
      simp only [Session.fuel, here, ClientPc.fuel, ClientPc.closed]
      omega
    · cases taken
      simp only [Session.fuel, here, ClientPc.fuel, ClientPc.closed]
      omega
    · cases taken
      have shorter := query_shorter (stack s.round).word empty
      have inside := length_piece_le s.stdin
      rw [Session.ask]
      split_ifs
      · simp only [Session.fuel, here, ClientPc.fuel, ClientPc.closed, List.length_drop]
        omega
      · simp only [Session.fuel, here, ClientPc.fuel, ClientPc.closed, List.length_drop, List.length_append,
          List.length_singleton]
        omega
  · next word here =>
    split_ifs at taken with nothing
    · cases taken
      exact printf_fuel word _ here
    · cases taken
      refine (printf_fuel (s := { s with toClient := s.toClient.drop textSize }) word _ here).trans_le ?_
      simp only [Session.fuel, if_neg nothing]
      split_ifs
      · omega
      · exact le_rfl
  all_goals cases taken

theorem receive_spec {count : ℤ} {after : Session} (got : s.receive = some (count, after)) :
    s.toServer = [] ∧ s.client.closed = true ∧ count = 0 ∧ after = s ∨ s.toServer ≠ [] ∧
      count = (s.toServer.take Server.bufSize).length ∧ after = { s with
        buf := s.buf.fill (s.toServer.take Server.bufSize)
        toServer := s.toServer.drop Server.bufSize } := by
  rw [Session.receive] at got
  split_ifs at got with nothing closed
  · cases got
    exact .inl ⟨nothing, closed, rfl, rfl⟩
  · cases got
    exact .inr ⟨nothing, rfl, rfl⟩

/-- What `read` has returned is never taken for the end. -/
theorem count_ne_EOF {count : ℤ} {after : Session} (got : s.receive = some (count, after)) : count ≠ Server.EOF := by
  rcases receive_spec got with ⟨-, -, rfl, -⟩ | ⟨-, rfl, -⟩
  · decide
  · rw [Server.EOF]
    omega

theorem childStep_fuel (taken : childStep file behind s = some t) : t.fuel < s.fuel := by
  rw [childStep] at taken
  split at taken
  · next here =>
    split at taken <;> cases taken <;> simp only [Session.fuel, here, ChildPc.fuel] <;> omega
  · next table here =>
    obtain ⟨⟨count, after⟩, got, rfl⟩ := Option.map_eq_some_iff.mp taken
    rw [Session.lookup, if_neg (count_ne_EOF got)]
    rcases receive_spec got with ⟨nothing, closed, -, rfl⟩ | ⟨some_, -, rfl⟩
    · split <;> simp only [Session.fuel, here, ChildPc.fuel, closed, if_true] <;> omega
    · have positive := List.length_pos_iff.mpr some_
      have size : 0 < Server.bufSize := by decide
      split <;> simp only [Session.fuel, here, ChildPc.fuel, List.length_drop]
      · split_ifs <;> omega
      · omega
  · next table text here =>
    split_ifs at taken with closed
    · cases taken
      simp only [Session.fuel, here, ChildPc.fuel, closed, if_true]
      omega
    · cases taken
      simp only [Session.fuel, here, ChildPc.fuel, if_neg closed]
      split_ifs <;> omega
  all_goals cases taken

end

/-! ## One session -/

/-- The child waits for a word, or will when it is there. -/
structure Ready (table : Lookup5.Table) (s : Session) : Prop where
  child : s.child = .absent ∨ s.child = .connect ∨ s.child = .read table
  buf : s.buf = Field.init Server.bufSize []

/-- What the session has printed and what is still to come make up the output. -/
inductive Phase (records : List Record) (table : Lookup5.Table) (output : List UInt8) (s : Session) : Prop where
  | connect : s.client = .connect → s.child = .absent → s.buf = Field.init Server.bufSize [] → s.toServer = [] →
      s.toClient = [] → Asks s.stdin → s.shown ++ entries records s.stdin = output → Phase records table output s
  | fgets : s.client = .fgets → Ready table s → s.toServer = [] → s.toClient = [] → Asks s.stdin →
      s.shown ++ entries records s.stdin = output → Phase records table output s
  | asked {word : Field wordSize} : s.client = .read word → Ready table s → s.toServer = word.string ++ [0] →
      s.toClient = [] → word.string.length ≤ 31 → word.string ≠ [] → Asks s.stdin →
      s.shown ++ (entry records word.string ++ entries records s.stdin) = output → Phase records table output s
  | served {word : Field wordSize} : s.client = .read word →
      s.child = .write table (meaning records word.string ++ [0]) → s.toServer = [] → s.toClient = [] →
      Asks s.stdin → s.shown ++ (entry records word.string ++ entries records s.stdin) = output →
      Phase records table output s
  | answered {word : Field wordSize} : s.client = .read word → Ready table s → s.toServer = [] →
      s.toClient = meaning records word.string ++ [0] → Asks s.stdin →
      s.shown ++ (entry records word.string ++ entries records s.stdin) = output → Phase records table output s
  | ended : s.client = .ended → Ready table s → s.toServer = [] → s.shown = output → Phase records table output s
  | writing {text : List UInt8} : s.client = .ended → s.child = .write table text → s.shown = output →
      Phase records table output s
  | killed : s.client = .ended → s.child = .killed → s.shown = output → Phase records table output s

section

variable {records : List Record} {table : Lookup5.Table} {output : List UInt8} {s t : Session}
  {stack : ℕ → Dictrec} {behind : List Dictrec}

theorem Ready.alive (ready : Ready table s) : s.child.closed = false := by
  rcases ready.child with child | child | child <;> rw [child] <;> rfl

/-- The next line is sent to the server. -/
theorem phase_fgets (here : s.client = .fgets) (ready : Ready table s) (toServer : s.toServer = [])
    (toClient : s.toClient = []) (asks : Asks s.stdin) (whole : s.shown ++ entries records s.stdin = output)
    (taken : clientStep stack s = some t) : Phase records table output t := by
  simp only [clientStep, here] at taken
  rcases text_cases s.stdin with nothing | ⟨line, rest, newlines, split⟩ | ⟨newlines, more⟩
  · rw [if_pos nothing] at taken
    cases taken
    rw [nothing, show entries records [] = [] from rfl, List.append_nil] at whole
    exact .ended rfl ⟨ready.child, ready.buf⟩ toServer whole
  · have more : s.stdin ≠ [] := by simp [split]
    rw [split] at asks whole
    obtain ⟨⟨proper, short⟩, named, later⟩ := asks_append newlines asks
    have word := (Client.string_query_append_iff (stack s.round).word rest newlines).mpr ⟨proper, short⟩
    have some_ : ((stack s.round).word.fill (Client.piece s.stdin ++ [0])).string ≠ [] := by
      rw [Client.string_fgets, split, Client.cstr_piece_append newlines proper short]
      simp
    have left : s.stdin.drop (Client.piece s.stdin).length = rest := by
      rw [split, Client.piece_append newlines short, List.append_cons line newline rest, List.drop_left]
    rw [if_neg more, if_neg some_, left] at taken
    cases taken
    have gone : ¬ s.child.closed = true := by simp [ready.alive]
    rw [Session.ask, if_neg gone, split]
    rw [entries_append newlines] at whole
    refine .asked rfl ⟨ready.child, ready.buf⟩ ?_ toClient ?_ ?_ later ?_
    · rw [toServer]
      rfl
    · rw [word]
      rw [wordSize] at short
      omega
    · rw [word]
      exact named
    · rw [word]
      exact whole
  · exact absurd asks.fits (Client.not_fits_whole newlines more)

/-- The reply is printed behind its word. -/
theorem phase_answered {word : Field wordSize} (ends : ∀ record ∈ records, 0 ∈ record.text.bytes)
    (here : s.client = .read word) (ready : Ready table s) (toServer : s.toServer = [])
    (toClient : s.toClient = meaning records word.string ++ [0]) (asks : Asks s.stdin)
    (whole : s.shown ++ (entry records word.string ++ entries records s.stdin) = output)
    (taken : clientStep stack s = some t) : Phase records table output t := by
  obtain ⟨proper, short⟩ := meaning_fits ends word.string
  have some_ : s.toClient ≠ [] := by simp [toClient]
  have all : s.toClient.take textSize = meaning records word.string ++ [0] := by
    rw [toClient, List.take_of_length_le]
    rw [List.length_append, List.length_singleton]
    omega
  have nothing : s.toClient.drop textSize = [] := by
    rw [toClient, List.drop_eq_nil_iff, List.length_append, List.length_singleton]
    omega
  have bytes := Field.bytes_fill_zero (stack s.round).text short
  have text : ((stack s.round).text.fill (meaning records word.string ++ [0])).string =
      meaning records word.string := by
    rw [Field.string, bytes, cstr_append_zero proper]
  simp only [clientStep, here, if_neg some_, all, nothing] at taken
  cases taken
  rw [Session.printf, if_pos (by rw [bytes]; simp)]
  refine .fgets rfl ⟨ready.child, ready.buf⟩ toServer rfl asks ?_
  rw [text, List.append_assoc]
  exact whole

theorem phase_clientStep (ends : ∀ record ∈ records, 0 ∈ record.text.bytes) (phase : Phase records table output s)
    (taken : clientStep stack s = some t) : Phase records table output t := by
  cases phase with
  | connect here => simp [clientStep, here] at taken
  | fgets here ready toServer toClient asks whole => exact phase_fgets here ready toServer toClient asks whole taken
  | asked here ready _ toClient => simp [clientStep, here, toClient, ready.alive] at taken
  | served here child _ toClient => simp [clientStep, here, toClient, child, ChildPc.closed] at taken
  | answered here ready toServer toClient asks whole =>
    exact phase_answered ends here ready toServer toClient asks whole taken
  | ended here => simp [clientStep, here] at taken
  | writing here => simp [clientStep, here] at taken
  | killed here => simp [clientStep, here] at taken

/-- A child that waits maps the file or takes the word that is there. -/
theorem Ready.childStep (loaded : Lookup5.initDictTable (fileOf records) behind = some table) (ready : Ready table s)
    (taken : childStep (fileOf records) behind s = some t) :
    s.child = .connect ∧ t = { s with child := .read table } ∨
      s.child = .read table ∧ ∃ count after, s.receive = some (count, after) ∧ t = after.lookup table count := by
  rcases ready.child with child | child | child
  · simp [Service.childStep, child] at taken
  · simp only [Service.childStep, child, loaded, Option.some.injEq] at taken
    exact .inl ⟨child, taken.symm⟩
  · simp only [Service.childStep, child] at taken
    obtain ⟨⟨count, after⟩, got, rfl⟩ := Option.map_eq_some_iff.mp taken
    exact .inr ⟨child, count, after, got, rfl⟩

/-- Without a word, and before the connection is closed, `read` waits. -/
theorem receive_waits (nothing : s.toServer = []) (here : s.client.closed = false) : s.receive = none := by
  rw [Session.receive, if_pos nothing, if_neg (by simp [here])]

theorem lookup_eq {count : ℤ} {after : Session} (got : s.receive = some (count, after))
    (short : after.buf.string.length ≤ 31) : after.lookup table count =
      { after with child := .write table (Server.answer table after.buf.string) } := by
  rw [Session.lookup, if_neg (count_ne_EOF got), Server.reply_eq after.buf short]

section

variable (room : records.length < Lookup5.capacity)
  (loaded : Lookup5.initDictTable (fileOf records) behind = some table)

include room loaded

theorem lookup_word {count : ℤ} {after : Session} (got : s.receive = some (count, after))
    (short : after.buf.string.length ≤ 31) (named : after.buf.string ≠ []) : after.lookup table count =
      { after with child := .write table (meaning records after.buf.string ++ [0]) } := by
  rw [Session.lookup, if_neg (count_ne_EOF got), reply_fileOf room loaded after.buf short named]

theorem phase_childStep (phase : Phase records table output s)
    (taken : childStep (fileOf records) behind s = some t) : Phase records table output t := by
  cases phase with
  | connect _ child => simp [childStep, child] at taken
  | fgets here ready toServer toClient asks whole =>
    rcases ready.childStep loaded taken with ⟨-, rfl⟩ | ⟨-, count, after, got, -⟩
    · exact .fgets here ⟨.inr (.inr rfl), ready.buf⟩ toServer toClient asks whole
    · rw [receive_waits toServer (by rw [here]; rfl)] at got
      cases got
  | @asked word here ready toServer toClient short named asks whole =>
    rcases ready.childStep loaded taken with ⟨-, rfl⟩ | ⟨-, count, after, got, rfl⟩
    · exact .asked here ⟨.inr (.inr rfl), ready.buf⟩ toServer toClient short named asks whole
    · obtain ⟨nothing, -⟩ | ⟨-, -, rfl⟩ := receive_spec got
      · rw [toServer] at nothing
        simp at nothing
      · have size : Server.bufSize = 256 := rfl
        have length : s.toServer.length ≤ Server.bufSize := by
          rw [toServer, List.length_append, List.length_singleton]
          omega
        have string : (s.buf.fill (s.toServer.take Server.bufSize)).string = word.string := by
          rw [ready.buf, List.take_of_length_le length, Field.string_fill_init length, toServer]
          exact cstr_append_zero (not_mem_cstr _)
        have left : s.toServer.drop Server.bufSize = [] := List.drop_eq_nil_of_le length
        rw [lookup_word room loaded got (by rw [string]; exact short) (by rw [string]; exact named), string, left]
        exact .served here rfl rfl toClient asks whole
  | served here child toServer toClient asks whole =>
    simp only [childStep, child, here, ClientPc.closed, Bool.false_eq_true, if_false, Option.some.injEq] at taken
    subst taken
    refine .answered rfl ⟨.inr (.inr rfl), rfl⟩ toServer ?_ asks whole
    rw [toClient]
    rfl
  | answered here ready toServer toClient asks whole =>
    rcases ready.childStep loaded taken with ⟨-, rfl⟩ | ⟨-, count, after, got, -⟩
    · exact .answered here ⟨.inr (.inr rfl), ready.buf⟩ toServer toClient asks whole
    · rw [receive_waits toServer (by rw [here]; rfl)] at got
      cases got
  | ended here ready toServer whole =>
    rcases ready.childStep loaded taken with ⟨-, rfl⟩ | ⟨-, count, after, got, rfl⟩
    · exact .ended here ⟨.inr (.inr rfl), ready.buf⟩ toServer whole
    · obtain ⟨-, -, -, rfl⟩ | ⟨some_, -⟩ := receive_spec got
      · have empty : after.buf.string = [] := by
          rw [ready.buf]
          exact Field.string_init (by decide) List.not_mem_nil
        rw [lookup_eq got (by rw [empty]; exact Nat.zero_le _)]
        exact .writing here rfl whole
      · exact absurd toServer some_
  | writing here child whole =>
    simp only [childStep, child, here, ClientPc.closed, if_true, Option.some.injEq] at taken
    subst taken
    exact .killed rfl rfl whole
  | killed _ child => simp [childStep, child] at taken

end

end

end SystemProgramming.Dictionary.Service
