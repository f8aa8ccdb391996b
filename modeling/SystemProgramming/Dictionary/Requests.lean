import SystemProgramming.Dictionary.WholeFile
import SystemProgramming.Dictionary.Server

/-! # One request to the servers over stream sockets

`serve_request` copies what it has read into `try_it.word` as a string. `try_it` is one stretch of 512
bytes here, so that what is longer than `word` runs into `text`. The index of every byte of `buf` and of the
fields of `try_it` that is read or written is recorded; behind `buf` and `try_it` there is nothing to go on with.
-/

namespace SystemProgramming.Dictionary.Requests

open Lib Lookup5 WholeFile

/-- A byte that is read or written, from the start of `buf`, of `try_it.word` or of `try_it.text` on. -/
inductive Access where
  | buf (i : ℕ)
  | word (i : ℕ)
  | text (i : ℕ)
deriving DecidableEq, Repr

def Inside : Access → Prop
  | .buf i => i < Server.bufSize
  | .word i => i < wordSize
  | .text i => i < textSize

/-- `strcpy(try_it.word, buf)` -/
def strcpy (tryIt : Field recordSize) (buf : Field Server.bufSize) : Traced Access (Field recordSize) := do
  Traced.tellAll ((List.range (buf.string.length + 1)).flatMap fun i => [.buf i, .word i])
  if 0 ∈ buf.bytes then return tryIt.fill (buf.string ++ [0]) else Traced.stop

def puts (buf : Field Server.bufSize) : Traced Access Unit := do
  Traced.tellAll ((List.range (buf.string.length + 1)).map .buf)
  if 0 ∈ buf.bytes then return () else Traced.stop

/-- `lookup(&try_it, dict_name)`: the word is read to its NUL at most, and the text is overwritten. -/
def lookup (table : Table) (tryIt : Field recordSize) : Traced Access (Field recordSize) := do
  Traced.tellAll ((List.range (tryIt.string.length + 1)).map .word)
  match first table tryIt.string with
  | some i =>
    Traced.tellAll ((List.range textSize).map .text)
    return tryIt.fill (tryIt.bytes.take wordSize ++ (textAt table.memory i).bytes)
  | none => return tryIt

/-- `write(cli_fd, try_it.text, strlen(try_it.text) + 1)` -/
def writeText (tryIt : Field recordSize) : Traced Access (List UInt8) := do
  let text := tryIt.bytes.drop wordSize
  Traced.tellAll ((List.range ((cstr text).length + 1)).map .text)
  if 0 ∈ text then return cstr text ++ [0] else Traced.stop

/-- `{.word = {0}, .text = "Not Found!\n"}` -/
def blank : Field recordSize := Field.init recordSize (List.replicate wordSize 0 ++ Server.notFoundText)

/-- One round of the loop of `serve_request`, with what `read` has put into the cleared buffer. -/
def serveRound (table : Table) (piece : List UInt8) : Traced Access (List UInt8) := do
  let buf := (Field.init Server.bufSize []).fill piece
  let tryIt ← strcpy blank buf
  puts buf
  let tryIt ← lookup table tryIt
  writeText tryIt

/-- `my_connect` and one round. What `my_connect` reads is not of `buf` or `try_it`. -/
def serveRequest (file : List UInt8) (behind : List Dictrec) (piece : List UInt8) : Traced Access (List UInt8) := do
  let table ← Traced.ofOption (initDictTable file behind)
  serveRound table piece

/-- The text of a record with the word, or the default if there is none. -/
def Right (records : List Record) (word text : List UInt8) : Prop :=
  (∃ record ∈ records, record.word.string = word ∧ text = record.text.string) ∨
    (∀ record ∈ records, record.word.string ≠ word) ∧ text = Server.notFoundText

/-- Nothing outside `buf` and the fields of `try_it` is read or written, and the reply is right. -/
structure Served (records : List Record) (word : List UInt8) (round : Traced Access (List UInt8)) : Prop where
  inside : round.Always Inside
  reply : ∃ text, round.result = some (text ++ [0]) ∧ Right records word text

/-- A word that fits, and a `my_connect` that comes back. Of the records that the mapping has room for, the first
one with the word has a text that ends; if there is none, what is counted behind them happens to be right. -/
def Fits (behind : List Dictrec) (records : List Record) (word : List UInt8) : Prop :=
  word.length < wordSize ∧ ∃ strays, counted (rest records behind) = some strays ∧
    match (records.take capacity).find? fun record => word = record.word.string with
    | some record => 0 ∈ record.text.bytes
    | none =>
      match strays.find? fun rec => word = rec.word.string with
      | some stray => 0 ∈ stray.text.bytes ∧ Right records word stray.text.string
      | none => Right records word Server.notFoundText

section

variable {records : List Record} {behind : List Dictrec} {word piece : List UInt8} {table : Table}

/-! ## The word in `try_it` -/

/-- `try_it` with the word in it. -/
def copied (word : List UInt8) : Field recordSize := blank.fill (word ++ [0])

theorem bytes_copied (short : word.length < wordSize) :
    (copied word).bytes = word ++ 0 :: blank.bytes.drop (word.length + 1) := by
  have less : wordSize < recordSize := by decide
  exact Field.bytes_fill_zero blank (short.trans less)

theorem string_copied (short : word.length < wordSize) (proper : 0 ∉ word) : (copied word).string = word := by
  rw [Field.string, bytes_copied short, cstr_append_zero proper]

/-- A word that fits leaves the text as it was. -/
theorem text_copied (short : word.length < wordSize) : ∃ behind,
    (copied word).bytes.drop wordSize = Server.notFoundText ++ 0 :: behind := by
  obtain ⟨gap, parts⟩ := Nat.exists_eq_add_of_le (Nat.succ_le_of_lt short)
  refine ⟨List.replicate 468 0, ?_⟩
  have whole : (copied word).bytes = word ++ [0] ++ blank.bytes.drop (word.length + 1) := by
    rw [bytes_copied short, List.append_assoc, List.singleton_append]
  have length : (word ++ [(0 : UInt8)]).length = word.length + 1 := by
    rw [List.length_append, List.length_singleton]
  have same : (copied word).bytes.drop wordSize = blank.bytes.drop wordSize := by
    rw [parts, ← List.drop_drop, whole, List.drop_left' length, List.drop_drop]
  rw [same, blank, Field.init_bytes (by decide), List.append_assoc, List.drop_left' List.length_replicate]
  rfl

/-! ## What the calls read and write -/

theorem strcpy_spec (tryIt : Field recordSize) {buf : Field Server.bufSize} (short : buf.string.length < wordSize) :
    (strcpy tryIt buf).result = some (tryIt.fill (buf.string ++ [0])) ∧ (strcpy tryIt buf).Always Inside := by
  have less : wordSize < Server.bufSize := by decide
  have ends := (Field.zero_mem_iff buf).mpr (short.trans less)
  constructor
  · simp [strcpy, ends]
  · rw [strcpy, if_pos ends, Traced.always_bind, Traced.always_tellAll]
    refine ⟨?_, fun _ _ => Traced.always_pure⟩
    intro access member
    obtain ⟨i, inside, either⟩ := List.mem_flatMap.mp member
    have below : i < wordSize := Nat.lt_of_lt_of_le (List.mem_range.mp inside) short
    rcases List.mem_pair.mp either with rfl | rfl
    · exact below.trans less
    · exact below

theorem puts_spec {buf : Field Server.bufSize} (short : buf.string.length < Server.bufSize) :
    (puts buf).result = some () ∧ (puts buf).Always Inside := by
  have ends := (Field.zero_mem_iff buf).mpr short
  constructor
  · simp [puts, ends]
  · rw [puts, if_pos ends, Traced.always_range_bind]
    refine ⟨?_, Traced.always_pure⟩
    intro i below
    exact Nat.lt_of_lt_of_le below short

/-- A byte of a word that fits, or its NUL. -/
theorem inside_word {tryIt : Field recordSize} (short : tryIt.string.length < wordSize) :
    ∀ i < tryIt.string.length + 1, Inside (.word i) := by
  intro i below
  exact Nat.lt_of_lt_of_le below short

theorem lookup_of_some {tryIt : Field recordSize} {i : ℕ} (short : tryIt.string.length < wordSize)
    (found : first table tryIt.string = some i) :
    (lookup table tryIt).result = some (tryIt.fill (tryIt.bytes.take wordSize ++ (textAt table.memory i).bytes)) ∧
      (lookup table tryIt).Always Inside := by
  constructor
  · simp [lookup, found]
  · rw [lookup, found, Traced.always_range_bind]
    refine ⟨inside_word short, ?_⟩
    dsimp only
    rw [Traced.always_range_bind]
    refine ⟨?_, Traced.always_pure⟩
    intro k below
    exact below

theorem lookup_of_none {tryIt : Field recordSize} (short : tryIt.string.length < wordSize)
    (absent : first table tryIt.string = none) :
    (lookup table tryIt).result = some tryIt ∧ (lookup table tryIt).Always Inside := by
  constructor
  · simp [lookup, absent]
  · rw [lookup, absent, Traced.always_range_bind]
    exact ⟨inside_word short, Traced.always_pure⟩

/-- The text is written with its NUL; one without a NUL is read beyond its end. -/
theorem writeText_spec {tryIt : Field recordSize} {text : List UInt8} (stored : tryIt.bytes.drop wordSize = text) :
    (0 ∈ text → (writeText tryIt).result = some (cstr text ++ [0]) ∧ (writeText tryIt).Always Inside) ∧
      (0 ∉ text → ¬ (writeText tryIt).Always Inside) := by
  have length : text.length = textSize := by rw [← stored, List.length_drop, tryIt.size_eq]; rfl
  rw [writeText, stored]
  constructor
  · intro ends
    have last := (List.getElem?_eq_some_iff.mp (getElem?_cstr_length ends)).1
    constructor
    · simp [ends]
    · rw [Traced.always_range_bind, if_pos ends]
      refine ⟨?_, Traced.always_pure⟩
      intro k below
      exact Nat.lt_of_lt_of_le below (length ▸ last)
  · intro proper inside
    rw [Traced.always_range_bind, cstr_eq_self proper] at inside
    have behind := inside.1 text.length (Nat.lt_succ_self _)
    rw [length] at behind
    exact Nat.lt_irrefl textSize behind

/-- A word that fits is looked up as it is. -/
theorem serveRound_of_short (fits : piece.length ≤ Server.bufSize) (short : (cstr piece).length < wordSize)
    {after : Field recordSize} (result : (lookup table (copied (cstr piece))).result = some after)
    (inside : (lookup table (copied (cstr piece))).Always Inside) :
    (serveRound table piece).result = (writeText after).result ∧
      ((serveRound table piece).Always Inside ↔ (writeText after).Always Inside) := by
  have less : wordSize < Server.bufSize := by decide
  have string := Field.string_fill_init fits
  obtain ⟨stored, copies⟩ := strcpy_spec blank (string ▸ short)
  obtain ⟨printed, reads⟩ := puts_spec (string ▸ short.trans less)
  rw [string] at stored
  change (strcpy blank ((Field.init Server.bufSize []).fill piece)).result = some (copied (cstr piece)) at stored
  constructor
  · rw [serveRound, Traced.result_bind_of stored, Traced.result_bind_of printed, Traced.result_bind_of result]
  · rw [serveRound, Traced.always_bind_of stored copies, Traced.always_bind_of printed reads,
      Traced.always_bind_of result inside]

/-- The text of the record that is found is in `try_it` then. -/
theorem lookup_copied_of_some (short : word.length < wordSize) (proper : 0 ∉ word) {i : ℕ}
    (found : first table word = some i) : ∃ after, (lookup table (copied word)).result = some after ∧
      (lookup table (copied word)).Always Inside ∧ after.bytes.drop wordSize = (textAt table.memory i).bytes := by
  have string := string_copied short proper
  rw [← string] at found
  obtain ⟨result, inside⟩ := lookup_of_some (string.symm ▸ short) found
  refine ⟨_, result, inside, ?_⟩
  have front : ((copied word).bytes.take wordSize).length = wordSize := by
    rw [List.length_take, Field.size_eq]
    rfl
  have whole : ((copied word).bytes.take wordSize ++ (textAt table.memory i).bytes).length = recordSize := by
    rw [List.length_append, front, Field.size_eq]
    rfl
  rw [Field.bytes_fill_whole _ whole, List.drop_left' front]

theorem lookup_copied_of_none (short : word.length < wordSize) (proper : 0 ∉ word)
    (absent : first table word = none) : (lookup table (copied word)).result = some (copied word) ∧
      (lookup table (copied word)).Always Inside := by
  have string := string_copied short proper
  rw [← string] at absent
  exact lookup_of_none (string.symm ▸ short) absent

/-- With a word that fits and a text that ends this is the reply of the server's step. -/
theorem result_serveRound (fits : piece.length ≤ Server.bufSize) (short : (cstr piece).length < wordSize)
    (ends : ∀ i, first table (cstr piece) = some i → 0 ∈ (textAt table.memory i).bytes) :
    (serveRound table piece).result = Server.reply table ((Field.init Server.bufSize []).fill piece) := by
  have proper := not_mem_cstr piece
  have string := Field.string_fill_init fits
  have word : (Field.init wordSize (cstr piece)).string = cstr piece := Field.string_init short proper
  rw [Server.reply_eq _ (by rw [string]; exact Nat.le_of_lt_succ short), string, Server.answer]
  cases found : first table (cstr piece) with
  | some i =>
    obtain ⟨after, result, inside, text⟩ := lookup_copied_of_some short proper found
    rw [(serveRound_of_short fits short result inside).1, ((writeText_spec text).1 (ends i found)).1]
    rw [← word] at found
    rw [lookup_of_first_some found]
    rfl
  | none =>
    obtain ⟨result, inside⟩ := lookup_copied_of_none short proper found
    obtain ⟨behind, text⟩ := text_copied short
    rw [(serveRound_of_short fits short result inside).1, ((writeText_spec text).1 (by simp)).1,
      cstr_append_zero (by decide)]
    rw [← word] at found
    rw [lookup_of_first_none found, Field.string_init (by decide) (by decide)]

/-! ## The reply -/

section

variable (fits : piece.length ≤ Server.bufSize) (short : (cstr piece).length < wordSize)

include fits short

end

end

end SystemProgramming.Dictionary.Requests
