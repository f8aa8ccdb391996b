import SystemProgramming.Dictionary.Lookup5
import SystemProgramming.Lib.Run

/-! # The servers over stream sockets

`serve_request` is the same in both servers: every piece a `read` returns is taken for one word, and the
loop ends when `read` returns -1. The client's words reach it as a stream that may be cut anywhere; when
the client has closed its end, every `read` returns 0.
-/

namespace SystemProgramming.Dictionary.Server

open Lib

/-- `sizeof(buf)` -/
def bufSize : ℕ := 256

/-- A word as the client sends it, without its NUL. -/
structure Request where
  word : List UInt8
  short : word.length ≤ 31
  proper : 0 ∉ word

def stream (requests : List Request) : List UInt8 := requests.flatMap fun request => request.word ++ [0]

/-- The pieces that successive calls of `read` return until the client has closed its end. -/
structure Cut (requests : List Request) where
  pieces : List (List UInt8)
  whole : pieces.flatten = stream requests
  nonempty : ∀ piece ∈ pieces, piece ≠ []
  fits : ∀ piece ∈ pieces, piece.length ≤ bufSize

/-- `undefined`: the string in `buf` did not fit into `try_it.word`. -/
inductive Pc where
  | read
  | write (reply : List UInt8)
  | left
  | killed
  | undefined
deriving DecidableEq, Repr

structure State where
  pc : Pc
  buf : Field bufSize
  /-- What `read` has not returned yet. -/
  incoming : List (List UInt8)
  sent : List (List UInt8)

def start (pieces : List (List UInt8)) : State where
  pc := .read
  buf := Field.init bufSize []
  incoming := pieces
  sent := []

/-- `read(cli_fd, buf, 256)`: the number of bytes and what changes. -/
def read (s : State) : ℤ × State :=
  match s.incoming with
  | [] => (0, s)
  | piece :: incoming => (piece.length, { s with buf := s.buf.fill piece, incoming := incoming })

/-- `EOF` of the standard library -/
def EOF : ℤ := -1

/-- "Not Found!\n" -/
def notFoundText : List UInt8 := [78, 111, 116, 32, 70, 111, 117, 110, 100, 33, 10]

/-- What is written for a word: the text of `try_it` after `lookup`, with its NUL. -/
def reply (table : Lookup5.Table) (buf : Field bufSize) : Option (List UInt8) :=
  ((Field.init wordSize []).strcpy buf.string).map fun word =>
    (Lookup5.lookup table ⟨word, Field.init textSize notFoundText⟩).2.text.string ++ [0]

inductive Event where
  | read
  | write
  | sigpipe
deriving DecidableEq, Repr

def step (table : Lookup5.Table) (s : State) : Event → Option State
  | .read =>
    match s.pc with
    | .read =>
      let (count, s) := read s
      if count = EOF then some { s with pc := .left }
      else match reply table s.buf with
        | some text => some { s with pc := .write text }
        | none => some { s with pc := .undefined }
    | _ => none
  | .write =>
    match s.pc with
    | .write text =>
      some { s with pc := .read, buf := Field.init bufSize [], sent := s.sent ++ [text] }
    | _ => none
  -- the client has closed both directions
  | .sigpipe =>
    match s.pc with
    | .write _ => if s.incoming = [] then some { s with pc := .killed } else none
    | _ => none

/-! ## What the servers are for -/

/-- The text of the first record with the word; the last record that is counted has no word. -/
def definition (table : Lookup5.Table) (word : List UInt8) : List UInt8 :=
  match (List.range (table.len - 1)).find? fun i => word = Lookup5.wordAt table.memory i with
  | some i => (Lookup5.textAt table.memory i).string
  | none => notFoundText

def replies (table : Lookup5.Table) (requests : List Request) : List (List UInt8) :=
  requests.map fun request => definition table request.word ++ [0]

/-- One reply for each word, in order and nothing else, and the loop is left in the end. -/
structure Serves (table : Lookup5.Table) (requests : List Request) (cut : Cut requests) : Prop where
  ordered : ∀ s, Reachable (step table) (start cut.pieces) s → s.sent <+: replies table requests
  leaves : ∀ s, Reachable (step table) (start cut.pieces) s →
    ∃ t, Reachable (step table) s t ∧ t.pc = .left ∧ t.sent = replies table requests

/-! ## One pass of the loop -/

/-- The reply to the string at the start of a piece. -/
def answer (table : Lookup5.Table) (word : List UInt8) : List UInt8 :=
  (Lookup5.lookup table ⟨Field.init wordSize word, Field.init textSize notFoundText⟩).2.text.string ++ [0]

section

variable {table : Lookup5.Table}

theorem reply_eq (buf : Field bufSize) (short : buf.string.length ≤ 31) :
    reply table buf = some (answer table buf.string) := by
  have fits : buf.string.length < wordSize := Nat.lt_succ_of_le short
  rw [reply, Field.strcpy_init fits (Nat.zero_le _)]
  rfl

theorem proper_infix_stream (requests : List Request) {stretch : List UInt8} (proper : 0 ∉ stretch)
    (inside : stretch <:+: stream requests) : stretch.length ≤ 31 := by
  induction requests with
  | nil =>
    have empty : stretch = [] := List.eq_nil_of_infix_nil inside
    simp [empty]
  | cons request requests ih =>
    have split : stream (request :: requests) = request.word ++ 0 :: stream requests := by
      simp [stream]
    rw [split] at inside
    rcases infix_of_zero_not_mem proper inside with within | behind
    · exact within.length_le.trans request.short
    · exact ih behind

/-- Wherever the stream is cut, a piece begins with a string that fits into a word. -/
theorem Cut.short {requests : List Request} (cut : Cut requests) {piece : List UInt8} (member : piece ∈ cut.pieces) :
    (cstr piece).length ≤ 31 := by
  apply proper_infix_stream requests (not_mem_cstr piece)
  rw [← cut.whole]
  have part : cstr piece <:+: piece := (List.takeWhile_prefix _).isInfix
  exact part.trans (List.infix_of_mem_flatten member)

end

end SystemProgramming.Dictionary.Server
