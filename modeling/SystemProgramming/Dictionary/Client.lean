import SystemProgramming.Dictionary.Model
import SystemProgramming.Lib.Traced

/-! # The clients of `hw11`

The three programs read words from stdin in the same loop. `fgets` takes at most 31 bytes of a line, and
the last byte of what it took is overwritten, the newline or not. The index of every byte of `word` that
is stored to is recorded. `try_it` is not initialised: `stack n` is what its field `word` holds in round `n`.
-/

namespace SystemProgramming.Dictionary.Client

open Lib

/-- What one `fgets` takes from a stream that is not at its end. -/
def piece (stream : List UInt8) : List UInt8 := (splitLine stream).1.take (wordSize - 1)

/-- `fgets(try_it.word, WORD, stdin)` -/
def fgets (word : Field wordSize) (stream : List UInt8) : Traced ℤ (Field wordSize) := do
  Traced.tellAll ((List.range ((piece stream).length + 1)).map Int.ofNat)
  return word.fill (piece stream ++ [0])

/-- `try_it.word[strlen(try_it.word) - 1] = 0`; of an empty string this is the byte in front of it. -/
def strip (word : Field wordSize) : Traced ℤ (Field wordSize) := do
  Traced.tell ((word.string.length : ℤ) - 1)
  return if word.string = [] then word else word.set (word.string.length - 1) 0

theorem piece_ne_nil {stream : List UInt8} (more : stream ≠ []) : piece stream ≠ [] := by
  rcases text_cases stream with empty | ⟨line, rest, whole, rfl⟩ | ⟨whole, -⟩
  · exact absurd empty more
  · simp [piece, splitLine_append rest whole, wordSize]
  · simp [piece, splitLine_whole whole, wordSize, more]

/-- The words that `main` passes to `lookup`. -/
def queries (stack : ℕ → Field wordSize) (n : ℕ) (stream : List UInt8) : Traced ℤ (List (Field wordSize)) :=
  if _more : stream = [] then return []
  else do
    let word ← fgets (stack n) stream
    let word ← strip word
    let words ← queries stack (n + 1) (stream.drop (piece stream).length)
    return word :: words
termination_by stream.length
decreasing_by
  have taken := List.length_pos_iff.mpr (piece_ne_nil _more)
  have left := List.length_pos_iff.mpr _more
  rw [List.length_drop]
  omega

/-- An index of the field `word`. -/
def Inside (i : ℤ) : Prop := 0 ≤ i ∧ i < wordSize

/-- Every store is inside the field, every word is a string in it, and the words are the lines. -/
structure Exact (text : List UInt8) (run : Traced ℤ (List (Field wordSize))) : Prop where
  inside : run.Always Inside
  words : ∃ words, run.result = some words ∧ words.map Field.string = lines text ∧ ∀ word ∈ words, 0 ∈ word.bytes

/-- A line, its newline and its NUL fit, there is no NUL in it, and it does end with a newline. -/
def Fits (text : List UInt8) : Prop :=
  0 ∉ text ∧ (∀ line ∈ lines text, line.length + 2 ≤ wordSize) ∧ (text = [] ∨ text.getLast? = some newline)

instance (text : List UInt8) : Decidable (Fits text) := inferInstanceAs (Decidable (_ ∧ _))

section

variable {stack : ℕ → Field wordSize} {n : ℕ} {line rest text : List UInt8}

/-! ## One round -/

theorem length_piece_lt (stream : List UInt8) : (piece stream).length < wordSize := by
  rw [piece, List.length_take, wordSize]
  omega

/-- What `lookup` gets in one round. -/
def query (word : Field wordSize) (stream : List UInt8) : Field wordSize :=
  let word := word.fill (piece stream ++ [0])
  if word.string = [] then word else word.set (word.string.length - 1) 0

theorem string_fgets (word : Field wordSize) (stream : List UInt8) :
    (word.fill (piece stream ++ [0])).string = cstr (piece stream) := by
  rw [Field.string, Field.bytes_fill_zero word (length_piece_lt stream), cstr_append_zero_cons]

theorem string_query (word : Field wordSize) (stream : List UInt8) :
    (query word stream).string = (cstr (piece stream)).dropLast := by
  rw [query, ← string_fgets word stream]
  split_ifs with empty
  · rw [empty, List.dropLast_nil]
  · exact cstr_set_last empty

theorem zero_mem_query (word : Field wordSize) (stream : List UInt8) : 0 ∈ (query word stream).bytes := by
  have length := length_piece_lt stream
  have stored := Field.bytes_fill_zero word length
  rw [query]
  split_ifs
  · rw [stored]
    simp
  · apply List.mem_of_getElem?
    apply List.getElem?_set_self
    have bound := (cstr_prefix_self (word.fill (piece stream ++ [0])).bytes).length_le
    have some : (word.fill (piece stream ++ [0])).string ≠ [] := by assumption
    have positive := List.length_pos_iff.mpr some
    rw [Field.string] at positive ⊢
    omega

theorem result_fgets (word : Field wordSize) (stream : List UInt8) :
    (fgets word stream).result = some (word.fill (piece stream ++ [0])) := by
  simp [fgets]

theorem result_strip (word : Field wordSize) :
    (strip word).result = some (if word.string = [] then word else word.set (word.string.length - 1) 0) := by
  simp [strip]

theorem inside_fgets (word : Field wordSize) (stream : List UInt8) : (fgets word stream).Always Inside := by
  rw [fgets, Traced.always_range_bind]
  constructor
  · intro k below
    have length := length_piece_lt stream
    constructor
    · exact Int.natCast_nonneg k
    · exact Int.ofNat_lt.mpr (by omega)
  · exact Traced.always_pure

/-- Of a string that is not empty the last byte is in the field. -/
theorem inside_strip (word : Field wordSize) (nonempty : word.string ≠ []) : (strip word).Always Inside := by
  have positive := List.length_pos_iff.mpr nonempty
  have bound := (cstr_prefix_self word.bytes).length_le
  rw [word.size_eq] at bound
  rw [strip, Traced.always_bind, Traced.always_tell]
  constructor
  · change (cstr word.bytes).length > 0 at positive
    change 0 ≤ ((cstr word.bytes).length : ℤ) - 1 ∧ ((cstr word.bytes).length : ℤ) - 1 < wordSize
    omega
  · intro _ _
    exact Traced.always_pure

/-- One round and what is left of the stream. -/
theorem result_queries (more : text ≠ []) {words : List (Field wordSize)} :
    (queries stack n text).result = some words ↔ ∃ later,
      (queries stack (n + 1) (text.drop (piece text).length)).result = some later ∧
      words = query (stack n) text :: later := by
  rw [queries, dif_neg more]
  simp only [Traced.result_bind, result_fgets, result_strip, Option.bind_some, Traced.result_pure,
    Option.bind_eq_some_iff, Option.some.injEq, query, eq_comm (a := words)]

theorem inside_queries (more : text ≠ []) (inside : (queries stack n text).Always Inside) :
    (queries stack (n + 1) (text.drop (piece text).length)).Always Inside := by
  rw [queries, dif_neg more, Traced.always_bind] at inside
  have stripped := inside.2 _ (result_fgets ..)
  rw [Traced.always_bind] at stripped
  have later := stripped.2 _ (result_strip ..)
  rw [Traced.always_bind] at later
  exact later.1

theorem queries_inside (more : text ≠ []) (nonempty : cstr (piece text) ≠ [])
    (inside : (queries stack (n + 1) (text.drop (piece text).length)).Always Inside) :
    (queries stack n text).Always Inside := by
  have strips : (strip ((stack n).fill (piece text ++ [0]))).Always Inside := by
    apply inside_strip
    rw [string_fgets]
    exact nonempty
  rw [queries, dif_neg more, Traced.always_bind_of (result_fgets _ _) (inside_fgets _ _),
    Traced.always_bind_of (result_strip _) strips, Traced.always_bind]
  exact ⟨inside, fun _ _ => Traced.always_pure⟩

/-! ## All rounds -/

theorem fits_append (whole : newline ∉ line) :
    Fits (line ++ newline :: rest) ↔ (0 ∉ line ∧ line.length + 2 ≤ wordSize) ∧ Fits rest := by
  have last : (line ++ newline :: rest).getLast? = some newline ↔ rest = [] ∨ rest.getLast? = some newline := by
    cases rest with
    | nil => simp
    | cons byte rest => simp [List.getLast?_append, List.getLast?_cons_cons]
  rw [Fits, Fits, lines_append rest whole, List.forall_mem_cons, last]
  simp [newline]
  tauto

theorem not_fits_whole (whole : newline ∉ text) (more : text ≠ []) : ¬ Fits text := by
  rintro ⟨-, -, empty | last⟩
  · exact more empty
  · exact whole (List.mem_of_getLast? last)

theorem piece_append (whole : newline ∉ line) (fits : line.length + 2 ≤ wordSize) :
    piece (line ++ newline :: rest) = line ++ [newline] := by
  rw [piece, splitLine_append rest whole]
  apply List.take_of_length_le
  rw [List.length_append, List.length_singleton]
  omega

theorem cstr_piece_append (whole : newline ∉ line) (proper : 0 ∉ line) (fits : line.length + 2 ≤ wordSize) :
    cstr (piece (line ++ newline :: rest)) = line ++ [newline] := by
  rw [piece_append whole fits]
  apply cstr_eq_self
  simp [proper, newline]

/-- A line that fits is what `lookup` gets, and no other is. -/
theorem string_query_append_iff (word : Field wordSize) (rest : List UInt8) (whole : newline ∉ line) :
    (query word (line ++ newline :: rest)).string = line ↔ 0 ∉ line ∧ line.length + 2 ≤ wordSize := by
  rw [string_query]
  constructor
  · intro same
    constructor
    · intro inside
      rw [← same] at inside
      exact not_mem_cstr _ (List.dropLast_subset _ inside)
    · have bound := (cstr_prefix_self (piece (line ++ newline :: rest))).length_le
      have room := length_piece_lt (line ++ newline :: rest)
      have length := congrArg List.length same
      rw [List.length_dropLast] at length
      rw [wordSize] at room ⊢
      by_contra long
      have short : (piece (line ++ newline :: rest)).length ≤ 31 := by omega
      omega
  · rintro ⟨proper, fits⟩
    rw [cstr_piece_append whole proper fits, List.dropLast_concat]

/-- A last line without a newline loses a byte. -/
theorem string_query_whole (word : Field wordSize) (whole : newline ∉ text) (more : text ≠ []) :
    (query word text).string ≠ text := by
  intro same
  have bound := (cstr_prefix_self (piece text)).length_le
  have length := congrArg List.length same
  have positive := List.length_pos_iff.mpr more
  have part : (piece text).length ≤ text.length := by
    rw [piece, splitLine_whole whole, List.length_take]
    exact Nat.min_le_right _ _
  rw [string_query, List.length_dropLast] at length
  omega

theorem not_exact_whole (whole : newline ∉ text) (more : text ≠ []) : ¬ Exact text (queries stack n text) := by
  rintro ⟨-, words, ran, same, -⟩
  obtain ⟨others, -, rfl⟩ := (result_queries more).mp ran
  rw [lines_whole whole more, List.map_cons, List.cons.injEq] at same
  exact string_query_whole (stack n) whole more same.1

/-- The words are the lines exactly for a text whose lines fit and all end. -/
theorem exact_iff (stack : ℕ → Field wordSize) (n : ℕ) (text : List UInt8) :
    Exact text (queries stack n text) ↔ Fits text := by
  induction bound : text.length using Nat.strongRecOn generalizing n text with
  | ind length ih =>
    rcases text_cases text with rfl | ⟨line, rest, whole, rfl⟩ | ⟨whole, more⟩
    · rw [queries, dif_pos rfl]
      refine iff_of_true ?_ (by decide)
      exact ⟨Traced.always_pure, [], rfl, rfl, fun _ member => absurd member List.not_mem_nil⟩
    · have more : line ++ newline :: rest ≠ [] := by simp
      have shorter : rest.length < length := by
        rw [← bound, List.length_append, List.length_cons]
        omega
      have later := ih rest.length shorter (n + 1) rest rfl
      have left (fits : line.length + 2 ≤ wordSize) :
          (line ++ newline :: rest).drop (piece (line ++ newline :: rest)).length = rest := by
        rw [piece_append whole fits, List.append_cons line newline rest, List.drop_left]
      rw [fits_append whole, ← later, ← string_query_append_iff (stack n) rest whole]
      constructor
      · rintro ⟨inside, words, ran, same, strings⟩
        obtain ⟨others, ranLater, rfl⟩ := (result_queries more).mp ran
        rw [lines_append rest whole, List.map_cons, List.cons.injEq] at same
        refine ⟨same.1, ?_⟩
        have fits := ((string_query_append_iff (stack n) rest whole).mp same.1).2
        have insideLater := inside_queries more inside
        rw [left fits] at ranLater insideLater
        exact ⟨insideLater, others, ranLater, same.2, (List.forall_mem_cons.mp strings).2⟩
      · rintro ⟨same, inside, words, ran, all, strings⟩
        obtain ⟨proper, fits⟩ := (string_query_append_iff (stack n) rest whole).mp same
        constructor
        · apply queries_inside more
          · rw [cstr_piece_append whole proper fits]
            simp
          · rw [left fits]
            exact inside
        · refine ⟨query (stack n) (line ++ newline :: rest) :: words, (result_queries more).mpr ⟨words, ?_, rfl⟩,
            ?_, ?_⟩
          · rw [left fits]
            exact ran
          · rw [lines_append rest whole, List.map_cons, same, all]
          · rw [List.forall_mem_cons]
            exact ⟨zero_mem_query _ _, strings⟩
    · exact iff_of_false (not_exact_whole whole more) (not_fits_whole whole more)

end

/-- "ab" without a newline: the word looked up is "a". -/
theorem not_exact_ab : ¬ Exact [97, 98] (queries (fun _ => Field.init wordSize []) 0 [97, 98]) :=
  not_exact_whole (by decide) (by decide)

end SystemProgramming.Dictionary.Client
