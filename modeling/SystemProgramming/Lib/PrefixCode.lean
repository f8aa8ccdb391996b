import Mathlib.Tactic.Common
import Mathlib.Data.List.Infix

/-! # Words of a prefix-free code

In a set of words none of which begins with another, a text that begins with a word determines the word. So
a sequence of words can be read off their concatenation up to the first word that is marked as the end. A
concatenation that is cut short consists of whole words unless the cut falls inside one.
-/

namespace SystemProgramming.Lib

variable {α : Type*}

/-- No word begins with another one. -/
def PrefixFree (code : List (List α)) : Prop := ∀ a ∈ code, ∀ b ∈ code, a <+: b → a = b

instance [DecidableEq α] (code : List (List α)) : Decidable (PrefixFree code) :=
  inferInstanceAs (Decidable (∀ a ∈ code, ∀ b ∈ code, a <+: b → a = b))

section

variable {code : List (List α)} {a b stop x y : List α}

/-- The word a text begins with. -/
theorem PrefixFree.append_inj (free : PrefixFree code) (inA : a ∈ code) (inB : b ∈ code)
    (same : a ++ x = b ++ y) : a = b ∧ x = y := by
  have equal : a = b := by
    rcases List.prefix_or_prefix_of_prefix (List.prefix_append a x)
      (same ▸ List.prefix_append b y) with front | front
    · exact free a inA b inB front
    · exact (free b inB a inA front).symm
  refine ⟨equal, ?_⟩
  rw [equal] at same
  exact List.append_cancel_left same

/-- The words in front of the first end mark. -/
theorem PrefixFree.flatten_append_inj (free : PrefixFree code) (inStop : stop ∈ code)
    {u v : List (List α)} (wordsU : ∀ w ∈ u, w ∈ code ∧ w ≠ stop)
    (wordsV : ∀ w ∈ v, w ∈ code ∧ w ≠ stop) (same : u.flatten ++ (stop ++ x) = v.flatten ++ (stop ++ y)) :
    u = v ∧ x = y := by
  induction u generalizing v with
  | nil =>
    cases v with
    | nil => exact ⟨rfl, List.append_cancel_left same⟩
    | cons w v =>
      rw [List.forall_mem_cons] at wordsV
      rw [List.flatten_nil, List.nil_append, List.flatten_cons, List.append_assoc] at same
      exact absurd (free.append_inj inStop wordsV.1.1 same).1.symm wordsV.1.2
  | cons w u ih =>
    rw [List.forall_mem_cons] at wordsU
    rw [List.flatten_cons, List.append_assoc] at same
    cases v with
    | nil =>
      rw [List.flatten_nil, List.nil_append] at same
      exact absurd (free.append_inj wordsU.1.1 inStop same).1 wordsU.1.2
    | cons w' v =>
      rw [List.forall_mem_cons] at wordsV
      rw [List.flatten_cons, List.append_assoc] at same
      obtain ⟨rfl, rest⟩ := free.append_inj wordsU.1.1 wordsV.1.1 same
      obtain ⟨rfl, rfl⟩ := ih wordsU.2 wordsV.2 rest
      exact ⟨rfl, rfl⟩

/-- No word begins in front of the cut and ends behind it. -/
def CutsNoWord (words : List (List α)) (count : ℕ) : Prop :=
  ∀ before word after, words = before ++ word :: after →
    count ≤ before.flatten.length ∨ before.flatten.length + word.length ≤ count

theorem cutsNoWord_cons {word : List α} {words : List (List α)} {count : ℕ}
    (within : word.length ≤ count) :
    CutsNoWord (word :: words) count ↔ CutsNoWord words (count - word.length) := by
  constructor
  · intro whole before other after split
    have place := whole (word :: before) other after (by rw [split, List.cons_append])
    rw [List.flatten_cons, List.length_append] at place
    omega
  · intro whole before other after split
    cases before with
    | nil =>
      obtain ⟨rfl, -⟩ := List.cons.inj split
      exact .inr (by simpa using within)
    | cons first before =>
      obtain ⟨rfl, rest⟩ := List.cons.inj split
      have place := whole before other after rest
      rw [List.flatten_cons, List.length_append]
      omega

theorem exists_take_flatten_iff (words : List (List α)) (count : ℕ) :
    (∃ k, words.flatten.take count = (words.take k).flatten) ↔ CutsNoWord words count := by
  induction words generalizing count with
  | nil => exact iff_of_true ⟨0, by simp⟩ fun before word after split => by simp at split
  | cons word words ih =>
    by_cases within : word.length ≤ count
    · rw [cutsNoWord_cons within, ← ih, List.flatten_cons, List.take_append,
        List.take_of_length_le within]
      constructor
      · rintro ⟨k, same⟩
        cases k with
        | zero =>
          rw [List.take_zero, List.flatten_nil, List.append_eq_nil_iff] at same
          exact ⟨0, by rw [same.2, List.take_zero, List.flatten_nil]⟩
        | succ k =>
          rw [List.take_succ_cons, List.flatten_cons] at same
          exact ⟨k, List.append_cancel_left same⟩
      · rintro ⟨k, same⟩
        exact ⟨k + 1, by rw [List.take_succ_cons, List.flatten_cons, same]⟩
    · have inside : count < word.length := by omega
      rw [List.flatten_cons, List.take_append_of_le_length (by omega)]
      constructor
      · rintro ⟨k, same⟩
        have size := congrArg List.length same
        rw [List.length_take, Nat.min_eq_left (by omega)] at size
        cases k with
        | zero =>
          intro before other after split
          rw [List.take_zero, List.flatten_nil, List.length_nil] at size
          omega
        | succ k =>
          rw [List.take_succ_cons, List.flatten_cons, List.length_append] at size
          omega
      · intro whole
        have place := whole [] word words rfl
        simp only [List.flatten_nil, List.length_nil] at place
        exact ⟨0, by rw [show count = 0 by omega]; simp⟩

theorem length_flatten_of_single {words : List (List α)} (single : ∀ word ∈ words, word.length = 1) :
    words.flatten.length = words.length := by
  induction words with
  | nil => rfl
  | cons word words ih =>
    rw [List.forall_mem_cons] at single
    rw [List.flatten_cons, List.length_append, single.1, ih single.2, List.length_cons, Nat.add_comm]

/-- Words of one letter are never cut. -/
theorem cutsNoWord_of_single {words : List (List α)} (single : ∀ word ∈ words, word.length = 1)
    (count : ℕ) : CutsNoWord words count := by
  intro before word after split
  have length := single word (by rw [split]; exact List.mem_append_right _ (List.mem_cons_self ..))
  omega

end

end SystemProgramming.Lib
