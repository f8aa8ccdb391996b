import Mathlib.Tactic.Common
import Mathlib.Data.List.Basic
import Mathlib.Data.List.TakeWhile

/-! # Words of a text

The words are the maximal non-empty stretches without a separator. `strtok` hands them out one by one: each
call skips the separators in front of a word and steps over the one behind it.
-/

namespace SystemProgramming.Lib

variable {α : Type*} (delim : α → Bool)

/-- The maximal stretches without a separator, in order. -/
def words (text : List α) : List (List α) := (text.splitOnP delim).filter fun word => !word.isEmpty

/-- One call of `strtok`: the word, if there is one, and what the next call works on. -/
def nextWord (text : List α) : Option (List α) × List α :=
  match text.dropWhile delim with
  | [] => (none, [])
  | first :: rest =>
    (some ((first :: rest).takeWhile fun a => !delim a), ((first :: rest).dropWhile fun a => !delim a).tail)

section

variable {delim} {a : α} {word text rest : List α} {later : List (List α)}

@[simp] theorem words_nil : words delim [] = [] := rfl

theorem words_cons_of_delim (separates : delim a = true) : words delim (a :: text) = words delim text := by
  simp [words, List.splitOnP_cons_eq_if_modifyHead, separates]

theorem words_dropWhile (text : List α) : words delim (text.dropWhile delim) = words delim text := by
  induction text with
  | nil => rfl
  | cons a text ih =>
    cases separates : delim a with
    | true => rw [List.dropWhile_cons_of_pos separates, ih, words_cons_of_delim separates]
    | false => rw [List.dropWhile_cons_of_neg (by simp [separates])]

theorem words_of_forall (nonempty : word ≠ []) (whole : ∀ a ∈ word, delim a = false) :
    words delim word = [word] := by
  simp [words, List.splitOnP_eq_singleton whole, nonempty]

theorem words_append_cons (nonempty : word ≠ []) (whole : ∀ a ∈ word, delim a = false)
    (separates : delim a = true) : words delim (word ++ a :: rest) = word :: words delim rest := by
  rw [words, List.splitOnP_append_cons_of_forall_mem whole a separates rest,
    List.filter_cons_of_pos (by simp [nonempty]), words]

theorem words_eq_nil_iff : words delim text = [] ↔ ∀ a ∈ text, delim a = true := by
  induction text with
  | nil => simp
  | cons a text ih =>
    cases separates : delim a with
    | true => simp [words_cons_of_delim separates, ih, separates]
    | false =>
      refine iff_of_false ?_ (by simp [separates])
      obtain ⟨first, others, split⟩ := List.exists_cons_of_ne_nil (List.splitOnP_ne_nil delim text)
      simp [words, List.splitOnP_cons_eq_if_modifyHead, separates, split]

theorem words_ne_nil (member : a ∈ text) (part : delim a = false) : words delim text ≠ [] := by
  intro none
  simp [words_eq_nil_iff.mp none a member] at part

/-- What does not separate is part of a word. -/
theorem exists_mem_words (member : a ∈ text) (part : delim a = false) : ∃ word ∈ words delim text, a ∈ word := by
  have stretch : ∃ word ∈ text.splitOnP delim, a ∈ word := by
    induction text with
    | nil => cases member
    | cons first text ih =>
      obtain ⟨word, others, split⟩ := List.exists_cons_of_ne_nil (List.splitOnP_ne_nil delim text)
      rw [List.splitOnP_cons_eq_if_modifyHead, split]
      rcases List.mem_cons.mp member with rfl | member
      · simp [part]
      · have tail := ih member
        rw [split] at tail
        cases separates : delim first with
        | true => simpa using tail
        | false =>
          simp only [Bool.false_eq_true, if_false, List.modifyHead_cons, List.mem_cons, exists_eq_or_imp] at tail ⊢
          exact tail.imp_left .inr
  obtain ⟨word, listed, inside⟩ := stretch
  exact ⟨word, List.mem_filter.mpr ⟨listed, by simp [List.ne_nil_of_mem inside]⟩, inside⟩

theorem ne_nil_of_mem_words (member : word ∈ words delim text) : word ≠ [] := by
  rintro rfl
  simp [words] at member

/-- A word is part of the text and has no separator. -/
theorem mem_of_mem_words (member : word ∈ words delim text) (within : a ∈ word) :
    a ∈ text ∧ delim a = false := by
  have stretch : word ∈ text.splitOnP delim := List.mem_of_mem_filter member
  clear member
  induction text generalizing word with
  | nil =>
    rw [List.splitOnP_nil, List.mem_singleton] at stretch
    rw [stretch] at within
    cases within
  | cons first text ih =>
    rw [List.splitOnP_cons_eq_if_modifyHead] at stretch
    split_ifs at stretch with separates
    · rcases List.mem_cons.mp stretch with rfl | later
      · cases within
      · exact (ih within later).imp_left (List.mem_cons_of_mem _)
    · obtain ⟨head, others, split⟩ := List.exists_cons_of_ne_nil (List.splitOnP_ne_nil delim text)
      rw [split, List.modifyHead_cons] at stretch
      rcases List.mem_cons.mp stretch with rfl | later
      · rcases List.mem_cons.mp within with rfl | inside
        · exact ⟨List.mem_cons_self, Bool.eq_false_iff.mpr separates⟩
        · exact (ih inside (split ▸ List.mem_cons_self)).imp_left (List.mem_cons_of_mem _)
      · exact (ih within (split ▸ List.mem_cons_of_mem _ later)).imp_left (List.mem_cons_of_mem _)

/-- A word is handed out together with a text that has the other words. -/
theorem nextWord_of_words_eq_cons (all : words delim text = word :: later) :
    ∃ rest, nextWord delim text = (some word, rest) ∧ words delim rest = later := by
  rw [← words_dropWhile text] at all
  cases start : text.dropWhile delim with
  | nil => simp [start] at all
  | cons first tail =>
    have head : delim first = false := by
      have stopped := List.head?_dropWhile_not delim text
      simpa [start] using stopped
    rw [start, ← List.takeWhile_append_dropWhile (p := fun a => !delim a) (l := first :: tail)] at all
    have nonempty : (first :: tail).takeWhile (fun a => !delim a) ≠ [] := by simp [head]
    have whole : ∀ a ∈ (first :: tail).takeWhile (fun a => !delim a), delim a = false := by
      intro a member
      simpa using List.mem_takeWhile_imp member
    refine ⟨((first :: tail).dropWhile fun a => !delim a).tail, ?_, ?_⟩
    all_goals cases behind : (first :: tail).dropWhile fun a => !delim a with
      | nil =>
        rw [behind, List.append_nil, words_of_forall nonempty whole] at all
        obtain ⟨rfl, rfl⟩ := List.cons.inj all
        simp [nextWord, start, behind]
      | cons separator rest =>
        have separates : delim separator = true := by
          have stopped := List.head?_dropWhile_not (fun a => !delim a) (first :: tail)
          simpa [behind] using stopped
        rw [behind, words_append_cons nonempty whole separates] at all
        obtain ⟨rfl, rfl⟩ := List.cons.inj all
        simp [nextWord, start, behind]

theorem nextWord_of_words_eq_nil (none : words delim text = []) : nextWord delim text = (.none, []) := by
  have skipped : text.dropWhile delim = [] := List.dropWhile_eq_nil_iff.mpr (words_eq_nil_iff.mp none)
  rw [nextWord, skipped]

/-- Every call that finds a word leaves a shorter text. -/
theorem length_nextWord_lt (found : nextWord delim text = (some word, rest)) : rest.length < text.length := by
  have bound := (List.dropWhile_suffix (l := text) delim).length_le
  rw [nextWord] at found
  split at found
  · cases found
  · rename_i first tail start
    cases found
    rw [start] at bound
    have less := (List.dropWhile_suffix (l := first :: tail) fun a => !delim a).length_le
    simp only [List.length_tail, List.length_cons] at bound less ⊢
    omega

end

end SystemProgramming.Lib
