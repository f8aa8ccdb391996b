import SystemProgramming.Shell.Redirect

/-! # Redirections as the user writes them

From the left, a word that begins with `<` or `>` is an operator. Its target is the rest of the word, or
the next word if there is nothing else in it. `parse` reads a list of words in this way, and every list
of what it can find is read back from its words.
-/

namespace SystemProgramming.Shell

open Lib

variable {ω ρ : Type*}

/-- What a word is part of. -/
inductive Item (ω : Type*)
  | argument (word : ω)
  /-- An operator written together with its target. -/
  | attached (io : Io) (word : ω)
  | target (io : Io) (operator file : ω)
  /-- An operator behind which nothing follows. -/
  | dangling (io : Io) (operator : ω)

namespace Item

def words : Item ω → List ω
  | argument word => [word]
  | attached _ word => [word]
  | target _ operator file => [operator, file]
  | dangling _ operator => [operator]

/-- There is a target. -/
def redirects : Item ω → Bool
  | argument _ => false
  | attached _ _ => true
  | target _ _ _ => true
  | dangling _ _ => false

/-- There is a target of its own for this operator. -/
def targets (io : Io) : Item ω → Bool
  | argument _ => false
  | attached _ _ => false
  | target io' _ _ => io' = io
  | dangling _ _ => false

end Item

variable (text : ω → Bytes)

/-- The operator a word begins with. -/
def operatorOf (tok : ω) : Option Io :=
  if begins text .input tok then some .input
  else if begins text .output tok then some .output
  else none

def parse : List ω → List (Item ω)
  | [] => []
  | [tok] =>
    match operatorOf text tok with
    | none => [.argument tok]
    | some io => if text tok = [io.mode] then [.dangling io tok] else [.attached io tok]
  | tok :: file :: rest =>
    match operatorOf text tok with
    | none => .argument tok :: parse (file :: rest)
    | some io =>
      if text tok = [io.mode] then .target io tok file :: parse rest
      else .attached io tok :: parse (file :: rest)

/-- What `parse` finds at one place. -/
def Item.Valid : Item ω → Prop
  | argument word => operatorOf text word = none
  | attached io word => operatorOf text word = some io ∧ text word ≠ [io.mode]
  | target io operator _ => text operator = [io.mode]
  | dangling io operator => text operator = [io.mode]

/-- What `parse` finds in a list: an operator without a target is the last word. -/
inductive Parsed : List (Item ω) → Prop
  | nil : Parsed []
  | dangling (io : Io) (operator : ω) (alone : text operator = [io.mode]) : Parsed [.dangling io operator]
  | cons (item : Item ω) (items : List (Item ω)) (valid : item.Valid text)
      (followed : ∀ io operator, item ≠ .dangling io operator) (rest : Parsed items) : Parsed (item :: items)

/-- The words of a list of items. -/
def spelled (items : List (Item ω)) : List ω := items.flatMap Item.words

section

variable {text} {io : Io} {tok file word : ω} {item : Item ω} {items before after : List (Item ω)}

@[simp] theorem spelled_cons (item : Item ω) (items : List (Item ω)) :
    spelled (item :: items) = item.words ++ spelled items := List.flatMap_cons

@[simp] theorem spelled_append (before after : List (Item ω)) :
    spelled (before ++ after) = spelled before ++ spelled after := List.flatMap_append

theorem begins_of_alone (alone : text tok = [io.mode]) (other : Io) :
    begins text other tok = decide (other = io) := by
  rw [begins, alone]
  cases io <;> cases other <;> rfl

theorem operatorOf_of_alone (alone : text tok = [io.mode]) : operatorOf text tok = some io := by
  rw [operatorOf, begins_of_alone alone, begins_of_alone alone]
  cases io <;> rfl

theorem begins_of_operatorOf (none : operatorOf text tok = none) (io : Io) : begins text io tok = false := by
  rw [operatorOf] at none
  split_ifs at none with input output
  cases io with
  | input => exact Bool.eq_false_iff.mpr input
  | output => exact Bool.eq_false_iff.mpr output

/-! ## Reading back -/

theorem parse_argument (plain : operatorOf text tok = none) (rest : List ω) :
    parse text (tok :: rest) = .argument tok :: parse text rest := by
  cases rest <;> simp only [parse, plain]

theorem parse_attached (operator : operatorOf text tok = some io) (more : text tok ≠ [io.mode])
    (rest : List ω) : parse text (tok :: rest) = .attached io tok :: parse text rest := by
  cases rest <;> simp only [parse, operator, more, if_false]

theorem parse_target (alone : text tok = [io.mode]) (file : ω) (rest : List ω) :
    parse text (tok :: file :: rest) = .target io tok file :: parse text rest := by
  simp only [parse, operatorOf_of_alone alone, alone, if_true]

theorem parse_dangling (alone : text tok = [io.mode]) : parse text [tok] = [.dangling io tok] := by
  simp only [parse, operatorOf_of_alone alone, alone, if_true]

/-- The items of a list are read back from its words. -/
theorem Parsed.parse_spelled (parsed : Parsed text items) : parse text (spelled items) = items := by
  induction parsed with
  | nil => rfl
  | dangling io operator alone => exact parse_dangling alone
  | cons item items valid followed rest ih =>
    rw [spelled_cons]
    cases item with
    | argument word => rw [Item.words, List.singleton_append, parse_argument valid, ih]
    | attached io word => rw [Item.words, List.singleton_append, parse_attached valid.1 valid.2, ih]
    | target io operator file =>
      rw [Item.words, List.cons_append, List.singleton_append, parse_target valid, ih]
    | dangling io operator => exact absurd rfl (followed io operator)

/-- Every list of words is read in some way. -/
theorem exists_parsed (text : ω → Bytes) (argv : List ω) : ∃ items, Parsed text items ∧ spelled items = argv := by
  induction argv using parse.induct text with
  | case1 => exact ⟨[], .nil, rfl⟩
  | case2 tok plain => exact ⟨[.argument tok], .cons _ _ plain (by simp) .nil, rfl⟩
  | case3 tok io operator alone => exact ⟨[.dangling io tok], .dangling io tok alone, rfl⟩
  | case4 tok io operator more => exact ⟨[.attached io tok], .cons _ _ ⟨operator, more⟩ (by simp) .nil, rfl⟩
  | case5 tok file rest plain ih =>
    obtain ⟨items, parsed, spells⟩ := ih
    exact ⟨.argument tok :: items, .cons _ _ plain (by simp) parsed, by rw [spelled_cons, spells]; rfl⟩
  | case6 tok file rest io operator alone ih =>
    obtain ⟨items, parsed, spells⟩ := ih
    exact ⟨.target io tok file :: items, .cons _ _ alone (by simp) parsed, by rw [spelled_cons, spells]; rfl⟩
  | case7 tok file rest io operator more ih =>
    obtain ⟨items, parsed, spells⟩ := ih
    exact ⟨.attached io tok :: items, .cons _ _ ⟨operator, more⟩ (by simp) parsed,
      by rw [spelled_cons, spells]; rfl⟩

theorem parsed_parse (text : ω → Bytes) (argv : List ω) : Parsed text (parse text argv) := by
  obtain ⟨items, parsed, rfl⟩ := exists_parsed text argv
  rwa [parsed.parse_spelled]

@[simp] theorem spelled_parse (text : ω → Bytes) (argv : List ω) : spelled (parse text argv) = argv := by
  obtain ⟨items, parsed, rfl⟩ := exists_parsed text argv
  rw [parsed.parse_spelled]

theorem Parsed.valid (parsed : Parsed text items) (member : item ∈ items) : item.Valid text := by
  induction parsed with
  | nil => cases member
  | dangling io operator alone => exact List.mem_singleton.mp member ▸ alone
  | cons first items valid followed rest ih =>
    rcases List.mem_cons.mp member with rfl | later
    · exact valid
    · exact ih later

/-- Leaving out items leaves something that can be read. -/
theorem Parsed.sublist {fewer : List (Item ω)} (parsed : Parsed text items) (sub : fewer.Sublist items) :
    Parsed text fewer := by
  induction parsed generalizing fewer with
  | nil => exact List.sublist_nil.mp sub ▸ .nil
  | dangling io operator alone =>
    rcases List.sublist_singleton.mp sub with rfl | rfl
    · exact .nil
    · exact .dangling io operator alone
  | cons item items valid followed rest ih =>
    rcases List.sublist_cons_iff.mp sub with within | ⟨fewer, rfl, within⟩
    · exact ih within
    · exact .cons item fewer valid followed (ih within)

theorem words_ne_nil (item : Item ω) : item.words ≠ [] := by
  cases item <;> exact List.cons_ne_nil _ _

theorem spelled_eq_nil : spelled items = [] ↔ items = [] := by
  constructor
  · intro empty
    cases items with
    | nil => rfl
    | cons item items => exact absurd (List.append_eq_nil_iff.mp empty).1 (words_ne_nil item)
  · rintro rfl
    rfl

end

end SystemProgramming.Shell
