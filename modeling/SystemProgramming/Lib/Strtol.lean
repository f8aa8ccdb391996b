import SystemProgramming.Lib.Scanf

/-! # Numbers in any base

`strtol` takes from the front of a string the longest part that is blanks, a sign or none, and a numeral of its
base. What a string denotes is said by a grammar; the function finds the longest prefix with a meaning, and
brings a value out of range to the nearest `long`. The bases are 0, which stands for those of numerals in C,
and 2 to 36.
-/

namespace SystemProgramming.Lib

/-- A digit or a letter as a digit of base 36. -/
def digitValue (byte : UInt8) : ℕ :=
  if isDigit byte then byte.toNat - 48
  else if 97 ≤ byte && byte ≤ 122 then byte.toNat - 87
  else if 65 ≤ byte && byte ≤ 90 then byte.toNat - 55
  else 36

def isDigitOf (base : ℕ) (byte : UInt8) : Bool := digitValue byte < base

/-- The number that a list of digits stands for. -/
def valueOf (base : ℕ) (text : List UInt8) : ℕ := text.foldl (fun n byte => base * n + digitValue byte) 0

/-! ## What a string denotes -/

/-- The numerals of a base. -/
inductive Numeral : ℕ → List UInt8 → ℕ → Prop where
  | digits {base : ℕ} {text : List UInt8} : base ≠ 0 → text ≠ [] → (∀ byte ∈ text, isDigitOf base byte = true) →
      Numeral base text (valueOf base text)
  /-- Behind `0x` or `0X`. -/
  | hex {base : ℕ} {mark : UInt8} {text : List UInt8} : base = 0 ∨ base = 16 → mark = 120 ∨ mark = 88 →
      text ≠ [] → (∀ byte ∈ text, isDigitOf 16 byte = true) → Numeral base (48 :: mark :: text) (valueOf 16 text)
  | octal {text : List UInt8} : (∀ byte ∈ text, isDigitOf 8 byte = true) →
      Numeral 0 (48 :: text) (valueOf 8 text)
  | decimal {text : List UInt8} : text ≠ [] → text.head? ≠ some 48 → (∀ byte ∈ text, isDigitOf 10 byte = true) →
      Numeral 0 text (valueOf 10 text)

inductive Denotes (base : ℕ) : List UInt8 → ℤ → Prop where
  | bare {blanks text : List UInt8} {n : ℕ} : (∀ byte ∈ blanks, isBlank byte = true) → Numeral base text n →
      Denotes base (blanks ++ text) n
  | plus {blanks text : List UInt8} {n : ℕ} : (∀ byte ∈ blanks, isBlank byte = true) → Numeral base text n →
      Denotes base (blanks ++ 43 :: text) n
  | minus {blanks text : List UInt8} {n : ℕ} : (∀ byte ∈ blanks, isBlank byte = true) → Numeral base text n →
      Denotes base (blanks ++ 45 :: text) (-n)

/-- The longest prefix that denotes something. -/
structure Longest (base : ℕ) (text front : List UInt8) (value : ℤ) : Prop where
  isPrefix : front <+: text
  denotes : Denotes base front value
  longest : ∀ other v, other <+: text → Denotes base other v → other.length ≤ front.length

/-! ## The function -/

/-- `0x` or `0X`, where the base allows it. -/
def hexMark (base : ℕ) (text : List UInt8) : Bool :=
  (base == 0 || base == 16) && text.head? == some 48 && (text[1]? == some 120 || text[1]? == some 88)

/-- The base of the digits of a numeral without `0x`. -/
def baseInUse (base : ℕ) (text : List UInt8) : ℕ :=
  if base = 0 then if text.head? = some 48 then 8 else 10 else base

def takeDigits (base : ℕ) (text : List UInt8) : Option (ℕ × List UInt8) :=
  let number := text.takeWhile (isDigitOf base)
  if number = [] then none else some (valueOf base number, text.drop number.length)

/-- The numeral at the front of what follows the sign, and what follows the numeral. -/
def takeNumeral (base : ℕ) (text : List UInt8) : Option (ℕ × List UInt8) :=
  if hexMark base text then
    match takeDigits 16 (text.drop 2) with
    | some taken => some taken
    -- without a digit behind the mark its 0 is the number
    | none => some (0, text.tail)
  else takeDigits (baseInUse base text) text

/-- The sign, and what follows it. -/
def takeSign (text : List UInt8) : Bool × List UInt8 :=
  if text.head? = some 45 then (true, text.tail)
  else if text.head? = some 43 then (false, text.tail)
  else (false, text)

def InLong (value : ℤ) : Prop := -2 ^ 63 ≤ value ∧ value < 2 ^ 63

instance (value : ℤ) : Decidable (InLong value) := inferInstanceAs (Decidable (_ ∧ _))

def withSign (negative : Bool) (n : ℕ) : ℤ := if negative then -n else n

/-- What `strtol` returns, whether it sets `errno` to `ERANGE`, and the string at `endptr`. -/
structure Strtol where
  value : ℤ
  erange : Bool
  rest : List UInt8
deriving DecidableEq

def strtol (base : ℕ) (text : List UInt8) : Strtol :=
  let (negative, behind) := takeSign (skipBlank text)
  match takeNumeral base behind with
  | none => ⟨0, false, text⟩
  | some (n, rest) =>
    let value := withSign negative n
    ⟨max (-2 ^ 63) (min value (2 ^ 63 - 1)), !decide (InLong value), rest⟩

section

variable {base n : ℕ} {byte : UInt8} {text front number rest : List UInt8} {value : ℤ}

/-! ## Digits -/

theorem le_and_le_iff {low high : UInt8} : (low ≤ byte && byte ≤ high) = true ↔
    low.toNat ≤ byte.toNat ∧ byte.toNat ≤ high.toNat := by
  simp only [Bool.and_eq_true, decide_eq_true_eq, UInt8.le_iff_toNat_le]

/-- Only letters have values from 10 on, and only they and digits are digits at all. -/
theorem digitValue_cases (byte : UInt8) :
    isDigit byte = true ∧ digitValue byte = byte.toNat - 48 ∧ 48 ≤ byte.toNat ∧ byte.toNat ≤ 57 ∨
      isDigit byte = false ∧ 10 ≤ digitValue byte ∧ (digitValue byte < 36 → 65 ≤ byte.toNat) := by
  rw [digitValue]
  split_ifs with digit letter capital
  · exact .inl ⟨digit, rfl, le_and_le_iff.mp digit⟩
  all_goals refine .inr ⟨Bool.eq_false_iff.mpr digit, ?_⟩
  · have bounds := le_and_le_iff.mp letter
    change 97 ≤ byte.toNat ∧ byte.toNat ≤ 122 at bounds
    omega
  · have bounds := le_and_le_iff.mp capital
    change 65 ≤ byte.toNat ∧ byte.toNat ≤ 90 at bounds
    omega
  · omega

/-- A digit is neither a blank nor a sign. -/
theorem isDigitOf_plain (small : base ≤ 36) (digit : isDigitOf base byte = true) :
    isBlank byte = false ∧ byte ≠ 45 ∧ byte ≠ 43 := by
  rw [isDigitOf, decide_eq_true_eq] at digit
  have above : 48 ≤ byte.toNat := by
    rcases digitValue_cases byte with ⟨-, -, low, -⟩ | ⟨-, -, letter⟩
    · exact low
    · have := letter (by omega)
      omega
  have apart (other : UInt8) (below : other.toNat < 48) : byte ≠ other := by
    rintro rfl
    omega
  refine ⟨?_, apart 45 (by decide), apart 43 (by decide)⟩
  have high : ¬ byte ≤ 13 := by
    rw [UInt8.le_iff_toNat_le]
    change ¬ byte.toNat ≤ 13
    omega
  simp [isBlank, apart 32 (by decide), high]

theorem valueOf_zero_cons (base : ℕ) (text : List UInt8) : valueOf base (48 :: text) = valueOf base text := by
  rw [valueOf, valueOf, List.foldl_cons]
  rfl

theorem takeDigits_eq_some (taken : takeDigits base text = some (n, rest)) :
    ∃ number, text = number ++ rest ∧ number ≠ [] ∧ (∀ byte ∈ number, isDigitOf base byte = true) ∧
      n = valueOf base number ∧
        ∀ other, other <+: text → (∀ byte ∈ other, isDigitOf base byte = true) → other.length ≤ number.length := by
  rw [takeDigits] at taken
  split_ifs at taken with empty
  cases taken
  refine ⟨text.takeWhile (isDigitOf base), (List.prefix_iff_eq_append.mp (List.takeWhile_prefix _)).symm, empty,
    fun _ => List.mem_takeWhile_imp, rfl, ?_⟩
  rintro other ⟨more, rfl⟩ inside
  rw [List.takeWhile_append_of_pos inside, List.length_append]
  omega

theorem not_isDigitOf_of_takeDigits (none : takeDigits base text = none) :
    ∀ byte ∈ text.head?, isDigitOf base byte = false := by
  intro byte first
  obtain ⟨tail, rfl⟩ := List.head?_eq_some_iff.mp first
  rw [takeDigits] at none
  split_ifs at none with empty
  rw [Bool.eq_false_iff]
  intro digit
  simp [digit] at empty

/-! ## Numerals -/

theorem hexMark_eq_true_iff : hexMark base text = true ↔
    (base = 0 ∨ base = 16) ∧ ∃ mark tail, (mark = 120 ∨ mark = 88) ∧ text = 48 :: mark :: tail := by
  rcases text with _ | ⟨zero, _ | ⟨mark, tail⟩⟩
  · simp [hexMark]
  · simp [hexMark]
  · simp only [hexMark, Bool.and_eq_true, Bool.or_eq_true, beq_iff_eq, List.head?_cons, Option.some.injEq,
      List.getElem?_cons_succ, List.getElem?_cons_zero, List.cons.injEq]
    constructor
    · rintro ⟨⟨allowed, rfl⟩, marked⟩
      exact ⟨allowed, mark, tail, marked, rfl, rfl, rfl⟩
    · rintro ⟨allowed, _, _, marked, rfl, rfl, rfl⟩
      exact ⟨⟨allowed, rfl⟩, marked⟩

theorem Numeral.exists_cons (numeral : Numeral base text n) : ∃ byte tail, text = byte :: tail := by
  apply List.exists_cons_of_ne_nil
  cases numeral with
  | digits _ nonempty _ => exact nonempty
  | hex => exact List.cons_ne_nil _ _
  | octal => exact List.cons_ne_nil _ _
  | decimal nonempty _ _ => exact nonempty

/-- In front of a text without `0x` the numerals are the digits of one base. -/
theorem numeral_iff_of_plain (plain : hexMark base text = false) (isPrefix : front <+: text) :
    Numeral base front n ↔ front ≠ [] ∧ (∀ byte ∈ front, isDigitOf (baseInUse base text) byte = true) ∧
      n = valueOf (baseInUse base text) front := by
  obtain ⟨more, rfl⟩ := isPrefix
  constructor
  · intro numeral
    cases numeral with
    | digits positive nonempty inside =>
      rw [baseInUse, if_neg positive]
      exact ⟨nonempty, inside, rfl⟩
    | hex allowed marked _ _ =>
      rw [← Bool.not_eq_true] at plain
      exact absurd (hexMark_eq_true_iff.mpr ⟨allowed, _, _, marked, rfl⟩) plain
    | octal inside =>
      refine ⟨List.cons_ne_nil _ _, List.forall_mem_cons.mpr ⟨rfl, inside⟩, (valueOf_zero_cons 8 _).symm⟩
    | decimal nonempty head inside =>
      have same : baseInUse 0 (front ++ more) = 10 := by
        rw [baseInUse, if_pos rfl, List.head?_append_of_ne_nil _ nonempty, if_neg head]
      rw [same]
      exact ⟨nonempty, inside, rfl⟩
  · rintro ⟨nonempty, inside, rfl⟩
    obtain ⟨byte, tail, rfl⟩ := List.exists_cons_of_ne_nil nonempty
    rw [baseInUse, List.cons_append, List.head?_cons] at inside ⊢
    split_ifs at inside ⊢ with zero octal
    · cases octal
      subst zero
      rw [valueOf_zero_cons]
      exact .octal (List.forall_mem_cons.mp inside).2
    · subst zero
      exact .decimal nonempty octal inside
    · exact .digits zero nonempty inside

/-- Behind `0x` there are hexadecimal digits, or the 0 stands alone. -/
theorem numeral_iff_of_hexMark {mark : UInt8} {tail : List UInt8} (allowed : base = 0 ∨ base = 16)
    (marked : mark = 120 ∨ mark = 88) (isPrefix : front <+: 48 :: mark :: tail) :
    Numeral base front n ↔ front = [48] ∧ n = 0 ∨ ∃ number, front = 48 :: mark :: number ∧ number ≠ [] ∧
      (∀ byte ∈ number, isDigitOf 16 byte = true) ∧ n = valueOf 16 number := by
  have noDigit (b : ℕ) (small : b ≤ 16) : isDigitOf b mark = false := by
    rw [isDigitOf, decide_eq_false_iff_not]
    rcases marked with rfl | rfl
    · change ¬ 33 < b
      omega
    · change ¬ 33 < b
      omega
  have alone (b : ℕ) (small : b ≤ 16) {digits : List UInt8} (follows : digits <+: mark :: tail)
      (inside : ∀ byte ∈ digits, isDigitOf b byte = true) : digits = [] := by
    rcases List.prefix_cons_iff.mp follows with rfl | ⟨_, rfl, -⟩
    · rfl
    · have digit := inside mark (List.mem_cons_self ..)
      rw [noDigit b small] at digit
      cases digit
  constructor
  · intro numeral
    obtain ⟨byte, digits, rfl⟩ := numeral.exists_cons
    obtain ⟨rfl, follows⟩ := List.cons_prefix_cons.mp isPrefix
    cases numeral with
    | digits positive _ inside =>
      obtain rfl := allowed.resolve_left positive
      obtain rfl := alone 16 (by omega) follows (List.forall_mem_cons.mp inside).2
      exact .inl ⟨rfl, rfl⟩
    | hex _ _ nonempty inside =>
      obtain ⟨rfl, -⟩ := List.cons_prefix_cons.mp follows
      exact .inr ⟨_, rfl, nonempty, inside, rfl⟩
    | octal inside =>
      obtain rfl := alone 8 (by omega) follows inside
      exact .inl ⟨rfl, rfl⟩
    | decimal _ head _ => exact absurd rfl head
  · rintro (⟨rfl, rfl⟩ | ⟨number, rfl, nonempty, inside, rfl⟩)
    · rcases allowed with rfl | rfl
      · have alone : Numeral 0 [48] (valueOf 8 []) := .octal (List.forall_mem_nil _)
        exact alone
      · have alone : Numeral 16 [48] (valueOf 16 [48]) := .digits (by decide) (by simp) (by decide +kernel)
        exact alone
    · exact .hex allowed marked nonempty inside

/-- The numeral that is taken is the longest one. -/
theorem takeNumeral_eq_some (taken : takeNumeral base text = some (n, rest)) :
    ∃ front, text = front ++ rest ∧ Numeral base front n ∧
      ∀ other m, other <+: text → Numeral base other m → other.length ≤ front.length := by
  rw [takeNumeral] at taken
  split_ifs at taken with marks
  · obtain ⟨allowed, mark, tail, marked, rfl⟩ := hexMark_eq_true_iff.mp marks
    have shape {other : List UInt8} {m : ℕ} (isPrefix : other <+: 48 :: mark :: tail) :=
      numeral_iff_of_hexMark (n := m) allowed marked isPrefix
    cases digits : takeDigits 16 tail with
    | none =>
      rw [List.drop_succ_cons, List.drop_succ_cons, List.drop_zero, digits] at taken
      cases taken
      refine ⟨[48], rfl, (shape ⟨_, rfl⟩).mpr (.inl ⟨rfl, rfl⟩), fun other m isPrefix numeral => ?_⟩
      rcases (shape isPrefix).mp numeral with ⟨rfl, -⟩ | ⟨number, rfl, nonempty, inside, -⟩
      · rfl
      · obtain ⟨byte, more, rfl⟩ := List.exists_cons_of_ne_nil nonempty
        obtain ⟨behind, same⟩ := (List.cons_prefix_cons.mp (List.cons_prefix_cons.mp isPrefix).2).2
        have stops := not_isDigitOf_of_takeDigits digits byte (by rw [← same]; rfl)
        rw [(List.forall_mem_cons.mp inside).1] at stops
        cases stops
    | some found =>
      rw [List.drop_succ_cons, List.drop_succ_cons, List.drop_zero, digits] at taken
      cases taken
      obtain ⟨number, rfl, nonempty, inside, rfl, longest⟩ := takeDigits_eq_some digits
      refine ⟨48 :: mark :: number, rfl, .hex allowed marked nonempty inside, fun other m isPrefix numeral => ?_⟩
      rcases (shape isPrefix).mp numeral with ⟨rfl, -⟩ | ⟨others, rfl, -, inside, -⟩
      · simp
      · have follows := (List.cons_prefix_cons.mp (List.cons_prefix_cons.mp isPrefix).2).2
        simpa using longest others follows inside
  · rw [Bool.not_eq_true] at marks
    obtain ⟨number, same, nonempty, inside, value, longest⟩ := takeDigits_eq_some taken
    refine ⟨number, same, (numeral_iff_of_plain marks ⟨rest, same.symm⟩).mpr ⟨nonempty, inside, value⟩, ?_⟩
    intro other m isPrefix numeral
    exact longest other isPrefix ((numeral_iff_of_plain marks isPrefix).mp numeral).2.1

theorem not_numeral_of_takeNumeral (none : takeNumeral base text = none) (isPrefix : front <+: text) :
    ¬ Numeral base front n := by
  intro numeral
  rw [takeNumeral] at none
  split_ifs at none with marks
  · cases digits : takeDigits 16 (text.drop 2) with
    | none =>
      rw [digits] at none
      cases none
    | some found =>
      rw [digits] at none
      cases none
  · obtain ⟨nonempty, inside, -⟩ := (numeral_iff_of_plain (Bool.eq_false_iff.mpr marks) isPrefix).mp numeral
    obtain ⟨byte, tail, rfl⟩ := List.exists_cons_of_ne_nil nonempty
    obtain ⟨more, rfl⟩ := isPrefix
    have stops := not_isDigitOf_of_takeDigits none byte rfl
    rw [(List.forall_mem_cons.mp inside).1] at stops
    cases stops

theorem Numeral.unique {m : ℕ} (numeral : Numeral base text n) (other : Numeral base text m) : n = m := by
  cases marks : hexMark base text with
  | false =>
    have shape {k : ℕ} := numeral_iff_of_plain (n := k) marks List.prefix_rfl
    rw [(shape.mp numeral).2.2, (shape.mp other).2.2]
  | true =>
    obtain ⟨allowed, mark, tail, marked, rfl⟩ := hexMark_eq_true_iff.mp marks
    have shape {k : ℕ} := numeral_iff_of_hexMark (n := k) allowed marked (List.prefix_refl (48 :: mark :: tail))
    rcases shape.mp numeral with ⟨short, -⟩ | ⟨number, same, -, -, rfl⟩
    · cases short
    · rcases shape.mp other with ⟨short, -⟩ | ⟨_, again, -, -, rfl⟩
      · cases short
      · rw [same] at again
        cases again
        rfl

/-! ## Signs -/

theorem Numeral.first (small : base ≤ 36) (numeral : Numeral base text n) :
    ∃ byte tail, text = byte :: tail ∧ isBlank byte = false ∧ byte ≠ 45 ∧ byte ≠ 43 := by
  obtain ⟨byte, tail, rfl⟩ := numeral.exists_cons
  refine ⟨byte, tail, rfl, ?_⟩
  cases numeral with
  | digits _ _ inside => exact isDigitOf_plain small (List.forall_mem_cons.mp inside).1
  | hex => decide
  | octal => decide
  | decimal _ _ inside => exact isDigitOf_plain (by decide : 10 ≤ 36) (List.forall_mem_cons.mp inside).1

theorem skipBlank_append {blanks : List UInt8} (blank : ∀ byte ∈ blanks, isBlank byte = true)
    (solid : isBlank byte = false) : skipBlank (blanks ++ byte :: rest) = byte :: rest := by
  rw [skipBlank, List.dropWhile_append_of_pos blank]
  exact skipBlank_cons_of_not solid

/-- What denotes a number is a numeral behind the blanks and the sign, whatever follows. -/
theorem Denotes.split (small : base ≤ 36) (denotes : Denotes base front value) (more : List UInt8) :
    ∃ negative number n, takeSign (skipBlank (front ++ more)) = (negative, number ++ more) ∧
      Numeral base number n ∧ value = withSign negative n := by
  cases denotes with
  | bare blank numeral =>
    obtain ⟨byte, tail, rfl, solid, minus, plus⟩ := numeral.first small
    refine ⟨false, _, _, ?_, numeral, rfl⟩
    rw [List.append_assoc, List.cons_append, skipBlank_append blank solid]
    simp [takeSign, minus, plus]
  | plus blank numeral =>
    refine ⟨false, _, _, ?_, numeral, rfl⟩
    rw [List.append_assoc, List.cons_append, skipBlank_append blank rfl]
    rfl
  | minus blank numeral =>
    refine ⟨true, _, _, ?_, numeral, rfl⟩
    rw [List.append_assoc, List.cons_append, skipBlank_append blank rfl]
    rfl

theorem denotes_of_takeSign {negative : Bool}
    (split : takeSign (skipBlank text) = (negative, number ++ rest)) (numeral : Numeral base number n) :
    ∃ front, text = front ++ rest ∧ Denotes base front (withSign negative n) := by
  have blank : ∀ byte ∈ text.takeWhile isBlank, isBlank byte = true := fun _ => List.mem_takeWhile_imp
  have whole : text = text.takeWhile isBlank ++ skipBlank text := List.takeWhile_append_dropWhile.symm
  rw [takeSign] at split
  split_ifs at split with minus plus
  · obtain ⟨tail, same⟩ := List.head?_eq_some_iff.mp minus
    rw [same] at split whole
    cases split
    exact ⟨_, by rw [List.append_assoc]; exact whole, .minus blank numeral⟩
  · obtain ⟨tail, same⟩ := List.head?_eq_some_iff.mp plus
    rw [same] at split whole
    cases split
    exact ⟨_, by rw [List.append_assoc]; exact whole, .plus blank numeral⟩
  · obtain ⟨rfl, same⟩ := Prod.mk.inj split
    rw [same] at whole
    exact ⟨_, by rw [List.append_assoc]; exact whole, .bare blank numeral⟩

theorem Denotes.ne_nil (denotes : Denotes base text value) : text ≠ [] := by
  cases denotes with
  | bare _ numeral =>
    obtain ⟨byte, tail, rfl⟩ := numeral.exists_cons
    simp
  | plus => simp
  | minus => simp

theorem Denotes.unique {other : ℤ} (small : base ≤ 36) (denotes : Denotes base text value)
    (again : Denotes base text other) : value = other := by
  obtain ⟨negative, number, n, split, numeral, rfl⟩ := denotes.split small []
  obtain ⟨negative', number', m, split', numeral', rfl⟩ := again.split small []
  rw [split] at split'
  obtain ⟨rfl, same⟩ := Prod.mk.inj split'
  obtain rfl := List.append_cancel_right same
  rw [numeral.unique numeral']

/-! ## The longest prefix -/

theorem Longest.unique {front' : List UInt8} {value' : ℤ} (small : base ≤ 36) (here : Longest base text front value)
    (there : Longest base text front' value') : front = front' ∧ value = value' := by
  have le := here.longest _ _ there.isPrefix there.denotes
  have ge := there.longest _ _ here.isPrefix here.denotes
  obtain rfl := (List.prefix_of_prefix_length_le here.isPrefix there.isPrefix ge).eq_of_length (by omega)
  exact ⟨rfl, here.denotes.unique small there.denotes⟩

/-- `strtol` takes the longest prefix that denotes a number, if there is one. -/
theorem strtol_cases (small : base ≤ 36) (text : List UInt8) :
    (∃ front value rest, text = front ++ rest ∧ Longest base text front value ∧
        strtol base text = ⟨max (-2 ^ 63) (min value (2 ^ 63 - 1)), !decide (InLong value), rest⟩) ∨
      (∀ front value, front <+: text → ¬ Denotes base front value) ∧ strtol base text = ⟨0, false, text⟩ := by
  obtain ⟨negative, behind, split⟩ : ∃ negative behind, takeSign (skipBlank text) = (negative, behind) :=
    ⟨_, _, rfl⟩
  have run : strtol base text = match takeNumeral base behind with
      | none => ⟨0, false, text⟩
      | some (n, rest) => ⟨max (-2 ^ 63) (min (withSign negative n) (2 ^ 63 - 1)),
          !decide (InLong (withSign negative n)), rest⟩ := by
    rw [strtol, split]
  rw [run]
  have within {front : List UInt8} {value : ℤ} (isPrefix : front <+: text) (denotes : Denotes base front value) :
      ∃ other n, other <+: behind ∧ Numeral base other n ∧
        front.length + behind.length = other.length + text.length := by
    obtain ⟨more, rfl⟩ := isPrefix
    obtain ⟨_, other, n, same, numeral, -⟩ := denotes.split small more
    rw [split] at same
    obtain ⟨-, rfl⟩ := Prod.mk.inj same
    refine ⟨other, n, ⟨more, rfl⟩, numeral, ?_⟩
    simp only [List.length_append]
    omega
  cases taken : takeNumeral base behind with
  | none =>
    refine .inr ⟨fun front value isPrefix denotes => ?_, rfl⟩
    obtain ⟨other, n, follows, numeral, -⟩ := within isPrefix denotes
    exact not_numeral_of_takeNumeral taken follows numeral
  | some found =>
    obtain ⟨n, rest⟩ := found
    obtain ⟨number, rfl, numeral, longest⟩ := takeNumeral_eq_some taken
    obtain ⟨front, same, denotes⟩ := denotes_of_takeSign split numeral
    refine .inl ⟨front, withSign negative n, rest, same, ⟨⟨rest, same.symm⟩, denotes, ?_⟩, rfl⟩
    intro longer value isPrefix again
    obtain ⟨other, m, follows, numeral', lengths⟩ := within isPrefix again
    have := longest other m follows numeral'
    rw [same] at lengths
    simp only [List.length_append] at lengths
    omega

theorem strtol_of_longest (small : base ≤ 36) (longest : Longest base text front value) :
    ∃ rest, text = front ++ rest ∧
      strtol base text = ⟨max (-2 ^ 63) (min value (2 ^ 63 - 1)), !decide (InLong value), rest⟩ := by
  rcases strtol_cases small text with ⟨_, _, rest, same, found, run⟩ | ⟨nothing, -⟩
  · obtain ⟨rfl, rfl⟩ := found.unique small longest
    exact ⟨rest, same, run⟩
  · exact absurd longest.denotes (nothing front value longest.isPrefix)

theorem Denotes.longest (denotes : Denotes base text value) : Longest base text text value :=
  ⟨List.prefix_rfl, denotes, fun _ _ isPrefix _ => isPrefix.length_le⟩

/-- A string that denotes a number is taken whole, and no other one is. -/
theorem strtol_of_denotes (small : base ≤ 36) (denotes : Denotes base text value) :
    strtol base text = ⟨max (-2 ^ 63) (min value (2 ^ 63 - 1)), !decide (InLong value), []⟩ := by
  obtain ⟨rest, same, run⟩ := strtol_of_longest small denotes.longest
  rw [run, List.self_eq_append_right.mp same]

theorem exists_denotes (small : base ≤ 36) (nonempty : text ≠ []) (whole : (strtol base text).rest = []) :
    ∃ value, Denotes base text value := by
  rcases strtol_cases small text with ⟨front, value, rest, same, longest, run⟩ | ⟨-, run⟩
  · rw [run] at whole
    obtain rfl : rest = [] := whole
    rw [List.append_nil] at same
    exact ⟨value, same ▸ longest.denotes⟩
  · rw [run] at whole
    exact absurd whole nonempty

end

end SystemProgramming.Lib
