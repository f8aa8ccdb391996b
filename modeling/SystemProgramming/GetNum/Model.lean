import SystemProgramming.Lib.CString
import SystemProgramming.Lib.Strtol

/-! # The numbers on the command lines of `get_num.c`

`getInt` and `getLong` turn an argument into a number or end the program with a message. An argument is the
bytes in front of its NUL, or a null pointer. What ends the program is the text it leaves on `stderr`.
-/

namespace SystemProgramming.GetNum

open Lib

/-! ## Flags -/

/-- `GN_NONNEG`. -/
def gnNonneg : BitVec 32 := 0o1

/-- `GN_GT_0`. -/
def gnGt0 : BitVec 32 := 0o2

/-- `GN_ANY_BASE`. -/
def gnAnyBase : BitVec 32 := 0o100

/-- `GN_BASE_8`. -/
def gnBase8 : BitVec 32 := 0o200

/-- `GN_BASE_16`. -/
def gnBase16 : BitVec 32 := 0o400

/-- `base` in `getNum`. -/
def base (flags : BitVec 32) : ℕ :=
  if flags &&& gnAnyBase ≠ 0 then 0
  else if flags &&& gnBase8 ≠ 0 then 8
  else if flags &&& gnBase16 ≠ 0 then 16
  else 10

/-! ## Conversion -/

/-- What `gnFail` prints before it exits. -/
def gnFail (fname msg : String) (arg name : Option Bytes) : Bytes :=
  bytes fname.toList ++ bytes " error".toList ++
    (match name with
    | none => []
    | some name => bytes " (in ".toList ++ name ++ bytes ")".toList) ++
    bytes ": ".toList ++ bytes msg.toList ++ bytes "\n".toList ++
    match arg with
    | none | some [] => []
    | some arg => bytes "        offending text: ".toList ++ arg ++ bytes "\n".toList

def getNum (fname : String) (arg : Option Bytes) (flags : BitVec 32) (name : Option Bytes) : Except Bytes ℤ :=
  match arg with
  | none | some [] => .error (gnFail fname "null or empty string" arg name)
  | some text =>
    let res := strtol (base flags) text
    if res.erange then .error (gnFail fname "strtol() failed" arg name)
    else if res.rest ≠ [] then .error (gnFail fname "nonnumeric characters" arg name)
    else if flags &&& gnNonneg ≠ 0 ∧ res.value < 0 then
      .error (gnFail fname "negative value not allowed" arg name)
    else if flags &&& gnGt0 ≠ 0 ∧ res.value ≤ 0 then .error (gnFail fname "value must be > 0" arg name)
    else .ok res.value

def getLong (arg : Option Bytes) (flags : BitVec 32) (name : Option Bytes) : Except Bytes ℤ :=
  getNum "getLong" arg flags name

def getInt (arg : Option Bytes) (flags : BitVec 32) (name : Option Bytes) : Except Bytes ℤ :=
  match getNum "getInt" arg flags name with
  | .error text => .error text
  | .ok res =>
    if res > 2 ^ 31 - 1 ∨ res < -2 ^ 31 then .error (gnFail "getInt" "integer out of range" arg name) else .ok res

/-! ## What is accepted -/

/-- The signs the flags allow. -/
def Allowed (flags : BitVec 32) (value : ℤ) : Prop :=
  (flags &&& gnNonneg ≠ 0 → 0 ≤ value) ∧ (flags &&& gnGt0 ≠ 0 → 0 < value)

/-- Why an argument is no number for `getNum`, with the message that says so. -/
inductive Refused (flags : BitVec 32) : Option Bytes → String → Prop where
  | null : Refused flags none "null or empty string"
  | empty : Refused flags (some []) "null or empty string"
  | range {text front : Bytes} {value : ℤ} : Longest (base flags) text front value → ¬ InLong value →
      Refused flags (some text) "strtol() failed"
  | text {text : Bytes} : text ≠ [] → (∀ value, ¬ Denotes (base flags) text value) →
      (∀ front value, Longest (base flags) text front value → InLong value) →
      Refused flags (some text) "nonnumeric characters"
  | negative {text : Bytes} {value : ℤ} : Denotes (base flags) text value → InLong value →
      flags &&& gnNonneg ≠ 0 → value < 0 → Refused flags (some text) "negative value not allowed"
  | zero {text : Bytes} {value : ℤ} : Denotes (base flags) text value → InLong value →
      flags &&& gnGt0 ≠ 0 → value ≤ 0 → (flags &&& gnNonneg ≠ 0 → value = 0) →
      Refused flags (some text) "value must be > 0"

section

variable {fname : String} {arg name : Option Bytes} {flags : BitVec 32} {text out : Bytes} {value : ℤ}

theorem base_le (flags : BitVec 32) : base flags ≤ 36 := by
  rw [base]
  split_ifs <;> decide

theorem clamp_of_inLong (inLong : InLong value) : max (-2 ^ 63) (min value (2 ^ 63 - 1)) = value := by
  obtain ⟨low, high⟩ := inLong
  omega

/-- Only the sign can be wrong with a number. -/
theorem getNum_of_denotes (denotes : Denotes (base flags) text value) (inLong : InLong value) :
    getNum fname (some text) flags name =
      if flags &&& gnNonneg ≠ 0 ∧ value < 0 then
        .error (gnFail fname "negative value not allowed" (some text) name)
      else if flags &&& gnGt0 ≠ 0 ∧ value ≤ 0 then .error (gnFail fname "value must be > 0" (some text) name)
      else .ok value := by
  obtain ⟨byte, tail, rfl⟩ := List.exists_cons_of_ne_nil denotes.ne_nil
  simp only [getNum, strtol_of_denotes (base_le flags) denotes, clamp_of_inLong inLong, inLong, decide_true,
    Bool.not_true, Bool.false_eq_true, if_false, ne_eq, not_true_eq_false]

theorem getNum_of_accepted (denotes : Denotes (base flags) text value) (inLong : InLong value)
    (allowed : Allowed flags value) : getNum fname (some text) flags name = .ok value := by
  rw [getNum_of_denotes denotes inLong, if_neg, if_neg]
  · rintro ⟨flag, low⟩
    exact absurd (allowed.2 flag) (by omega)
  · rintro ⟨flag, low⟩
    exact absurd (allowed.1 flag) (by omega)

theorem getNum_of_refused {msg : String} (refused : Refused flags arg msg) :
    getNum fname arg flags name = .error (gnFail fname msg arg name) := by
  cases refused with
  | null => rfl
  | empty => rfl
  | range longest outside =>
    rename_i text front value
    have nonempty : text ≠ [] := by
      rintro rfl
      exact longest.denotes.ne_nil (List.prefix_nil.mp longest.isPrefix)
    obtain ⟨byte, tail, rfl⟩ := List.exists_cons_of_ne_nil nonempty
    obtain ⟨rest, -, run⟩ := strtol_of_longest (base_le flags) longest
    simp only [getNum, run, outside, decide_false, Bool.not_false, if_true]
  | text nonempty nothing inLong =>
    rename_i text
    have rest : (strtol (base flags) text).rest ≠ [] := by
      intro whole
      obtain ⟨value, denotes⟩ := exists_denotes (base_le flags) nonempty whole
      exact nothing value denotes
    have range : (strtol (base flags) text).erange = false := by
      rcases strtol_cases (base_le flags) text with ⟨front, value, more, -, longest, run⟩ | ⟨-, run⟩
      · simp only [run, inLong front value longest, decide_true, Bool.not_true]
      · rw [run]
    obtain ⟨byte, tail, rfl⟩ := List.exists_cons_of_ne_nil nonempty
    simp only [getNum, range, Bool.false_eq_true, if_false, rest, ne_eq, not_false_eq_true, if_true]
  | negative denotes inLong flag low => rw [getNum_of_denotes denotes inLong, if_pos ⟨flag, low⟩]
  | zero denotes inLong flag low sign =>
    rw [getNum_of_denotes denotes inLong, if_neg, if_pos ⟨flag, low⟩]
    rintro ⟨nonneg, negative⟩
    exact absurd (sign nonneg) (by omega)

/-- An argument is a number the flags allow, or there is a message for it. -/
theorem accepted_or_refused (flags : BitVec 32) (arg : Option Bytes) :
    (∃ text value, arg = some text ∧ Denotes (base flags) text value ∧ InLong value ∧ Allowed flags value) ∨
      ∃ msg, Refused flags arg msg := by
  cases arg with
  | none => exact .inr ⟨_, .null⟩
  | some text =>
    by_cases empty : text = []
    · subst empty
      exact .inr ⟨_, .empty⟩
    by_cases number : ∃ value, Denotes (base flags) text value
    · obtain ⟨value, denotes⟩ := number
      by_cases inLong : InLong value
      · by_cases negative : flags &&& gnNonneg ≠ 0 ∧ value < 0
        · exact .inr ⟨_, .negative denotes inLong negative.1 negative.2⟩
        · by_cases zero : flags &&& gnGt0 ≠ 0 ∧ value ≤ 0
          · exact .inr ⟨_, .zero denotes inLong zero.1 zero.2 fun flag => by
              have := not_and.mp negative flag
              omega⟩
          · exact .inl ⟨text, value, rfl, denotes, inLong, fun flag => Int.not_lt.mp (not_and.mp negative flag),
              fun flag => Int.not_le.mp (not_and.mp zero flag)⟩
      · exact .inr ⟨_, .range denotes.longest inLong⟩
    · rw [not_exists] at number
      by_cases outside : ∃ front value, Longest (base flags) text front value ∧ ¬ InLong value
      · obtain ⟨front, value, longest, outside⟩ := outside
        exact .inr ⟨_, .range longest outside⟩
      · refine .inr ⟨_, .text empty number fun front value longest => ?_⟩
        by_contra far
        exact outside ⟨front, value, longest, far⟩

/-- `getNum` returns the number the argument denotes. -/
theorem getNum_eq_ok_iff : getNum fname arg flags name = .ok value ↔
    ∃ text, arg = some text ∧ Denotes (base flags) text value ∧ InLong value ∧ Allowed flags value := by
  constructor
  · intro run
    rcases accepted_or_refused flags arg with ⟨text, other, rfl, denotes, inLong, allowed⟩ | ⟨msg, refused⟩
    · rw [getNum_of_accepted denotes inLong allowed, Except.ok.injEq] at run
      subst run
      exact ⟨text, rfl, denotes, inLong, allowed⟩
    · rw [getNum_of_refused refused] at run
      cases run
  · rintro ⟨text, rfl, denotes, inLong, allowed⟩
    exact getNum_of_accepted denotes inLong allowed

theorem getNum_eq_error_iff : getNum fname arg flags name = .error out ↔
    ∃ msg, Refused flags arg msg ∧ out = gnFail fname msg arg name := by
  constructor
  · intro run
    rcases accepted_or_refused flags arg with ⟨text, other, rfl, denotes, inLong, allowed⟩ | ⟨msg, refused⟩
    · rw [getNum_of_accepted denotes inLong allowed] at run
      cases run
    · rw [getNum_of_refused refused, Except.error.injEq] at run
      exact ⟨msg, refused, run.symm⟩
  · rintro ⟨msg, refused, rfl⟩
    exact getNum_of_refused refused

theorem getInt_eq_ok : getInt arg flags name = .ok value ↔
    getNum "getInt" arg flags name = .ok value ∧ -2 ^ 31 ≤ value ∧ value < 2 ^ 31 := by
  rw [getInt]
  cases got : getNum "getInt" arg flags name with
  | error out => simp
  | ok res =>
    dsimp only
    split_ifs with range
    · simp only [Except.ok.injEq, false_iff, not_and]
      rintro rfl
      omega
    · simp only [Except.ok.injEq, iff_self_and]
      rintro rfl
      omega

/-- `getInt` returns the number that the argument denotes, when it is an `int` and has a sign the flags allow. -/
theorem getInt_eq_ok_iff : getInt arg flags name = .ok value ↔
    ∃ text, arg = some text ∧ Denotes (base flags) text value ∧ -2 ^ 31 ≤ value ∧ value < 2 ^ 31 ∧
      Allowed flags value := by
  rw [getInt_eq_ok, getNum_eq_ok_iff]
  constructor
  · rintro ⟨⟨text, rfl, denotes, -, allowed⟩, low, high⟩
    exact ⟨text, rfl, denotes, low, high, allowed⟩
  · rintro ⟨text, rfl, denotes, low, high, allowed⟩
    exact ⟨⟨text, rfl, denotes, ⟨by omega, by omega⟩, allowed⟩, low, high⟩

/-- Otherwise the program ends with the first reason there is against the argument. -/
theorem getInt_eq_error_iff : getInt arg flags name = .error out ↔
    (∃ msg, Refused flags arg msg ∧ out = gnFail "getInt" msg arg name) ∨
      ∃ text value, arg = some text ∧ Denotes (base flags) text value ∧ InLong value ∧ Allowed flags value ∧
        ¬ (-2 ^ 31 ≤ value ∧ value < 2 ^ 31) ∧ out = gnFail "getInt" "integer out of range" arg name := by
  constructor
  · intro run
    rw [getInt] at run
    cases got : getNum "getInt" arg flags name with
    | error text =>
      rw [got] at run
      cases run
      exact .inl (getNum_eq_error_iff.mp got)
    | ok res =>
      obtain ⟨text, rfl, denotes, inLong, allowed⟩ := getNum_eq_ok_iff.mp got
      rw [got] at run
      dsimp only at run
      split_ifs at run with range
      cases run
      exact .inr ⟨text, res, rfl, denotes, inLong, allowed, by omega, rfl⟩
  · rintro (⟨msg, refused, rfl⟩ | ⟨text, res, rfl, denotes, inLong, allowed, outside, rfl⟩)
    · rw [getInt, getNum_of_refused refused]
    · rw [getInt, getNum_of_accepted denotes inLong allowed]
      exact if_pos (by omega)

end

end SystemProgramming.GetNum
