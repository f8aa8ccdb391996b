import Mathlib.Tactic.Common
import Mathlib.Data.List.Basic
import Mathlib.Data.List.TakeWhile

/-! # C strings in fixed-size fields

A string is a list of bytes without NUL; a buffer holds the string in front of its first NUL. A field is
an array of known size. Copies that do not fit have no result.
-/

namespace SystemProgramming.Lib

abbrev Bytes := List UInt8

/-- Characters of the basic character set as bytes. -/
def bytes (text : List Char) : Bytes := text.map fun c => UInt8.ofNat c.toNat

/-- The string at the start of a buffer, whose end counts as a NUL. -/
def cstr (buffer : List UInt8) : List UInt8 := buffer.takeWhile (· != 0)

@[ext]
structure Field (size : ℕ) where
  bytes : List UInt8
  size_eq : bytes.length = size
deriving DecidableEq

namespace Field

variable {size : ℕ}

/-- An initialised field: the bytes, then NULs. -/
def init (size : ℕ) (bytes : List UInt8) : Field size where
  bytes := (bytes ++ List.replicate size 0).take size
  size_eq := by simp

def string (field : Field size) : List UInt8 := cstr field.bytes

/-- Bytes stored at the start of the field, as far as it has room. -/
def fill (field : Field size) (bytes : List UInt8) : Field size where
  bytes := (bytes ++ field.bytes.drop bytes.length).take size
  size_eq := by simp [field.size_eq]; omega

/-- One byte stored. -/
def set (field : Field size) (index : ℕ) (byte : UInt8) : Field size where
  bytes := field.bytes.set index byte
  size_eq := by rw [List.length_set, field.size_eq]

def strcpy (field : Field size) (string : List UInt8) : Option (Field size) :=
  if fits : string.length < size then
    some ⟨string ++ 0 :: field.bytes.drop (string.length + 1), by simp [field.size_eq]; omega⟩
  else none

def strcat (field : Field size) (string : List UInt8) : Option (Field size) :=
  field.strcpy (field.string ++ string)

end Field

section

variable {string rest : List UInt8}

theorem cstr_eq_self (proper : 0 ∉ string) : cstr string = string := by
  rw [cstr, List.takeWhile_eq_self_iff]
  intro byte inside
  simpa using ne_of_mem_of_not_mem inside proper

theorem not_mem_cstr (buffer : List UInt8) : 0 ∉ cstr buffer := by
  intro inside
  simpa using List.mem_takeWhile_imp inside

@[simp] theorem cstr_zero_cons : cstr (0 :: rest) = [] := rfl

theorem cstr_append (proper : 0 ∉ string) : cstr (string ++ rest) = string ++ cstr rest := by
  rw [cstr, List.takeWhile_append_of_pos]
  · rfl
  · intro byte inside
    simpa using ne_of_mem_of_not_mem inside proper

/-- The NUL ends the string. -/
theorem cstr_append_zero (proper : 0 ∉ string) : cstr (string ++ 0 :: rest) = string := by
  rw [cstr_append proper, cstr_zero_cons, List.append_nil]

/-- What comes behind a NUL does not matter. -/
theorem cstr_append_zero_cons (buffer behind : List UInt8) : cstr (buffer ++ 0 :: behind) = cstr buffer := by
  rw [cstr, cstr, List.takeWhile_append]
  split_ifs with whole
  · rw [(List.takeWhile_prefix _).eq_of_length whole]
    simp
  · rfl

/-- A NUL behind a buffer does not change what it holds. -/
theorem cstr_concat_zero (buffer : List UInt8) : cstr (buffer ++ [0]) = cstr buffer :=
  cstr_append_zero_cons buffer []

/-- A byte written over the last one of a string. -/
theorem set_last {buffer : List UInt8} (nonempty : cstr buffer ≠ []) (byte : UInt8) : ∃ behind, cstr behind = [] ∧
    buffer.set ((cstr buffer).length - 1) byte = (cstr buffer).dropLast ++ byte :: behind := by
  obtain ⟨behind, whole⟩ : cstr buffer <+: buffer := List.takeWhile_prefix _
  have proper := not_mem_cstr buffer
  have nothing : cstr buffer ++ cstr behind = cstr buffer := by
    rw [← cstr_append proper, whole]
  refine ⟨behind, List.append_right_eq_self.mp nothing, ?_⟩
  generalize cstr buffer = string at whole nonempty
  rcases List.eq_nil_or_concat' string with rfl | ⟨front, last, rfl⟩
  · exact absurd rfl nonempty
  · rw [← whole, List.length_append, List.length_singleton, Nat.add_sub_cancel, List.append_assoc,
      List.set_append_right _ _ (Nat.le_refl _), Nat.sub_self, List.dropLast_concat]
    rfl

theorem not_mem_dropLast_cstr (buffer : List UInt8) : 0 ∉ (cstr buffer).dropLast :=
  fun inside => not_mem_cstr buffer (List.dropLast_subset _ inside)

/-- A NUL over the last byte of a string shortens it by that byte. -/
theorem cstr_set_last {buffer : List UInt8} (nonempty : cstr buffer ≠ []) :
    cstr (buffer.set ((cstr buffer).length - 1) 0) = (cstr buffer).dropLast := by
  obtain ⟨behind, -, written⟩ := set_last nonempty 0
  rw [written, cstr_append_zero (not_mem_dropLast_cstr buffer)]

/-- Any other byte takes the place of the last one. -/
theorem cstr_set_last_of_ne {buffer : List UInt8} (nonempty : cstr buffer ≠ []) {byte : UInt8} (other : byte ≠ 0) :
    cstr (buffer.set ((cstr buffer).length - 1) byte) = (cstr buffer).dropLast ++ [byte] := by
  obtain ⟨behind, nothing, written⟩ := set_last nonempty byte
  have single : 0 ∉ [byte] := by simpa using Ne.symm other
  rw [written, cstr_append (not_mem_dropLast_cstr buffer), ← List.singleton_append, cstr_append single, nothing]
  rfl

section

variable {buffer : List UInt8}

theorem cstr_prefix_self (buffer : List UInt8) : cstr buffer <+: buffer := List.takeWhile_prefix _

/-- In front of its NUL a buffer is the string it holds. -/
theorem getElem?_of_lt_cstr {k : ℕ} (inside : k < (cstr buffer).length) :
    buffer[k]? = (cstr buffer)[k]? := by
  obtain ⟨rest, whole⟩ := cstr_prefix_self buffer
  conv_lhs => rw [← whole]
  exact List.getElem?_append_left inside

theorem getElem?_cstr_length (ends : 0 ∈ buffer) : buffer[(cstr buffer).length]? = some 0 := by
  induction buffer with
  | nil => simp at ends
  | cons byte buffer ih =>
    by_cases last : byte = 0
    · subst last
      rfl
    · have longer : cstr (byte :: buffer) = byte :: cstr buffer := by simp [cstr, last]
      rw [longer, List.length_cons, List.getElem?_cons_succ]
      exact ih ((List.mem_cons.mp ends).resolve_left (Ne.symm last))

/-- A buffer that holds a NUL is its string, that NUL and the rest. -/
theorem exists_cstr_append (ends : 0 ∈ buffer) : ∃ behind, buffer = cstr buffer ++ 0 :: behind := by
  refine ⟨buffer.drop ((cstr buffer).length + 1), ?_⟩
  obtain ⟨inside, last⟩ := List.getElem?_eq_some_iff.mp (getElem?_cstr_length ends)
  have front := List.prefix_iff_eq_take.mp (cstr_prefix_self buffer)
  conv_lhs => rw [← List.take_append_drop (cstr buffer).length buffer, ← front,
    List.drop_eq_getElem_cons inside, last]

end

/-- A stretch without NUL lies on one side of a NUL. -/
theorem infix_of_zero_not_mem {stretch left right : List UInt8} (proper : 0 ∉ stretch)
    (inside : stretch <:+: left ++ 0 :: right) : stretch <:+: left ∨ stretch <:+: right := by
  obtain ⟨before, behind, whole⟩ := inside
  rw [List.append_assoc] at whole
  rcases List.append_eq_append_iff.mp whole with ⟨rest, split, begins⟩ | ⟨rest, -, ends⟩
  · rcases List.append_eq_append_iff.mp begins with ⟨gap, rfl, -⟩ | ⟨gap, rfl, runs⟩
    · exact .inl ⟨before, gap, by rw [split, List.append_assoc]⟩
    · cases gap with
      | nil => exact .inl ⟨before, [], by simp [split]⟩
      | cons byte gap =>
        obtain ⟨rfl, -⟩ := List.cons.inj runs
        simp at proper
  · cases rest with
    | nil =>
      cases stretch with
      | nil => exact .inl List.nil_infix
      | cons byte stretch =>
        obtain ⟨rfl, -⟩ := List.cons.inj ends
        simp at proper
    | cons byte rest =>
      obtain ⟨-, rfl⟩ := List.cons.inj ends
      exact .inr ⟨rest, behind, by simp⟩

end

namespace Field

variable {size : ℕ} {string other : List UInt8}

theorem init_bytes (fits : string.length ≤ size) :
    (init size string).bytes = string ++ List.replicate (size - string.length) 0 := by
  simp [init, List.take_append, List.take_of_length_le fits]

/-- Initialised with a string that leaves room for its NUL. -/
theorem string_init (fits : string.length < size) (proper : 0 ∉ string) :
    (init size string).string = string := by
  obtain ⟨room, more⟩ : ∃ room, size - string.length = room + 1 := ⟨size - string.length - 1, by omega⟩
  rw [Field.string, init_bytes fits.le, more, List.replicate_succ, cstr_append_zero proper]

/-- Bytes stored over NULs read as the string they begin with. -/
theorem string_fill_init {bytes : List UInt8} (fits : bytes.length ≤ size) :
    ((init size []).fill bytes).string = cstr bytes := by
  have cleared : (init size []).bytes = List.replicate size 0 := by simp [init]
  have stored : ((init size []).fill bytes).bytes = bytes ++ List.replicate (size - bytes.length) 0 := by
    rw [fill]
    simp only [cleared, List.drop_replicate]
    exact List.take_of_length_le (by simp; omega)
  rw [Field.string, stored, cstr, List.takeWhile_append]
  split_ifs with whole
  · have same : bytes.takeWhile (· != 0) = bytes := (List.takeWhile_prefix _).eq_of_length whole
    cases size - bytes.length with
    | zero => simp [cstr, same]
    | succ room => simp [cstr, same, List.replicate_succ]
  · rfl

/-- A copy over NULs leaves NULs behind the string. -/
theorem strcpy_init (fits : string.length < size) (shorter : other.length ≤ string.length)  :
    (init size other).strcpy string = some (init size string) := by
  rw [strcpy, dif_pos fits, Option.some.injEq]
  apply Field.ext
  obtain ⟨room, more⟩ : ∃ room, size - string.length = room + 1 := ⟨size - string.length - 1, by omega⟩
  simp only [init_bytes fits.le, init_bytes (shorter.trans fits.le), more, List.replicate_succ,
    List.drop_append, List.drop_replicate]
  rw [List.drop_eq_nil_of_le (by omega), List.nil_append]
  congr 3
  omega

theorem strcat_init (fits : (string ++ other).length < size) (proper : 0 ∉ string) :
    (init size string).strcat other = some (init size (string ++ other)) := by
  have shorter : string.length ≤ (string ++ other).length := by simp
  rw [strcat, string_init (shorter.trans_lt fits) proper]
  exact strcpy_init fits shorter

/-- Bytes that take up the whole field. -/
theorem bytes_fill_whole (field : Field size) {bytes : List UInt8} (whole : bytes.length = size) :
    (field.fill bytes).bytes = bytes :=
  List.take_left' whole

/-- Bytes stored with a NUL behind them. -/
theorem bytes_fill_zero (field : Field size) {bytes : List UInt8} (fits : bytes.length < size) :
    (field.fill (bytes ++ [0])).bytes = bytes ++ 0 :: field.bytes.drop (bytes.length + 1) := by
  have length := field.size_eq
  change (bytes ++ [(0 : UInt8)] ++ field.bytes.drop (bytes ++ [(0 : UInt8)]).length).take size = _
  rw [List.append_assoc, List.singleton_append, List.length_append, List.length_singleton]
  apply List.take_of_length_le
  rw [List.length_append, List.length_cons, List.length_drop]
  omega

/-- The field holds the string that was copied to it. -/
theorem string_of_strcpy {field copied : Field size} (proper : 0 ∉ string)
    (done : field.strcpy string = some copied) : copied.string = string := by
  rw [strcpy] at done
  split at done
  · cases done
    exact cstr_append_zero proper
  · cases done

theorem zero_mem_of_strcpy {field copied : Field size} (done : field.strcpy string = some copied) :
    0 ∈ copied.bytes := by
  rw [strcpy] at done
  split at done
  · cases done
    simp
  · cases done

/-- A field holds a NUL exactly when its string is shorter than the field. -/
theorem zero_mem_iff (field : Field size) : 0 ∈ field.bytes ↔ field.string.length < size := by
  constructor
  · intro ends
    have last := (List.getElem?_eq_some_iff.mp (getElem?_cstr_length ends)).1
    rw [field.size_eq] at last
    exact last
  · intro short
    by_contra proper
    rw [Field.string, cstr_eq_self proper, field.size_eq] at short
    exact Nat.lt_irrefl _ short

theorem exists_strcpy (field : Field size) (fits : string.length < size) :
    ∃ copied, field.strcpy string = some copied :=
  ⟨_, dif_pos fits⟩

end Field

end SystemProgramming.Lib
