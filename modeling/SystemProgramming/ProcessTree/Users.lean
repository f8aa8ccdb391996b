import SystemProgramming.ProcessTree.Model
import SystemProgramming.Lib.Decimal
import Mathlib.Data.List.Basic

/-! # The names `uid2user` finds

Names are looked up once and kept in a table of 128 entries. The table holds the first eight bytes of a
name, so a name from the table and the same name from `getpwuid` differ when it is longer.
-/

namespace SystemProgramming.ProcessTree

open Lib

/-- `uid_t`. -/
abbrev Uid := BitVec 32

/-- `getpwuid`: the login name of a known user. -/
abbrev UserDatabase := Uid → Option Bytes

/-- The entries of `un` in use, the last one first. -/
abbrev NameCache := List (Uid × Bytes)

/-- `NUMUN`. -/
def numUn : ℕ := 128

/-- `strncpy` into `len` bytes, the last of which becomes the NUL. -/
def strncpy (len : ℕ) (text : Bytes) : Bytes := text.take (len - 1)

/-- What is copied when the user is not in the table yet. -/
def UserDatabase.find (getpwuid : UserDatabase) (uid : Uid) : Bytes :=
  (getpwuid uid).getD (snprintf 32 (bytes ['#'] ++ decimal uid.toInt))

/-- The name that is stored, and the table afterwards. The search runs from the last entry down. -/
def uid2user (getpwuid : UserDatabase) (uid : Uid) (len : ℕ) (un : NameCache) : Bytes × NameCache :=
  match un.find? fun entry => entry.1 == uid with
  | some entry => (strncpy len entry.2, un)
  | none =>
    (strncpy len (getpwuid.find uid),
      if un.length < numUn then (uid, strncpy 9 (getpwuid.find uid)) :: un else un)

/-- The names stored by a sequence of calls. -/
def uid2users (getpwuid : UserDatabase) : List Uid → NameCache → List Bytes
  | [], _ => []
  | uid :: uids, un =>
    let (name, un) := uid2user getpwuid uid 32 un
    name :: uid2users getpwuid uids un

/-- The login name, or the user id behind a `#`. -/
def UserDatabase.userName (getpwuid : UserDatabase) (uid : Uid) : Bytes :=
  (getpwuid uid).getD (bytes ['#'] ++ decimal uid.toNat)

/-- The tests of `-u` and `-U` on a name. -/
def Options.selectsUser (o : Options) (name : Bytes) : Bool :=
  name == o.name || (o.Uoption && name != bytes ['r', 'o', 'o', 't'])

/-- Each call stores the name of its user, so the filters treat calls for one user alike. -/
structure NamesUsers (getpwuid : UserDatabase) (uids : List Uid) : Prop where
  names : uid2users getpwuid uids [] = uids.map getpwuid.userName
  alike : ∀ (o : Options) (i j : ℕ), uids[i]? = uids[j]? →
    (uid2users getpwuid uids [])[i]?.map o.selectsUser =
      (uid2users getpwuid uids [])[j]?.map o.selectsUser

/-- The users whose names are in the table after the calls: the first 128 different ones. -/
def remembered (uids : List Uid) : List Uid := uids.eraseDups.take numUn

/-- A user without a login name has an id that `%d` prints as it is, and the name of a user that is in the
table when a call asks for it has at most eight bytes. -/
structure ShortNames (getpwuid : UserDatabase) (uids : List Uid) : Prop where
  unknown : ∀ uid ∈ uids, getpwuid uid = none → uid.toNat < 2 ^ 31
  again : ∀ before uid after, uids = before ++ uid :: after → uid ∈ remembered before →
    (getpwuid.userName uid).length ≤ 8

theorem decimal_eq (value : ℤ) : decimal value = signedDigits value := by
  rw [decimal, signedDigits]
  split_ifs <;> rfl

section

variable {getpwuid : UserDatabase} {uid : Uid} {before : List Uid}

/-- The table after the calls. -/
def UserDatabase.table (getpwuid : UserDatabase) (before : List Uid) : NameCache :=
  ((remembered before).map fun uid => (uid, strncpy 9 (getpwuid.find uid))).reverse

/-- What a call stores after the calls before it. -/
def UserDatabase.answer (getpwuid : UserDatabase) (before : List Uid) (uid : Uid) : Bytes :=
  if uid ∈ remembered before then strncpy 32 (strncpy 9 (getpwuid.find uid))
  else strncpy 32 (getpwuid.find uid)

theorem mem_of_mem_remembered (inside : uid ∈ remembered before) : uid ∈ before :=
  List.mem_eraseDups.mp (List.mem_of_mem_take inside)

/-- A call adds its user, unless it is in the table or the table is full. -/
theorem remembered_snoc (before : List Uid) (uid : Uid) :
    remembered (before ++ [uid]) =
      if uid ∈ remembered before ∨ numUn ≤ (remembered before).length then remembered before
      else remembered before ++ [uid] := by
  have taken : (remembered before).length = min numUn before.eraseDups.length := List.length_take
  by_cases seen : uid ∈ before
  · have same : remembered (before ++ [uid]) = remembered before := by
      simp [remembered, List.eraseDups_append, List.removeAll, seen]
    rw [same, if_pos]
    refine or_iff_not_imp_left.mpr fun outside => ?_
    rw [taken, Nat.le_min]
    refine ⟨Nat.le_refl _, ?_⟩
    by_contra room
    apply outside
    rw [remembered, List.take_of_length_le (by omega)]
    exact List.mem_eraseDups.mpr seen
  · have further : remembered (before ++ [uid]) = (before.eraseDups ++ [uid]).take numUn := by
      simp [remembered, List.eraseDups_append, List.eraseDups_cons, List.removeAll, seen]
    rw [further, List.take_append]
    split_ifs with full
    · have full := full.resolve_left fun inside => seen (mem_of_mem_remembered inside)
      rw [Nat.sub_eq_zero_of_le (by omega), List.take_zero, List.append_nil, remembered]
    · rw [not_or] at full
      rw [List.take_of_length_le (l := [uid]) (by simp; omega), remembered]

theorem find?_table_of_mem (inside : uid ∈ remembered before) :
    ((getpwuid.table before).find? fun entry => entry.1 == uid) =
      some (uid, strncpy 9 (getpwuid.find uid)) := by
  cases found : (getpwuid.table before).find? fun entry => entry.1 == uid with
  | none =>
    refine absurd (List.find?_eq_none.mp found (uid, strncpy 9 (getpwuid.find uid)) ?_) (by simp)
    exact List.mem_reverse.mpr (List.mem_map_of_mem inside)
  | some entry =>
    have same := List.find?_some found
    obtain ⟨other, -, rfl⟩ := List.mem_map.mp (List.mem_reverse.mp (List.mem_of_find?_eq_some found))
    obtain rfl : other = uid := eq_of_beq same
    rfl

theorem find?_table_of_not_mem (outside : uid ∉ remembered before) :
    ((getpwuid.table before).find? fun entry => entry.1 == uid) = none := by
  rw [List.find?_eq_none]
  intro entry listed same
  obtain ⟨other, inside, rfl⟩ := List.mem_map.mp (List.mem_reverse.mp listed)
  obtain rfl : other = uid := eq_of_beq same
  exact outside inside

/-- One call: the name it stores, and the table it leaves. -/
theorem uid2user_table (getpwuid : UserDatabase) (before : List Uid) (uid : Uid) :
    uid2user getpwuid uid 32 (getpwuid.table before) =
      (getpwuid.answer before uid, getpwuid.table (before ++ [uid])) := by
  have size : (getpwuid.table before).length = (remembered before).length := by
    simp [UserDatabase.table]
  have next := remembered_snoc before uid
  by_cases inside : uid ∈ remembered before
  · rw [if_pos (.inl inside)] at next
    rw [uid2user, find?_table_of_mem inside, UserDatabase.answer, if_pos inside, UserDatabase.table,
      UserDatabase.table, next]
  · rw [uid2user, find?_table_of_not_mem inside, UserDatabase.answer, if_neg inside]
    simp only [size]
    split_ifs with room
    · rw [if_neg (by simp [inside, room])] at next
      rw [UserDatabase.table, UserDatabase.table, next, List.map_append, List.reverse_append]
      rfl
    · rw [if_pos (.inr (by omega))] at next
      rw [UserDatabase.table, UserDatabase.table, next]

/-- A sequence of calls, each with the calls before it. -/
theorem uid2users_eq_iff (getpwuid : UserDatabase) (before uids : List Uid) (names : Uid → Bytes) :
    uid2users getpwuid uids (getpwuid.table before) = uids.map names ↔
      ∀ first uid rest, uids = first ++ uid :: rest →
        getpwuid.answer (before ++ first) uid = names uid := by
  induction uids generalizing before with
  | nil => simp [uid2users]
  | cons uid uids ih =>
    rw [uid2users, uid2user_table]
    dsimp only
    rw [List.map_cons, List.cons.injEq, ih]
    constructor
    · rintro ⟨here, later⟩ first other rest split
      cases first with
      | nil =>
        obtain ⟨rfl, rfl⟩ := List.cons.inj split
        rw [List.append_nil, here]
      | cons head first =>
        obtain ⟨rfl, rfl⟩ := List.cons.inj split
        rw [List.append_cons]
        exact later first other rest rfl
    · intro every
      refine ⟨by simpa using every [] uid uids rfl, fun first other rest split => ?_⟩
      rw [← List.append_cons]
      exact every (uid :: first) other rest (by rw [split, List.cons_append])

/-- The id of an unknown user is printed whole. -/
theorem find_of_unknown (unknown : getpwuid uid = none) :
    getpwuid.find uid = 35 :: signedDigits uid.toInt := by
  have small : (signedDigits uid.toInt).length ≤ 11 := by
    have bound : (digits uid.toInt.natAbs).length ≤ 10 := digits_length_le (by decide) (by
      have low := BitVec.le_toInt uid
      have high := BitVec.toInt_lt (x := uid)
      omega)
    rw [signedDigits]
    split_ifs
    · rw [List.length_cons]
      omega
    · omega
  rw [UserDatabase.find, unknown, Option.getD_none, decimal_eq, snprintf]
  exact List.take_of_length_le (by simp [bytes]; omega)

theorem find_length_le (short : ∀ uid name, getpwuid uid = some name → name.length ≤ 31) (uid : Uid) :
    (getpwuid.find uid).length ≤ 31 := by
  rw [UserDatabase.find]
  cases known : getpwuid uid with
  | none =>
    rw [Option.getD_none, snprintf]
    exact List.length_take_le ..
  | some name => exact short uid name known

/-- A user id below `2 ^ 31` looks the same as an `int`. -/
theorem find_eq_userName_iff (uid : Uid) :
    getpwuid.find uid = getpwuid.userName uid ↔ (getpwuid uid = none → uid.toNat < 2 ^ 31) := by
  cases known : getpwuid uid with
  | some name => simp [UserDatabase.find, UserDatabase.userName, known]
  | none =>
    have name : getpwuid.userName uid = 35 :: signedDigits uid.toNat := by
      rw [UserDatabase.userName, known, Option.getD_none, decimal_eq]
      rfl
    rw [find_of_unknown known, name, List.cons.injEq]
    constructor
    · intro same _
      have equal := signedDigits_injective same.2
      rw [BitVec.toInt_eq_toNat_cond] at equal
      omega
    · intro below
      have below := below rfl
      rw [BitVec.toInt_eq_toNat_cond, if_pos (by omega)]
      exact ⟨rfl, rfl⟩

/-- A name that fits the table is the same from there. -/
theorem answer_eq_userName (short : ∀ uid name, getpwuid uid = some name → name.length ≤ 31)
    (whole : getpwuid.find uid = getpwuid.userName uid) :
    getpwuid.answer before uid = getpwuid.userName uid ↔
      (uid ∈ remembered before → (getpwuid.userName uid).length ≤ 8) := by
  have bound := find_length_le short uid
  rw [UserDatabase.answer, strncpy, strncpy, strncpy, ← whole]
  split_ifs with inside
  · rw [List.take_take]
    constructor
    · intro same _
      rw [← same, List.length_take]
      omega
    · intro fits
      exact List.take_of_length_le (Nat.le_trans (fits inside) (by decide))
  · exact iff_of_true (List.take_of_length_le bound) fun again => absurd again inside

end

/-- With names of at most 31 bytes, every call stores the name of its user exactly when no id of an unknown
user is 2^31 or more and no name that is looked up in the table is longer than eight bytes. -/
theorem namesUsers_iff (getpwuid : UserDatabase)
    (short : ∀ uid name, getpwuid uid = some name → name.length ≤ 31) (uids : List Uid) :
    NamesUsers getpwuid uids ↔ ShortNames getpwuid uids := by
  have calls := uid2users_eq_iff getpwuid [] uids getpwuid.userName
  constructor
  · intro named
    have every := calls.mp named.names
    have whole (uid : Uid) (called : uid ∈ uids) : getpwuid.find uid = getpwuid.userName uid := by
      obtain ⟨first, rest, split, new⟩ := List.eq_append_cons_of_mem called
      have answer := every first uid rest split
      rw [List.nil_append, UserDatabase.answer, if_neg fun inside => new (mem_of_mem_remembered inside),
        strncpy, List.take_of_length_le (find_length_le short uid)] at answer
      exact answer
    refine ⟨fun uid called => (find_eq_userName_iff uid).mp (whole uid called), ?_⟩
    intro first uid rest split
    have called : uid ∈ uids := by
      rw [split]
      exact List.mem_append_right _ (List.mem_cons_self ..)
    exact (answer_eq_userName short (whole uid called)).mp (every first uid rest split)
  · intro fits
    have names : uid2users getpwuid uids [] = uids.map getpwuid.userName := by
      refine calls.mpr fun first uid rest split => ?_
      have called : uid ∈ uids := by
        rw [split]
        exact List.mem_append_right _ (List.mem_cons_self ..)
      exact (answer_eq_userName short ((find_eq_userName_iff uid).mpr (fits.unknown uid called))).mpr
        (fits.again first uid rest split)
    refine ⟨names, fun o i j same => ?_⟩
    rw [names, List.getElem?_map, List.getElem?_map, same]

/-- A user with a name of nine bytes. -/
def longName : UserDatabase := fun uid =>
  if uid = 1000 then some (bytes ['d', 'e', 'v', 'e', 'l', 'o', 'p', 'e', 'r']) else none

theorem longName_short (uid : Uid) (name : Bytes) (known : longName uid = some name) :
    name.length ≤ 31 := by
  rw [longName] at known
  split_ifs at known
  obtain rfl := Option.some.inj known
  decide

theorem namesUsers_longName : NamesUsers longName [0, 0] := by
  have only (uid : Uid) (called : uid ∈ [(0 : Uid), 0]) : uid = 0 := by simpa using called
  refine (namesUsers_iff longName longName_short _).mpr ⟨fun uid called _ => ?_, ?_⟩
  · obtain rfl := only uid called
    decide
  · intro first uid rest split _
    obtain rfl := only uid (by rw [split]; exact List.mem_append_right _ (List.mem_cons_self ..))
    decide

/-- Asked for twice, the name comes back without its last byte. -/
theorem longName_cut :
    (∀ uid name, longName uid = some name → name.length ≤ 31) ∧ ¬ NamesUsers longName [1000, 1000] := by
  refine ⟨longName_short, fun named => ?_⟩
  exact absurd named.names (by decide)

end SystemProgramming.ProcessTree
