import SystemProgramming.Lib.Descriptor
import SystemProgramming.Lib.Update

/-! # Files and shared mappings

Files by their name, the descriptors that refer to them and the `MAP_SHARED` mappings of them. A
mapping has no bytes of its own: within the length of the file a load reads the file and a store
writes it. Memory is mapped in whole pages, so an access can also hit what lies behind the length
of the mapping or of the file. The addresses of mappings are the kernel's choice. A system call can
be refused; what the calls leave open, such as an access to a page that is not mapped, is no result
either.
-/

namespace SystemProgramming.Lib

inductive Failure
  | refused
  | undefined
  deriving DecidableEq

/-- No step is undefined, and unless a call is refused there is a result, with this property. -/
def Ensures {α : Type} (P : α → Prop) (x : Except Failure α) : Prop :=
  x ≠ .error .undefined ∧ ∀ a, x = .ok a → P a

namespace Ensures

variable {α β : Type} {P : α → Prop} {Q : β → Prop} {x : Except Failure α} {f : α → Except Failure β}

theorem refused : Ensures P (.error .refused) := by
  constructor
  · intro same
    cases same
  · intro _ same
    cases same

theorem ok {a : α} (holds : P a) : Ensures P (.ok a) := by
  constructor
  · intro same
    cases same
  · rintro _ ⟨⟩
    exact holds

theorem bind (first : Ensures P x) (rest : ∀ a, P a → Ensures Q (f a)) : Ensures Q (x >>= f) := by
  cases x with
  | ok a => exact rest a (first.2 a rfl)
  | error failure =>
    constructor
    · intro same
      apply first.1
      cases same
      rfl
    · intro b same
      cases same

theorem mono {R : α → Prop} (first : Ensures P x) (weaker : ∀ a, P a → R a) : Ensures R x :=
  ⟨first.1, fun a same => weaker a (first.2 a same)⟩

theorem map {g : α → β} (first : Ensures P x) (rest : ∀ a, P a → Q (g a)) : Ensures Q (x.map g) := by
  cases x with
  | ok a => exact ok (rest a (first.2 a rfl))
  | error failure =>
    constructor
    · intro same
      apply first.1
      cases same
      rfl
    · intro b same
      cases same

theorem of_toOption {a : α} (ensured : Ensures P x) (result : x.toOption = some a) : P a := by
  cases x with
  | ok b =>
    cases result
    exact ensured.2 a rfl
  | error failure => cases result

end Ensures

structure Mapping (ν κ : Type) where
  file : ν
  length : ℕ
  /-- For whom it was made; no call looks at it. -/
  owner : κ

structure Space (ν κ : Type) where
  files : ν → Option (List UInt8)
  fds : FdTable ν
  maps : ℕ → Option (Mapping ν κ)

namespace Space

variable {ν κ : Type} (s : Space ν κ)

/-- `O_CREAT` makes a file that does not exist, `O_TRUNC` empties one that does. -/
structure Flag where
  creat : Bool
  trunc : Bool

def openFile [DecidableEq ν] (name : ν) (flag : Flag) : Except Failure (ℕ × Space ν κ) :=
  match s.files name with
  | some content =>
    let content := if flag.trunc then [] else content
    .ok (s.fds.lowest, { s with
      files := Function.update s.files name (some content)
      fds := s.fds.install name })
  | none =>
    if flag.creat then
      .ok (s.fds.lowest, { s with
        files := Function.update s.files name (some [])
        fds := s.fds.install name })
    else .error .refused

/-- The file behind a descriptor, with its content. -/
def behind (fd : ℕ) : Except Failure (ν × List UInt8) :=
  match (s.fds.get fd).bind fun name => (s.files name).map fun content => (name, content) with
  | none => .error .refused
  | some file => .ok file

/-- The size `fstat` reports. -/
def fstat (fd : ℕ) : Except Failure ℕ :=
  (s.behind fd).map fun file => file.2.length

def close (fd : ℕ) : Space ν κ := { s with fds := s.fds.close fd }

/-- The common part stays, and zeros fill what the file grows by. -/
def resize (content : List UInt8) (size : ℕ) : List UInt8 :=
  (content ++ List.replicate (size - content.length) 0).take size

def ftruncate [DecidableEq ν] (fd size : ℕ) : Except Failure (Space ν κ) :=
  (s.behind fd).map fun file =>
    { s with files := Function.update s.files file.1 (some (resize file.2 size)) }

/-- A new mapping of the whole length, at a free address. -/
def mmap (length fd address : ℕ) (owner : κ) : Except Failure (ℕ × Space ν κ) :=
  match s.behind fd, s.maps address with
  | .error failure, _ => .error failure
  | .ok _, some _ => .error .refused
  | .ok file, none =>
    if length = 0 then .error .refused
    else .ok (address, { s with maps := Function.update s.maps address (some ⟨file.1, length, owner⟩) })

/-- The mapping gets another length, at its address or at a free one; it stays tied to its file. Less
than the whole mapping is not resized here. -/
def mremap (old length size address : ℕ) : Except Failure (ℕ × Space ν κ) :=
  match s.maps old with
  | none => .error .refused
  | some mapping =>
    if mapping.length ≠ length then .error .undefined
    else if size = 0 then .error .refused
    else if address ≠ old ∧ (s.maps address).isSome then .error .refused
    else .ok (address, { s with
      maps := Function.update (Function.update s.maps old none) address (some { mapping with length := size }) })

/-- The whole mapping at an address is removed; where there is none, nothing happens. -/
def munmap (address length : ℕ) : Except Failure (Space ν κ) :=
  match s.maps address with
  | none => .ok s
  | some mapping =>
    if mapping.length ≠ length then .error .undefined
    else .ok { s with maps := Function.update s.maps address none }

/-! ## Access through a pointer -/

def pageSize : ℕ := 4096

/-- The end of the page with the last byte. -/
def pageEnd (length : ℕ) : ℕ := (length + pageSize - 1) / pageSize * pageSize

/-- The file a pointer points into and its content, if byte `i` is on a page of the mapping and of the
file. -/
def seen (pointer : Option ℕ) (i : ℕ) : Option (ν × List UInt8) := do
  let mapping ← s.maps (← pointer)
  let content ← s.files mapping.file
  if i < pageEnd mapping.length ∧ i < pageEnd content.length then some (mapping.file, content) else none

/-- On the last page of the file, what is behind its end is left open. -/
def loadByte (pointer : Option ℕ) (i : ℕ) : Except Failure (Option UInt8) :=
  match s.seen pointer i with
  | none => .error .undefined
  | some (_, content) => .ok content[i]?

/-- What is stored behind the end of the file does not get into it. -/
def storeByte [DecidableEq ν] (pointer : Option ℕ) (i : ℕ) (byte : UInt8) : Except Failure (Space ν κ) :=
  match s.seen pointer i with
  | none => .error .undefined
  | some (name, content) => .ok { s with files := Function.update s.files name (some (content.set i byte)) }

/-- Byte after byte, from the first one on. -/
def memcpy [DecidableEq ν] (dest source : Option ℕ) : ℕ → Except Failure (Space ν κ)
  | 0 => .ok s
  | n + 1 => do
    let s ← memcpy dest source n
    match ← s.loadByte source n with
    | none => .error .undefined
    | some byte => s.storeByte dest n byte

section

variable {s}

/-! ## What a call does that is not refused -/

theorem behind_ensures (fd : ℕ) :
    Ensures (fun file => s.fds.get fd = some file.1 ∧ s.files file.1 = some file.2) (s.behind fd) := by
  rw [behind]
  cases found : (s.fds.get fd).bind fun name => (s.files name).map fun content => (name, content) with
  | none => exact .refused
  | some file =>
    obtain ⟨name, opened, there⟩ := Option.bind_eq_some_iff.mp found
    obtain ⟨content, stored, rfl⟩ := Option.map_eq_some_iff.mp there
    exact .ok ⟨opened, stored⟩

theorem fstat_ensures (fd : ℕ) :
    Ensures (fun size => ∃ name content, s.fds.get fd = some name ∧ s.files name = some content ∧
      content.length = size) (s.fstat fd) := by
  apply (behind_ensures fd).map
  intro file here
  exact ⟨file.1, file.2, here.1, here.2, rfl⟩

theorem mmap_ensures (length fd address : ℕ) (owner : κ) :
    Ensures (fun result => s.maps address = none ∧ 0 < length ∧ ∃ name, s.fds.get fd = some name ∧
      result = (address, { s with maps := Function.update s.maps address (some ⟨name, length, owner⟩) }))
      (s.mmap length fd address owner) := by
  rw [mmap]
  have file := behind_ensures (s := s) fd
  cases found : s.behind fd with
  | error failure =>
    rw [found] at file
    cases failure with
    | refused => exact .refused
    | undefined => exact absurd rfl file.1
  | ok here =>
    cases free : s.maps address with
    | some taken => exact .refused
    | none =>
      dsimp only
      split_ifs with empty
      · exact .refused
      · exact .ok ⟨rfl, Nat.pos_of_ne_zero empty, here.1, (file.2 here found).1, rfl⟩

/-- A pointer to a whole mapping of the given length can be resized. -/
theorem mremap_ensures {old length : ℕ} {mapping : Mapping ν κ} (mapped : s.maps old = some mapping)
    (whole : mapping.length = length) (size address : ℕ) :
    Ensures (fun result => (address = old ∨ s.maps address = none) ∧ 0 < size ∧
      result = (address, { s with
        maps := Function.update (Function.update s.maps old none) address
          (some { mapping with length := size }) }))
      (s.mremap old length size address) := by
  rw [mremap, mapped]
  dsimp only
  rw [if_neg (not_not_intro whole)]
  split_ifs with empty taken
  · exact .refused
  · exact .refused
  · rw [not_and_or, not_not, Option.not_isSome_iff_eq_none] at taken
    exact .ok ⟨taken, Nat.pos_of_ne_zero empty, rfl⟩

theorem munmap_eq {address length : ℕ} {mapping : Mapping ν κ} (mapped : s.maps address = some mapping)
    (whole : mapping.length = length) :
    s.munmap address length = .ok { s with maps := Function.update s.maps address none } := by
  rw [munmap, mapped]
  exact if_neg (not_not_intro whole)

variable [DecidableEq ν]

theorem ftruncate_ensures (fd size : ℕ) :
    Ensures (fun t => ∃ name content, s.fds.get fd = some name ∧ s.files name = some content ∧
      t = { s with files := Function.update s.files name (some (resize content size)) })
      (s.ftruncate fd size) := by
  apply (behind_ensures fd).map
  intro file here
  exact ⟨file.1, file.2, here.1, here.2, rfl⟩

theorem openFile_ensures (name : ν) (flag : Flag) :
    Ensures (fun result => result = (s.fds.lowest, { s with
      files := Function.update s.files name (some (if flag.trunc then [] else (s.files name).getD []))
      fds := s.fds.install name }))
      (s.openFile name flag) := by
  rw [openFile]
  cases there : s.files name with
  | some content => exact .ok rfl
  | none =>
    dsimp only
    split_ifs
    · exact .ok (by simp)
    · exact .refused
    · exact .ok (by simp)
    · exact .refused

end

/-! ## Copying through mappings -/

section

variable {s} {pointer i : ℕ} {mapping : Mapping ν κ} {content : List UInt8}

theorem set_take_append_drop {before : List UInt8} {n : ℕ} (source : n < content.length)
    (target : n < before.length) :
    (content.take n ++ before.drop n).set n content[n] = content.take (n + 1) ++ before.drop (n + 1) := by
  have front : (content.take n).length = n := by rw [List.length_take]; omega
  rw [List.set_append_right _ _ (by omega), front, Nat.sub_self, List.drop_eq_getElem_cons target,
    List.set_cons_zero, List.take_succ_eq_append_getElem source, List.append_assoc]
  rfl

theorem lt_pageEnd {length : ℕ} (inside : i < length) : i < pageEnd length := by
  simp only [pageEnd, pageSize]
  omega

theorem seen_eq (mapped : s.maps pointer = some mapping) (there : s.files mapping.file = some content)
    (inside : i < mapping.length) (short : i < content.length) :
    s.seen (some pointer) i = some (mapping.file, content) := by
  simp [seen, mapped, there, lt_pageEnd inside, lt_pageEnd short]

theorem loadByte_eq (mapped : s.maps pointer = some mapping) (there : s.files mapping.file = some content)
    (inside : i < mapping.length) (short : i < content.length) :
    s.loadByte (some pointer) i = .ok (some content[i]) := by
  rw [loadByte, seen_eq mapped there inside short]
  exact congrArg _ (List.getElem?_eq_getElem short)

variable [DecidableEq ν]

theorem storeByte_eq (mapped : s.maps pointer = some mapping) (there : s.files mapping.file = some content)
    (inside : i < mapping.length) (short : i < content.length) (byte : UInt8) :
    s.storeByte (some pointer) i byte =
      .ok { s with files := Function.update s.files mapping.file (some (content.set i byte)) } := by
  rw [storeByte, seen_eq mapped there inside short]

/-- After `n` bytes the target has the first `n` of the source, also when both are one file: then each
byte is copied to itself. -/
theorem memcpy_eq {source dest : ℕ} {from' into : Mapping ν κ} {before : List UInt8}
    (sourceMapped : s.maps source = some from') (destMapped : s.maps dest = some into)
    (sourceThere : s.files from'.file = some content) (destThere : s.files into.file = some before)
    (same : content.length = before.length) {n : ℕ} (inside : n ≤ content.length)
    (sourceLong : n ≤ from'.length) (destLong : n ≤ into.length) :
    s.memcpy (some dest) (some source) n = .ok { s with
      files := Function.update s.files into.file (some (content.take n ++ before.drop n)) } := by
  induction n with
  | zero =>
    rw [memcpy, List.take_zero, List.nil_append, List.drop_zero, ← destThere, Function.update_eq_self]
  | succ n ih =>
    rw [memcpy, ih (by omega) (by omega) (by omega)]
    let copied := content.take n ++ before.drop n
    let now : Space ν κ := { s with files := Function.update s.files into.file (some copied) }
    change (now.loadByte (some source) n >>= fun byte? => match byte? with
      | none => .error .undefined
      | some byte => now.storeByte (some dest) n byte) = _
    have sourceNow : now.files from'.file = some content := by
      change Function.update s.files into.file (some copied) from'.file = some content
      rw [Function.update_apply]
      split_ifs with one
      · rw [one, destThere, Option.some.injEq] at sourceThere
        subst sourceThere
        exact congrArg some (List.take_append_drop n before)
      · exact sourceThere
    have destNow : now.files into.file = some copied := Function.update_self ..
    have long : n < copied.length := by
      rw [List.length_append, List.length_take, List.length_drop]
      omega
    have loaded : now.loadByte (some source) n = .ok (some content[n]) :=
      loadByte_eq (s := now) sourceMapped sourceNow (by omega) (by omega)
    have stored := storeByte_eq (s := now) destMapped destNow (by omega) long content[n]
    rw [loaded]
    change now.storeByte (some dest) n content[n] = _
    rw [stored, set_take_append_drop (by omega) (by omega)]
    change Except.ok { s with files := Function.update (Function.update s.files _ _) _ _ } = _
    rw [Function.update_idem]

end

end Space

end SystemProgramming.Lib
