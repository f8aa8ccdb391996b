import SystemProgramming.MappedFile.Objects

/-! # Copying a file through two mappings

The target is brought to the length of the source before the bytes are copied, so both mappings cover
what is copied. Nothing depends on the two files being different: where they are one, the length stays
as it is and each byte is copied to itself.
-/

namespace SystemProgramming.MappedFile

open Lib

variable {ν : Type} {w w' : World ν} {src dst : SM} {source target : ν} {content : List UInt8}

theorem length_resize (before : List UInt8) (size : ℕ) : (Space.resize before size).length = size := by
  rw [Space.resize, List.length_take, List.length_append, List.length_replicate]
  omega

theorem resize_length (content : List UInt8) : Space.resize content content.length = content := by
  rw [Space.resize, Nat.sub_self, List.replicate_zero, List.append_nil, List.take_length]

/-- Opening without `O_TRUNC` leaves the files as they are. -/
theorem opening_eq (there : w.files source = some content) (creat : Bool) :
    opening w source ⟨creat, false⟩ = content := by
  rw [opening, there]
  rfl

/-- Only the descriptors and mappings of an object matter for it. -/
theorem Consistent.of_same {this : SM} {name : ν} {owner : ℕ} (whole : Consistent w this name owner)
    (fds : w'.fds = w.fds) (maps : w'.maps = w.maps) : Consistent w' this name owner where
  opened := by rw [fds]; exact whole.opened
  null := whole.null
  mapped p here := by rw [maps]; exact whole.mapped p here

variable [DecidableEq ν]

theorem memcpy_ensures (from' : Consistent w src source 0) (into : Consistent w dst target 1)
    (lengths : src.len = content.length ∧ dst.len = content.length)
    (sourceThere : w.files source = some content) {before : List UInt8}
    (targetThere : w.files target = some before) (same : content.length = before.length) :
    Ensures (fun after => after.files = Function.update w.files target (some content) ∧
      after.fds = w.fds ∧ after.maps = w.maps) (w.memcpy dst.ptr src.ptr src.len) := by
  cases sourcePtr : src.ptr with
  | none =>
    have empty := from'.null.mp sourcePtr
    obtain rfl : content = [] := List.length_eq_zero_iff.mp (by omega)
    obtain rfl : before = [] := List.length_eq_zero_iff.mp same.symm
    rw [empty, ← targetThere, Function.update_eq_self]
    exact Ensures.ok ⟨rfl, rfl, rfl⟩
  | some p =>
    cases targetPtr : dst.ptr with
    | none =>
      have empty := into.null.mp targetPtr
      have null := from'.null.mpr (by omega)
      rw [sourcePtr] at null
      cases null
    | some q =>
      have long : src.len ≤ dst.len := by omega
      have copied := Space.memcpy_eq (n := src.len) (from'.mapped p sourcePtr) (into.mapped q targetPtr)
        sourceThere targetThere same (by omega) (Nat.le_refl src.len) long
      rw [copied, lengths.1, List.take_length, same, List.drop_length, List.append_nil]
      exact Ensures.ok ⟨rfl, rfl, rfl⟩

/-- Whatever the target held before, and also when it is the source itself. -/
theorem main_copies (w : World ν) (argv : ν × ν) (address : ℕ → ℕ) {content : List UInt8}
    (source : w.files argv.1 = some content) :
    Ensures (fun after => after.files argv.2 = some content ∧ after.files argv.1 = some content)
      (main w argv address) := by
  apply Ensures.bind (newSm_ensures w argv.1 ⟨false, false⟩ 0 (address 0))
  rintro ⟨src, w₁⟩ ⟨fromNew, len, fd, fds, files, -⟩
  dsimp only at fromNew len fd fds files ⊢
  rw [opening_eq source] at len files
  rw [← source, Function.update_eq_self] at files
  apply Ensures.bind (newSm_ensures w₁ argv.2 ⟨true, false⟩ 1 (address 1))
  rintro ⟨dst, w₂⟩ ⟨intoNew, -, dstFd, fds₂, files₂, moves₂⟩
  dsimp only at intoNew dstFd fds₂ files₂ moves₂ ⊢
  have apart : dst.fd ≠ src.fd := by
    intro same
    have free := w₁.fds.get_lowest
    rw [← dstFd, same, fromNew.opened] at free
    cases free
  have from₂ : Consistent w₂ src argv.1 0 := by
    apply fromNew.frame moves₂ (fun p same => nomatch same)
    rw [fds₂, FdTable.get_install, if_neg (fun same => apart (dstFd.trans same.symm))]
    exact fromNew.opened
  have source₂ : w₂.files argv.1 = some content := by
    rw [files₂, Function.update_apply, files]
    split_ifs with same
    · rw [opening_eq (by rw [files, ← same, source])]
    · exact source
  apply Ensures.bind (setLen_ensures intoNew src.len (address 2))
  rintro ⟨dst', w₃⟩ ⟨into, len₃, fd₃, fds₃, ⟨before, there, files₃⟩, moves₃⟩
  dsimp only at into len₃ fd₃ fds₃ files₃ moves₃ ⊢
  rw [len] at files₃
  have from₃ : Consistent w₃ src argv.1 0 := by
    apply from₂.frame moves₃ (intoNew.apart from₂ (by decide))
    rw [fds₃]
    exact from₂.opened
  have source₃ : w₃.files argv.1 = some content := by
    rw [files₃, Function.update_apply]
    split_ifs with same
    · rw [← same, source₂, Option.some.injEq] at there
      rw [← there, resize_length]
    · exact source₂
  have target₃ : w₃.files argv.2 = some (Space.resize before content.length) := by
    rw [files₃, Function.update_self]
  apply Ensures.bind (memcpy_ensures from₃ into ⟨len, len₃.trans len⟩ source₃ target₃ (length_resize ..).symm)
  rintro w₄ ⟨files₄, fds₄, maps₄⟩
  apply Ensures.bind (deleteSm_ensures (from₃.of_same fds₄ maps₄))
  rintro w₅ ⟨files₅, fds₅, moves₅⟩
  have into₅ : Consistent w₅ dst' argv.2 1 := by
    apply (into.of_same fds₄ maps₄).frame moves₅ (from₃.apart into (by decide))
    rw [fds₅, fds₄]
    split_ifs
    · exact into.opened
    · rw [FdTable.get_close, if_neg (by rw [fd₃]; exact apart)]
      exact into.opened
  apply (deleteSm_ensures into₅).mono
  rintro after ⟨files₆, -, -⟩
  rw [files₆, files₅, files₄]
  refine ⟨Function.update_self .., ?_⟩
  rw [Function.update_apply]
  split_ifs
  · rfl
  · exact source₃

/-- Three bytes over five. -/
theorem main_copies_shorter :
    let w : World Bool := ⟨fun name => some (if name then [1, 2, 3] else [9, 8, 7, 6, 5]),
      ⟨fun _ => none, 0, fun _ _ => rfl⟩, fun _ => none⟩
    Ensures (fun after => after.files false = some [1, 2, 3] ∧ after.files true = some [1, 2, 3])
      (main w (true, false) id) ∧ (main w (true, false) id).toOption.isSome := by
  intro w
  exact ⟨main_copies w (true, false) id rfl, by decide⟩

end SystemProgramming.MappedFile
