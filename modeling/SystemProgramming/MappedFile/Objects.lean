import SystemProgramming.MappedFile.Model

/-! # What the functions leave of an object

An object that is in use refers to an open file, has a null pointer exactly when its length is zero and
otherwise points to a mapping of that length. Each of the three functions keeps this for its object and
moves no pointer but its own, so the other objects keep it as well.
-/

namespace SystemProgramming.MappedFile

open Lib

variable {ν : Type} {w w' : World ν} {this sm : SM} {name : ν} {owner : ℕ}

structure Consistent (w : World ν) (this : SM) (name : ν) (owner : ℕ) : Prop where
  opened : w.fds.get this.fd = some name
  null : this.ptr = none ↔ this.len = 0
  mapped : ∀ p, this.ptr = some p → w.maps p = some ⟨name, this.len, owner⟩

/-- The mappings before and after a pointer has moved: where it pointed before, `kept` tells whether the
mapping is still there. -/
structure Moves (kept : Bool) (old new : Option ℕ) (before after : ℕ → Option (Mapping ν ℕ)) : Prop where
  others : ∀ q, old ≠ some q → new ≠ some q → after q = before q
  free : ∀ q, new = some q → old = some q ∨ before q = none
  left : ∀ q, old = some q → new ≠ some q → after q = if kept then before q else none

theorem Moves.refl (kept : Bool) (before : ℕ → Option (Mapping ν ℕ)) : Moves kept none none before before where
  others _ _ _ := rfl
  free _ same := nomatch same
  left _ same := nomatch same

/-- An object keeps its mapping while the pointer of another one moves. -/
theorem Consistent.frame {kept : Bool} {old new : Option ℕ} (whole : Consistent w sm name owner)
    (moves : Moves kept old new w.maps w'.maps) (other : ∀ p, old = some p → sm.ptr ≠ some p)
    (opened : w'.fds.get sm.fd = some name) : Consistent w' sm name owner where
  opened := opened
  null := whole.null
  mapped p here := by
    have before := whole.mapped p here
    rw [moves.others p (fun same => other p same here), before]
    intro same
    rcases moves.free p same with was | empty
    · exact other p was here
    · rw [before] at empty
      cases empty

/-- Two objects never point to one mapping. -/
theorem Consistent.apart {name' : ν} {owner' : ℕ} (whole : Consistent w this name owner)
    (also : Consistent w sm name' owner') (different : owner ≠ owner') :
    ∀ p, this.ptr = some p → sm.ptr ≠ some p := by
  intro p here there
  have same := (whole.mapped p here).symm.trans (also.mapped p there)
  rw [Option.some.injEq, Mapping.mk.injEq] at same
  exact different same.2.2

theorem moves_update {address : ℕ} (mapping : Mapping ν ℕ) (free : w.maps address = none) (kept : Bool) :
    Moves kept none (some address) w.maps (Function.update w.maps address (some mapping)) where
  others q _ other := Function.update_of_ne (fun same => other (congrArg some same.symm)) ..
  free q same := .inr (by cases same; exact free)
  left _ same := nomatch same

/-- A mapping that is moved, or stays where it is. -/
theorem moves_remap {maps : ℕ → Option (Mapping ν ℕ)} {old address : ℕ} (mapping : Mapping ν ℕ)
    (free : address = old ∨ maps address = none) :
    Moves false (some old) (some address) maps
      (Function.update (Function.update maps old none) address (some mapping)) where
  others q notOld notNew := by
    rw [Function.update_of_ne (fun same => notNew (congrArg some same.symm)),
      Function.update_of_ne (fun same => notOld (congrArg some same.symm))]
  free q same := by
    cases same
    exact free.imp (fun same => congrArg some same.symm) id
  left q was notNew := by
    cases was
    rw [Function.update_of_ne (fun same => notNew (congrArg some same.symm)), Function.update_self]
    rfl

/-- A pointer that is forgotten. -/
theorem moves_forget (old : Option ℕ) (before : ℕ → Option (Mapping ν ℕ)) : Moves true old none before before where
  others _ _ _ := rfl
  free _ same := nomatch same
  left _ _ _ := rfl

section

variable [DecidableEq ν]

/-- The content of a file after `open`. -/
def opening (w : World ν) (name : ν) (flag : Space.Flag) : List UInt8 :=
  if flag.trunc then [] else (w.files name).getD []

theorem newSm_ensures (w : World ν) (name : ν) (flag : Space.Flag) (owner address : ℕ) :
    Ensures (fun made => Consistent made.2 made.1 name owner ∧ made.1.len = (opening w name flag).length ∧
      made.1.fd = w.fds.lowest ∧ made.2.fds = w.fds.install name ∧
      made.2.files = Function.update w.files name (some (opening w name flag)) ∧
      Moves false none made.1.ptr w.maps made.2.maps) (newSm w name flag owner address) := by
  apply Ensures.bind (Space.openFile_ensures name flag)
  rintro _ rfl
  have opened : (w.fds.install name).get w.fds.lowest = some name := if_pos rfl
  apply Ensures.bind (Space.fstat_ensures w.fds.lowest)
  rintro size ⟨name', content, here, there, rfl⟩
  obtain rfl : name = name' := Option.some.inj (opened.symm.trans here)
  obtain rfl : opening w name flag = content :=
    Option.some.inj ((Function.update_self name (some (opening w name flag)) w.files).symm.trans there)
  dsimp only
  by_cases empty : (opening w name flag).length = 0
  · rw [if_pos empty]
    exact Ensures.ok ⟨⟨opened, by simp [empty], fun _ same => nomatch same⟩, rfl, rfl, rfl, rfl,
      Moves.refl false w.maps⟩
  · rw [if_neg empty]
    apply Ensures.bind (Space.mmap_ensures _ _ address owner)
    rintro _ ⟨free, -, name', here, rfl⟩
    obtain rfl : name = name' := Option.some.inj (opened.symm.trans here)
    refine Ensures.ok ⟨⟨opened, by simp [empty], ?_⟩, rfl, rfl, rfl, rfl, moves_update _ free false⟩
    rintro _ ⟨⟩
    exact Function.update_self ..

theorem setLen_ensures (whole : Consistent w this name owner) (s address : ℕ) :
    Ensures (fun done => Consistent done.2 done.1 name owner ∧ done.1.len = s ∧ done.1.fd = this.fd ∧
      done.2.fds = w.fds ∧
      (∃ content, w.files name = some content ∧
        done.2.files = Function.update w.files name (some (Space.resize content s))) ∧
      Moves (s = 0) this.ptr done.1.ptr w.maps done.2.maps) (setLen w this s owner address) := by
  apply Ensures.bind (Space.ftruncate_ensures this.fd s)
  rintro w₁ ⟨name', content, here, there, rfl⟩
  obtain rfl : name = name' := Option.some.inj (whole.opened.symm.trans here)
  cases pointer : this.ptr with
  | none =>
    dsimp only
    split_ifs with empty
    · refine Ensures.ok ⟨⟨here, by simp [empty], fun _ same => nomatch same⟩, rfl, rfl, rfl,
        ⟨content, there, rfl⟩, Moves.refl _ w.maps⟩
    · apply Ensures.bind (Space.mmap_ensures s this.fd address owner)
      rintro _ ⟨free, -, name', also, rfl⟩
      obtain rfl : name = name' := Option.some.inj (here.symm.trans also)
      refine Ensures.ok ⟨⟨here, by simp [empty], ?_⟩, rfl, rfl, rfl, ⟨content, there, rfl⟩,
        moves_update _ free _⟩
      rintro _ ⟨⟩
      exact Function.update_self ..
  | some old =>
    dsimp only
    split_ifs with empty
    · rw [decide_eq_true empty]
      exact Ensures.ok ⟨⟨here, by simp [empty], fun _ same => nomatch same⟩, rfl, rfl, rfl,
        ⟨content, there, rfl⟩, moves_forget (some old) w.maps⟩
    · have mapped := whole.mapped old pointer
      let resized : World ν :=
        { w with files := Function.update w.files name (some (Space.resize content s)) }
      apply Ensures.bind (Space.mremap_ensures (s := resized) mapped (Eq.refl this.len) s address)
      rintro _ ⟨free, -, rfl⟩
      rw [decide_eq_false empty]
      refine Ensures.ok ⟨⟨here, by simp [empty], ?_⟩, rfl, rfl, rfl, ⟨content, there, rfl⟩,
        moves_remap _ free⟩
      rintro _ ⟨⟩
      exact Function.update_self ..

end

theorem deleteSm_ensures (whole : Consistent w this name owner) :
    Ensures (fun after => after.files = w.files ∧
      after.fds = (if this.ptr = none then w.fds else w.fds.close this.fd) ∧
      Moves false this.ptr none w.maps after.maps) (deleteSm w (some this)) := by
  obtain ⟨fd, ptr, len⟩ := this
  cases ptr with
  | none => exact Ensures.ok ⟨rfl, rfl, Moves.refl false w.maps⟩
  | some p =>
    have mapped : (w.close fd).maps p = some ⟨name, len, owner⟩ := whole.mapped p rfl
    rw [deleteSm, Space.munmap_eq mapped rfl]
    refine Ensures.ok ⟨rfl, rfl, ?_⟩
    constructor
    · intro q other _
      exact Function.update_of_ne (fun same => other (congrArg some same.symm)) ..
    · intro q same
      cases same
    · rintro q ⟨⟩ _
      exact Function.update_self ..

end SystemProgramming.MappedFile
