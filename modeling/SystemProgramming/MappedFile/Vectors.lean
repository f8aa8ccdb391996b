import SystemProgramming.MappedFile.Copy
import SystemProgramming.MappedFile.Lifetime

/-! # Files that are used as byte vectors

What `struct SM` is for: the bytes of a file, read and written through `ptr` up to `len`. A program makes, sizes
and deletes objects and uses their bytes; several objects may be of one file. On the level of the vectors there are
no descriptors, mappings and addresses. A byte behind the end of the file, which another object has made shorter, is
no byte of the vector. The pages of the mapping have more bytes than the vector; a program must not use those.
-/

namespace SystemProgramming.MappedFile

open Lib

variable {ν : Type}

/-- What a program does with its objects: a call, or a byte it reads or writes. -/
inductive Use (ν : Type) where
  | call (e : Event ν)
  | load (i k : ℕ) (byte : UInt8)
  | store (i k : ℕ) (byte : UInt8)

def Use.access : Use ν → Bool
  | .call _ => false
  | .load _ _ _ => true
  | .store _ _ _ => true

/-- `ptr[k]`, of an object in use. A byte that is left open can be read as any. -/
def useStep [DecidableEq ν] (st : State ν) : Use ν → Option (State ν)
  | .call e => step st e
  | .load i k byte => do
    let found ← (st.world.loadByte (st.pointer i) k).toOption
    if found.getD byte = byte then some st else none
  | .store i k byte => do
    let w ← (st.world.storeByte (st.pointer i) k byte).toOption
    some { st with world := w }

/-- Each object has the name of its file and its length. -/
@[ext]
structure Vectors (ν : Type) where
  files : ν → Option (List UInt8)
  object : ℕ → Option (ν × ℕ)
  made : ℕ

namespace Vectors

/-- The file of an object and its bytes, up to the length of the object. -/
def bytes (v : Vectors ν) (i : ℕ) : Option (ν × List UInt8) := do
  let (name, len) ← v.object i
  let content ← v.files name
  some (name, content.take len)

def len (v : Vectors ν) (i : ℕ) : ℕ :=
  match v.bytes i with
  | none => 0
  | some (_, content) => content.length

/-- The byte that is used is one of the vector. -/
def Has (v : Vectors ν) : Use ν → Prop
  | .call _ => True
  | .load i k _ | .store i k _ => k < v.len i

instance (v : Vectors ν) (u : Use ν) : Decidable (v.Has u) :=
  match u with
  | .call _ => isTrue trivial
  | .load i k _ => inferInstanceAs (Decidable (k < v.len i))
  | .store i k _ => inferInstanceAs (Decidable (k < v.len i))

variable [DecidableEq ν]

def step (v : Vectors ν) : Use ν → Option (Vectors ν)
  | .call (.newSm name flag _) =>
    if (v.files name).isSome ∨ flag.creat then
      let content := if flag.trunc then [] else (v.files name).getD []
      some ⟨Function.update v.files name (some content),
        Function.update v.object v.made (some (name, content.length)), v.made + 1⟩
    else none
  | .call (.setLen i s _) => do
    let (name, _) ← v.object i
    let content ← v.files name
    some { v with
      files := Function.update v.files name (some (Space.resize content s))
      object := Function.update v.object i (some (name, s)) }
  | .call (.deleteSm i) => do
    let _ ← v.object i
    some { v with object := Function.update v.object i none }
  | .load i k byte => do
    let (_, content) ← v.bytes i
    if content[k]? = some byte then some v else none
  | .store i k byte => do
    let (name, content) ← v.bytes i
    if k < content.length then
      some { v with files := Function.update v.files name ((v.files name).map fun whole => whole.set k byte) }
    else none

end Vectors

/-- The vectors in a state of the system. -/
def State.vectors (st : State ν) : Vectors ν where
  files := st.world.files
  object i := (st.live i).bind fun sm => (st.world.fds.get sm.fd).map fun name => (name, sm.len)
  made := st.objects.length

section

variable {s t : State ν} {i k : ℕ}

theorem object_eq {this : SM} {name : ν} (here : s.live i = some this) (whole : Consistent s.world this name i) :
    s.vectors.object i = some (name, this.len) := by
  simp [State.vectors, here, whole.opened]

theorem object_eq_none (gone : s.live i = none) : s.vectors.object i = none := by
  simp [State.vectors, gone]

theorem Effect.object_eq {kept : Bool} (effect : Effect s t k kept) {j : ℕ} (other : j ≠ k) :
    t.vectors.object j = s.vectors.object j := by
  simp only [State.vectors, effect.others j other]
  cases here : s.live j with
  | none => rfl
  | some sm =>
    rw [Option.bind_some, Option.bind_some, effect.opened j sm other here]

/-- A byte of the vector is one of the mapping and of the file. -/
theorem Sound.mapped_of_lt (sound : Sound s) (inside : k < s.vectors.len i) :
    ∃ p mapping content, s.pointer i = some p ∧ s.world.maps p = some mapping ∧
      s.world.files mapping.file = some content ∧ k < mapping.length ∧ k < content.length ∧
      s.vectors.bytes i = some (mapping.file, content.take mapping.length) := by
  cases here : s.live i with
  | none => simp [Vectors.len, Vectors.bytes, object_eq_none here] at inside
  | some this =>
    obtain ⟨name, whole⟩ := sound.whole i this here
    have object := object_eq here whole
    cases there : s.world.files name with
    | none =>
      have gone : s.vectors.files name = none := there
      simp [Vectors.len, Vectors.bytes, object, gone] at inside
    | some content =>
      have stored : s.vectors.files name = some content := there
      have bytes : s.vectors.bytes i = some (name, content.take this.len) := by simp [Vectors.bytes, object, stored]
      have low : k < this.len ∧ k < content.length := by
        simpa only [Vectors.len, bytes, List.length_take, Nat.lt_min] using inside
      cases points : this.ptr with
      | none =>
        have empty := whole.null.mp points
        omega
      | some p =>
        refine ⟨p, _, content, ?_, whole.mapped p points, there, low.1, low.2, bytes⟩
        rw [State.pointer, here, Option.bind_some, points]

/-! ## The calls -/

variable [DecidableEq ν]

/-- `new_sm` does not come to an object of a file that is not there. -/
theorem newSm_opens {w after : World ν} {name : ν} {flag : Space.Flag} {owner address : ℕ} {sm : SM}
    (made : (newSm w name flag owner address).toOption = some (sm, after)) :
    (w.files name).isSome ∨ flag.creat = true := by
  cases there : w.files name with
  | some content => exact .inl rfl
  | none =>
    cases creat : flag.creat with
    | true => exact .inr rfl
    | false =>
      have refused : newSm w name flag owner address = .error .refused := by
        rw [newSm, Space.openFile, there]
        simp only [creat]
        rfl
      rw [refused] at made
      cases made

theorem vectors_newSm (sound : Sound s) {name : ν} {flag : Space.Flag} {address : ℕ}
    (taken : step s (.newSm name flag address) = some t) :
    s.vectors.step (.call (.newSm name flag address)) = some t.vectors := by
  have effect := effect_newSm sound taken
  obtain ⟨⟨sm, w⟩, made, same⟩ := Option.bind_eq_some_iff.mp taken
  cases same
  obtain ⟨whole, len, -, -, files, -⟩ := (newSm_ensures s.world name flag _ address).of_toOption made
  have here : State.live ⟨w, s.objects ++ [some sm]⟩ s.objects.length = some sm := by
    rw [live_append, if_pos rfl]
  have opens : (s.vectors.files name).isSome ∨ flag.creat = true := newSm_opens made
  rw [Vectors.step, if_pos opens, Option.some.injEq]
  apply Vectors.ext
  · exact files.symm
  · funext j
    by_cases same : j = s.objects.length
    · rw [same, object_eq here whole, len]
      exact Function.update_self ..
    · rw [effect.object_eq same]
      exact Function.update_of_ne same ..
  · simp [State.vectors]

theorem vectors_setLen (sound : Sound s) {n address : ℕ} (taken : step s (.setLen i n address) = some t) :
    s.vectors.step (.call (.setLen i n address)) = some t.vectors := by
  have effect := effect_setLen sound taken
  obtain ⟨this, here, rest⟩ := Option.bind_eq_some_iff.mp taken
  obtain ⟨⟨sm, w⟩, done, same⟩ := Option.bind_eq_some_iff.mp rest
  cases same
  obtain ⟨name, whole⟩ := sound.whole i this here
  obtain ⟨whole', len, -, -, ⟨content, there, files⟩, -⟩ := (setLen_ensures whole n address).of_toOption done
  have now : State.live ⟨w, s.objects.set i (some sm)⟩ i = some sm := by
    rw [live_set _ _ _ (live_lt here), if_pos rfl]
  have content_ : s.vectors.files name = some content := there
  rw [Vectors.step, object_eq here whole]
  simp only [Option.bind_eq_bind, Option.bind_some, content_, Option.some.injEq]
  apply Vectors.ext
  · exact files.symm
  · funext j
    by_cases same : j = i
    · rw [same, object_eq now whole', len]
      exact Function.update_self ..
    · rw [effect.object_eq same]
      exact Function.update_of_ne same ..
  · exact List.length_set.symm

theorem vectors_deleteSm (sound : Sound s) (taken : step s (.deleteSm i) = some t) :
    s.vectors.step (.call (.deleteSm i)) = some t.vectors := by
  have effect := effect_deleteSm sound taken
  obtain ⟨this, here, rest⟩ := Option.bind_eq_some_iff.mp taken
  obtain ⟨w, done, same⟩ := Option.bind_eq_some_iff.mp rest
  cases same
  obtain ⟨name, whole⟩ := sound.whole i this here
  obtain ⟨files, -, -⟩ := (deleteSm_ensures whole).of_toOption done
  rw [Vectors.step, object_eq here whole]
  simp only [Option.bind_eq_bind, Option.bind_some, Option.some.injEq]
  apply Vectors.ext
  · exact files.symm
  · funext j
    by_cases same : j = i
    · have gone : State.live ⟨w, s.objects.set i none⟩ i = none := by
        rw [live_set _ _ _ (live_lt here), if_pos rfl]
      rw [same]
      refine (Function.update_self i none s.vectors.object).trans ?_
      exact (object_eq_none gone).symm
    · rw [effect.object_eq same]
      exact Function.update_of_ne same ..
  · exact List.length_set.symm

/-! ## The bytes -/

omit [DecidableEq ν] in
theorem Sound.of_files (sound : Sound s) (files : ν → Option (List UInt8)) :
    Sound { s with world := { s.world with files := files } } where
  whole i this here := by
    obtain ⟨name, whole⟩ := sound.whole i this here
    exact ⟨name, whole.of_same rfl rfl⟩
  apart := sound.apart
  owned := sound.owned

/-- A byte of the vector can be read and written, and an access is one to the vector. -/
theorem vectors_access (sound : Sound s) {u : Use ν} (access : u.access = true) (has : s.vectors.Has u) :
    (useStep s u).map State.vectors = s.vectors.step u := by
  cases u with
  | call e => cases access
  | load i k byte =>
    obtain ⟨p, mapping, content, pointer, mapped, there, inside, short, bytes⟩ := sound.mapped_of_lt has
    have loaded := Space.loadByte_eq mapped there inside short
    have same : (content.take mapping.length)[k]? = some content[k] := by
      rw [List.getElem?_take_of_lt inside, List.getElem?_eq_getElem short]
    simp only [useStep, Vectors.step, pointer, loaded, bytes, same, Option.bind_eq_bind, Option.bind_some,
      Except.toOption, Option.getD_some, Option.some.injEq]
    split_ifs <;> rfl
  | store i k byte =>
    obtain ⟨p, mapping, content, pointer, mapped, there, inside, short, bytes⟩ := sound.mapped_of_lt has
    have stored := Space.storeByte_eq mapped there inside short byte
    have same : s.vectors.files mapping.file = some content := there
    have low : k < (content.take mapping.length).length := by
      rw [List.length_take]
      exact Nat.lt_min.mpr ⟨inside, short⟩
    simp only [useStep, Vectors.step, pointer, stored, bytes, same, low, Option.bind_eq_bind, Option.bind_some,
      Except.toOption, if_true, Option.map_some]
    rfl

/-- Whatever is stored, only files change. -/
theorem storeByte_files {w after : World ν} {pointer : Option ℕ} {byte : UInt8}
    (stored : (w.storeByte pointer k byte).toOption = some after) : ∃ files, after = { w with files := files } := by
  rw [Space.storeByte] at stored
  cases seen : w.seen pointer k with
  | none =>
    rw [seen] at stored
    cases stored
  | some file =>
    rw [seen] at stored
    cases stored
    exact ⟨_, rfl⟩

theorem sound_useStep (sound : Sound s) {u : Use ν} (taken : useStep s u = some t) : Sound t := by
  cases u with
  | call e => exact (effect_of_step sound taken).sound sound
  | load i k byte =>
    obtain ⟨found, -, same⟩ := Option.bind_eq_some_iff.mp taken
    split_ifs at same
    cases same
    exact sound
  | store i k byte =>
    obtain ⟨w, stored, same⟩ := Option.bind_eq_some_iff.mp taken
    cases same
    obtain ⟨files, rfl⟩ := storeByte_files stored
    exact sound.of_files files

theorem vectors_useStep (sound : Sound s) {u : Use ν} (has : s.vectors.Has u) (taken : useStep s u = some t) :
    s.vectors.step u = some t.vectors := by
  cases u with
  | call e =>
    cases e with
    | newSm name flag address => exact vectors_newSm sound taken
    | setLen i n address => exact vectors_setLen sound taken
    | deleteSm i => exact vectors_deleteSm sound taken
  | load i k byte => rw [← vectors_access sound rfl has, taken, Option.map_some]
  | store i k byte => rw [← vectors_access sound rfl has, taken, Option.map_some]

/-- Every run in which the program keeps to the bytes the vectors have is a run on vectors, which end up as the
files; and wherever it stands, each byte of a vector can be read, as it is there, and written. -/
theorem used_as_vectors {files : ν → Option (List UInt8)} {fds : FdTable ν} {us : List (Use ν)}
    (ran : exec useStep (start files fds) us = some s)
    (kept : AllSteps Vectors.step Vectors.Has ⟨files, fun _ => none, 0⟩ us) :
    exec Vectors.step ⟨files, fun _ => none, 0⟩ us = some s.vectors ∧
      ∀ u : Use ν, u.access = true → s.vectors.Has u → (useStep s u).map State.vectors = s.vectors.step u := by
  have preserved : ∀ (s : State ν) (u : Use ν) (t : State ν), Sound s → useStep s u = some t → Sound t :=
    fun _ _ _ sound taken => sound_useStep sound taken
  have follows : ∀ (s : State ν) (u : Use ν) (t : State ν), Sound s → s.vectors.Has u → useStep s u = some t →
      s.vectors.step u = some t.vectors := fun _ _ _ sound has taken => vectors_useStep sound has taken
  have first := sound_start files fds
  constructor
  · exact exec_refines_of_allSteps preserved follows ran kept first
  · intro u access has
    exact vectors_access (exec_invariant preserved ran first) access has

end

/-- Two objects of one file: a byte that is written through the first is read through the second. -/
theorem used_as_vectors_twice :
    let st : State Unit := start (fun _ => some [1, 2, 3]) ⟨fun _ => none, 0, fun _ _ => rfl⟩
    let us : List (Use Unit) := [.call (.newSm () ⟨false, false⟩ 4096), .call (.newSm () ⟨false, false⟩ 8192),
      .store 0 1 7, .load 1 1 7]
    ∃ s, exec useStep st us = some s ∧
      exec Vectors.step ⟨fun _ => some [1, 2, 3], fun _ => none, 0⟩ us = some s.vectors := by
  intro st us
  have ends : (exec useStep st us).isSome = true := by decide
  obtain ⟨s, ran⟩ := Option.isSome_iff_exists.mp ends
  exact ⟨s, ran, (used_as_vectors ran (by decide)).1⟩

end SystemProgramming.MappedFile
