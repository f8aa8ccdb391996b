import SystemProgramming.Dictionary.WholeFile
import SystemProgramming.Lib.Run

/-! # The dictionary file while lookup5 uses it

`my_connect` resizes the file on the disk to the size of the mapping before it maps it; the mapping is
private. A process that connects, looks words up and disconnects is a run here, and one that reads what is
not mapped is killed.
-/

namespace SystemProgramming.Dictionary.Disk

open Lib Lookup5 WholeFile

inductive Phase where
  | fresh
  | connected (memory : List UInt8) (dictLen : ℕ)
  | closed
  | killed

structure State where
  disk : List UInt8
  phase : Phase
  answers : List (Result × Dictrec)

def start (file : List UInt8) : State := ⟨file, .fresh, []⟩

inductive Event where
  | connect
  | lookup (sought : Dictrec)
  | disconnect

def step (behind : List Dictrec) (s : State) : Event → Option State
  | .connect =>
    match s.phase with
    | .fresh =>
      let phase :=
        match (Mapped.myConnect s.disk behind).result with
        | some (memory, dictLen) => .connected memory dictLen
        | none => .killed
      some { s with disk := (Field.init mapSize s.disk).bytes, phase := phase }
    | _ => none
  | .lookup sought =>
    match s.phase with
    | .connected memory dictLen =>
      match (Mapped.lookup memory dictLen sought).result with
      | some answer => some { s with answers := s.answers ++ [answer] }
      | none => some { s with phase := .killed }
    | _ => none
  | .disconnect =>
    match s.phase with
    | .connected _ _ => some { s with phase := .closed }
    | _ => none

/-- The records stay on the disk, and each is found, also behind other calls of `lookup`. -/
structure Harmless (behind : List Dictrec) (records : List Record) : Prop where
  unchanged : ∀ s, Reachable (step behind) (start (fileOf records)) s → fileOf records <+: s.disk
  found : ∀ record ∈ records, ∀ text (before : List Dictrec), ∃ s,
    exec (step behind) (start (fileOf records))
      (.connect :: before.map .lookup ++ [.lookup ⟨record.word, text⟩]) = some s ∧
    s.answers.getLast? = some (.found, ⟨record.word, record.text⟩)

section

variable {records : List Record} {behind : List Dictrec} {table : Table} {s t : State} {e : Event}
  {text : Field textSize}

/-- The state behind `my_connect`. -/
def connected (records : List Record) (table : Table) (answers : List (Result × Dictrec)) : State :=
  ⟨(Field.init mapSize (fileOf records)).bytes, .connected table.memory table.len, answers⟩

theorem step_connect_none (none : initDictTable (fileOf records) behind = none) :
    step behind (start (fileOf records)) .connect =
      some ⟨(Field.init mapSize (fileOf records)).bytes, .killed, []⟩ := by
  have result := (Mapped.myConnect_spec (fileOf records) behind).1
  rw [none] at result
  simp [step, start, result]

/-- Only the first call changes the file, and it resizes it. -/
theorem disk_of_step (taken : step behind s e = some t) : t.phase ≠ .fresh ∧
    (t.disk = s.disk ∨ s.phase = .fresh ∧ t.disk = (Field.init mapSize s.disk).bytes) := by
  obtain ⟨disk, phase, answers⟩ := s
  cases e with
  | connect =>
    cases phase with
    | fresh =>
      cases taken
      refine ⟨?_, .inr ⟨rfl, rfl⟩⟩
      dsimp only
      split <;> simp
    | _ => cases taken
  | lookup sought =>
    cases phase with
    | connected memory dictLen =>
      cases found : (Mapped.lookup memory dictLen sought).result with
      | some answer =>
        simp only [step, found, Option.some.injEq] at taken
        subst taken
        exact ⟨by simp, .inl rfl⟩
      | none =>
        simp only [step, found, Option.some.injEq] at taken
        subst taken
        exact ⟨by simp, .inl rfl⟩
    | _ => cases taken
  | disconnect =>
    cases phase with
    | connected memory dictLen =>
      cases taken
      exact ⟨by simp, .inl rfl⟩
    | _ => cases taken

/-- The file is as it was, or it has been extended with zeros. -/
theorem unchanged (room : records.length ≤ capacity) (reached : Reachable (step behind) (start (fileOf records)) s) :
    fileOf records <+: s.disk := by
  have fits : (fileOf records).length ≤ mapSize := by
    have size : capacity * recordSize = mapSize := by decide
    rw [length_fileOf, ← size]
    exact Nat.mul_le_mul_right _ room
  suffices whole : (s.phase = .fresh → s.disk = fileOf records) ∧ fileOf records <+: s.disk from whole.2
  apply reached.invariant (I := fun s => (s.phase = .fresh → s.disk = fileOf records) ∧ fileOf records <+: s.disk)
  · rintro s e t ⟨same, kept⟩ taken
    obtain ⟨used, disk | ⟨fresh, disk⟩⟩ := disk_of_step taken
    · exact ⟨fun again => absurd again used, disk ▸ kept⟩
    · refine ⟨fun again => absurd again used, ?_⟩
      rw [disk, same fresh, Field.init_bytes fits]
      exact List.prefix_append _ _
  · exact ⟨fun _ => rfl, List.prefix_refl _⟩

/-- The text of the first record with the word is what `lookup` returns. -/
theorem lookup_word (loaded : initDictTable (fileOf records) behind = some table) (room : records.length ≤ capacity)
    {record first : Record} (word : record.word.string = first.word.string)
    (there : records.find? (fun other => first.word.string = other.word.string) = some first) :
    Lookup5.lookup table ⟨record.word, text⟩ = (.found, ⟨record.word, first.text⟩) := by
  rw [← word, ← List.take_of_length_le room] at there
  obtain ⟨i, found, stored⟩ := first_of_visible loaded there
  have sought : WholeFile.first table (⟨record.word, text⟩ : Dictrec).word.string = some i := found
  rw [lookup_of_first_some sought, stored]

/-- The process looks for its records, so it was not killed before. -/
theorem connects (harmless : Harmless behind records) {record : Record} (member : record ∈ records) :
    ∃ table, initDictTable (fileOf records) behind = some table := by
  cases loaded : initDictTable (fileOf records) behind with
  | some table => exact ⟨table, rfl⟩
  | none =>
    obtain ⟨s, ran, -⟩ := harmless.found record member record.text []
    obtain ⟨middle, taken, later⟩ := exec_cons_eq_some.mp ran
    cases (step_connect_none loaded).symm.trans taken
    cases later

end

end SystemProgramming.Dictionary.Disk
