import SystemProgramming.CharDevice.Model

/-! # Reads of one open file

What a call of `device_read` does to the file, while `msg` is what it was when the file was opened.
-/

namespace SystemProgramming.CharDevice

open Lib

/-- What a step of `device_read` does to its file. -/
inductive Advance (msg : Field bufLen) (file : File) : File → Prop where
  | rewind : file.phase = .idle → msg.bytes[file.offset]? = some 0 →
      Advance msg file { file with offset := 0, answers := file.answers ++ [[]] }
  | enter {length byte} : file.phase = .idle → 0 < length → msg.bytes[file.offset]? = some byte →
      byte ≠ 0 → Advance msg file { file with phase := .reading length file.offset 0 [] }
  | copy {length msgPtr bytesRead buffer byte} : file.phase = .reading length msgPtr bytesRead buffer →
      msg.bytes[msgPtr]? = some byte → byte ≠ 0 → length ≠ 0 →
      Advance msg file { file with
        phase := .reading (length - 1) (msgPtr + 1) (bytesRead + 1) (buffer ++ [byte]) }
  | leave {length msgPtr bytesRead buffer} : file.phase = .reading length msgPtr bytesRead buffer →
      (length = 0 ∨ msg.bytes[msgPtr]? = some 0) →
      Advance msg file { file with
        phase := .idle
        offset := file.offset + bytesRead
        answers := file.answers ++ [buffer] }

/-- The loop of `device_read` in the middle of the message. -/
structure Loop (file : File) (length msgPtr bytesRead : ℕ) (buffer : List UInt8) : Prop where
  position : msgPtr = file.offset + bytesRead
  inside : msgPtr ≤ file.told.string.length
  begun : file.offset < file.told.string.length
  copied : buffer = (file.told.string.drop file.offset).take bytesRead
  room : bytesRead = 0 → length ≠ 0

/-- The answers so far and the offset fit the message the file was opened with. -/
structure Readable (file : File) : Prop where
  fresh : file.phase = .opening → file.offset = 0 ∧ file.answers = []
  ends : file.phase ≠ .opening → 0 ∈ file.told.bytes
  within : file.offset ≤ file.told.string.length
  sofar : [] ∉ file.answers → file.answers.flatten = file.told.string.take file.offset
  whole : [] ∈ file.answers → file.readOut = file.told.string
  loop : ∀ length msgPtr bytesRead buffer, file.phase = .reading length msgPtr bytesRead buffer →
    Loop file length msgPtr bytesRead buffer

/-! ## Answers -/

section

variable {answers : List (List UInt8)} {answer : List UInt8}

/-- Answers behind the first return of 0 are not looked at. -/
theorem takeWhile_concat_of_mem (ended : [] ∈ answers) :
    (answers ++ [answer]).takeWhile (· ≠ []) = answers.takeWhile (· ≠ []) := by
  induction answers with
  | nil => simp at ended
  | cons first answers ih =>
    cases first with
    | nil => rfl
    | cons byte first =>
      have later : [] ∈ answers := by simpa using ended
      simpa using ih later

theorem takeWhile_concat_nil (open_ : [] ∉ answers) :
    (answers ++ [[]]).takeWhile (· ≠ []) = answers := by
  rw [List.takeWhile_append_of_pos]
  · simp
  · intro answer member
    simpa using ne_of_mem_of_not_mem member open_

/-- Answers that are not empty bring the reader forward. -/
theorem length_le_length_flatten (nonempty : [] ∉ answers) : answers.length ≤ answers.flatten.length := by
  induction answers with
  | nil => simp
  | cons first answers ih =>
    rw [List.mem_cons, not_or] at nonempty
    have tail := ih nonempty.2
    have head := List.length_pos_iff.mpr (Ne.symm nonempty.1)
    simp only [List.flatten_cons, List.length_append, List.length_cons]
    omega

end

/-! ## One step -/

section

variable {file next : File} {byte : UInt8} {k : ℕ}

/-- The NUL of the message is met where the message ends and nowhere before. -/
theorem eq_zero_iff (ends : 0 ∈ file.told.bytes) (within : k ≤ file.told.string.length)
    (here : file.told.bytes[k]? = some byte) : byte = 0 ↔ k = file.told.string.length := by
  constructor
  · rintro rfl
    by_contra before
    have inside : k < file.told.string.length := lt_of_le_of_ne within before
    rw [getElem?_of_lt_cstr inside] at here
    exact not_mem_cstr _ (List.mem_of_getElem? here)
  · rintro rfl
    have last := getElem?_cstr_length ends
    exact Option.some.inj (here.symm.trans last)

theorem byte_of_ne_zero (ends : 0 ∈ file.told.bytes)
    (within : k ≤ file.told.string.length) (here : file.told.bytes[k]? = some byte) (more : byte ≠ 0) :
    k < file.told.string.length ∧ file.told.string[k]? = some byte := by
  have before : k < file.told.string.length :=
    lt_of_le_of_ne within fun last => more ((eq_zero_iff ends within here).mpr last)
  exact ⟨before, (getElem?_of_lt_cstr before).symm.trans here⟩

/-- At the end of the message everything has been read. -/
theorem Readable.rewind (valid : Readable file) (idle : file.phase = .idle)
    (last : file.told.bytes[file.offset]? = some 0) :
    Readable { file with offset := 0, answers := file.answers ++ [[]] } where
  fresh opening := by simp [idle] at opening
  ends := valid.ends
  within := Nat.zero_le _
  sofar := by simp
  whole := by
    intro _
    by_cases ended : [] ∈ file.answers
    · have same := valid.whole ended
      rw [File.readOut] at same ⊢
      rwa [takeWhile_concat_of_mem ended]
    · have ends := valid.ends (by simp [idle])
      have here := (eq_zero_iff ends valid.within last).mp rfl
      rw [File.readOut, takeWhile_concat_nil ended, valid.sofar ended, here, List.take_length]
  loop length msgPtr bytesRead buffer looping := by simp [idle] at looping

theorem Readable.enter (valid : Readable file) (idle : file.phase = .idle) {length : ℕ} (positive : 0 < length)
    (here : file.told.bytes[file.offset]? = some byte) (more : byte ≠ 0) :
    Readable { file with phase := .reading length file.offset 0 [] } where
  fresh opening := by cases opening
  ends _ := valid.ends (by simp [idle])
  within := valid.within
  sofar := valid.sofar
  whole := valid.whole
  loop := by
    have before := (byte_of_ne_zero (valid.ends (by simp [idle])) valid.within here more).1
    rintro length msgPtr bytesRead buffer ⟨⟩
    exact { position := rfl, inside := valid.within, begun := before, copied := rfl,
            room := fun _ => positive.ne' }

section

variable {length msgPtr bytesRead : ℕ} {buffer : List UInt8}

theorem Readable.copy (valid : Readable file)
    (looping : file.phase = .reading length msgPtr bytesRead buffer)
    (here : file.told.bytes[msgPtr]? = some byte) (more : byte ≠ 0) :
    Readable { file with
      phase := .reading (length - 1) (msgPtr + 1) (bytesRead + 1) (buffer ++ [byte]) } where
  fresh opening := by cases opening
  ends _ := valid.ends (by simp [looping])
  within := valid.within
  sofar := valid.sofar
  whole := valid.whole
  loop := by
    have loop := valid.loop _ _ _ _ looping
    have ends := valid.ends (by simp [looping])
    obtain ⟨before, next⟩ := byte_of_ne_zero ends loop.inside here more
    have copied : buffer ++ [byte] = (file.told.string.drop file.offset).take (bytesRead + 1) := by
      rw [List.take_add_one, List.getElem?_drop, ← loop.position, next, ← loop.copied]
      rfl
    rintro length msgPtr bytesRead buffer ⟨⟩
    exact { position := by simp [loop.position, Nat.add_assoc], inside := before, begun := loop.begun,
            copied := copied, room := fun none => by cases none }

/-- A call that returns has copied something: it does not return 0 in the middle of the message. -/
theorem Loop.progress (loop : Loop file length msgPtr bytesRead buffer) (ends : 0 ∈ file.told.bytes)
    (stops : length = 0 ∨ file.told.bytes[msgPtr]? = some 0) : buffer ≠ [] := by
  have advanced : bytesRead ≠ 0 := by
    intro none
    have unmoved : msgPtr = file.offset := by rw [loop.position, none, Nat.add_zero]
    have last := stops.resolve_left (loop.room none)
    have atEnd := (eq_zero_iff ends loop.inside last).mp rfl
    have begun := loop.begun
    omega
  have left : 0 < (file.told.string.drop file.offset).length := by
    rw [List.length_drop]
    exact Nat.sub_pos_of_lt loop.begun
  rw [loop.copied, ← List.length_pos_iff, List.length_take]
  exact lt_min (Nat.pos_of_ne_zero advanced) left

theorem Readable.leave (valid : Readable file)
    (looping : file.phase = .reading length msgPtr bytesRead buffer)
    (stops : length = 0 ∨ file.told.bytes[msgPtr]? = some 0) :
    Readable { file with
      phase := .idle
      offset := file.offset + bytesRead
      answers := file.answers ++ [buffer] } := by
  have loop := valid.loop _ _ _ _ looping
  have ends := valid.ends (by simp [looping])
  have something := loop.progress ends stops
  have same : [] ∈ file.answers ++ [buffer] ↔ [] ∈ file.answers := by
    simp [Ne.symm something]
  refine ⟨by simp, fun _ => ends, ?_, ?_, ?_, by simp⟩
  · exact loop.position ▸ loop.inside
  · intro open_
    have before := valid.sofar (same.not.mp open_)
    rw [List.flatten_append, List.flatten_singleton, before, loop.copied, ← List.take_add]
  · intro ended
    have whole := valid.whole (same.mp ended)
    rw [File.readOut] at whole ⊢
    rwa [takeWhile_concat_of_mem (same.mp ended)]

end

/-- `device_open` returns with nothing read. -/
theorem Readable.sprintf (valid : Readable file) (opening : file.phase = .opening) {msg : Field bufLen}
    (ends : 0 ∈ msg.bytes) : Readable { file with phase := .idle, told := msg } where
  fresh opening := by cases opening
  ends _ := ends
  within := by simp [valid.fresh opening]
  sofar := by simp [valid.fresh opening]
  whole ended := by simp [valid.fresh opening] at ended
  loop length msgPtr bytesRead buffer looping := by cases looping

theorem Readable.release (valid : Readable file) (idle : file.phase = .idle) :
    Readable { file with phase := .released } where
  fresh opening := by cases opening
  ends _ := valid.ends (by simp [idle])
  within := valid.within
  sofar := valid.sofar
  whole := valid.whole
  loop length msgPtr bytesRead buffer looping := by cases looping

theorem Advance.readable (advance : Advance file.told file next) (valid : Readable file) : Readable next := by
  cases advance with
  | rewind idle last => exact valid.rewind idle last
  | enter idle positive here more => exact valid.enter idle positive here more
  | copy looping here more _ => exact valid.copy looping here more
  | leave looping stops => exact valid.leave looping stops

end

end SystemProgramming.CharDevice
