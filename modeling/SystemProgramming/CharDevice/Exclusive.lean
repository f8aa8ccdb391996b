import SystemProgramming.CharDevice.Reads
import SystemProgramming.Lib.Update
import Mathlib.Data.Nat.Digits.Lemmas

/-! # Every schedule of calls

Only the file opened last can be in use; it is the one `msg` was formatted for, and its number is the
number of successful opens before it.
-/

namespace SystemProgramming.CharDevice

open Lib

/-! ## The message fits -/

theorem length_decimal_le {n : ℕ} (small : n < 10 ^ 10) : (decimal n).length ≤ 10 := by
  rw [decimal]
  split_ifs with zero
  · simp
  · rw [List.length_map, List.length_reverse, Nat.digits_length_le_iff (by decide)]
    exact small

theorem zero_not_mem_decimal (n : ℕ) : 0 ∉ decimal n := by
  rw [decimal]
  split_ifs with zero
  · simp
  · intro member
    obtain ⟨digit, inside, same⟩ := List.mem_map.mp member
    have small : digit < 10 := Nat.digits_lt_base (by decide) (List.mem_reverse.mp inside)
    interval_cases digit <;> revert same <;> decide

theorem length_message_lt (counter : BitVec 32) : (message counter.toInt).length < bufLen := by
  have lower : -2 ^ 32 ≤ 2 * counter.toInt := BitVec.le_two_mul_toInt
  have upper : 2 * counter.toInt < 2 ^ 32 := BitVec.two_mul_toInt_lt
  have digits : (decimal counter.toInt.natAbs).length ≤ 10 := length_decimal_le (by omega)
  have format : (formatInt counter.toInt).length ≤ 11 := by
    rw [formatInt]
    split_ifs
    · exact Nat.succ_le_succ digits
    · exact digits.trans (Nat.le_succ 10)
  simp only [message, List.length_append, beforeCount, afterCount, List.length_cons, List.length_nil, bufLen]
  omega

theorem zero_not_mem_message (count : ℤ) : 0 ∉ message count := by
  have digits := zero_not_mem_decimal count.natAbs
  rw [message, formatInt]
  split_ifs <;> simp [beforeCount, afterCount, digits]

/-! ## What one step does -/

inductive Move (s : State) : State → Prop where
  | refused : s.alreadyOpen = true → Move s s
  | opened {t : State} : s.alreadyOpen = false → t = s.open → Move s t
  | formatted {i file msg} : s.files[i]? = some file → file.phase = .opening →
      s.msg.strcpy (message s.counter.toInt) = some msg →
      Move s { s with
        counter := s.counter + 1
        msg := msg
        files := s.files.set i { file with phase := .idle, told := msg } }
  | advanced {i file next} : s.files[i]? = some file → Advance s.msg file next →
      Move s { s with files := s.files.set i next }
  | released {i file} : s.files[i]? = some file → file.phase = .idle →
      Move s { s with alreadyOpen := false, files := s.files.set i { file with phase := .released } }

section

variable {s t : State} {i : ℕ} {file : File}

theorem move_of_read (here : s.files[i]? = some file) (idle : file.phase = .idle) {length : ℕ}
    (positive : 0 < length) (taken : s.read i file length = some t) : Move s t := by
  obtain ⟨byte, there, rfl⟩ := Option.map_eq_some_iff.mp taken
  split_ifs with last
  · subst last
    exact .advanced here (.rewind idle there)
  · exact .advanced here (.enter idle positive there last)

theorem move_of_copy (here : s.files[i]? = some file) {length msgPtr bytesRead : ℕ} {buffer : List UInt8}
    (looping : file.phase = .reading length msgPtr bytesRead buffer)
    (taken : s.copy i file length msgPtr bytesRead buffer = some t) : Move s t := by
  rw [State.copy] at taken
  split at taken
  · rename_i full
    cases taken
    exact .advanced here (.leave looping (.inl full))
  · rename_i more
    obtain ⟨byte, there, rfl⟩ := Option.map_eq_some_iff.mp taken
    split_ifs with last
    · subst last
      exact .advanced here (.leave looping (.inr there))
    · exact .advanced here (.copy looping there last more)

theorem move_of_step {e : Event} (taken : step s e = some t) : Move s t := by
  cases e with
  | «open» =>
    cases taken
    cases free : s.alreadyOpen with
    | true =>
      rw [State.open, if_pos free]
      exact .refused free
    | false => exact .opened free rfl
  | sprintf i =>
    cases here : s.files[i]? with
    | none => simp [step, here] at taken
    | some file =>
      simp only [step, here, Option.ite_none_right_eq_some] at taken
      obtain ⟨msg, fits, rfl⟩ := Option.map_eq_some_iff.mp taken.2
      exact .formatted here taken.1 fits
  | read i length =>
    cases here : s.files[i]? with
    | none => simp [step, here] at taken
    | some file =>
      simp only [step, here, Option.ite_none_right_eq_some] at taken
      exact move_of_read here taken.1.1 taken.1.2 taken.2
  | copy i =>
    cases here : s.files[i]? with
    | none => simp [step, here] at taken
    | some file =>
      simp only [step, here] at taken
      split at taken
      · exact move_of_copy here ‹_› taken
      · cases taken
  | release i =>
    cases here : s.files[i]? with
    | none => simp [step, here] at taken
    | some file =>
      simp only [step, here, Option.ite_none_right_eq_some, Option.some.injEq] at taken
      obtain ⟨idle, rfl⟩ := taken
      exact .released here idle

end

/-! ## The invariant -/

structure Inv (s : State) : Prop where
  free : s.alreadyOpen = false → ∀ file ∈ s.files, file.phase = .released
  last : ∀ (i : ℕ) file, s.files[i]? = some file → file.phase ≠ .released → i + 1 = s.files.length
  pending : ∀ (i : ℕ) file, s.files[i]? = some file → file.phase = .opening → s.counter = BitVec.ofNat 32 i
  settled : (∀ file ∈ s.files, file.phase ≠ .opening) → s.counter = BitVec.ofNat 32 s.files.length
  numbered : ∀ (i : ℕ) file, s.files[i]? = some file → file.phase ≠ .opening →
    file.told.string = message (BitVec.ofNat 32 i).toInt
  intact : ∀ (i : ℕ) file, s.files[i]? = some file → file.phase ≠ .opening → file.phase ≠ .released →
    file.told = s.msg
  readable : ∀ (i : ℕ) file, s.files[i]? = some file → Readable file

theorem inv_start : Inv start := by
  constructor <;> simp [start]

section

variable {s t : State} {i : ℕ} {file next : File}

theorem Inv.opened (inv : Inv s) (free : s.alreadyOpen = false) : Inv s.open := by
  have idle := inv.free free
  rw [State.open, if_neg (by simp [free])]
  constructor
  · intro held
    cases held
  · intro i file there outstanding
    rcases getElem?_append_cases there with ⟨rfl, -⟩ | ⟨-, there⟩
    · simp
    · exact absurd (idle file (List.mem_of_getElem? there)) outstanding
  · intro i file there opening
    rcases getElem?_append_cases there with ⟨rfl, -⟩ | ⟨-, there⟩
    · apply inv.settled
      intro file member
      simp [idle file member]
    · simp [idle file (List.mem_of_getElem? there)] at opening
  · intro none
    exact absurd rfl (none _ List.mem_concat_self)
  · intro i file there done
    rcases getElem?_append_cases there with ⟨-, rfl⟩ | ⟨-, there⟩
    · exact absurd rfl done
    · exact inv.numbered i file there done
  · intro i file there done held
    rcases getElem?_append_cases there with ⟨-, rfl⟩ | ⟨-, there⟩
    · exact absurd rfl done
    · exact absurd (idle file (List.mem_of_getElem? there)) held
  · intro i file there
    rcases getElem?_append_cases there with ⟨-, rfl⟩ | ⟨-, there⟩
    · constructor <;> simp
    · exact inv.readable i file there

/-- While a file is in use every other one has been released. -/
theorem Inv.released_of_ne (inv : Inv s) (here : s.files[i]? = some file) (held : file.phase ≠ .released)
    {k : ℕ} {other : File} (there : s.files[k]? = some other) (different : k ≠ i) :
    other.phase = .released := by
  by_contra outstanding
  have mine := inv.last i file here held
  have its := inv.last k other there outstanding
  omega

theorem Inv.not_free (inv : Inv s) (here : s.files[i]? = some file) (held : file.phase ≠ .released) :
    s.alreadyOpen ≠ false :=
  fun free => held (inv.free free file (List.mem_of_getElem? here))

/-- No file is being opened while one past `device_open` is in use. -/
theorem Inv.none_opening (inv : Inv s) (here : s.files[i]? = some file) (done : file.phase ≠ .opening)
    (held : file.phase ≠ .released) : ∀ other ∈ s.files, other.phase ≠ .opening := by
  intro other member
  obtain ⟨k, there⟩ := List.mem_iff_getElem?.mp member
  by_cases same : k = i
  · cases (same ▸ there).symm.trans here
    exact done
  · simp [inv.released_of_ne here held there same]

theorem Inv.formatted (inv : Inv s) (here : s.files[i]? = some file) (opening : file.phase = .opening)
    {msg : Field bufLen} (done : s.msg.strcpy (message s.counter.toInt) = some msg) :
    Inv { s with
      counter := s.counter + 1
      msg := msg
      files := s.files.set i { file with phase := .idle, told := msg } } := by
  have held : file.phase ≠ .released := by simp [opening]
  have mine := inv.last i file here held
  have number := inv.pending i file here opening
  constructor
  · intro free
    exact absurd free (inv.not_free here held)
  · intro k other there outstanding
    rw [List.length_set]
    rcases getElem?_set_cases there with ⟨rfl, -⟩ | ⟨-, there⟩
    · exact mine
    · exact inv.last k other there outstanding
  · intro k other there still
    rcases getElem?_set_cases there with ⟨-, rfl⟩ | ⟨different, there⟩
    · cases still
    · simp [inv.released_of_ne here held there different] at still
  · intro _
    rw [List.length_set, ← mine, BitVec.ofNat_add, ← number]
    rfl
  · intro k other there told
    rcases getElem?_set_cases there with ⟨rfl, rfl⟩ | ⟨-, there⟩
    · rw [← number]
      exact Field.string_of_strcpy (zero_not_mem_message _) done
    · exact inv.numbered k other there told
  · intro k other there told outstanding
    rcases getElem?_set_cases there with ⟨-, rfl⟩ | ⟨different, there⟩
    · rfl
    · exact absurd (inv.released_of_ne here held there different) outstanding
  · intro k other there
    rcases getElem?_set_cases there with ⟨-, rfl⟩ | ⟨-, there⟩
    · exact (inv.readable i file here).sprintf opening (Field.zero_mem_of_strcpy done)
    · exact inv.readable k other there

theorem Advance.told {msg : Field bufLen} (advance : Advance msg file next) : next.told = file.told := by
  cases advance <;> rfl

/-- A call of `device_read` begins and ends with the file in use. -/
theorem Advance.in_use {msg : Field bufLen} (advance : Advance msg file next) :
    (file.phase ≠ .opening ∧ file.phase ≠ .released) ∧ next.phase ≠ .opening ∧ next.phase ≠ .released := by
  cases advance <;> simp [*]

theorem Inv.advanced (inv : Inv s) (here : s.files[i]? = some file) (advance : Advance s.msg file next) :
    Inv { s with files := s.files.set i next } := by
  obtain ⟨⟨done, held⟩, later, -⟩ := advance.in_use
  have told := inv.intact i file here done held
  constructor
  · intro free
    exact absurd free (inv.not_free here held)
  · intro k other there outstanding
    rw [List.length_set]
    rcases getElem?_set_cases there with ⟨rfl, -⟩ | ⟨-, there⟩
    · exact inv.last k file here held
    · exact inv.last k other there outstanding
  · intro k other there opening
    rcases getElem?_set_cases there with ⟨-, rfl⟩ | ⟨-, there⟩
    · exact absurd opening later
    · exact inv.pending k other there opening
  · intro _
    rw [List.length_set]
    exact inv.settled (inv.none_opening here done held)
  · intro k other there open_
    rcases getElem?_set_cases there with ⟨rfl, rfl⟩ | ⟨-, there⟩
    · rw [advance.told]
      exact inv.numbered k file here done
    · exact inv.numbered k other there open_
  · intro k other there open_ outstanding
    rcases getElem?_set_cases there with ⟨-, rfl⟩ | ⟨-, there⟩
    · rw [advance.told]
      exact told
    · exact inv.intact k other there open_ outstanding
  · intro k other there
    rcases getElem?_set_cases there with ⟨-, rfl⟩ | ⟨-, there⟩
    · rw [← told] at advance
      exact advance.readable (inv.readable i file here)
    · exact inv.readable k other there

theorem Inv.released (inv : Inv s) (here : s.files[i]? = some file) (idle : file.phase = .idle) :
    Inv { s with alreadyOpen := false, files := s.files.set i { file with phase := .released } } := by
  have held : file.phase ≠ .released := by simp [idle]
  have done : file.phase ≠ .opening := by simp [idle]
  have others : ∀ (k : ℕ) other, (s.files.set i { file with phase := .released })[k]? = some other →
      other.phase = .released := by
    intro k other there
    rcases getElem?_set_cases there with ⟨-, rfl⟩ | ⟨different, there⟩
    · rfl
    · exact inv.released_of_ne here held there different
  constructor
  · intro _ other member
    obtain ⟨k, there⟩ := List.mem_iff_getElem?.mp member
    exact others k other there
  · intro k other there outstanding
    exact absurd (others k other there) outstanding
  · intro k other there opening
    simp [others k other there] at opening
  · intro _
    rw [List.length_set]
    exact inv.settled (inv.none_opening here done held)
  · intro k other there told
    rcases getElem?_set_cases there with ⟨rfl, rfl⟩ | ⟨-, there⟩
    · exact inv.numbered k file here done
    · exact inv.numbered k other there told
  · intro k other there _ outstanding
    exact absurd (others k other there) outstanding
  · intro k other there
    rcases getElem?_set_cases there with ⟨-, rfl⟩ | ⟨-, there⟩
    · exact (inv.readable i file here).release idle
    · exact inv.readable k other there

theorem Inv.step {e : Event} (inv : Inv s) (taken : step s e = some t) : Inv t := by
  cases move_of_step taken with
  | refused _ => exact inv
  | opened free same => exact same ▸ inv.opened free
  | formatted here opening done => exact inv.formatted here opening done
  | advanced here advance => exact inv.advanced here advance
  | released here idle => exact inv.released here idle

theorem Inv.of_exec {es : List Event} (ran : exec CharDevice.step start es = some s) : Inv s :=
  exec_invariant (fun _ _ _ inv taken => inv.step taken) ran inv_start

/-! ## What holds from here on -/

/-- The file has been opened with this in `msg`. -/
def Told (i : ℕ) (msg : Field bufLen) (s : State) : Prop :=
  ∃ file, s.files[i]? = some file ∧ file.phase ≠ .opening ∧ file.told = msg

/-- A step on another file, or one that keeps what the file was told. -/
theorem Told.set {msg : Field bufLen} {k : ℕ} (told : Told i msg s) (here : s.files[k]? = some file)
    (keeps : file.phase ≠ .opening → next.phase ≠ .opening ∧ next.told = file.told) :
    ∃ other, (s.files.set k next)[i]? = some other ∧ other.phase ≠ .opening ∧ other.told = msg := by
  obtain ⟨other, there, done, same⟩ := told
  by_cases hit : k = i
  · subst hit
    cases here.symm.trans there
    exact ⟨next, getElem?_set_here here, (keeps done).1, (keeps done).2.trans same⟩
  · exact ⟨other, by rwa [List.getElem?_set_ne hit], done, same⟩

theorem Told.step {msg : Field bufLen} {e : Event} (told : Told i msg s) (taken : CharDevice.step s e = some t) :
    Told i msg t := by
  cases move_of_step taken with
  | refused _ => exact told
  | opened free same =>
    obtain ⟨file, there, rest⟩ := told
    rw [same, State.open, if_neg (by simp [free])]
    exact ⟨file, getElem?_append_of_some there, rest⟩
  | formatted here opening _ => exact told.set here fun done => absurd opening done
  | advanced here advance => exact told.set here fun _ => ⟨advance.in_use.2.1, advance.told⟩
  | released here idle => exact told.set here fun _ => ⟨by simp, rfl⟩

theorem Inv.exec {es : List Event} (inv : Inv s) (ran : exec CharDevice.step s es = some t) : Inv t :=
  exec_invariant (fun _ _ _ inv taken => inv.step taken) ran inv

theorem Inv.msg_eq (inv : Inv s) {es : List Event} (ran : Lib.exec CharDevice.step s es = some t)
    (before : Holds s i) (after : Holds t i) : t.msg = s.msg := by
  obtain ⟨file, here, done, held⟩ := before
  have told : Told i s.msg t :=
    exec_invariant (fun _ _ _ told taken => told.step taken) ran
      ⟨file, here, done, inv.intact i file here done held⟩
  obtain ⟨later, there, -, same⟩ := told
  obtain ⟨also, here, done, held⟩ := after
  cases there.symm.trans here
  exact ((inv.exec ran).intact i later there done held).symm.trans same

/-! ## The calls return -/

theorem exists_byte {k : ℕ} (ends : 0 ∈ file.told.bytes) (within : k ≤ file.told.string.length) :
    ∃ byte, file.told.bytes[k]? = some byte := by
  have last := lt_length_of_getElem? (getElem?_cstr_length ends)
  exact ⟨_, List.getElem?_eq_getElem (within.trans_lt last)⟩

theorem Inv.enabled (inv : Inv s) (outstanding : Outstanding s i) :
    (CharDevice.step s (.sprintf i)).isSome ∨ (CharDevice.step s (.copy i)).isSome ∨
      ∀ length, 0 < length → (CharDevice.step s (.read i length)).isSome := by
  obtain ⟨file, here, held⟩ := outstanding
  have valid := inv.readable i file here
  cases phase : file.phase with
  | opening =>
    left
    obtain ⟨msg, fits⟩ := s.msg.exists_strcpy (length_message_lt s.counter)
    simp [CharDevice.step, here, phase, State.sprintf, fits]
  | idle =>
    right; right
    intro length positive
    obtain ⟨byte, there⟩ := exists_byte (valid.ends (by simp [phase])) valid.within
    rw [inv.intact i file here (by simp [phase]) held] at there
    simp [CharDevice.step, here, phase, positive, State.read, there]
  | reading length msgPtr bytesRead buffer =>
    right; left
    have inside := (valid.loop _ _ _ _ phase).inside
    obtain ⟨byte, there⟩ := exists_byte (valid.ends (by simp [phase])) inside
    rw [inv.intact i file here (by simp [phase]) held] at there
    simp only [CharDevice.step, here, phase, State.copy]
    split_ifs
    · rfl
    · simp [there]
  | released => exact absurd phase held

end

/-- The device is opened by one process at a time, which reads the message it was promised. -/
theorem promise_of_exec {es : List Event} {s : State} (ran : exec step start es = some s) : Promise s := by
  have inv := Inv.of_exec ran
  constructor
  · rintro i j ⟨file, here, held⟩ ⟨other, there, outstanding⟩
    have first := inv.last i file here held
    have second := inv.last j other there outstanding
    omega
  · intro k file here done small
    have value : (BitVec.ofNat 32 k).toNat = k := by
      rw [BitVec.toNat_ofNat]
      exact Nat.mod_eq_of_lt (by omega)
    have number : (BitVec.ofNat 32 k).toInt = k := by
      rw [BitVec.toInt_eq_toNat_of_lt (by omega), value]
    rw [inv.numbered k file here done, number]
  · intro later t i rest before after
    exact inv.msg_eq rest before after
  · intro file member ended
    obtain ⟨i, here⟩ := List.mem_iff_getElem?.mp member
    exact (inv.readable i file here).whole ended
  · intro file member many
    obtain ⟨i, here⟩ := List.mem_iff_getElem?.mp member
    by_contra open_
    have sofar := (inv.readable i file here).sofar open_
    have bound := length_le_length_flatten open_
    rw [sofar, List.length_take] at bound
    omega
  · intro i outstanding
    exact inv.enabled outstanding

/-- Two processes try to open the device, the first one reads it five bytes at a time. -/
theorem promise_of_exec_two : ∃ s, exec step start
    [.open, .sprintf 0, .open, .read 0 5, .copy 0, .copy 0, .copy 0, .copy 0, .copy 0, .copy 0,
      .release 0, .open, .sprintf 1] = some s ∧ Promise s :=
  ⟨_, (Option.some_get (by decide +kernel)).symm, promise_of_exec (Option.some_get (by decide +kernel)).symm⟩

end SystemProgramming.CharDevice
