import SystemProgramming.CharDevice.Exclusive
import SystemProgramming.Lib.Memory
import SystemProgramming.Lib.Traced

/-! # Where `device_read` looks

With `pread` the offset is the caller's. A call is taken as a whole here and records the index of every
byte of `msg` it reads; what lies behind `msg` is read as well. As long as nothing behind `msg` is read, a
call is the rounds of the loop one after the other.
-/

namespace SystemProgramming.CharDevice

open Lib

/-- One byte of `msg`, counted from its start. -/
def fetch (msg : Memory) (index : ℕ) : Traced ℕ UInt8 := do
  Traced.tell index
  return msg index

/-- The loop, with the bytes for the user buffer; `put_user` reads the byte that was tested. -/
def copyOut (msg : Memory) : ℕ → ℕ → Traced ℕ (List UInt8)
  | 0, _ => return []
  | length + 1, msgPtr => do
    let byte ← fetch msg msgPtr
    if byte = 0 then return []
    else
      let rest ← copyOut msg length (msgPtr + 1)
      return byte :: rest

/-- What was read and the new offset. -/
def deviceRead (msg : Memory) (length offset : ℕ) : Traced ℕ (List UInt8 × ℕ) := do
  let byte ← fetch msg offset
  if byte = 0 then return ([], 0)
  else
    let buffer ← copyOut msg length offset
    return (buffer, offset + buffer.length)

/-- The memory from `msg` on, with anything behind it. -/
def memoryOf (msg : Field bufLen) (behind : Memory) : Memory := fun k => msg.bytes[k]?.getD (behind k)

def Held (msg : Field bufLen) (memory : Memory) : Prop :=
  ∀ k < bufLen, msg.bytes[k]? = some (memory k)

theorem held_memoryOf (msg : Field bufLen) (behind : Memory) : Held msg (memoryOf msg behind) := by
  intro k inside
  rw [memoryOf, List.getElem?_eq_getElem (by rw [msg.size_eq]; exact inside), Option.getD_some]

section

variable {s : State} {memory : Memory} {i : ℕ} {file : File}

@[simp] theorem result_fetch (msg : Memory) (index : ℕ) : (fetch msg index).result = some (msg index) := by
  simp [fetch]

@[simp] theorem always_fetch {P : ℕ → Prop} (msg : Memory) (index : ℕ) :
    (fetch msg index).Always P ↔ P index := by
  simp [fetch]

/-! ## The call and the steps of the device -/

theorem exec_copyOut (held : Held s.msg memory) {length msgPtr bytesRead : ℕ} {buffer : List UInt8}
    (here : s.files[i]? = some file) (looping : file.phase = .reading length msgPtr bytesRead buffer)
    (within : (copyOut memory length msgPtr).Always (· < bufLen)) :
    ∃ rest, (copyOut memory length msgPtr).result = some rest ∧
      exec step s (List.replicate (rest.length + 1) (.copy i)) = some { s with
        files := s.files.set i { file with
          phase := .idle
          offset := file.offset + bytesRead + rest.length
          answers := file.answers ++ [buffer ++ rest] } } := by
  induction length generalizing s file msgPtr bytesRead buffer with
  | zero =>
    refine ⟨[], rfl, ?_⟩
    simp [exec, step, here, looping, State.copy]
  | succ length ih =>
    rw [copyOut, Traced.always_bind, always_fetch] at within
    obtain ⟨inside, rest⟩ := within
    have there := held msgPtr inside
    have tail := rest _ (result_fetch memory msgPtr)
    by_cases last : memory msgPtr = 0
    · refine ⟨[], by simp [copyOut, last], ?_⟩
      simp [exec, step, here, looping, State.copy, there, last]
    · rw [if_neg last, Traced.always_bind] at tail
      let next : File := { file with
        phase := .reading length (msgPtr + 1) (bytesRead + 1) (buffer ++ [memory msgPtr]) }
      have taken : step s (.copy i) = some { s with files := s.files.set i next } := by
        simp [step, here, looping, State.copy, there, last, next]
      let after : State := { s with files := s.files.set i next }
      have placed : after.files[i]? = some next := getElem?_set_here here
      have kept : Held after.msg memory := held
      obtain ⟨more, result, ran⟩ := ih kept placed rfl tail.1
      refine ⟨memory msgPtr :: more, by simp [copyOut, last, result], ?_⟩
      rw [List.length_cons, List.replicate_succ, exec_cons_eq_some]
      refine ⟨_, taken, ran.trans ?_⟩
      simp only [List.set_set, after, next, List.append_assoc, List.singleton_append, Option.some.injEq]
      have offset : file.offset + (bytesRead + 1) + more.length =
          file.offset + bytesRead + (more.length + 1) := by omega
      rw [offset]

/-- A call that stays inside `msg` is the steps of the device, one after the other. -/
theorem exec_deviceRead (held : Held s.msg memory) {length : ℕ} (positive : 0 < length)
    (here : s.files[i]? = some file) (idle : file.phase = .idle)
    (within : (deviceRead memory length file.offset).Always (· < bufLen)) :
    ∃ buffer offset rounds, (deviceRead memory length file.offset).result = some (buffer, offset) ∧
      exec step s (.read i length :: List.replicate rounds (.copy i)) = some { s with
        files := s.files.set i { file with
          phase := .idle
          offset := offset
          answers := file.answers ++ [buffer] } } := by
  rw [deviceRead, Traced.always_bind, always_fetch] at within
  obtain ⟨inside, rest⟩ := within
  have there := held file.offset inside
  have tail := rest _ (result_fetch memory file.offset)
  by_cases last : memory file.offset = 0
  · refine ⟨[], 0, 0, by simp [deviceRead, last], ?_⟩
    simp [exec, step, here, idle, positive, State.read, there, last]
  · rw [if_neg last, Traced.always_bind] at tail
    let next : File := { file with phase := .reading length file.offset 0 [] }
    have taken : step s (.read i length) = some { s with files := s.files.set i next } := by
      simp [step, here, idle, positive, State.read, there, last, next]
    let after : State := { s with files := s.files.set i next }
    have placed : after.files[i]? = some next := getElem?_set_here here
    have kept : Held after.msg memory := held
    obtain ⟨buffer, result, ran⟩ := exec_copyOut kept placed rfl tail.1
    refine ⟨buffer, file.offset + buffer.length, buffer.length + 1, by simp [deviceRead, last, result], ?_⟩
    rw [exec_cons_eq_some]
    refine ⟨_, taken, ran.trans ?_⟩
    simp [after, next]

/-! ## The offsets that are safe -/

/-- `sprintf` does not reach the last byte of `msg` with anything but its NUL. -/
theorem last_of_strcpy {msg copied : Field bufLen} {string : List UInt8}
    (before : msg.bytes[bufLen - 1]? = some 0) (done : msg.strcpy string = some copied) :
    copied.bytes[bufLen - 1]? = some 0 := by
  rw [Field.strcpy] at done
  split_ifs at done with fits
  cases done
  dsimp only
  rw [List.getElem?_append_right (by omega)]
  by_cases last : string.length = bufLen - 1
  · rw [last, Nat.sub_self]
    rfl
  · obtain ⟨k, behind⟩ : ∃ k, bufLen - 1 - string.length = k + 1 :=
      ⟨bufLen - 1 - string.length - 1, by omega⟩
    rw [behind, List.getElem?_cons_succ, List.getElem?_drop, ← before]
    congr 1
    omega

theorem last_byte (reached : Reachable step start s) : s.msg.bytes[bufLen - 1]? = some 0 := by
  apply reached.invariant (I := fun s => s.msg.bytes[bufLen - 1]? = some 0)
  · intro s e t before taken
    cases move_of_step taken with
    | refused => exact before
    | opened free same =>
      rw [same, State.open, free]
      exact before
    | formatted here opening done => exact last_of_strcpy before done
    | advanced => exact before
    | released => exact before
  · decide

/-- From an offset inside `msg` the loop stops at the last byte or before it. -/
theorem within_copyOut (last : memory (bufLen - 1) = 0) (length : ℕ) {msgPtr : ℕ} (inside : msgPtr < bufLen) :
    (copyOut memory length msgPtr).Always (· < bufLen) := by
  induction length generalizing msgPtr with
  | zero => exact Traced.always_pure
  | succ length ih =>
    rw [copyOut, Traced.always_bind, always_fetch]
    refine ⟨inside, fun byte result => ?_⟩
    rw [result_fetch, Option.some.injEq] at result
    subst result
    split_ifs with zero
    · exact Traced.always_pure
    · rw [Traced.always_bind]
      constructor
      · apply ih
        by_contra outside
        obtain rfl : msgPtr = bufLen - 1 := by omega
        exact zero last
      · intro rest _
        exact Traced.always_pure

theorem within_of_lt (last : memory (bufLen - 1) = 0) (length : ℕ) {offset : ℕ} (inside : offset < bufLen) :
    (deviceRead memory length offset).Always (· < bufLen) := by
  rw [deviceRead, Traced.always_bind, always_fetch]
  refine ⟨inside, fun byte _ => ?_⟩
  split_ifs
  · exact Traced.always_pure
  · rw [Traced.always_bind]
    refine ⟨within_copyOut last length inside, fun buffer _ => ?_⟩
    exact Traced.always_pure

theorem last_memoryOf (reached : Reachable step start s) (behind : Memory) :
    memoryOf s.msg behind (bufLen - 1) = 0 := by
  rw [memoryOf, last_byte reached, Option.getD_some]

/-- After any calls of all processes a read that begins inside `msg` is what the device does step by step. -/
theorem exec_deviceRead_of_lt (reached : Reachable step start s) (behind : Memory) {length : ℕ}
    (positive : 0 < length) (here : s.files[i]? = some file) (idle : file.phase = .idle)
    (inside : file.offset < bufLen) :
    ∃ buffer offset rounds,
      (deviceRead (memoryOf s.msg behind) length file.offset).result = some (buffer, offset) ∧
      exec step s (.read i length :: List.replicate rounds (.copy i)) = some { s with
        files := s.files.set i { file with
          phase := .idle
          offset := offset
          answers := file.answers ++ [buffer] } } := by
  apply exec_deviceRead (held_memoryOf s.msg behind) positive here idle
  exact within_of_lt (last_memoryOf reached behind) length inside

/-- After any calls of all processes a read stays inside `msg` exactly when it begins there. -/
theorem within_iff (reached : Reachable step start s) (behind : Memory) (length offset : ℕ) :
    (deviceRead (memoryOf s.msg behind) length offset).Always (· < bufLen) ↔ offset < bufLen := by
  constructor
  · intro within
    rw [deviceRead, Traced.always_bind, always_fetch] at within
    exact within.1
  · exact within_of_lt (last_memoryOf reached behind) length

end

/-- The first open, and a read of a hundred bytes at offset 3. -/
theorem within_iff_opened :
    ∃ s, exec step start [.open, .sprintf 0] = some s ∧
      ((deviceRead (memoryOf s.msg fun _ => 1) 100 3).Always (· < bufLen) ↔ 3 < bufLen) :=
  ⟨_, rfl, within_iff ⟨[.open, .sprintf 0], rfl⟩ (fun _ => 1) 100 3⟩

/-- `pread` at offset 80 reads the byte behind `msg`. -/
theorem not_within_pread :
    ∃ s, exec step start [.open, .sprintf 0] = some s ∧
      ¬ (deviceRead (memoryOf s.msg fun _ => 1) 1 80).Always (· < bufLen) := by
  refine ⟨_, rfl, ?_⟩
  rw [deviceRead, Traced.always_bind, always_fetch]
  intro within
  exact absurd within.1 (by decide)

end SystemProgramming.CharDevice
