import SystemProgramming.Shell.ParserSafety
import SystemProgramming.Lib.CString
import SystemProgramming.Lib.Fuel

/-! # The input of `hw4/part2/shell.c`

`inputString` and the loop of `main`. Whether the shell comes back from a builtin or from `run_command`, and
what the processes that a line has started, which share its standard input, leave of the stream, is up to the
environment.
-/

namespace SystemProgramming.Shell.CommandLine

open Lib

/-! ## One line -/

/-- `EOF` of the standard library -/
def EOF : ℤ := -1

/-- `str`, of which the first `len` bytes have been written. -/
structure Buffer where
  bytes : Bytes
  size : ℕ
deriving DecidableEq

/-- `str[len++] = ch`, if there is room. -/
def Buffer.put (str : Buffer) (ch : Int8) : Option Buffer :=
  if str.bytes.length < str.size then some { str with bytes := str.bytes ++ [ch.toUInt8] } else none

def Buffer.grow (str : Buffer) : Buffer :=
  if str.bytes.length = str.size then { str with size := str.size + 64 } else str

/-- The test of the loop, on a `char`, which is signed. -/
def goesOn (ch : Int8) : Bool := ch.toInt != EOF && ch != 10 && ch != 13

/-- The loop of `inputString`; at the end of the stream `fgetc` returns `EOF`. -/
def readLoop : Bytes → Buffer → Option (Buffer × Bytes)
  | [], str => some (str, [])
  | byte :: rest, str =>
    let ch := byte.toInt8
    if goesOn ch then (str.put ch).bind fun str => readLoop rest str.grow else some (str, rest)

/-- The line, `none` for the null pointer, and what is left of the stream. -/
def inputString (input : Bytes) : Option (Option Bytes × Bytes) := do
  let (str, rest) ← readLoop input ⟨[], 64⟩
  let str ← str.put 0
  let string := cstr str.bytes
  return (if string.length ≠ 0 then some string else none, rest)

/-! ## The main loop -/

/-- What the shell does with a line, if that is defined. -/
def act (line : Bytes) : Option Action :=
  if Traced.Always Access.Ok (handle line) then (handle line).result else none

/-- What the shell goes on with: `comesBack` and `leaves` are about the last of the lines received. -/
structure Environment where
  comesBack : List Bytes → Bool
  /-- The stream behind the line is what `inputString` has left of it. -/
  leaves : List Bytes → Bytes → Bytes

/-- What the main loop has received when the program ends, and what is left of the stream. -/
def main (x : Environment) : ℕ → Bytes → List Bytes → Option (List Bytes × Bytes)
  | 0, _, _ => none
  | fuel + 1, input, received =>
    (inputString input).bind fun (line, rest) =>
      match line with
      | none => main x fuel rest received
      | some line =>
        match act line with
        | some .exits => some (received ++ [line], rest)
        | some _ =>
          if x.comesBack (received ++ [line]) then
            main x fuel (x.leaves (received ++ [line]) rest) (received ++ [line])
          else none
        | none => none

/-! ## What the input should be -/

/-- A line ends at `\n` and at `\r`. -/
def lineEnd (b : UInt8) : Bool := b == 10 || b == 13

/-- No process that a line has started reads the standard input of the shell or moves it. -/
def Environment.KeepsInput (x : Environment) : Prop := ∀ received rest, x.leaves received rest = rest

/-- The main loop receives the non-empty lines of the stream, and the program ends with the stream. -/
def ReadsAll (x : Environment) (input : Bytes) : Prop :=
  Converges (fun fuel => main x fuel input []) (words lineEnd input, [])

/-- `quit`, `exit`, `bye` and `logout` -/
def Keyword.exits : Keyword → Bool
  | .quit | .exit | .bye | .logout => true
  | .builtin | .echo | .cd | .pwd | .hostname | .id => false

/-- The shell can parse the line, and its first word is one of the four. -/
def Exits (line : Bytes) : Prop :=
  ∃ first later called, stages line = first :: later ∧ later.length + 1 < maxPipeNum ∧ Tests first ∧
    keyword first = some called ∧ called.exits = true

/-- The shell goes on after each of the lines, when it has received some before. -/
def Stays (comesBack : List Bytes → Bool) : List Bytes → List Bytes → Prop
  | _, [] => True
  | received, line :: later =>
    (∃ action, act line = some action ∧ action ≠ .exits) ∧ comesBack (received ++ [line]) = true ∧
      Stays comesBack (received ++ [line]) later

/-- The lines, empty ones too, end with one that makes the shell exit, which the stream may end behind or
not; the shell goes on after every line before. -/
def EndsWithExit (comesBack : List Bytes → Bool) (input : Bytes) : Prop :=
  ∃ before last, (input.splitOnP lineEnd = before ++ [last] ∨ input.splitOnP lineEnd = before ++ [last, []]) ∧
    last ≠ [] ∧ Exits last ∧ Stays comesBack [] (before.filter fun line => !line.isEmpty)

/-! ## Lines that make the shell exit -/

theorem doBuiltin_exits_iff {first : Bytes} (tests : Tests first) (called : Keyword) :
    Traced.Always Access.Ok (doBuiltin called first) ∧ (doBuiltin called first).result = some .exits ↔
      called.exits = true := by
  rw [doBuiltin, Traced.always_bind, ok_getArgs, Traced.result_bind, result_getArgs tests.1]
  cases called with
  | builtin =>
    refine iff_of_false ?_ (by decide)
    rintro ⟨-, exits⟩
    rw [Option.bind_some, Traced.result_bind] at exits
    obtain ⟨found, -, other⟩ := Option.bind_eq_some_iff.mp exits
    cases other
  | _ => simp [tests.2, Keyword.exits]

/-- The shell exits on a line that it can parse and whose first word is one of the four. -/
theorem act_eq_exits_iff (line : Bytes) : act line = some .exits ↔ Exits line := by
  rw [act, Option.ite_none_right_eq_some, Exits]
  cases all : stages line with
  | nil => exact iff_of_false (fun ok => not_ok_handle all ok.1) (by simp)
  | cons first later =>
    rw [ok_handle all]
    constructor
    · rintro ⟨⟨room, tests, done⟩, exits⟩
      rw [result_handle all tests.1] at exits
      cases calls : keyword first with
      | none => simp [calls] at exits
      | some called =>
        rw [calls] at exits
        exact ⟨first, later, called, rfl, room, tests, calls,
          (doBuiltin_exits_iff tests called).mp ⟨done called calls, exits⟩⟩
    · rintro ⟨_, _, called, ⟨⟩, room, tests, calls, exits⟩
      obtain ⟨done, ends⟩ := (doBuiltin_exits_iff tests called).mpr exits
      rw [result_handle all tests.1, calls]
      exact ⟨⟨room, tests, fun other same => Option.some.inj same ▸ done⟩, ends⟩

/-! ## `inputString` returns -/

/-- The byte is kept, if it is not a NUL. -/
def keeps (byte : UInt8) : Bool := byte != 255 && !lineEnd byte

theorem goesOn_toInt8 (byte : UInt8) : goesOn byte.toInt8 = keeps byte := by
  have same : ∀ other : UInt8, byte.toInt8 = other.toInt8 ↔ byte = other := fun other =>
    ⟨fun equal => congrArg Int8.toUInt8 equal, fun equal => congrArg UInt8.toInt8 equal⟩
  have eof : byte.toInt8.toInt = EOF ↔ byte = 255 := by
    rw [← same 255, ← Int8.toInt_inj]
    rfl
  have newline : byte.toInt8 = 10 ↔ byte = 10 := same 10
  have carriage : byte.toInt8 = 13 ↔ byte = 13 := same 13
  rw [Bool.eq_iff_iff]
  simp [goesOn, keeps, lineEnd, eof, newline, carriage, and_assoc]

theorem readLoop_eq (input : Bytes) (str : Buffer) (room : str.bytes.length < str.size) :
    ∃ size, (str.bytes ++ input.takeWhile keeps).length < size ∧
      readLoop input str = some (⟨str.bytes ++ input.takeWhile keeps, size⟩, (input.dropWhile keeps).tail) := by
  induction input generalizing str with
  | nil => exact ⟨str.size, by simpa using room, by simp [readLoop]⟩
  | cons byte rest ih =>
    cases kept : keeps byte with
    | false => exact ⟨str.size, by simpa [kept] using room, by simp [readLoop, goesOn_toInt8, kept]⟩
    | true =>
      obtain ⟨size, fits, runs⟩ := ih (Buffer.mk (str.bytes ++ [byte]) str.size).grow (by
        rw [Buffer.grow]
        split
        · simp_all
        · simp_all
          omega)
      have grown : (Buffer.mk (str.bytes ++ [byte]) str.size).grow.bytes = str.bytes ++ [byte] := by
        rw [Buffer.grow]
        split <;> rfl
      rw [grown] at fits runs
      refine ⟨size, by simpa [kept] using fits, ?_⟩
      rw [readLoop]
      simp [goesOn_toInt8, kept, Buffer.put, room, runs]

/-- The line read from a stream. -/
def lineOf (input : Bytes) : Bytes := cstr (input.takeWhile keeps)

/-- A line that is empty, and the end of the stream, are reported as the null pointer. -/
theorem inputString_eq (input : Bytes) : inputString input =
    some (if lineOf input = [] then none else some (lineOf input), (input.dropWhile keeps).tail) := by
  obtain ⟨size, fits, runs⟩ := readLoop_eq input ⟨[], 64⟩ (by decide)
  rw [List.nil_append] at fits runs
  have stored : (Buffer.mk (input.takeWhile keeps) size).put 0 =
      some ⟨input.takeWhile keeps ++ [0], size⟩ := if_pos fits
  rw [inputString, runs]
  simp only [Option.bind_eq_bind, Option.bind_some, stored, cstr_concat_zero, lineOf]
  by_cases empty : cstr (input.takeWhile keeps) = []
  · simp [empty]
  · simp [empty]

/-! ## Streams without NUL and 0xFF -/

section

variable {input rest line : Bytes} {x : Environment} {received : List Bytes}

/-- Nothing is received that holds a NUL or 0xFF. -/
theorem not_mem_lineOf (input : Bytes) : 0 ∉ lineOf input ∧ 255 ∉ lineOf input := by
  refine ⟨not_mem_cstr _, fun member => ?_⟩
  have kept := List.mem_takeWhile_imp ((cstr_prefix_self _).subset member)
  simp [keeps] at kept

theorem main_received (x : Environment) (fuel : ℕ) {finally_ : List Bytes}
    (before : ∀ line ∈ received, 0 ∉ line ∧ 255 ∉ line)
    (ends : main x fuel input received = some (finally_, rest)) :
    ∀ line ∈ finally_, 0 ∉ line ∧ 255 ∉ line := by
  induction fuel generalizing input received with
  | zero => cases ends
  | succ fuel ih =>
    have more : ∀ line ∈ received ++ [lineOf input], 0 ∉ line ∧ 255 ∉ line := by
      intro line member
      rcases List.mem_append.mp member with member | member
      · exact before line member
      · rw [List.mem_singleton.mp member]
        exact not_mem_lineOf input
    rw [main, inputString_eq, Option.bind_some] at ends
    split_ifs at ends with empty
    · exact ih before ends
    · dsimp only at ends
      split at ends
      · cases ends
        exact more
      · split_ifs at ends with back
        exact ih more ends
      · cases ends

/-- The first line and what is left, for a stream without NUL and 0xFF. -/
theorem split_first (clean : 0 ∉ input ∧ 255 ∉ input) :
    (input.dropWhile keeps).tail = [] ∧ input.splitOnP lineEnd = [lineOf input] ∨
      (0 ∉ (input.dropWhile keeps).tail ∧ 255 ∉ (input.dropWhile keeps).tail) ∧
        input.splitOnP lineEnd = lineOf input :: (input.dropWhile keeps).tail.splitOnP lineEnd := by
  have split := List.takeWhile_append_dropWhile (p := keeps) (l := input)
  have proper : 0 ∉ input.takeWhile keeps := fun member => clean.1 ((List.takeWhile_prefix _).subset member)
  have whole : ∀ b ∈ input.takeWhile keeps, lineEnd b = false := by
    intro b member
    have kept := List.mem_takeWhile_imp member
    rw [keeps, Bool.and_eq_true, Bool.not_eq_true'] at kept
    exact kept.2
  rw [lineOf, cstr_eq_self proper]
  cases behind : input.dropWhile keeps with
  | nil =>
    rw [behind, List.append_nil] at split
    rw [split] at whole ⊢
    exact .inl ⟨rfl, List.splitOnP_eq_singleton whole⟩
  | cons sep rest =>
    have part : ∀ b ∈ sep :: rest, b ∈ input := fun b member =>
      (List.dropWhile_suffix keeps).subset (behind ▸ member)
    have stops : keeps sep = false := by
      have head := List.head?_dropWhile_not keeps input
      simpa [behind] using head
    have separates : lineEnd sep = true := by
      have other : sep ≠ 255 := ne_of_mem_of_not_mem (part sep List.mem_cons_self) clean.2
      simpa [keeps, other] using stops
    right
    refine ⟨⟨fun member => clean.1 (part 0 (List.mem_cons_of_mem _ member)),
      fun member => clean.2 (part 255 (List.mem_cons_of_mem _ member))⟩, ?_⟩
    rw [behind] at split
    conv_lhs => rw [← split]
    rw [List.splitOnP_append_cons_of_forall_mem whole sep separates]
    rfl

/-! ## One pass of the loop -/

theorem main_of_empty (empty : lineOf input = []) (fuel : ℕ) :
    main x (fuel + 1) input received = main x fuel (input.dropWhile keeps).tail received := by
  rw [main, inputString_eq, if_pos empty]
  rfl

theorem main_of_line (line : lineOf input ≠ []) (fuel : ℕ) :
    main x (fuel + 1) input received = match act (lineOf input) with
      | some .exits => some (received ++ [lineOf input], (input.dropWhile keeps).tail)
      | some _ =>
        if x.comesBack (received ++ [lineOf input]) then
          main x fuel (x.leaves (received ++ [lineOf input]) (input.dropWhile keeps).tail) (received ++ [lineOf input])
        else none
      | none => none := by
  rw [main, inputString_eq, if_neg line]
  rfl

/-- At the end of the stream the loop goes on for ever. -/
theorem main_nil (fuel : ℕ) : main x fuel [] received = none := by
  induction fuel with
  | zero => rfl
  | succ fuel ih => rw [main_of_empty rfl, List.dropWhile_nil, List.tail_nil, ih]

/-- What the rest of the lines, empty ones too, must be like when some have been received. -/
def Ends (comesBack : List Bytes → Bool) : List Bytes → List Bytes → Prop
  | _, [] => False
  | received, line :: later =>
    line = [] ∧ Ends comesBack received later ∨
    line ≠ [] ∧ act line = some .exits ∧ (later = [] ∨ later = [[]]) ∨
    line ≠ [] ∧ (∃ action, act line = some action ∧ action ≠ .exits) ∧
      comesBack (received ++ [line]) = true ∧ Ends comesBack (received ++ [line]) later

theorem ends_iff {comesBack : List Bytes → Bool} (lines : List Bytes) : Ends comesBack received lines ↔
    ∃ before last, (lines = before ++ [last] ∨ lines = before ++ [last, []]) ∧ last ≠ [] ∧
      Exits last ∧ Stays comesBack received (before.filter fun line => !line.isEmpty) := by
  simp only [← act_eq_exits_iff]
  induction lines generalizing received with
  | nil => simp [Ends]
  | cons line later ih =>
    rw [Ends, ih, ih]
    constructor
    · rintro (⟨rfl, before, last, split, rest⟩ | ⟨some_, exits, atEnd⟩ |
        ⟨some_, goes, back, before, last, split, line_, exits, stays⟩)
      · exact ⟨[] :: before, last, by simpa using split, rest⟩
      · exact ⟨[], line, by simpa using atEnd, some_, exits, trivial⟩
      · refine ⟨line :: before, last, by simpa using split, line_, exits, ?_⟩
        rw [List.filter_cons_of_pos (by simp [some_])]
        exact ⟨goes, back, stays⟩
    · rintro ⟨before, last, split, some_, exits, stays⟩
      cases before with
      | nil =>
        right; left
        rcases split with split | split
        · obtain ⟨rfl, rfl⟩ := List.cons.inj split
          exact ⟨some_, exits, .inl rfl⟩
        · obtain ⟨rfl, rfl⟩ := List.cons.inj split
          exact ⟨some_, exits, .inr rfl⟩
      | cons first before =>
        have rest : later = before ++ [last] ∨ later = before ++ [last, []] := by
          simpa [List.cons.injEq] using split.imp (fun h => (List.cons.inj h).2) fun h => (List.cons.inj h).2
        obtain rfl : line = first := split.elim (fun h => (List.cons.inj h).1) fun h => (List.cons.inj h).1
        by_cases empty : line = []
        · subst empty
          exact .inl ⟨rfl, before, last, rest, some_, exits, by simpa using stays⟩
        · rw [List.filter_cons_of_pos (by simp [empty])] at stays
          exact .inr (.inr ⟨empty, stays.1, stays.2.1, before, last, rest, some_, exits, stays.2.2⟩)

theorem splitOnP_eq_nil_singleton_iff : input.splitOnP lineEnd = [[]] ↔ input = [] := by
  constructor
  · intro single
    cases input with
    | nil => rfl
    | cons b input =>
      obtain ⟨first, others, split⟩ := List.exists_cons_of_ne_nil (List.splitOnP_ne_nil lineEnd input)
      rw [List.splitOnP_cons_eq_if_modifyHead, split] at single
      split_ifs at single <;> simp at single
  · rintro rfl
    rfl

/-- What is left of the stream behind its first line, in the two cases of `split_first`. -/
theorem tail_eq_nil_iff {later : List Bytes} {tail : Bytes}
    (split : tail = [] ∧ later = [] ∨ later = tail.splitOnP lineEnd) :
    tail = [] ↔ later = [] ∨ later = [[]] := by
  rcases split with ⟨rfl, rfl⟩ | rfl
  · simp
  · rw [splitOnP_eq_nil_singleton_iff, or_iff_right (List.splitOnP_ne_nil _ _)]

theorem converges_main_iff (untouched : x.KeepsInput) (clean : 0 ∉ input ∧ 255 ∉ input) (received : List Bytes) :
    Converges (fun fuel => main x fuel input received) (received ++ words lineEnd input, []) ↔
      Ends x.comesBack received (input.splitOnP lineEnd) := by
  rw [words]
  induction lines : input.splitOnP lineEnd generalizing input received with
  | nil => exact absurd lines (List.splitOnP_ne_nil _ _)
  | cons line later ih =>
    obtain ⟨rfl, split⟩ : line = lineOf input ∧ ((input.dropWhile keeps).tail = [] ∧ later = [] ∨
        (0 ∉ (input.dropWhile keeps).tail ∧ 255 ∉ (input.dropWhile keeps).tail) ∧
          later = (input.dropWhile keeps).tail.splitOnP lineEnd) := by
      rcases split_first clean with ⟨none, all⟩ | ⟨proper, all⟩
      · obtain ⟨same, rest⟩ := List.cons.inj (lines.symm.trans all)
        exact ⟨same, .inl ⟨none, rest⟩⟩
      · obtain ⟨same, rest⟩ := List.cons.inj (lines.symm.trans all)
        exact ⟨same, .inr ⟨proper, rest⟩⟩
    -- the passes that follow, whatever has been received
    have next : ∀ received, Converges (fun fuel => main x fuel (input.dropWhile keeps).tail received)
        (received ++ later.filter (fun line => !line.isEmpty), []) ↔ Ends x.comesBack received later := by
      intro received
      rcases split with ⟨none, rfl⟩ | ⟨proper, same⟩
      · rw [none]
        exact iff_of_false (not_converges_of_none main_nil) (by simp [Ends])
      · exact ih proper received same.symm
    by_cases empty : lineOf input = []
    · rw [converges_succ_iff (main_of_empty empty), List.filter_cons_of_neg (by simp [empty]), next, Ends]
      simp [empty]
    · rw [converges_succ_iff (main_of_line empty), List.filter_cons_of_pos (by simp [empty]), Ends]
      cases acts : act (lineOf input) with
      | none =>
        simp only [empty, false_and, false_or, reduceCtorEq, and_false, exists_false]
        exact iff_of_false (not_converges_of_none fun _ => rfl) not_false
      | some action =>
        have left := tail_eq_nil_iff (split.imp_right And.right)
        cases action with
        | exits =>
          simp only [converges_const_iff, empty, left, Option.some.injEq, Prod.mk.injEq]
          constructor
          · rintro ⟨-, last⟩
            exact .inr (.inl ⟨empty, trivial, last⟩)
          · rintro (⟨⟨⟩, -⟩ | ⟨-, -, last⟩ | ⟨-, ⟨action, rfl, goes⟩, -⟩)
            · refine ⟨?_, last⟩
              rcases last with rfl | rfl <;> rfl
            · exact absurd rfl goes
        | builtin | runs =>
          cases back : x.comesBack (received ++ [lineOf input]) with
          | false => exact iff_of_false (not_converges_of_none fun _ => rfl) (by simp [empty])
          | true =>
            have goesOn := next (received ++ [lineOf input])
            rw [List.append_assoc, List.singleton_append] at goesOn
            simp only [if_true, untouched _ _, goesOn]
            simp [empty]

end

/-- Where no process that it starts touches its input, the shell reads all lines and ends exactly if the stream has
no NUL and no 0xFF byte, and its last line, and none before it, makes the shell exit. -/
theorem readsAll_iff {x : Environment} (untouched : x.KeepsInput) (input : Bytes) :
    ReadsAll x input ↔ 0 ∉ input ∧ 255 ∉ input ∧ EndsWithExit x.comesBack input := by
  have clean : ReadsAll x input → 0 ∉ input ∧ 255 ∉ input := by
    rintro ⟨bound, ends⟩
    have proper := main_received x bound (by simp) (ends bound (Nat.le_refl _))
    constructor
    · intro member
      obtain ⟨line, received, inside⟩ := exists_mem_words member (by decide : lineEnd 0 = false)
      exact (proper line received).1 inside
    · intro member
      obtain ⟨line, received, inside⟩ := exists_mem_words member (by decide : lineEnd 255 = false)
      exact (proper line received).2 inside
  constructor
  · intro reads
    obtain ⟨noNul, noEof⟩ := clean reads
    exact ⟨noNul, noEof, (ends_iff _).mp ((converges_main_iff untouched ⟨noNul, noEof⟩ []).mp reads)⟩
  · rintro ⟨noNul, noEof, ends⟩
    exact (converges_main_iff untouched ⟨noNul, noEof⟩ []).mpr ((ends_iff _).mpr ends)

/-- All comes back and leaves the input alone. -/
def idle : Environment := ⟨fun _ => true, fun _ rest => rest⟩

/-- `exit`, with the line end. -/
theorem readsAll_iff_exit : ReadsAll idle [101, 120, 105, 116, 10] := by
  refine (readsAll_iff (fun _ _ => rfl) _).mpr ⟨by decide, by decide, [], [101, 120, 105, 116], .inr (by decide),
    by decide, ?_, trivial⟩
  exact ⟨[101, 120, 105, 116], [], .exit, by decide, by decide, ⟨by decide, by unfold Fits; decide⟩, by decide, rfl⟩

/-- An empty stream: every call of `inputString` returns a null pointer, and the loop does not end. -/
theorem not_readsAll_nil : ¬ ReadsAll idle [] :=
  not_converges_of_none main_nil

end SystemProgramming.Shell.CommandLine
