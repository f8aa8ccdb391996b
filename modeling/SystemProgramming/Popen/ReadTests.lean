import SystemProgramming.Popen.Driver

/-! # What the tests that read do

The arguments are joined as they are, so the shell finds them again if they are plain words, and only then for
certain. The loop over them always reads one position behind the first, which is too far when that is the
`NULL`. The copy has whole pages, so it is the output when that has whole pages, and only then.
-/

namespace SystemProgramming.Popen.Driver

open Lib

/-! ## The arguments -/

theorem zero_not_mem_spaced (tok : Arg) : 0 ∉ spaced tok := by
  simp [spaced, tok.proper]

theorem zero_not_mem_name (cmd : Command) : 0 ∉ cmd.name := by
  cases cmd <;> decide

section

variable {arg : ℕ → Option Arg} {cmd : Field pageSize} {last i : ℕ}

/-- An argument is appended to the command where there is room for it. -/
theorem exists_formatCmd (tok : Arg) (fits : (cmd.string ++ spaced tok).length < pageSize) :
    ∃ longer, formatCmd cmd (some tok) = some longer ∧ longer.string = cmd.string ++ spaced tok := by
  obtain ⟨longer, copied⟩ := cmd.exists_strcpy fits
  refine ⟨longer, copied, Field.string_of_strcpy ?_ copied⟩
  rw [List.mem_append, not_or]
  exact ⟨not_mem_cstr _, zero_not_mem_spaced tok⟩

theorem joinArgs_last {tok : Option Arg} {longer : Field pageSize} (formatted : formatCmd cmd tok = some longer)
    (terminates : arg (i + 1) = none) (fuel : ℕ) :
    joinArgs arg (fuel + 1) i tok cmd = Traced.tell (i + 1) >>= fun _ => pure longer := by
  rw [joinArgs, formatted, Traced.ofOption_some_bind, terminates]

theorem joinArgs_more {tok : Option Arg} {next : Arg} {longer : Field pageSize}
    (formatted : formatCmd cmd tok = some longer) (follows : arg (i + 1) = some next) (fuel : ℕ) :
    joinArgs arg (fuel + 1) i tok cmd =
      Traced.tell (i + 1) >>= fun _ => joinArgs arg fuel (i + 1) (some next) longer := by
  rw [joinArgs, formatted, Traced.ofOption_some_bind, follows]

/-- The position behind the first one is read whatever that holds. -/
theorem not_always_joinArgs {P : ℕ → Prop} {tok : Option Arg} {longer : Field pageSize}
    (formatted : formatCmd cmd tok = some longer) (outside : ¬ P (i + 1)) (fuel : ℕ) :
    ¬ (joinArgs arg (fuel + 1) i tok cmd).Always P := by
  rw [joinArgs, formatted, Traced.ofOption_some_bind, Traced.always_bind, Traced.always_tell]
  exact fun all => outside all.1

/-- The loop from an argument on, when the others and the `NULL` follow it. -/
theorem joinArgs_settles (tok : Arg) (rest : List Arg) (follow : ∀ k ≤ rest.length, arg (i + 1 + k) = rest[k]?)
    (bound : i + 1 + rest.length ≤ last)
    (fits : (cmd.string ++ ((tok :: rest).map spaced).flatten).length < pageSize) :
    ∃ final : Field pageSize, final.string = cmd.string ++ ((tok :: rest).map spaced).flatten ∧
      Settles (· ≤ last) (fun fuel => joinArgs arg fuel i (some tok) cmd) final := by
  have near : Traced.Always (· ≤ last) (Traced.tell (i + 1)) := Traced.always_tell.mpr (by omega)
  induction rest generalizing i tok cmd with
  | nil =>
    obtain ⟨longer, formatted, text⟩ := exists_formatCmd tok (by simpa using fits)
    refine ⟨longer, by simpa using text, .of_succ rfl (joinArgs_last formatted (follow 0 (Nat.le_refl 0))) ?_⟩
    exact .bind (.const near rfl) .pure
  | cons next rest ih =>
    rw [List.map_cons, List.flatten_cons, ← List.append_assoc] at fits ⊢
    rw [List.length_cons] at bound
    have room : (cmd.string ++ spaced tok).length < pageSize := by
      rw [List.length_append] at fits
      omega
    obtain ⟨longer, formatted, text⟩ := exists_formatCmd tok room
    rw [← text] at fits ⊢
    have behind : ∀ k ≤ rest.length, arg (i + 1 + 1 + k) = rest[k]? := by
      intro k inside
      rw [Nat.add_right_comm (i + 1), Nat.add_assoc (i + 1)]
      exact follow (k + 1) (Nat.succ_le_succ inside)
    obtain ⟨final, whole, settled⟩ :=
      ih next behind (by omega) fits (Traced.always_tell.mpr (by omega))
    refine ⟨final, whole, .of_succ rfl (joinArgs_more formatted (follow 0 (Nat.zero_le _))) ?_⟩
    exact .bind (.const near rfl) settled

end

/-! ## The output -/

theorem fread_fst (size : ℕ) (pieces : List Bytes) : (fread size pieces).1 = pieces.flatten.take size := by
  induction pieces generalizing size with
  | nil => simp [fread]
  | cons piece pieces ih =>
    rw [fread, List.flatten_cons, List.take_append]
    split_ifs with inside
    · rw [Nat.sub_eq_zero_of_le inside.le, List.take_zero, List.append_nil]
    · rw [ih, List.take_of_length_le (Nat.le_of_not_lt inside)]

theorem flatten_fread_snd (size : ℕ) (pieces : List Bytes) :
    (fread size pieces).2.flatten = pieces.flatten.drop size := by
  induction pieces generalizing size with
  | nil => simp [fread]
  | cons piece pieces ih =>
    rw [fread, List.flatten_cons, List.drop_append]
    split_ifs with inside
    · rw [Nat.sub_eq_zero_of_le inside.le, List.drop_zero, List.flatten_cons]
    · rw [ih, List.drop_of_length_le (Nat.le_of_not_lt inside), List.nil_append]

section

variable {buf : Field pageSize} {pieces : List Bytes}

theorem fread_fst_eq_nil_iff : (fread pageSize pieces).1 = [] ↔ pieces.flatten = [] := by
  rw [fread_fst, List.take_eq_nil_iff]
  exact or_iff_right (by decide)

theorem copyOut_last (finished : pieces.flatten = []) (fuel : ℕ) :
    copyOut (fuel + 1) buf pieces = pure ([], buf) := by
  rw [copyOut, if_pos (fread_fst_eq_nil_iff.mpr finished)]

theorem copyOut_more (more : pieces.flatten ≠ []) (fuel : ℕ) : copyOut (fuel + 1) buf pieces =
    copyOut fuel (buf.fill (fread pageSize pieces).1) (fread pageSize pieces).2 >>= fun copied =>
      pure ((buf.fill (fread pageSize pieces).1).bytes ++ copied.1, copied.2) := by
  rw [copyOut, if_neg (mt fread_fst_eq_nil_iff.mp more)]

/-- A round writes the first page of an output of whole pages. -/
theorem bytes_fill_fread (more : pieces.flatten ≠ []) (pages : pageSize ∣ pieces.flatten.length) :
    (buf.fill (fread pageSize pieces).1).bytes = pieces.flatten.take pageSize := by
  have full := Nat.le_of_dvd (List.length_pos_iff.mpr more) pages
  rw [fread_fst, Field.bytes_fill_whole]
  rw [List.length_take, Nat.min_eq_left full]

end

/-- The copy has whole pages, and is the output if that has whole pages too. -/
theorem copyOut_settles {P : ℕ → Prop} (buf : Field pageSize) (pieces : List Bytes) :
    ∃ out, Settles P (fun fuel => copyOut fuel buf pieces) out ∧ pageSize ∣ out.1.length ∧
      (pageSize ∣ pieces.flatten.length → out.1 = pieces.flatten) := by
  induction bound : pieces.flatten.length using Nat.strongRecOn generalizing buf pieces with
  | ind n ih =>
    subst bound
    rcases eq_or_ne pieces.flatten [] with finished | more
    · exact ⟨([], buf), .of_succ rfl (copyOut_last finished) .pure, Nat.dvd_zero _, fun _ => finished.symm⟩
    · have left := flatten_fread_snd pageSize pieces
      have shorter : (fread pageSize pieces).2.flatten.length < pieces.flatten.length := by
        have some := List.length_pos_iff.mpr more
        rw [left, List.length_drop]
        exact Nat.sub_lt some (by decide)
      obtain ⟨out, settled, whole, same⟩ := ih _ shorter (buf.fill (fread pageSize pieces).1) _ rfl
      have round := settled.bind
        (h := fun copied _ => pure ((buf.fill (fread pageSize pieces).1).bytes ++ copied.1, copied.2)) .pure
      refine ⟨_, .of_succ rfl (copyOut_more more) round, ?_, fun pages => ?_⟩
      · rw [List.length_append, Field.size_eq]
        exact Nat.dvd_add (Nat.dvd_refl _) whole
      · rw [left, List.length_drop] at same
        rw [bytes_fill_fread more pages, same (Nat.dvd_sub pages (Nat.dvd_refl _)), List.take_append_drop]

/-! ## The shell -/

theorem words_spaced (args : List Arg) (plain : ∀ arg ∈ args, Plain arg.string) :
    words isBlank (args.map spaced).flatten = args.map Arg.string := by
  induction args with
  | nil => rfl
  | cons tok args ih =>
    obtain ⟨⟨nonempty, solid, -⟩, others⟩ := List.forall_mem_cons.mp plain
    rw [List.map_cons, List.flatten_cons, spaced, List.append_assoc, List.cons_append, List.singleton_append,
      words_cons_of_delim (by decide), words_append_cons nonempty solid (by decide), ih others, List.map_cons]

theorem words_joined (cmd : Command) (args : List Arg) (plain : ∀ arg ∈ args, Plain arg.string) :
    words isBlank (joined cmd args) = cmd.name :: args.map Arg.string := by
  have nonempty : cmd.name ≠ [] := by cases cmd <;> decide
  have solid : ∀ byte ∈ cmd.name, isBlank byte = false := by cases cmd <;> simp [Command.name, isBlank]
  rw [joined, ← words_spaced args plain]
  cases args with
  | nil =>
    rw [List.map_nil, List.flatten_nil, List.append_nil, words_of_forall nonempty solid]
    rfl
  | cons tok args =>
    rw [List.map_cons, List.flatten_cons, spaced, List.append_assoc, List.cons_append,
      words_append_cons nonempty solid (by decide), words_cons_of_delim (by decide)]

/-- A shell that runs nothing it is not certain about. -/
def strict : Sh where
  read line := if ∀ arg ∈ (words isBlank line).tail, Ordinary arg then some (words isBlank line) else none
  plain cmd args line found ordinary := by
    rw [found]
    exact if_pos ordinary

/-- Every shell runs the command with the arguments exactly if these are plain. -/
theorem read_joined_iff (cmd : Command) (args : List Arg) :
    (∀ sh : Sh, sh.read (joined cmd args) = some (cmd.name :: args.map Arg.string)) ↔
      ∀ arg ∈ args, Plain arg.string := by
  constructor
  · intro understood
    have certain := understood strict
    rw [strict] at certain
    dsimp only at certain
    split_ifs at certain with ordinary
    rw [Option.some.inj certain, List.tail_cons, List.forall_mem_map] at ordinary
    intro arg member
    have listed : arg.string ∈ words isBlank (joined cmd args) := by
      rw [Option.some.inj certain]
      exact List.mem_cons_of_mem _ (List.mem_map_of_mem member)
    exact ⟨ne_nil_of_mem_words listed, fun byte inside => (mem_of_mem_words listed inside).2,
      ordinary arg member⟩
  · intro plain sh
    apply sh.plain cmd _ _ (words_joined cmd args plain)
    intro word member
    obtain ⟨arg, listed, rfl⟩ := List.mem_map.mp member
    exact (plain arg listed).2.2

/-! ## The tests -/

section

variable {cmd : Command} {behind : ℕ → Option Arg} {pieces : List Bytes} {buf : Field pageSize}

theorem exists_strcat_name (cmd : Command) :
    ∃ line, (Field.init pageSize []).strcat cmd.name = some line ∧ line.string = cmd.name := by
  have empty : (Field.init pageSize []).string = [] := Field.string_init (by decide) (by decide)
  have fits : cmd.name.length < pageSize := by cases cmd <;> decide
  obtain ⟨line, copied⟩ := (Field.init pageSize []).exists_strcpy fits
  refine ⟨line, ?_, Field.string_of_strcpy (zero_not_mem_name cmd) copied⟩
  rw [Field.strcat, empty, List.nil_append, copied]

theorem readCmd_eq {arg : ℕ → Option Arg} {line : Field pageSize}
    (started : (Field.init pageSize []).strcat cmd.name = some line) (fuel : ℕ) :
    readCmd cmd arg pieces buf fuel = joinArgs arg fuel 0 (arg 0) line >>= fun line =>
      copyOut fuel buf pieces >>= fun copied => pure ⟨line.string, copied.1, copied.2⟩ := by
  rw [readCmd, started, Traced.ofOption_some_bind]

/-- Without an argument the first position behind the `NULL` is read. -/
theorem not_settles_nil (ran : Ran) : ¬ Settles (· ≤ 0) (readCmd cmd (call [] behind) pieces buf) ran := by
  intro settled
  obtain ⟨line, started, -⟩ := exists_strcat_name cmd
  have harmless := settled.always 1
  rw [readCmd_eq started, Traced.always_bind] at harmless
  exact not_always_joinArgs rfl (by decide) 0 harmless.1

/-- With one the arguments are joined and whole pages copied. -/
theorem readCmd_settles (behind : ℕ → Option Arg) (pieces : List Bytes) (buf : Field pageSize) (tok : Arg)
    (rest : List Arg) (fits : (joined cmd (tok :: rest)).length < pageSize) :
    ∃ ran, Settles (· ≤ (tok :: rest).length) (readCmd cmd (call (tok :: rest) behind) pieces buf) ran ∧
      ran.command = joined cmd (tok :: rest) ∧ pageSize ∣ ran.stdout.length ∧
      (pageSize ∣ pieces.flatten.length → ran.stdout = pieces.flatten) := by
  obtain ⟨line, started, text⟩ := exists_strcat_name cmd
  have follow : ∀ k ≤ rest.length, call (tok :: rest) behind (0 + 1 + k) = rest[k]? := by
    intro k inside
    rw [call, if_pos (by simp; omega), Nat.zero_add, Nat.add_comm, List.getElem?_cons_succ]
  rw [joined, ← text] at fits ⊢
  have bound : 0 + 1 + rest.length ≤ (tok :: rest).length := by
    rw [List.length_cons]
    omega
  obtain ⟨final, whole, joins⟩ := joinArgs_settles tok rest follow bound fits
  obtain ⟨out, copies, pages, same⟩ := copyOut_settles (P := (· ≤ (tok :: rest).length)) buf pieces
  refine ⟨⟨final.string, out.1, out.2⟩, ?_, whole, pages, same⟩
  have parts := joins.bind (h := fun line fuel => copyOut fuel buf pieces >>= fun copied =>
    pure (⟨line.string, copied.1, copied.2⟩ : Ran)) (copies.bind .pure)
  rw [funext (readCmd_eq started)]
  exact parts

/-- A test is faithful exactly if it has an argument, all arguments are plain and the output has whole
pages. -/
theorem faithful_iff (args : List Arg) (fits : (joined cmd args).length < pageSize) :
    Faithful cmd args behind pieces buf ↔
      args ≠ [] ∧ (∀ arg ∈ args, Plain arg.string) ∧ pageSize ∣ pieces.flatten.length := by
  cases args with
  | nil =>
    refine iff_of_false ?_ (fun all => all.1 rfl)
    rintro ⟨ran, settled, -⟩
    exact not_settles_nil ran settled
  | cons tok rest =>
    obtain ⟨ran, settled, command, pages, same⟩ := readCmd_settles behind pieces buf tok rest fits
    rw [← read_joined_iff cmd, ← command]
    constructor
    · rintro ⟨other, also, understood, copied⟩
      obtain rfl := settled.converges.unique also.converges
      exact ⟨List.cons_ne_nil _ _, understood, copied ▸ pages⟩
    · rintro ⟨-, understood, whole⟩
      exact ⟨ran, settled, understood, same whole⟩

end

/-- The arguments of `read_chmod` in `main`, with a page of output in two pieces. -/
theorem faithful_chmod : Faithful .chmod
    [⟨[55, 48, 48], by decide⟩, ⟨[104, 101, 108, 108, 111, 46, 115, 104], by decide⟩] (fun _ => none)
    [List.replicate 4000 10, List.replicate 96 10] (Field.init pageSize []) := by
  rw [faithful_iff _ (by decide)]
  refine ⟨by simp, by simp [Plain, Ordinary, special, isBlank], ?_⟩
  simp only [List.flatten_cons, List.flatten_nil, List.length_append, List.length_replicate, List.length_nil]
  decide

/-- `read_date(NULL)`, the last call of `main`. -/
theorem not_faithful_date : ¬ Faithful .date [] (fun _ => none) [] (Field.init pageSize []) := by
  rintro ⟨ran, settled, -⟩
  exact not_settles_nil ran settled

end SystemProgramming.Popen.Driver
