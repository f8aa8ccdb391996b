import SystemProgramming.Shell.Operators
import Mathlib.Data.List.Nodup
import Mathlib.Data.List.Count
import Mathlib.Data.List.Infix

/-! # What `redirect` makes of redirections

A pass takes the first word that begins with its operator for the operator and the next word for its
target. This is what the user wrote if operators stand alone, each has one target at most, and no target of the
other operator is found first.
-/

namespace SystemProgramming.Shell

open Lib

variable {ω ρ : Type*} (text : ω → Bytes)

/-- The pass for `io` finds what the user wrote. -/
structure Clear (io : Io) (items : List (Item ω)) : Prop where
  separate : ∀ io' word, .attached io' word ∉ items
  once : items.countP (Item.targets io) ≤ 1
  /-- A target that looks like the operator is the last word or comes too late. -/
  hidden : ∀ before io' operator file after, items = before ++ .target io' operator file :: after →
    begins text io file = true → io' = io ∨ after = [] ∨ ∃ item ∈ before, item.targets io = true

/-- Both passes find what the user wrote. -/
structure Single (items : List (Item ω)) : Prop where
  separate : ∀ io word, .attached io word ∉ items
  once : ∀ io, items.countP (Item.targets io) ≤ 1
  hidden : ∀ before operator file after, items = before ++ .target .output operator file :: after →
    begins text .input file = true → after = [] ∨ ∃ item ∈ before, item.targets .input = true

/-- The items but for the targets of an operator. -/
def without (io : Io) (items : List (Item ω)) : List (Item ω) := items.filter fun item => !item.targets io

section

variable {text} {io : Io} {item : Item ω} {items before after : List (Item ω)}

theorem targets_self (io : Io) (operator file : ω) :
    (Item.target io operator file).targets io = true := decide_eq_true rfl

theorem exists_target_of_targets (found : item.targets io = true) :
    ∃ operator file, item = .target io operator file := by
  cases item with
  | target io' operator file =>
    obtain rfl := of_decide_eq_true found
    exact ⟨operator, file, rfl⟩
  | argument | attached | dangling => cases found

/-- There is no target of the operator, or one of the items is one. -/
theorem targets_cases (io : Io) (items : List (Item ω)) :
    (∀ item ∈ items, item.targets io = false) ∨ ∃ operator file, .target io operator file ∈ items := by
  induction items with
  | nil => exact .inl (by simp)
  | cons item items ih =>
    cases found : item.targets io with
    | true =>
      obtain ⟨operator, file, rfl⟩ := exists_target_of_targets found
      exact .inr ⟨operator, file, List.mem_cons_self⟩
    | false =>
      obtain none | ⟨operator, file, member⟩ := ih
      · apply Or.inl
        rw [List.forall_mem_cons]
        exact ⟨found, none⟩
      · exact .inr ⟨operator, file, List.mem_cons_of_mem _ member⟩

theorem not_dangling_of_append (parsed : Parsed text (before ++ item :: after)) (more : after ≠ [])
    (io : Io) (operator : ω) : item ≠ .dangling io operator := by
  induction before with
  | nil =>
    cases parsed with
    | dangling => exact absurd rfl more
    | cons _ _ _ followed _ => exact followed io operator
  | cons first before ih =>
    generalize split : first :: before ++ item :: after = all at parsed
    cases parsed with
    | nil => cases split
    | dangling =>
      have none_ := (List.cons.inj split).2
      simp at none_
    | cons _ _ _ _ rest =>
      obtain ⟨rfl, rfl⟩ := List.cons.inj split
      exact ih rest

/-- The words of an item that has none of the targets looked for. -/
theorem begins_words (valid : item.Valid text) (other : item.targets io = false)
    (separate : ∀ io' word, item ≠ .attached io' word) (followed : ∀ io' operator, item ≠ .dangling io' operator)
    (plain : ∀ io' operator file, item = .target io' operator file → begins text io file = false) :
    ∀ tok ∈ item.words, begins text io tok = false := by
  intro tok member
  cases item with
  | argument word =>
    rw [List.mem_singleton.mp member]
    exact begins_of_operatorOf valid io
  | attached io' word => exact absurd rfl (separate io' word)
  | target io' operator file =>
    rcases List.mem_cons.mp member with rfl | last
    · rw [begins_of_alone valid, decide_eq_false]
      rintro rfl
      exact of_decide_eq_false other rfl
    · rw [List.mem_singleton.mp last]
      exact plain io' operator file rfl
  | dangling io' operator => exact absurd rfl (followed io' operator)

/-- Without a target to find, a pass finds no operator with a word behind it. -/
theorem begins_dropLast (parsed : Parsed text items) (separate : ∀ io' word, .attached io' word ∉ items)
    (none : ∀ item ∈ items, item.targets io = false)
    (plain : ∀ before io' operator file after, items = before ++ .target io' operator file :: after →
      begins text io file = true → after = []) :
    ∀ tok ∈ (spelled items).dropLast, begins text io tok = false := by
  induction parsed with
  | nil => simp [spelled]
  | dangling io' operator alone => simp [spelled, Item.words]
  | cons item items valid followed rest ih =>
    rw [List.forall_mem_cons] at none
    have apart (io' : Io) (word : ω) : item ≠ .attached io' word := by
      rintro rfl
      exact separate io' word List.mem_cons_self
    intro tok member
    rw [spelled_cons] at member
    by_cases last : items = []
    · subst last
      rw [spelled_eq_nil.mpr rfl, List.append_nil] at member
      cases item with
      | argument | attached | dangling => cases member
      | target io' operator file =>
        rw [List.mem_singleton.mp member, begins_of_alone valid, decide_eq_false]
        rintro rfl
        exact of_decide_eq_false none.1 rfl
    · rw [List.dropLast_append_of_ne_nil (mt spelled_eq_nil.mp last), List.mem_append] at member
      rcases member with here | later
      · refine begins_words valid none.1 apart followed (fun io' operator file same => ?_) tok here
        by_contra looks
        exact last (plain [] io' operator file items (by rw [same, List.nil_append]) (by simpa using looks))
      · refine ih (fun io' word within => separate io' word (List.mem_cons_of_mem _ within)) none.2 ?_ tok later
        intro before io' operator file after split looks
        exact plain (item :: before) io' operator file after (by rw [split, List.cons_append]) looks

/-- A pass cuts out the target of its operator, if there is one, and nothing else. -/
theorem cut_spelled (parsed : Parsed text items) (clear : Clear text io items) :
    (∀ item ∈ items, item.targets io = false) ∧ cut (begins text io) (spelled items) = none ∨
      ∃ before operator file after, items = before ++ .target io operator file :: after ∧
        (∀ item ∈ before ++ after, item.targets io = false) ∧
        cut (begins text io) (spelled items) = some (spelled before, operator, file, spelled after) := by
  obtain none | ⟨operator, file, member⟩ := targets_cases io items
  · refine .inl ⟨none, cut_eq_none ?_⟩
    apply begins_dropLast parsed clear.separate none
    intro before io' operator file after split looks
    obtain rfl | last | ⟨item, within, targets⟩ := clear.hidden before io' operator file after split looks
    · have := none (.target io' operator file) (by rw [split]; simp)
      simp [Item.targets] at this
    · exact last
    · have := none item (by rw [split]; exact List.mem_append_left _ within)
      rw [targets] at this
      cases this
  · obtain ⟨before, after, rfl⟩ := List.append_of_mem member
    have others : ∀ item ∈ before ++ after, item.targets io = false := by
      have once := clear.once
      rw [List.countP_append, List.countP_cons_of_pos (targets_self ..), ← Nat.add_assoc, ← List.countP_append] at once
      intro item within
      exact Bool.eq_false_iff.mpr (List.countP_eq_zero.mp (by omega) item within)
    refine .inr ⟨before, operator, file, after, rfl, others, ?_⟩
    rw [spelled_append, spelled_cons]
    apply cut_append
    · intro tok within
      obtain ⟨item, inside, here⟩ := List.mem_flatMap.mp within
      obtain ⟨front, back, rfl⟩ := List.append_of_mem inside
      have split : front ++ item :: back ++ .target io operator file :: after =
          front ++ item :: (back ++ .target io operator file :: after) := by simp
      refine begins_words (parsed.valid (List.mem_append_left _ inside))
        (others item (List.mem_append_left _ inside)) ?_ ?_ ?_ tok here
      · rintro io' word rfl
        exact clear.separate io' word (List.mem_append_left _ inside)
      · exact not_dangling_of_append (split ▸ parsed) (by simp)
      · rintro io' operator' file' rfl
        by_contra looks
        obtain rfl | none | ⟨item, inFront, found⟩ :=
          clear.hidden front io' operator' file' _ split (by simpa using looks)
        · exact absurd (others _ (List.mem_append_left _ inside)) (by simp [Item.targets])
        · simp at none
        · have := others item (List.mem_append_left _ (List.mem_append_left _ inFront))
          rw [found] at this
          cases this
    · rw [begins_of_alone (parsed.valid member), decide_eq_true rfl]

/-! ## The two passes -/

/-- What a pass does. -/
structure Passed (text : ω → Bytes) (io : Io) (items : List (Item ω)) (s t : Workspace (List ω) ω ρ) : Prop where
  cmd : t.cmd = spelled (without io items)
  freed : t.freed = s.freed ++ spelled (items.filter (Item.targets io))
  opened : ∀ pair ∈ t.opened, pair ∈ s.opened ∨
    ∃ operator file, .target io operator file ∈ items ∧ pair = (file, io)
  bound : ∀ operator file, .target io operator file ∈ items → t.fds = bindTo s.fds (text file) io
  unbound : (∀ item ∈ items, item.targets io = false) → t.fds = s.fds

theorem filter_targets_of_none (none : ∀ item ∈ items, item.targets io = false) :
    items.filter (Item.targets io) = [] ∧ without io items = items := by
  constructor
  · rw [List.filter_eq_nil_iff]
    intro item member
    simp [none item member]
  · rw [without, List.filter_eq_self]
    intro item member
    simp [none item member]

theorem filter_targets_of_split (operator file : ω)
    (others : ∀ item ∈ before ++ after, item.targets io = false) :
    (before ++ .target io operator file :: after).filter (Item.targets io) = [.target io operator file] ∧
      without io (before ++ .target io operator file :: after) = before ++ after := by
  have here := targets_self io operator file
  obtain ⟨front, front'⟩ := filter_targets_of_none fun item within => others item (List.mem_append_left _ within)
  obtain ⟨back, back'⟩ := filter_targets_of_none fun item within => others item (List.mem_append_right _ within)
  constructor
  · rw [List.filter_append, List.filter_cons_of_pos here, front, back, List.nil_append]
  · rw [without] at front' back' ⊢
    rw [List.filter_append, List.filter_cons_of_neg (by simp [here]), front', back']

theorem passed_of_split {operator file : ω} (others : ∀ item ∈ before ++ after, item.targets io = false)
    (s : Workspace (List ω) ω ρ) : Passed text io (before ++ .target io operator file :: after) s
      { cmd := spelled before ++ spelled after
        fds := bindTo s.fds (text file) io
        opened := s.opened ++ [(file, io)]
        freed := s.freed ++ [operator, file] } := by
  obtain ⟨only, rest⟩ := filter_targets_of_split operator file others
  have unique (operator' file' : ω)
      (member : .target io operator' file' ∈ before ++ .target io operator file :: after) :
      operator' = operator ∧ file' = file := by
    have here := List.mem_filter.mpr ⟨member, targets_self io operator' file'⟩
    rw [only, List.mem_singleton] at here
    cases here
    exact ⟨rfl, rfl⟩
  constructor
  · rw [rest, spelled_append]
  · rw [only]
    rfl
  · intro pair member
    rcases List.mem_append.mp member with old | new
    · exact .inl old
    · exact .inr ⟨operator, file, by simp, List.mem_singleton.mp new⟩
  · intro operator' file' member
    rw [(unique operator' file' member).2]
  · intro none
    have := none (.target io operator file) (by simp)
    simp [Item.targets] at this

/-- A pass does what the user wrote, unless the file cannot be opened. -/
theorem redirectWords_of_clear (parsed : Parsed text items) (clear : Clear text io items)
    {s : Workspace (List ω) ω ρ} (cmd : s.cmd = spelled items) (opens : Bool) :
    (∃ t, redirectWords text opens io s = .returned t ∧ Passed text io items s t) ∨
      opens = false ∧ ∃ operator file, .target io operator file ∈ items ∧
        redirectWords text opens io s = .crashed { s with opened := s.opened ++ [(file, io)] } := by
  obtain ⟨none, uncut⟩ | ⟨before, operator, file, after, rfl, others, found⟩ := cut_spelled parsed clear
  · obtain ⟨empty, same⟩ := filter_targets_of_none none
    refine .inl ⟨s, ?_, ?_, ?_, ?_, ?_, ?_⟩
    · rw [redirectWords, cmd, uncut]
    · rw [same, cmd]
    · rw [empty]
      exact (List.append_nil _).symm
    · exact fun pair member => .inl member
    · intro operator file member
      have := none _ member
      simp [Item.targets] at this
    · exact fun _ => rfl
  · have member : .target io operator file ∈ before ++ .target io operator file :: after := by simp
    cases opens with
    | false =>
      refine .inr ⟨rfl, operator, file, member, ?_⟩
      rw [redirectWords, cmd, found]
      rfl
    | true =>
      refine .inl ⟨_, ?_, passed_of_split others s⟩
      rw [redirectWords, cmd, found]
      rfl

theorem Single.input {items : List (Item ω)} (single : Single text items) : Clear text .input items where
  separate := single.separate
  once := single.once .input
  hidden before io' operator file after split looks := by
    cases io' with
    | input => exact .inl rfl
    | output => exact .inr (single.hidden before operator file after split looks)

theorem Single.output {items : List (Item ω)} (single : Single text items) :
    Clear text .output (without .input items) where
  separate io' word member := single.separate io' word (List.mem_of_mem_filter member)
  once := le_trans (List.filter_sublist.countP_le) (single.once .output)
  hidden before io' operator file after split _ := by
    cases io' with
    | output => exact .inl rfl
    | input =>
      have member : Item.target .input operator file ∈ without .input items := by
        rw [split]
        simp
      exact absurd (List.mem_filter.mp member).2 (by simp [Item.targets])

/-! ## What stdin and stdout are bound to -/

theorem bindTo_get (fds : FdTable (Handle ρ)) (name : Bytes) (io : Io) (fd : ℕ) :
    (bindTo fds name io).get fd = if fd = io.fd ∨ fd = fds.lowest then some (.file name io) else fds.get fd := by
  have fresh : (fds.install (.file name io)).get fds.lowest = some (.file name io) := by
    rw [FdTable.get_install, if_pos rfl]
  rw [bindTo, FdTable.get_dup2 _ fresh, FdTable.get_install]
  split_ifs <;> first | rfl | omega

/-- The other descriptor keeps what it refers to. -/
theorem bindTo_get_of_ne {fds : FdTable (Handle ρ)} {name : Bytes} {io : Io} {fd : ℕ} {target : Handle ρ}
    (other : fd ≠ io.fd) (here : fds.get fd = some target) : (bindTo fds name io).get fd = some target := by
  rw [bindTo_get, if_neg, here]
  rintro (same | free)
  · exact other same
  · rw [free, fds.get_lowest] at here
    cases here

/-- The descriptor a pass is about. -/
theorem Passed.get_target {s t : Workspace (List ω) ω ρ} (passed : Passed text io items s t)
    {operator file : ω} (member : .target io operator file ∈ items) :
    t.fds.get io.fd = some (.file (text file) io) := by
  rw [passed.bound operator file member, bindTo_get, if_pos (.inl rfl)]

/-- A descriptor a pass is not about. -/
theorem Passed.get_other {s t : Workspace (List ω) ω ρ} (passed : Passed text io items s t) {fd : ℕ}
    {target : Handle ρ} (other : (∃ item ∈ items, item.targets io = true) → fd ≠ io.fd)
    (here : s.fds.get fd = some target) : t.fds.get fd = some target := by
  obtain none | ⟨operator, file, member⟩ := targets_cases io items
  · rw [passed.unbound none]
    exact here
  · rw [passed.bound operator file member]
    exact bindTo_get_of_ne (other ⟨_, member, targets_self ..⟩) here

/-- The words left when the user has written at most one target for each operator, and what stdin and stdout
are bound to then. -/
structure Applied (text : ω → Bytes) (items : List (Item ω)) (fds : FdTable (Handle ρ))
    (t : Workspace (List ω) ω ρ) : Prop where
  cmd : t.cmd = spelled (items.filter fun item => !item.redirects)
  freed : t.freed.Perm (spelled (items.filter Item.redirects))
  opened : ∀ file io, (file, io) ∈ t.opened → ∃ operator, .target io operator file ∈ items
  bound : ∀ io operator file, .target io operator file ∈ items →
    t.fds.get io.fd = some (.file (text file) io)
  unbound : ∀ io target, (∀ item ∈ items, item.targets io = false) → fds.get io.fd = some target →
    t.fds.get io.fd = some target

theorem redirects_eq (separate : ∀ io word, .attached io word ∉ items) (member : item ∈ items) :
    item.redirects = (item.targets .input || item.targets .output) := by
  cases item with
  | attached io word => exact absurd member (separate io word)
  | target io operator file => cases io <;> rfl
  | argument | dangling => rfl

/-- The targets of `<` and then those of `>`. -/
theorem filter_redirects_perm (separate : ∀ io word, .attached io word ∉ items) :
    (items.filter (Item.targets .input) ++ (without .input items).filter (Item.targets .output)).Perm
      (items.filter Item.redirects) := by
  have first : items.filter (Item.targets .input) =
      (items.filter Item.redirects).filter (Item.targets .input) := by
    rw [List.filter_filter]
    apply List.filter_congr
    intro item member
    rw [redirects_eq separate member]
    cases item.targets .input <;> rfl
  have second : (without .input items).filter (Item.targets .output) =
      (items.filter Item.redirects).filter fun item => !item.targets .input := by
    rw [without, List.filter_filter, List.filter_filter]
    apply List.filter_congr
    intro item member
    rw [redirects_eq separate member]
    cases item.targets .input <;> cases item.targets .output <;> rfl
  rw [first, second]
  exact List.filter_append_perm _ _

theorem fd_ne (io : Io) : ∀ io', io' ≠ io → io'.fd ≠ io.fd := by
  intro io' other
  cases io <;> cases io' <;> first | exact absurd rfl other | decide

theorem applied_of_passed (separate : ∀ io word, .attached io word ∉ items) {argv : List ω}
    {fds : FdTable (Handle ρ)} {s t : Workspace (List ω) ω ρ}
    (input : Passed text .input items ⟨argv, fds, [], []⟩ s)
    (output : Passed text .output (without .input items) s t) : Applied text items fds t := by
  have without_mem (item : Item ω) (member : item ∈ without .input items) : item ∈ items :=
    List.mem_of_mem_filter member
  constructor
  · rw [output.cmd]
    simp only [without, List.filter_filter]
    congr 1
    apply List.filter_congr
    intro item member
    rw [redirects_eq separate member]
    cases item.targets .input <;> cases item.targets .output <;> rfl
  · rw [output.freed, input.freed, List.nil_append, ← spelled_append]
    exact (filter_redirects_perm separate).flatMap_right _
  · intro file io member
    rcases output.opened _ member with old | ⟨operator, file', here, same⟩
    · rcases input.opened _ old with none | ⟨operator, file', here, same⟩
      · cases none
      · cases same
        exact ⟨operator, here⟩
    · cases same
      exact ⟨operator, without_mem _ here⟩
  · intro io operator file member
    cases io with
    | input =>
      apply output.get_other
      · exact fun _ => by decide
      · exact input.get_target member
    | output => exact output.get_target (List.mem_filter.mpr ⟨member, by simp [Item.targets]⟩)
  · intro io target none here
    apply output.get_other
    · rintro ⟨item, member, targets⟩
      apply fd_ne
      rintro rfl
      rw [none item (without_mem item member)] at targets
      cases targets
    · apply input.get_other
      · rintro ⟨item, member, targets⟩
        apply fd_ne
        rintro rfl
        rw [none item member] at targets
        cases targets
      · exact here

/-- Both passes do what the user wrote, if the files can be opened. -/
theorem redirectList_of_single (parsed : Parsed text items) (single : Single text items)
    (fds : FdTable (Handle ρ)) (opens : Io → Bool)
    (files : ∀ io, (∃ item ∈ items, item.targets io = true) → opens io = true) :
    ∃ t, redirectList text opens ⟨spelled items, fds, [], []⟩ = .returned t ∧ Applied text items fds t := by
  obtain ⟨s, first, input⟩ | ⟨closed, operator, file, member, -⟩ :=
    redirectWords_of_clear parsed single.input (s := ⟨spelled items, fds, [], []⟩) rfl (opens .input)
  · obtain ⟨t, second, output⟩ | ⟨closed, operator, file, member, -⟩ :=
      redirectWords_of_clear (parsed.sublist List.filter_sublist) single.output input.cmd (opens .output)
    · refine ⟨t, ?_, applied_of_passed single.separate input output⟩
      rw [redirectList, first]
      exact second
    · rw [files .output ⟨_, List.mem_of_mem_filter member, targets_self ..⟩] at closed
      cases closed
  · rw [files .input ⟨_, member, targets_self ..⟩] at closed
    cases closed

end

/-! ## Operators that stand alone -/

/-- The operators are words of their own, each occurs at most once, and a word that begins with neither
follows. -/
structure Plain (argv : List ω) : Prop where
  alone : ∀ tok ∈ argv, ∀ io, begins text io tok = true → text tok = [io.mode]
  once : ∀ io, argv.countP (begins text io) ≤ 1
  followed : ∀ before operator after io, argv = before ++ operator :: after →
    begins text io operator = true → ∃ file rest, after = file :: rest ∧ ∀ io', begins text io' file = false

/-- The words but for the operators and the words behind them. -/
def kept : List ω → List ω
  | [] => []
  | [tok] => [tok]
  | tok :: file :: rest => if (operatorOf text tok).isSome then kept rest else tok :: kept (file :: rest)

/-- The operators and the words behind them. -/
def deleted : List ω → List ω
  | [] => []
  | [_] => []
  | tok :: file :: rest =>
    if (operatorOf text tok).isSome then tok :: file :: deleted rest else deleted (file :: rest)

section

variable {text} {argv : List ω}

theorem begins_of_operatorOf_eq_some {io : Io} {tok : ω} (operator : operatorOf text tok = some io) :
    begins text io tok = true := by
  rw [operatorOf] at operator
  split_ifs at operator with input output
  · cases operator
    exact input
  · cases operator
    exact output

theorem countP_targets_le (io : Io) {items : List (Item ω)} (valid : ∀ item ∈ items, item.Valid text) :
    items.countP (Item.targets io) ≤ (spelled items).countP (begins text io) := by
  induction items with
  | nil => exact Nat.zero_le _
  | cons item items ih =>
    rw [List.forall_mem_cons] at valid
    rw [List.countP_cons, spelled_cons, List.countP_append, Nat.add_comm]
    apply Nat.add_le_add _ (ih valid.2)
    split_ifs with targets
    · obtain ⟨operator, file, rfl⟩ := exists_target_of_targets targets
      apply List.countP_pos_iff.mpr
      exact ⟨operator, List.mem_cons_self, by rw [begins_of_alone valid.1, decide_eq_true rfl]⟩
    · exact Nat.zero_le _

/-- There are only arguments, and operators with targets. -/
theorem Plain.items (plain : Plain text argv) {item : Item ω} (member : item ∈ parse text argv) :
    (∃ word, item = .argument word) ∨
      ∃ io operator file, item = .target io operator file ∧ ∀ io', begins text io' file = false := by
  have parsed := parsed_parse text argv
  have valid := parsed.valid member
  obtain ⟨before, after, split⟩ := List.append_of_mem member
  have argv_ : argv = spelled before ++ (item.words ++ spelled after) := by
    rw [← spelled_cons, ← spelled_append, ← split, spelled_parse]
  rw [split] at parsed
  cases item with
  | argument word => exact .inl ⟨word, rfl⟩
  | attached io word =>
    have inside : word ∈ argv := by
      rw [argv_]
      simp [Item.words]
    exact absurd (plain.alone word inside io (begins_of_operatorOf_eq_some valid.1)) valid.2
  | target io operator file =>
    have looks : begins text io operator = true := by rw [begins_of_alone valid, decide_eq_true rfl]
    obtain ⟨next, rest, same, other⟩ := plain.followed _ operator (file :: spelled after) io argv_ looks
    cases same
    exact .inr ⟨io, operator, file, rfl, other⟩
  | dangling io operator =>
    have looks : begins text io operator = true := by rw [begins_of_alone valid, decide_eq_true rfl]
    obtain ⟨next, rest, same, -⟩ := plain.followed _ operator (spelled after) io argv_ looks
    have more : after ≠ [] := by
      rintro rfl
      cases same
    exact absurd rfl (not_dangling_of_append parsed more io operator)

theorem Plain.single (plain : Plain text argv) : Single text (parse text argv) where
  separate io word member := by
    obtain ⟨_, same⟩ | ⟨_, _, _, same, -⟩ := plain.items member
    · cases same
    · cases same
  once io := by
    have fewer := countP_targets_le io fun item member => (parsed_parse text argv).valid member
    rw [spelled_parse] at fewer
    exact fewer.trans (plain.once io)
  hidden before operator file after split looks := by
    have member : .target .output operator file ∈ parse text argv := by
      rw [split]
      simp
    obtain ⟨_, same⟩ | ⟨_, _, _, same, other⟩ := plain.items member
    · cases same
    · cases same
      rw [other] at looks
      cases looks

theorem forall_before_of_countP {p : ω → Bool} {before rest : List ω} {operator : ω} (found : p operator = true)
    (once : (before ++ operator :: rest).countP p ≤ 1) : ∀ tok ∈ before, p tok = false := by
  rw [List.countP_append, List.countP_cons_of_pos found] at once
  intro tok member
  exact Bool.eq_false_iff.mpr (List.countP_eq_zero.mp (by omega) tok member)

/-- An operator and the word behind it are read as an operator with its target. -/
theorem Plain.target_mem (plain : Plain text argv) {io : Io} {before after : List ω} {operator file : ω}
    (split : argv = before ++ operator :: file :: after) (looks : begins text io operator = true) :
    .target io operator file ∈ parse text argv := by
  have parsed := parsed_parse text argv
  have inside : operator ∈ spelled (parse text argv) := by
    rw [spelled_parse, split]
    simp
  obtain ⟨item, member, here⟩ := List.mem_flatMap.mp inside
  obtain ⟨word, rfl⟩ | ⟨io', operator', file', rfl, other⟩ := plain.items member
  · rw [List.mem_singleton.mp here, begins_of_operatorOf (parsed.valid member)] at looks
    cases looks
  obtain rfl : operator = operator' := by
    rcases List.mem_cons.mp here with same | last
    · exact same
    · rw [List.mem_singleton.mp last, other] at looks
      cases looks
  obtain rfl : io = io' := by
    rw [begins_of_alone (parsed.valid member)] at looks
    exact of_decide_eq_true looks
  obtain ⟨front, back, items⟩ := List.append_of_mem member
  have again : argv = spelled front ++ operator :: file' :: spelled back := by
    rw [← spelled_parse text argv, items, spelled_append, spelled_cons]
    rfl
  have left := cut_append (forall_before_of_countP looks (split ▸ plain.once io)) looks file after
  have right := cut_append (forall_before_of_countP looks (again ▸ plain.once io)) looks file' (spelled back)
  rw [← split] at left
  rw [← again, left] at right
  cases right
  exact member

theorem kept_spelled {items : List (Item ω)} (valid : ∀ item ∈ items, item.Valid text)
    (plain : ∀ item ∈ items, (∃ word, item = .argument word) ∨ ∃ io operator file,
      item = .target io operator file) :
    kept text (spelled items) = spelled (items.filter fun item => !item.redirects) ∧
      deleted text (spelled items) = spelled (items.filter Item.redirects) := by
  induction items with
  | nil => exact ⟨rfl, rfl⟩
  | cons item items ih =>
    rw [List.forall_mem_cons] at valid plain
    obtain ⟨keeps, deletes⟩ := ih valid.2 plain.2
    rw [spelled_cons]
    obtain ⟨word, rfl⟩ | ⟨io, operator, file, rfl⟩ := plain.1
    · have none : operatorOf text word = none := valid.1
      rw [List.filter_cons_of_pos rfl, List.filter_cons_of_neg (by simp [Item.redirects]), spelled_cons,
        ← keeps, ← deletes]
      cases spelled items <;> simp [Item.words, kept, deleted, none]
    · have some_ : operatorOf text operator = some io := operatorOf_of_alone valid.1
      rw [List.filter_cons_of_neg (by simp [Item.redirects]), List.filter_cons_of_pos rfl, spelled_cons,
        ← keeps, ← deletes]
      simp [Item.words, kept, deleted, some_]

end

/-- Where the operators stand alone, `redirect` leaves the other words in order, frees the operators and their
targets once each, and binds stdin and stdout to the files; a descriptor without an operator stays as it
is. -/
theorem redirect_of_plain {argv : List ω} (plain : Plain text argv) {cells : ℕ → Option ω}
    (holds : Terminated cells argv) (fds : FdTable (Handle ρ)) (opens : Io → Bool)
    (files : ∀ io, (∃ tok ∈ argv, begins text io tok = true) → opens io = true) :
    ∃ s, Converges (redirect text opens ⟨cells, fds, [], []⟩) (.returned s) ∧
      Terminated s.cmd (kept text argv) ∧ s.freed.Perm (deleted text argv) ∧
      (∀ io before operator file after, argv = before ++ operator :: file :: after →
        begins text io operator = true → s.fds.get io.fd = some (.file (text file) io)) ∧
      ∀ io target, (∀ tok ∈ argv, begins text io tok = false) → fds.get io.fd = some target →
        s.fds.get io.fd = some target := by
  have parsed := parsed_parse text argv
  have start : Workspace.Holds ⟨cells, fds, [], []⟩ ⟨spelled (parse text argv), fds, [], []⟩ := by
    rw [spelled_parse]
    exact ⟨holds, rfl, rfl, rfl⟩
  have operator_mem {io : Io} {operator file : ω} (member : .target io operator file ∈ parse text argv) :
      operator ∈ argv ∧ begins text io operator = true := by
    constructor
    · rw [← spelled_parse text argv]
      exact List.mem_flatMap.mpr ⟨_, member, List.mem_cons_self⟩
    · rw [begins_of_alone (parsed.valid member), decide_eq_true rfl]
  obtain ⟨t, done, applied⟩ := redirectList_of_single parsed plain.single fds opens (by
    rintro io ⟨item, member, targets⟩
    obtain ⟨operator, file, rfl⟩ := exists_target_of_targets targets
    obtain ⟨inside, looks⟩ := operator_mem member
    exact files io ⟨operator, inside, looks⟩)
  obtain ⟨r, ends, same⟩ := redirect_refines text opens start
  rw [done] at same
  obtain ⟨keeps, deletes⟩ := kept_spelled (fun item member => parsed.valid member) (fun item member => by
    obtain ⟨word, same⟩ | ⟨io, operator, file, same, -⟩ := plain.items member
    · exact .inl ⟨word, same⟩
    · exact .inr ⟨io, operator, file, same⟩)
  rw [spelled_parse] at keeps deletes
  cases r with
  | crashed s => cases same
  | returned s =>
    obtain ⟨array, sameFds, -, sameFreed⟩ := same
    refine ⟨s, ends, ?_, ?_, ?_, ?_⟩
    · rw [keeps, ← applied.cmd]
      exact array
    · rw [deletes, sameFreed]
      exact applied.freed
    · intro io before operator file after split looks
      rw [sameFds]
      exact applied.bound io operator file (plain.target_mem split looks)
    · intro io target none here
      rw [sameFds]
      apply applied.unbound io target _ here
      obtain absent | ⟨operator, file, member⟩ := targets_cases io (parse text argv)
      · exact absent
      obtain ⟨inside, looks⟩ := operator_mem member
      rw [none operator inside] at looks
      cases looks

/-- What `Plain` asks for behind an operator, place by place. -/
theorem Plain.of_places {argv : List ω} (alone : ∀ tok ∈ argv, ∀ io, begins text io tok = true → text tok = [io.mode])
    (once : ∀ io, argv.countP (begins text io) ≤ 1)
    (followed : ∀ i < argv.length, ∀ io, argv[i]?.any (begins text io) = true →
      argv[i + 1]?.any (fun file => !begins text .input file && !begins text .output file) = true) :
    Plain text argv where
  alone := alone
  once := once
  followed before operator after io split looks := by
    have next := followed before.length (by simp [split]) io (by simp [split, looks])
    rw [split, List.getElem?_append_right (Nat.le_succ _), Nat.succ_eq_add_one, Nat.add_sub_cancel_left,
      List.getElem?_cons_succ] at next
    cases after with
    | nil => cases next
    | cons file rest =>
      simp only [List.getElem?_cons_zero, Option.any_some, Bool.and_eq_true, Bool.not_eq_true'] at next
      refine ⟨file, rest, rfl, fun io' => ?_⟩
      cases io' with
      | input => exact next.1
      | output => exact next.2

instance (p : Io → Prop) [DecidablePred p] : Decidable (∀ io, p io) :=
  decidable_of_iff (p .input ∧ p .output) ⟨fun both io => io.casesOn both.1 both.2, fun all => ⟨all _, all _⟩⟩

/-- `cat < f` -/
def catFrom : List Bytes := [[99, 97, 116], [60], [102]]

theorem plain_catFrom : Plain id catFrom := .of_places id (by decide) (by decide) (by decide)

/-- `> o < f cat` -/
def catBoth : List Bytes := [[62], [111], [60], [102], [99, 97, 116]]

theorem plain_catBoth : Plain id catBoth := .of_places id (by decide) (by decide) (by decide)

/-- The descriptors of a process that has none open. -/
def noFds : FdTable (Handle Unit) := ⟨fun _ => none, 0, fun _ _ => rfl⟩

theorem redirect_of_plain_catBoth : ∃ s,
    Converges (redirect id (fun _ => true) ⟨fun i => catBoth[i]?, noFds, [], []⟩) (.returned s) ∧
      Terminated s.cmd [[99, 97, 116]] ∧ s.freed.Perm [[62], [111], [60], [102]] ∧
      s.fds.get 0 = some (.file [102] .input) ∧ s.fds.get 1 = some (.file [111] .output) := by
  obtain ⟨s, ends, words, freed, bound, -⟩ := redirect_of_plain id plain_catBoth (terminated_getElem? _) noFds
    (fun _ => true) (fun _ _ => rfl)
  exact ⟨s, ends, words, freed, bound .input [[62], [111]] [60] [102] [[99, 97, 116]] rfl rfl,
    bound .output [] [62] [111] [[60], [102], [99, 97, 116]] rfl rfl⟩

end SystemProgramming.Shell
