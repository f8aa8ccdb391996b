import SystemProgramming.Shell.Redirections
import Mathlib.Data.List.Pairwise
import Mathlib.Data.List.Flatten

/-! # Attached and repeated operators

Which words `redirect` may open and remove is said for any list of words, as the user reads it. The two passes
keep to this exactly for the lists that `Single` describes.
-/

namespace SystemProgramming.Shell

open Lib

variable {ω ρ : Type*} (text : ω → Bytes)

def Outcome.state {σ : Type*} : Outcome σ → σ
  | returned s => s
  | crashed s => s

/-- The word belongs to an operator with a target. -/
def Redirects (argv : List ω) (tok : ω) : Prop :=
  ∃ item ∈ parse text argv, item.redirects = true ∧ tok ∈ item.words

/-- The files opened are targets, where the rest of a word that begins with an operator is no word; no other word is
removed; and in the end there is no operator with a target. -/
structure Honest (argv : List ω) (r : Outcome (Workspace (List ω) ω ρ)) : Prop where
  opened : ∀ file io, (file, io) ∈ r.state.opened → ∃ operator, .target io operator file ∈ parse text argv
  freed : ∀ tok ∈ r.state.freed, Redirects text argv tok
  kept : ∀ tok ∈ argv, tok ∈ r.state.cmd ∨ Redirects text argv tok
  left : ∀ s, r = .returned s → ∀ item ∈ parse text s.cmd, item.redirects = false

section

variable {text} {io : Io} {items before after : List (Item ω)} {argv : List ω}

theorem Outcome.Holds.unique {r : Outcome (Workspace (ℕ → Option ω) ω ρ)}
    {words other : Outcome (Workspace (List ω) ω ρ)} (holds : r.Holds words) (also : r.Holds other) :
    words = other := by
  have same {s : Workspace (ℕ → Option ω) ω ρ} {left right : Workspace (List ω) ω ρ} (holds : s.Holds left)
      (also : s.Holds right) : left = right := by
    obtain ⟨cmd, fds, opened, freed⟩ := left
    obtain ⟨cmd', fds', opened', freed'⟩ := right
    obtain ⟨array, rfl, rfl, rfl⟩ := holds
    obtain ⟨array', rfl, rfl, rfl⟩ := also
    exact congrArg (Workspace.mk · _ _ _) (array.unique array')
  cases r with
  | returned s =>
    cases words with
    | crashed _ => cases holds
    | returned left =>
      cases other with
      | crashed _ => cases also
      | returned right => exact congrArg _ (same holds also)
  | crashed s =>
    cases words with
    | returned _ => cases holds
    | crashed left =>
      cases other with
      | returned _ => cases also
      | crashed right => exact congrArg _ (same holds also)

/-- What is said of the list an array holds after `redirect` is said of the list after both passes. -/
theorem exists_holds_iff {s : Workspace (ℕ → Option ω) ω ρ} {words : Workspace (List ω) ω ρ}
    (holds : s.Holds words) {opens : Io → Bool} {P : Outcome (Workspace (List ω) ω ρ) → Prop} :
    (∃ r left, Converges (redirect text opens s) r ∧ r.Holds left ∧ P left) ↔ P (redirectList text opens words) := by
  obtain ⟨r, ends, same⟩ := redirect_refines text opens holds
  constructor
  · rintro ⟨r', left, ends', same', property⟩
    cases ends.unique ends'
    cases same.unique same'
    exact property
  · intro property
    exact ⟨r, _, ends, same, property⟩

/-! ## The lists of `Single` -/

theorem redirects_of_mem_filter {tok : ω} {p : Item ω → Bool} (redirects : ∀ item, p item = true →
    item.redirects = true) (within : tok ∈ spelled ((parse text argv).filter p)) : Redirects text argv tok := by
  obtain ⟨item, member, here⟩ := List.mem_flatMap.mp within
  obtain ⟨member, found⟩ := List.mem_filter.mp member
  exact ⟨item, member, redirects item found, here⟩

theorem redirects_of_targets {item : Item ω} (targets : item.targets io = true) : item.redirects = true := by
  obtain ⟨operator, file, rfl⟩ := exists_target_of_targets targets
  rfl

/-- A word is left or belongs to an item that has been left out. -/
theorem mem_or_redirects {tok : ω} {p : Item ω → Bool} (redirects : ∀ item, p item = false →
    item.redirects = true) (member : tok ∈ argv) :
    tok ∈ spelled ((parse text argv).filter p) ∨ Redirects text argv tok := by
  rw [← spelled_parse text argv] at member
  obtain ⟨item, inside, here⟩ := List.mem_flatMap.mp member
  cases stays : p item with
  | true => exact .inl (List.mem_flatMap.mpr ⟨item, List.mem_filter.mpr ⟨inside, stays⟩, here⟩)
  | false => exact .inr ⟨item, inside, redirects item stays, here⟩

theorem honest_of_single (single : Single text (parse text argv)) (fds : FdTable (Handle ρ))
    (opens : Io → Bool) : Honest text argv (redirectList text opens ⟨argv, fds, [], []⟩) := by
  have parsed := parsed_parse text argv
  have start : argv = spelled (parse text argv) := (spelled_parse text argv).symm
  have out (io : Io) (item : Item ω) (left : (!item.targets io) = false) : item.redirects = true :=
    redirects_of_targets (by simpa using left)
  obtain ⟨s, first, input⟩ | ⟨-, operator, file, member, first⟩ :=
    redirectWords_of_clear parsed single.input (s := ⟨argv, fds, [], []⟩) start (opens .input)
  rotate_left
  · rw [redirectList, first]
    refine ⟨fun file' io' opened => ?_, fun tok freed => ?_, fun tok inside => .inl inside, fun s other => ?_⟩
    · cases List.mem_singleton.mp opened
      exact ⟨operator, member⟩
    · cases freed
    · cases other
  have opened (file : ω) (io : Io) (before : (file, io) ∈ s.opened) :
      ∃ operator, .target io operator file ∈ parse text argv := by
    rcases input.opened _ before with none | ⟨operator, file', here, same⟩
    · cases none
    · cases same
      exact ⟨operator, here⟩
  have freed (tok : ω) (before : tok ∈ s.freed) : Redirects text argv tok := by
    rw [input.freed, List.nil_append] at before
    exact redirects_of_mem_filter (fun _ => redirects_of_targets) before
  obtain ⟨t, second, output⟩ | ⟨-, operator, file, member, second⟩ :=
    redirectWords_of_clear (parsed.sublist List.filter_sublist) single.output input.cmd (opens .output)
  · have applied := applied_of_passed single.separate input output
    rw [redirectList, first]
    dsimp only
    rw [second]
    refine ⟨applied.opened, fun tok within => ?_, fun tok inside => ?_, fun u same item member => ?_⟩
    · exact redirects_of_mem_filter (fun _ redirects => redirects) (applied.freed.mem_iff.mp within)
    · change tok ∈ t.cmd ∨ _
      rw [applied.cmd]
      exact mem_or_redirects (fun item stays => by simpa using stays) inside
    · cases same
      rw [applied.cmd, (parsed.sublist List.filter_sublist).parse_spelled] at member
      simpa using (List.mem_filter.mp member).2
  · rw [redirectList, first]
    dsimp only
    rw [second]
    refine ⟨fun file' io' both => ?_, freed, fun tok inside => ?_, fun s other => ?_⟩
    · rcases List.mem_append.mp both with before | now
      · exact opened file' io' before
      · cases List.mem_singleton.mp now
        exact ⟨operator, List.mem_of_mem_filter member⟩
    · change tok ∈ s.cmd ∨ _
      rw [input.cmd]
      exact mem_or_redirects (out .input) inside
    · cases other

/-! ## All others -/

/-- A word stands at one place only. -/
theorem append_cons_inj {word : ω} {front back front' back' : List ω} (nodup : (front ++ word :: back).Nodup)
    (same : front ++ word :: back = front' ++ word :: back') : front = front' ∧ back = back' := by
  rw [List.nodup_middle, List.nodup_cons, List.mem_append, not_or] at nodup
  obtain ⟨left, -, right⟩ := (List.append_cons_inj_of_notMem nodup.1.1 nodup.1.2).mp same
  exact ⟨left, right⟩

/-- Two words that are cut out as an operator with its target are one if the second is a target. -/
theorem target_of_cut (nodup : (spelled items).Nodup) {before after : List ω} {operator operator' file : ω}
    (split : spelled items = before ++ operator :: file :: after)
    (member : .target io operator' file ∈ items) : operator = operator' ∧ ∃ front back,
      items = front ++ .target io operator file :: back ∧ before = spelled front ∧ after = spelled back := by
  obtain ⟨front, back, rfl⟩ := List.append_of_mem member
  have again : spelled (front ++ .target io operator' file :: back) =
      (spelled front ++ [operator']) ++ file :: spelled back := by
    rw [spelled_append, spelled_cons]
    simp [Item.words]
  have here : spelled (front ++ .target io operator' file :: back) = (before ++ [operator]) ++ file :: after := by
    rw [split]
    simp
  obtain ⟨same, rest⟩ := append_cons_inj (here ▸ nodup) (here.symm.trans again)
  obtain ⟨rfl, last⟩ := List.append_inj' same rfl
  obtain rfl := List.singleton_inj.mp last
  exact ⟨rfl, front, back, rfl, rfl, rest⟩

/-- A word belongs to one item only. -/
theorem eq_of_mem_words (nodup : (spelled items).Nodup) {item other : Item ω} {tok : ω} (member : item ∈ items)
    (also : other ∈ items) (within : tok ∈ item.words) (here : tok ∈ other.words) : item = other := by
  by_contra apart
  have disjoint := (List.nodup_flatMap.mp nodup).2
  have : Std.Symm (Function.onFun List.Disjoint (Item.words (ω := ω))) := ⟨fun _ _ => List.disjoint_symm⟩
  exact (disjoint.forall member also apart) within here

/-- What is left of the items when at most one target of an operator has been cut out. -/
def CutOut (io : Io) (items rest : List (Item ω)) : Prop :=
  rest = items ∨ ∃ before operator file after, items = before ++ .target io operator file :: after ∧
    rest = before ++ after

theorem CutOut.sublist {rest : List (Item ω)} (out : CutOut io items rest) : rest.Sublist items := by
  obtain rfl | ⟨before, operator, file, after, rfl, rfl⟩ := out
  · exact List.Sublist.refl _
  · exact (List.Sublist.refl before).append (List.sublist_cons_self _ _)

theorem CutOut.mem {rest : List (Item ω)} (out : CutOut io items rest) {item : Item ω} (member : item ∈ items)
    (other : item.targets io = false) : item ∈ rest := by
  obtain rfl | ⟨before, operator, file, after, rfl, rfl⟩ := out
  · exact member
  · rcases List.mem_append.mp member with front | here
    · exact List.mem_append_left _ front
    · rcases List.mem_cons.mp here with rfl | back
      · rw [targets_self] at other
        cases other
      · exact List.mem_append_right _ back

theorem CutOut.countP_le {rest : List (Item ω)} (out : CutOut io items rest) (io' : Io) :
    items.countP (Item.targets io') ≤ rest.countP (Item.targets io') + if io = io' then 1 else 0 := by
  obtain rfl | ⟨before, operator, file, after, rfl, rfl⟩ := out
  · exact Nat.le_add_right _ _
  · have here : Item.targets io' (.target io operator file) = decide (io = io') := rfl
    rw [List.countP_append, List.countP_append, List.countP_cons, here]
    simp only [decide_eq_true_eq]
    omega

/-- A pass whose file can be opened. -/
theorem redirectWords_true (text : ω → Bytes) (io : Io) (s : Workspace (List ω) ω ρ) :
    redirectWords text true io s = .returned s ∧ (∀ tok ∈ s.cmd.dropLast, begins text io tok = false) ∨
      ∃ before operator file after, s.cmd = before ++ operator :: file :: after ∧
        begins text io operator = true ∧ (∀ tok ∈ before, begins text io tok = false) ∧
        redirectWords text true io s = .returned
          { cmd := before ++ after
            fds := bindTo s.fds (text file) io
            opened := s.opened ++ [(file, io)]
            freed := s.freed ++ [operator, file] } := by
  obtain others | ⟨before, operator, file, after, split, found, others⟩ := cut_cases (begins text io) s.cmd
  · refine .inl ⟨?_, others⟩
    rw [redirectWords, cut_eq_none others]
  · refine .inr ⟨before, operator, file, after, split, found, others, ?_⟩
    rw [redirectWords, split, cut_append others found]
    rfl

/-- A pass opens no less than has been opened before. -/
theorem exists_returned (text : ω → Bytes) (io : Io) (s : Workspace (List ω) ω ρ) :
    ∃ t, redirectWords text true io s = .returned t ∧ ∀ pair ∈ s.opened, pair ∈ t.opened := by
  obtain ⟨done, -⟩ | ⟨before, operator, file, after, -, -, -, done⟩ := redirectWords_true text io s
  · exact ⟨s, done, fun _ member => member⟩
  · exact ⟨_, done, fun _ member => List.mem_append_left _ member⟩

/-- Both passes when the files can be opened. -/
theorem exists_redirectList (text : ω → Bytes) (w : Workspace (List ω) ω ρ) : ∃ s t,
    redirectWords text true .input w = .returned s ∧ redirectWords text true .output s = .returned t ∧
      redirectList text (fun _ => true) w = .returned t ∧ ∀ pair ∈ s.opened, pair ∈ t.opened := by
  obtain ⟨s, first, -⟩ := exists_returned text .input w
  obtain ⟨t, second, keeps⟩ := exists_returned text .output s
  refine ⟨s, t, first, second, ?_, keeps⟩
  rw [redirectList, first]
  exact second

/-- A pass that opens targets only cuts out a target of its operator, if anything. -/
theorem cutOut_of_opened (nodup : (spelled items).Nodup) {s t : Workspace (List ω) ω ρ}
    (cmd : s.cmd = spelled items) (done : redirectWords text true io s = .returned t)
    (targets : ∀ file, (file, io) ∈ t.opened → ∃ operator, .target io operator file ∈ items) :
    ∃ rest, CutOut io items rest ∧ t.cmd = spelled rest := by
  obtain ⟨same, -⟩ | ⟨before, operator, file, after, split, -, -, same⟩ := redirectWords_true text io s
  · cases done.symm.trans same
    exact ⟨items, .inl rfl, cmd⟩
  · cases done.symm.trans same
    obtain ⟨operator', member⟩ := targets file (List.mem_append_right _ (List.mem_singleton.mpr rfl))
    obtain ⟨rfl, front, back, rfl, rfl, rfl⟩ := target_of_cut nodup (cmd.symm.trans split) member
    exact ⟨front ++ back, .inr ⟨front, operator, file, back, rfl, rfl⟩, (spelled_append _ _).symm⟩

/-- A target of `>` that the first pass takes for an operator is followed by a word that is no target. -/
theorem hidden_of_opened (parsed : Parsed text items) (nodup : (spelled items).Nodup)
    (separate : ∀ io word, .attached io word ∉ items) (once : items.countP (Item.targets .output) ≤ 1)
    {s t : Workspace (List ω) ω ρ} (cmd : s.cmd = spelled items)
    (done : redirectWords text true .input s = .returned t)
    (targets : ∀ file, (file, .input) ∈ t.opened → ∃ operator, .target .input operator file ∈ items)
    {operator file : ω} (split : items = before ++ .target .output operator file :: after)
    (looks : begins text .input file = true) : after = [] ∨ ∃ item ∈ before, item.targets .input = true := by
  by_contra neither
  rw [not_or] at neither
  obtain ⟨more, none⟩ := neither
  have member : .target .output operator file ∈ items := by
    rw [split]
    simp
  obtain ⟨next, behind, words⟩ := List.exists_cons_of_ne_nil (mt spelled_eq_nil.mp more)
  have others : ∀ tok ∈ spelled before ++ [operator], begins text .input tok = false := by
    intro tok within
    rcases List.mem_append.mp within with front | last
    · obtain ⟨item, inside, here⟩ := List.mem_flatMap.mp front
      obtain ⟨left, right, rfl⟩ := List.append_of_mem inside
      have item_mem : item ∈ items := by
        rw [split]
        exact List.mem_append_left _ inside
      have place : items = left ++ item :: (right ++ .target .output operator file :: after) := by
        rw [split]
        simp
      refine begins_words (parsed.valid item_mem) ?_ ?_ ?_ ?_ tok here
      · by_contra found
        exact none ⟨item, inside, by simpa using found⟩
      · rintro io' word rfl
        exact separate io' word item_mem
      · exact not_dangling_of_append (place ▸ parsed) (by simp)
      · rintro io' operator' file' rfl
        by_contra _
        cases io' with
        | input => exact none ⟨_, inside, rfl⟩
        | output =>
          rw [place, List.countP_append, List.countP_cons_of_pos (targets_self ..), List.countP_append,
            List.countP_cons_of_pos (targets_self ..)] at once
          omega
    · rw [List.mem_singleton.mp last, begins_of_alone (parsed.valid member)]
      rfl
  have place : s.cmd = (spelled before ++ [operator]) ++ file :: next :: behind := by
    rw [cmd, split, spelled_append, spelled_cons, words]
    simp [Item.words]
  have found := cut_append others looks next behind
  rw [← place] at found
  have opened : (next, Io.input) ∈ t.opened := by
    rw [redirectWords, found] at done
    cases done
    simp
  obtain ⟨operator', wrong⟩ := targets next opened
  obtain ⟨rfl, -⟩ := target_of_cut nodup (cmd.symm.trans place) wrong
  have within : file ∈ Item.words (.target Io.output operator file) := by simp [Item.words]
  have here : file ∈ Item.words (.target Io.input file next) := by simp [Item.words]
  cases eq_of_mem_words nodup member wrong within here

theorem single_of_honest (nodup : argv.Nodup) {fds : FdTable (Handle ρ)}
    (honest : Honest text argv (redirectList text (fun _ => true) ⟨argv, fds, [], []⟩)) :
    Single text (parse text argv) := by
  have parsed := parsed_parse text argv
  have start : argv = spelled (parse text argv) := (spelled_parse text argv).symm
  have distinct : (spelled (parse text argv)).Nodup := start ▸ nodup
  obtain ⟨s, t, first, second, done, keeps⟩ :=
    exists_redirectList text (⟨argv, fds, [], []⟩ : Workspace (List ω) ω ρ)
  rw [done] at honest
  have targets (file : ω) (early : (file, Io.input) ∈ s.opened) :
      ∃ operator, .target .input operator file ∈ parse text argv :=
    honest.opened file .input (keeps _ early)
  obtain ⟨rest, out, cmd⟩ := cutOut_of_opened distinct start first targets
  have apart : (spelled rest).Nodup := distinct.sublist (out.sublist.flatMap _)
  obtain ⟨last, out', cmd'⟩ := cutOut_of_opened apart cmd second fun file now => by
    obtain ⟨operator, member⟩ := honest.opened file .output now
    exact ⟨operator, out.mem member rfl⟩
  have plain : ∀ item ∈ last, item.redirects = false := by
    intro item member
    apply honest.left t rfl
    rwa [cmd', (parsed.sublist (out'.sublist.trans out.sublist)).parse_spelled]
  have separate (io : Io) (word : ω) : .attached io word ∉ parse text argv := by
    intro member
    have := plain _ (out'.mem (out.mem member rfl) rfl)
    cases this
  have once (io : Io) : (parse text argv).countP (Item.targets io) ≤ 1 := by
    have none : last.countP (Item.targets io) = 0 := by
      rw [List.countP_eq_zero]
      intro item member found
      have := plain item member
      rw [redirects_of_targets found] at this
      cases this
    have fewer := out.countP_le io
    have fewer' := out'.countP_le io
    cases io with
    | input =>
      rw [if_pos rfl] at fewer
      rw [if_neg (by decide)] at fewer'
      omega
    | output =>
      rw [if_neg (by decide)] at fewer
      rw [if_pos rfl] at fewer'
      omega
  refine ⟨separate, once, fun before operator file after split looks => ?_⟩
  exact hidden_of_opened parsed distinct separate (once .output) start first targets split looks

end

/-- `redirect` opens and removes what the user wrote, whatever files can be opened, exactly if every operator
stands alone, none has two targets, and no target of `>` begins with `<` unless an operator `<` has come
before or no word follows. -/
theorem honest_iff_single {argv : List ω} (nodup : argv.Nodup) {cells : ℕ → Option ω}
    (holds : Terminated cells argv) (fds : FdTable (Handle ρ)) :
    (∀ opens, ∃ r words, Converges (redirect text opens ⟨cells, fds, [], []⟩) r ∧ r.Holds words ∧
      Honest text argv words) ↔ Single text (parse text argv) := by
  have start : Workspace.Holds ⟨cells, fds, [], []⟩ ⟨argv, fds, [], []⟩ := ⟨holds, rfl, rfl, rfl⟩
  constructor
  · intro honest
    apply single_of_honest nodup
    exact (exists_holds_iff start).mp (honest fun _ => true)
  · intro single opens
    rw [exists_holds_iff start]
    exact honest_of_single single fds opens

/-- `sort > a > b`, each word with its place in memory. -/
def sortTwice : List (ℕ × Bytes) := [(0, [115, 111, 114, 116]), (1, [62]), (2, [97]), (3, [62]), (4, [98])]

theorem honest_iff_single_sortTwice : ¬ ∀ opens, ∃ r words,
    Converges (redirect Prod.snd opens ⟨fun i => sortTwice[i]?, noFds, [], []⟩) r ∧ r.Holds words ∧
      Honest Prod.snd sortTwice words := by
  rw [honest_iff_single Prod.snd (by decide) (terminated_getElem? sortTwice) noFds]
  intro single
  exact absurd (single.once .output) (by decide)

/-- `sort >out data` -/
def sortOut : List Bytes := [[115, 111, 114, 116], [62, 111, 117, 116], [100, 97, 116, 97]]

/-- It truncates `data`. -/
theorem not_honest_sortOut : ¬ ∀ opens, ∃ r words,
    Converges (redirect id opens ⟨fun i => sortOut[i]?, noFds, [], []⟩) r ∧ r.Holds words ∧
      Honest id sortOut words := by
  intro honest
  have start : Workspace.Holds ⟨fun i => sortOut[i]?, noFds, [], []⟩ ⟨sortOut, noFds, [], []⟩ :=
    ⟨terminated_getElem? sortOut, rfl, rfl, rfl⟩
  have honest := (exists_holds_iff start).mp (honest fun _ => true)
  obtain ⟨operator, member⟩ := honest.opened [100, 97, 116, 97] .output (by decide)
  have items : parse id sortOut = [.argument [115, 111, 114, 116], .attached .output [62, 111, 117, 116],
      .argument [100, 97, 116, 97]] := rfl
  rw [items] at member
  simp at member

end SystemProgramming.Shell
