import SystemProgramming.Shell.Targets

/-! # The words a command gets

What `redirect` finds depends on the texts of the words only. What it passes on is said of the words themselves,
since the same text can stand for an argument and for a target.
-/

namespace SystemProgramming.Shell

open Lib

variable {ω ρ : Type*} (text : ω → Bytes)

/-! ## Texts and words -/

def Item.map {ω' : Type*} (f : ω → ω') : Item ω → Item ω'
  | argument word => argument (f word)
  | attached io word => attached io (f word)
  | target io operator file => target io (f operator) (f file)
  | dangling io operator => dangling io (f operator)

def Item.isArgument : Item ω → Bool
  | argument _ => true
  | attached _ _ => false
  | target _ _ _ => false
  | dangling _ _ => false

/-- Both passes find what the user wrote, every operator has a target, and there is a command. -/
structure Simple (items : List (Item ω)) : Prop extends Single text items where
  complete : ∀ io operator, .dangling io operator ∉ items
  command : ∃ word, .argument word ∈ items

/-- The words left are the arguments of a command. -/
structure Delivered (argv : List ω) (r : Outcome (Workspace (List ω) ω ρ)) : Prop extends Honest text argv r where
  command : ∀ s, r = .returned s → s.cmd ≠ []
  passed : ∀ s, r = .returned s → ∀ tok ∈ s.cmd, .argument tok ∈ parse text argv

section

variable {text} {io : Io} {items : List (Item ω)} {argv : List ω}

theorem exists_argument {item : Item ω} (found : item.isArgument = true) : ∃ word, item = .argument word := by
  cases item with
  | argument word => exact ⟨word, rfl⟩
  | attached | target | dangling => cases found

@[simp] theorem targets_map (io : Io) (item : Item ω) : (item.map text).targets io = item.targets io := by
  cases item <;> rfl

theorem spelled_map (items : List (Item ω)) :
    spelled (items.map (Item.map text)) = (spelled items).map text := by
  induction items with
  | nil => rfl
  | cons item items ih =>
    rw [List.map_cons, spelled_cons, spelled_cons, List.map_append, ih]
    cases item <;> rfl

theorem Parsed.map (parsed : Parsed text items) : Parsed id (items.map (Item.map text)) := by
  induction parsed with
  | nil => exact .nil
  | dangling io operator alone => exact .dangling io (text operator) alone
  | cons item items valid followed rest ih =>
    refine .cons _ _ ?_ ?_ ih
    · cases item <;> exact valid
    · cases item with
      | argument | attached | target =>
        intro io' operator same
        cases same
      | dangling io operator => exact absurd rfl (followed io operator)

/-- A list of words is read by its texts. -/
theorem parse_map (text : ω → Bytes) (argv : List ω) :
    parse id (argv.map text) = (parse text argv).map (Item.map text) := by
  have read := (parsed_parse text argv).map.parse_spelled
  rwa [spelled_map, spelled_parse] at read

/-- What `redirect` finds depends on the texts only. -/
theorem single_map : Single id (items.map (Item.map text)) ↔ Single text items := by
  constructor
  · intro single
    refine ⟨fun io word member => ?_, fun io => ?_, fun before operator file after split looks => ?_⟩
    · exact single.separate io (text word) (List.mem_map.mpr ⟨_, member, rfl⟩)
    · have once := single.once io
      rw [List.countP_map] at once
      simpa [Function.comp_def] using once
    · obtain last | ⟨item, member, targets⟩ := single.hidden (before.map (Item.map text)) (text operator)
        (text file) (after.map (Item.map text)) (by rw [split, List.map_append, List.map_cons]; rfl) looks
      · exact .inl (List.map_eq_nil_iff.mp last)
      · obtain ⟨item, inside, rfl⟩ := List.mem_map.mp member
        rw [targets_map] at targets
        exact .inr ⟨item, inside, targets⟩
  · intro single
    refine ⟨fun io word member => ?_, fun io => ?_, fun before operator file after split looks => ?_⟩
    · obtain ⟨item, inside, same⟩ := List.mem_map.mp member
      cases item with
      | attached io' word' => exact single.separate io' word' inside
      | argument | target | dangling => cases same
    · rw [List.countP_map]
      simpa [Function.comp_def] using single.once io
    · obtain ⟨front, rest, rfl, rfl, back⟩ := List.map_eq_append_iff.mp split
      obtain ⟨item, behind, rfl, same, rfl⟩ := List.map_eq_cons_iff.mp back
      cases item with
      | target io' operator' file' =>
        cases same
        obtain rfl | ⟨item, inside, targets⟩ := single.hidden front operator' file' behind rfl looks
        · exact .inl rfl
        · exact .inr ⟨item.map text, List.mem_map.mpr ⟨item, inside, rfl⟩, by rwa [targets_map]⟩
      | argument | attached | dangling => cases same

theorem simple_map : Simple id (items.map (Item.map text)) ↔ Simple text items := by
  constructor
  · intro simple
    refine ⟨single_map.mp simple.toSingle, fun io operator member => ?_, ?_⟩
    · exact simple.complete io (text operator) (List.mem_map.mpr ⟨_, member, rfl⟩)
    · obtain ⟨word, member⟩ := simple.command
      obtain ⟨item, inside, same⟩ := List.mem_map.mp member
      cases item with
      | argument word' => exact ⟨word', inside⟩
      | attached | target | dangling => cases same
  · intro simple
    refine ⟨single_map.mpr simple.toSingle, fun io operator member => ?_, ?_⟩
    · obtain ⟨item, inside, same⟩ := List.mem_map.mp member
      cases item with
      | dangling io' operator' => exact simple.complete io' operator' inside
      | argument | attached | target => cases same
    · obtain ⟨word, member⟩ := simple.command
      exact ⟨text word, List.mem_map.mpr ⟨_, member, rfl⟩⟩

/-! ## What is left -/

/-- Without the redirections there are only arguments. -/
theorem Simple.left (simple : Simple text items) :
    (items.filter fun item => !item.redirects) = items.filter Item.isArgument := by
  apply List.filter_congr
  intro item member
  cases item with
  | dangling io operator => exact absurd member (simple.complete io operator)
  | argument | attached | target => rfl

theorem mem_of_mem_isArgument {tok : ω} (member : tok ∈ spelled (items.filter Item.isArgument)) :
    .argument tok ∈ items := by
  obtain ⟨item, inside, here⟩ := List.mem_flatMap.mp member
  obtain ⟨inside, found⟩ := List.mem_filter.mp inside
  obtain ⟨word, rfl⟩ := exists_argument found
  rw [List.mem_singleton.mp here]
  exact inside

theorem Simple.ne_nil (simple : Simple text items) : spelled (items.filter Item.isArgument) ≠ [] := by
  obtain ⟨word, member⟩ := simple.command
  rw [Ne, spelled_eq_nil]
  exact List.ne_nil_of_mem (List.mem_filter.mpr ⟨member, rfl⟩)

/-- A pass that ends early has come to a file that cannot be opened. -/
theorem redirectList_of_returned {opens : Io → Bool} {s t : Workspace (List ω) ω ρ}
    (done : redirectList text opens s = .returned t) : redirectList text (fun _ => true) s = .returned t := by
  have pass (io : Io) {s t : Workspace (List ω) ω ρ} (done : redirectWords text (opens io) io s = .returned t) :
      redirectWords text true io s = .returned t := by
    cases flag : opens io with
    | true => rwa [flag] at done
    | false =>
      rw [flag, redirectWords] at done
      rw [redirectWords]
      cases split : cut (begins text io) s.cmd with
      | none => rwa [split] at done
      | some parts =>
        rw [split] at done
        cases done
  rw [redirectList] at done ⊢
  cases first : redirectWords text (opens .input) .input s with
  | crashed s =>
    rw [first] at done
    cases done
  | returned s =>
    rw [first] at done
    rw [pass .input first]
    exact pass .output done

/-- Such a list is read as it is meant. -/
theorem delivered_of_simple (simple : Simple text (parse text argv)) (fds : FdTable (Handle ρ))
    (opens : Io → Bool) : Delivered text argv (redirectList text opens ⟨argv, fds, [], []⟩) := by
  obtain ⟨t, done, applied⟩ := redirectList_of_single (parsed_parse text argv) simple.toSingle fds
    (fun _ => true) (fun _ _ => rfl)
  rw [spelled_parse] at done
  have left (s : Workspace (List ω) ω ρ) (same : redirectList text opens ⟨argv, fds, [], []⟩ = .returned s) :
      s.cmd = spelled ((parse text argv).filter Item.isArgument) := by
    cases (redirectList_of_returned same).symm.trans done
    rw [applied.cmd, simple.left]
  refine ⟨honest_of_single simple.toSingle fds opens, fun s same => ?_, fun s same tok member => ?_⟩
  · rw [left s same]
    exact simple.ne_nil
  · rw [left s same] at member
    exact mem_of_mem_isArgument member

theorem simple_of_delivered (nodup : argv.Nodup) {fds : FdTable (Handle ρ)}
    (delivered : Delivered text argv (redirectList text (fun _ => true) ⟨argv, fds, [], []⟩)) :
    Simple text (parse text argv) := by
  obtain ⟨s, t, -, -, done, -⟩ :=
    exists_redirectList text (⟨argv, fds, [], []⟩ : Workspace (List ω) ω ρ)
  have single := single_of_honest nodup delivered.toHonest
  rw [done] at delivered
  refine ⟨single, fun io operator member => ?_, ?_⟩
  · -- the operator is neither passed on nor part of a redirection
    have inside : operator ∈ argv := by
      rw [← spelled_parse text argv]
      exact List.mem_flatMap.mpr ⟨_, member, List.mem_cons_self⟩
    have distinct : (spelled (parse text argv)).Nodup := by rwa [spelled_parse]
    have here : operator ∈ Item.words (.dangling io operator) := List.mem_cons_self
    rcases delivered.kept operator inside with passed | ⟨item, member', redirects, within⟩
    · have argument := delivered.passed t rfl operator passed
      cases eq_of_mem_words distinct argument member List.mem_cons_self here
    · cases eq_of_mem_words distinct member' member within here
      cases redirects
  · obtain ⟨tok, member⟩ := List.exists_mem_of_ne_nil _ (delivered.command t rfl)
    exact ⟨tok, delivered.passed t rfl tok member⟩

end

end SystemProgramming.Shell
