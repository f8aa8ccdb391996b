import SystemProgramming.MappedFile.Objects
import SystemProgramming.Lib.Run

/-! # Objects from `new_sm` to `delete_sm`

What `set_len` with length zero does to a mapping is lost: the pointer becomes null and the mapping
stays. And `delete_sm` looks at the pointer alone, so of an object of length zero it releases nothing.
-/

namespace SystemProgramming.MappedFile

open Lib

variable {ν : Type} {s t : State ν} {i k : ℕ} {kept : Bool}

/-- Every object in use is consistent, no two share a descriptor, and all mappings are of objects. -/
structure Sound (s : State ν) : Prop where
  whole : ∀ i this, s.live i = some this → ∃ name, Consistent s.world this name i
  apart : ∀ i j this other, s.live i = some this → s.live j = some other → i ≠ j → this.fd ≠ other.fd
  owned : ∀ p mapping, s.world.maps p = some mapping → mapping.owner < s.objects.length

/-- A mapping made for the object that its pointer does not point to. -/
def Leaked (i : ℕ) (s : State ν) : Prop :=
  ∃ p mapping, s.world.maps p = some mapping ∧ mapping.owner = i ∧ s.pointer i ≠ some p

/-- What a step does to the object it is about and to the others. -/
structure Effect (s t : State ν) (k : ℕ) (kept : Bool) : Prop where
  others : ∀ j, j ≠ k → t.live j = s.live j
  moves : Moves kept (s.pointer k) (t.pointer k) s.world.maps t.world.maps
  here : ∀ this, t.live k = some this → ∃ name, Consistent t.world this name k
  opened : ∀ j other, j ≠ k → s.live j = some other → t.world.fds.get other.fd = s.world.fds.get other.fd
  apart : ∀ j other this, j ≠ k → s.live j = some other → t.live k = some this → other.fd ≠ this.fd
  count : s.objects.length ≤ t.objects.length ∧ k < t.objects.length

theorem sound_start (files : ν → Option (List UInt8)) (fds : FdTable ν) : Sound (start files fds) where
  whole _ _ here := nomatch here
  apart _ _ _ _ here := nomatch here
  owned _ _ mapped := nomatch mapped

theorem pointer_eq_some {p : ℕ} : s.pointer i = some p ↔ ∃ this, s.live i = some this ∧ this.ptr = some p :=
  Option.bind_eq_some_iff

theorem Sound.mapped (sound : Sound s) {p : ℕ} (points : s.pointer i = some p) :
    ∃ mapping, s.world.maps p = some mapping ∧ mapping.owner = i := by
  obtain ⟨this, here, points⟩ := pointer_eq_some.mp points
  obtain ⟨name, whole⟩ := sound.whole i this here
  exact ⟨_, whole.mapped p points, rfl⟩

section

variable (effect : Effect s t k kept)

include effect

theorem Effect.mapped {p : ℕ} (points : t.pointer k = some p) :
    ∃ mapping, t.world.maps p = some mapping ∧ mapping.owner = k := by
  obtain ⟨this, here, points⟩ := pointer_eq_some.mp points
  obtain ⟨name, whole⟩ := effect.here this here
  exact ⟨_, whole.mapped p points, rfl⟩

theorem Effect.sound (sound : Sound s) : Sound t where
  whole j other there := by
    by_cases same : j = k
    · subst same
      exact effect.here other there
    · rw [effect.others j same] at there
      obtain ⟨name, whole⟩ := sound.whole j other there
      refine ⟨name, whole.frame effect.moves ?_ ?_⟩
      · intro p points
        obtain ⟨this, here, points⟩ := pointer_eq_some.mp points
        obtain ⟨name', whole'⟩ := sound.whole k this here
        exact whole'.apart whole (Ne.symm same) p points
      · rw [effect.opened j other same there]
        exact whole.opened
  apart i j this other here there different := by
    by_cases first : i = k
    · subst first
      rw [effect.others j (Ne.symm different)] at there
      exact (effect.apart j other this (Ne.symm different) there here).symm
    · rw [effect.others i first] at here
      by_cases second : j = k
      · subst second
        exact effect.apart i this other first here there
      · rw [effect.others j second] at there
        exact sound.apart i j this other here there different
  owned p mapping mapped := by
    by_cases new : t.pointer k = some p
    · obtain ⟨mapping', mapped', owner⟩ := effect.mapped new
      cases mapped.symm.trans mapped'
      rw [owner]
      exact effect.count.2
    · apply Nat.lt_of_lt_of_le _ effect.count.1
      by_cases old : s.pointer k = some p
      · rw [effect.moves.left p old new] at mapped
        cases kept with
        | false => nomatch mapped
        | true => exact sound.owned p mapping mapped
      · rw [effect.moves.others p old new] at mapped
        exact sound.owned p mapping mapped

/-- A mapping outside the two pointers is neither made nor removed. -/
theorem Effect.same_of_not {p : ℕ} {mapping : Mapping ν ℕ}
    (mapped : s.world.maps p = some mapping) (other : s.pointer k ≠ some p) :
    t.pointer k ≠ some p ∧ t.world.maps p = some mapping := by
  have new : t.pointer k ≠ some p := by
    intro points
    rcases effect.moves.free p points with old | free
    · exact other old
    · rw [mapped] at free
      cases free
  exact ⟨new, (effect.moves.others p other new).trans mapped⟩

theorem Effect.leaked_stays (sound : Sound s) (leaked : Leaked i s) : Leaked i t := by
  obtain ⟨p, mapping, mapped, owner, stray⟩ := leaked
  have other : s.pointer k ≠ some p := by
    intro points
    obtain ⟨mapping', mapped', owner'⟩ := sound.mapped points
    cases mapped.symm.trans mapped'
    rw [← owner', owner] at points
    exact stray points
  obtain ⟨new, mapped'⟩ := effect.same_of_not mapped other
  refine ⟨p, mapping, mapped', owner, ?_⟩
  by_cases same : i = k
  · rw [same]
    exact new
  · rw [State.pointer, effect.others i same]
    exact stray

/-- A mapping is lost by leaving it where it is and moving the pointer away. -/
theorem Effect.leaked_iff (sound : Sound s) (tidy : ¬ Leaked i s) :
    Leaked i t ↔ i = k ∧ kept ∧ ∃ p, s.pointer k = some p ∧ t.pointer k ≠ some p := by
  constructor
  · rintro ⟨p, mapping, mapped, owner, stray⟩
    by_cases new : t.pointer k = some p
    · obtain ⟨mapping', mapped', owner'⟩ := effect.mapped new
      cases mapped.symm.trans mapped'
      rw [← owner', owner] at new
      exact absurd new stray
    · by_cases old : s.pointer k = some p
      · rw [effect.moves.left p old new] at mapped
        cases kept with
        | false => nomatch mapped
        | true =>
          obtain ⟨mapping', mapped', owner'⟩ := sound.mapped old
          cases mapped.symm.trans mapped'
          exact ⟨owner.symm.trans owner', rfl, p, old, new⟩
      · rw [effect.moves.others p old new] at mapped
        refine absurd ⟨p, mapping, mapped, owner, ?_⟩ tidy
        by_cases same : i = k
        · rw [same]
          exact old
        · rw [State.pointer, effect.others i same] at stray
          exact stray
  · rintro ⟨rfl, rfl, p, old, new⟩
    obtain ⟨mapping, mapped, owner⟩ := sound.mapped old
    exact ⟨p, mapping, (effect.moves.left p old new).trans mapped, owner, new⟩

end

/-! ## What the steps are -/

/-- The object an event is about; a new one gets the next number. -/
def Event.object (s : State ν) : Event ν → ℕ
  | .newSm .. => s.objects.length
  | .setLen i .. => i
  | .deleteSm i => i

/-- The mapping stays where it is although the pointer becomes null. -/
def Event.drops : Event ν → Bool
  | .setLen _ s _ => s = 0
  | _ => false

theorem live_lt {this : SM} (here : s.live i = some this) : i < s.objects.length := by
  obtain ⟨entry, found, -⟩ := Option.bind_eq_some_iff.mp here
  exact lt_length_of_getElem? found

theorem live_append (w : World ν) (objects : List (Option SM)) (new : Option SM) (j : ℕ) :
    State.live ⟨w, objects ++ [new]⟩ j = if j = objects.length then new else State.live ⟨w, objects⟩ j := by
  simp only [State.live, List.getElem?_append]
  split_ifs with inside last last
  · omega
  · rfl
  · simp [last]
  · rw [List.getElem?_eq_none (by simp; omega), List.getElem?_eq_none (by omega)]

theorem live_set (w : World ν) (objects : List (Option SM)) (new : Option SM) (inside : k < objects.length)
    (j : ℕ) :
    State.live ⟨w, objects.set k new⟩ j = if j = k then new else State.live ⟨w, objects⟩ j := by
  simp only [State.live, List.getElem?_set]
  split_ifs with here there there
  · rfl
  · exact absurd here.symm there
  · exact absurd there.symm here
  · rfl

section

variable [DecidableEq ν] {e : Event ν}

theorem effect_newSm (sound : Sound s) {filename : ν} {flag : Space.Flag} {address : ℕ}
    (taken : step s (.newSm filename flag address) = some t) : Effect s t s.objects.length false := by
  obtain ⟨⟨sm, w⟩, made, same⟩ := Option.bind_eq_some_iff.mp taken
  cases same
  obtain ⟨whole, -, fd, fds, -, moves⟩ := (newSm_ensures s.world filename flag _ address).of_toOption made
  have live := live_append w s.objects (some sm)
  have before : s.live s.objects.length = none := by
    rw [State.live, List.getElem?_eq_none (Nat.le_refl _)]
    rfl
  constructor
  · intro j other
    rw [live, if_neg other]
    rfl
  · rw [State.pointer, State.pointer, live, if_pos rfl, before]
    exact moves
  · intro this there
    rw [live, if_pos rfl] at there
    cases there
    exact ⟨filename, whole⟩
  · intro j other _ there
    obtain ⟨name, whole'⟩ := sound.whole j other there
    change w.fds.get other.fd = s.world.fds.get other.fd
    rw [fds, FdTable.get_install, if_neg]
    intro same
    have free := s.world.fds.get_lowest
    rw [← same, whole'.opened] at free
    cases free
  · intro j other this _ there new same
    rw [live, if_pos rfl] at new
    cases new
    obtain ⟨name, whole'⟩ := sound.whole j other there
    have free := s.world.fds.get_lowest
    rw [← fd, ← same, whole'.opened] at free
    cases free
  · simp

theorem effect_setLen (sound : Sound s) {n address : ℕ} (taken : step s (.setLen i n address) = some t) :
    Effect s t i (n = 0) := by
  obtain ⟨this, here, rest⟩ := Option.bind_eq_some_iff.mp taken
  obtain ⟨⟨sm, w⟩, done, same⟩ := Option.bind_eq_some_iff.mp rest
  cases same
  obtain ⟨name, whole⟩ := sound.whole i this here
  obtain ⟨whole', -, fd, fds, -, moves⟩ := (setLen_ensures whole n address).of_toOption done
  have live := live_set w s.objects (some sm) (live_lt here)
  constructor
  · intro j other
    rw [live, if_neg other]
    rfl
  · rw [State.pointer, State.pointer, live, if_pos rfl, here]
    exact moves
  · intro _ there
    rw [live, if_pos rfl] at there
    cases there
    exact ⟨name, whole'⟩
  · intro j other _ _
    change w.fds.get other.fd = s.world.fds.get other.fd
    rw [fds]
  · intro j other _ different there new
    rw [live, if_pos rfl] at new
    cases new
    rw [fd]
    exact sound.apart j i other this there here different
  · rw [List.length_set]
    exact ⟨Nat.le_refl _, live_lt here⟩

theorem effect_deleteSm (sound : Sound s) (taken : step s (.deleteSm i) = some t) : Effect s t i false := by
  obtain ⟨this, here, rest⟩ := Option.bind_eq_some_iff.mp taken
  obtain ⟨w, done, same⟩ := Option.bind_eq_some_iff.mp rest
  cases same
  obtain ⟨name, whole⟩ := sound.whole i this here
  obtain ⟨-, fds, moves⟩ := (deleteSm_ensures whole).of_toOption done
  have live := live_set w s.objects none (live_lt here)
  constructor
  · intro j other
    rw [live, if_neg other]
    rfl
  · rw [State.pointer, State.pointer, live, if_pos rfl, here]
    exact moves
  · intro _ there
    rw [live, if_pos rfl] at there
    cases there
  · intro j other different there
    change w.fds.get other.fd = s.world.fds.get other.fd
    rw [fds]
    split_ifs
    · rfl
    · rw [FdTable.get_close, if_neg (sound.apart j i other this there here different)]
  · intro j other _ _ _ new
    rw [live, if_pos rfl] at new
    cases new
  · rw [List.length_set]
    exact ⟨Nat.le_refl _, live_lt here⟩

theorem effect_of_step (sound : Sound s) (taken : step s e = some t) : Effect s t (e.object s) e.drops := by
  cases e with
  | newSm filename flag address => exact effect_newSm sound taken
  | setLen i n address => exact effect_setLen sound taken
  | deleteSm i => exact effect_deleteSm sound taken

/-- No call a program makes is left undefined by the system. -/
theorem never_undefined {files : ν → Option (List UInt8)} {fds : FdTable ν} {this : SM}
    (reached : Reachable step (start files fds) s) (here : s.live i = some this) (n address : ℕ) :
    setLen s.world this n i address ≠ .error .undefined ∧
      deleteSm s.world (some this) ≠ .error .undefined := by
  have sound : Sound s :=
    reached.invariant (fun _ _ _ sound taken => (effect_of_step sound taken).sound sound) (sound_start files fds)
  obtain ⟨name, whole⟩ := sound.whole i this here
  exact ⟨(setLen_ensures whole n address).1, (deleteSm_ensures whole).1⟩

/-! ## The promise of the header and when it is kept -/

/-- The object's pointer, length and mappings between two calls. -/
def Between (i : ℕ) (s : State ν) : Prop :=
  ∀ this, s.live i = some this → (this.ptr ≠ none ↔ 0 < this.len) ∧
    (0 < this.len → ∃ p mapping, this.ptr = some p ∧ s.world.maps p = some mapping ∧
      mapping.length = this.len ∧ mapping.owner = i ∧
      ∀ q other, s.world.maps q = some other → other.owner = i → q = p)

/-- Nothing of the object is left. -/
def Released (i : ℕ) (this : SM) (t : State ν) : Prop :=
  t.world.fds.get this.fd = none ∧ ∀ q mapping, t.world.maps q = some mapping → mapping.owner ≠ i

/-- The length does not go back to zero. -/
def Keeps (i : ℕ) (s : State ν) : Event ν → Prop
  | .setLen j n _ => j = i → n = 0 → ∀ this, s.live i = some this → this.len = 0
  | _ => True

omit [DecidableEq ν] in
theorem between_of_tidy (sound : Sound s) (tidy : ¬ Leaked i s) : Between i s := by
  intro this here
  obtain ⟨name, whole⟩ := sound.whole i this here
  have null := whole.null
  constructor
  · rw [ne_eq, null]
    omega
  · intro positive
    obtain ⟨p, points⟩ := Option.ne_none_iff_exists'.mp (mt null.mp (by omega))
    refine ⟨p, _, points, whole.mapped p points, rfl, rfl, fun q other mapped owner => ?_⟩
    by_contra different
    refine tidy ⟨q, other, mapped, owner, ?_⟩
    rw [State.pointer, here, Option.bind_some, points]
    exact fun same => different (Option.some.inj same).symm

theorem keeps_iff_tidy (sound : Sound s) (tidy : ¬ Leaked i s) (taken : step s e = some t) :
    Keeps i s e ↔ ¬ Leaked i t := by
  have effect := effect_of_step sound taken
  rw [effect.leaked_iff sound tidy]
  cases e with
  | newSm filename flag address => simp [Keeps, Event.drops]
  | deleteSm j => simp [Keeps, Event.drops]
  | setLen j n address =>
    obtain ⟨this, here, rest⟩ := Option.bind_eq_some_iff.mp taken
    obtain ⟨⟨sm, w⟩, done, same⟩ := Option.bind_eq_some_iff.mp rest
    cases same
    obtain ⟨name, whole⟩ := sound.whole j this here
    obtain ⟨whole', len, -⟩ := (setLen_ensures whole n address).of_toOption done
    have after : State.pointer ⟨w, s.objects.set j (some sm)⟩ j = sm.ptr := by
      rw [State.pointer, live_set w s.objects (some sm) (live_lt here), if_pos rfl]
      rfl
    have before : s.pointer j = this.ptr := by
      rw [State.pointer, here]
      rfl
    simp only [Event.object, Event.drops, decide_eq_true_eq, after, before]
    constructor
    · rintro keeps ⟨rfl, rfl, p, old, -⟩
      have null := whole.null.mpr (keeps rfl rfl this here)
      rw [old] at null
      cases null
    · rintro stays rfl rfl other there
      cases here.symm.trans there
      apply whole.null.mp
      by_contra points
      obtain ⟨p, points⟩ := Option.ne_none_iff_exists'.mp points
      refine stays ⟨rfl, rfl, p, points, ?_⟩
      rw [whole'.null.mpr len]
      exact fun same => nomatch same

/-- `delete_sm` releases an object whose length is positive, if nothing was lost before. -/
theorem released_iff (sound : Sound s) {this : SM} (here : s.live i = some this)
    (deleted : step s (.deleteSm i) = some t) : Released i this t ↔ ¬ Leaked i s ∧ 0 < this.len := by
  have effect := effect_of_step sound deleted
  obtain ⟨name, whole⟩ := sound.whole i this here
  obtain ⟨other, there, rest⟩ := Option.bind_eq_some_iff.mp deleted
  cases here.symm.trans there
  obtain ⟨w, done, same⟩ := Option.bind_eq_some_iff.mp rest
  cases same
  obtain ⟨-, fds, -⟩ := (deleteSm_ensures whole).of_toOption done
  rw [Nat.pos_iff_ne_zero, ne_eq, ← whole.null]
  constructor
  · rintro ⟨closed, gone⟩
    constructor
    · intro leaked
      obtain ⟨p, mapping, mapped, owner, -⟩ := effect.leaked_stays sound leaked
      exact gone p mapping mapped owner
    · intro null
      change w.fds.get this.fd = none at closed
      rw [fds, if_pos null, whole.opened] at closed
      cases closed
  · rintro ⟨tidy, points⟩
    constructor
    · change w.fds.get this.fd = none
      rw [fds, if_neg points, FdTable.get_close, if_pos rfl]
    · intro q mapping mapped owner
      have stays : ¬ Leaked i ⟨w, s.objects.set i none⟩ := by
        rw [effect.leaked_iff sound tidy]
        rintro ⟨-, kept, -⟩
        cases kept
      apply stays
      refine ⟨q, mapping, mapped, owner, ?_⟩
      rw [State.pointer, live_set w s.objects none (live_lt here), if_pos rfl]
      exact fun same => nomatch same

/-- From the first call up to `delete_sm` the header's promise is kept exactly when the length, once
positive, stays so. -/
theorem released_iff_keeps {files : ν → Option (List UInt8)} {fds : FdTable ν} {es : List (Event ν)}
    (ran : exec step (start files fds) es = some s) {this : SM} (here : s.live i = some this)
    (deleted : step s (.deleteSm i) = some t) :
    Throughout step (Between i) (start files fds) es ∧ Released i this t ↔
      AllSteps step (Keeps i) (start files fds) es ∧ 0 < this.len := by
  have preserved : ∀ (s : State ν) (e : Event ν) (t : State ν), Sound s → step s e = some t → Sound t :=
    fun _ _ _ sound taken => (effect_of_step sound taken).sound sound
  have turns : ∀ (s : State ν) (e : Event ν) (t : State ν), Sound s → ¬ Leaked i s → step s e = some t →
      (Keeps i s e ↔ ¬ Leaked i t) := fun _ _ _ sound tidy taken => keeps_iff_tidy sound tidy taken
  have stays : ∀ (s : State ν) (e : Event ν) (t : State ν), Sound s → Leaked i s → step s e = some t →
      Leaked i t := fun _ _ _ sound leaked taken => (effect_of_step sound taken).leaked_stays sound leaked
  have first := sound_start files fds
  have tidy : ¬ Leaked i (start files fds) := by
    rintro ⟨p, mapping, mapped, -⟩
    cases mapped
  rw [released_iff (exec_invariant preserved ran first) here deleted]
  have lost := allSteps_iff_undamaged preserved stays turns ran first tidy
  constructor
  · rintro ⟨-, final, positive⟩
    exact ⟨lost.mpr final, positive⟩
  · rintro ⟨keeps, positive⟩
    refine ⟨?_, lost.mp keeps, positive⟩
    have all := (allSteps_iff_throughout_of_invariant preserved turns ran first tidy).mp keeps
    exact all.mono preserved (fun _ sound tidy => between_of_tidy sound tidy) first

end

/-- A file of three bytes that grows to five. -/
theorem released_iff_keeps_grown :
    let st : State Unit := start (fun _ => some [1, 2, 3]) ⟨fun _ => none, 0, fun _ _ => rfl⟩
    let es : List (Event Unit) := [.newSm () ⟨false, false⟩ 4096, .setLen 0 5 8192]
    ∃ s t this, exec step st es = some s ∧ s.live 0 = some this ∧ step s (.deleteSm 0) = some t ∧
      Throughout step (Between 0) st es ∧ Released 0 this t := by
  refine ⟨_, _, _, rfl, rfl, rfl, (released_iff_keeps rfl rfl rfl).mpr ⟨?_, by decide⟩⟩
  apply allSteps_of_forall
  simp [Keeps]

/-- A file of three bytes that is emptied: the mapping stays, and so does the descriptor. -/
theorem not_released_emptied :
    let st : State Unit := start (fun _ => some [1, 2, 3]) ⟨fun _ => none, 0, fun _ _ => rfl⟩
    ∃ s t this, exec step st [.newSm () ⟨false, false⟩ 4096, .setLen 0 0 8192] = some s ∧
      s.live 0 = some this ∧ step s (.deleteSm 0) = some t ∧ ¬ Released 0 this t := by
  refine ⟨_, _, _, rfl, rfl, rfl, ?_⟩
  rintro ⟨closed, -⟩
  cases closed

end SystemProgramming.MappedFile
