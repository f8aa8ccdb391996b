import SystemProgramming.Lib.Run

/-! # Systems whose parties do not disturb each other

In a network of deterministic parties that only append to and remove from opposite ends of queues,
two different events that are both enabled may be taken in either order with the same result. Then
all complete runs are equally long and end in the same state, so the outcome of every interleaving
is that of one schedule.
-/

namespace SystemProgramming.Lib

variable {σ ε : Type*} {step : σ → ε → Option σ}

/-- Events enabled together commute. -/
def Commutes (step : σ → ε → Option σ) : Prop :=
  ∀ s e f t u, step s e = some t → step s f = some u → e ≠ f →
    ∃ v, step t f = some v ∧ step u e = some v

/-- Any run can be completed to the state a complete run ends in, at the same length. -/
theorem Commutes.complete (commutes : Commutes step) {s t u : σ} {es fs : List ε}
    (ran : exec step s es = some t) (terminal : Terminal step t)
    (other : exec step s fs = some u) :
    ∃ gs, exec step u gs = some t ∧ fs.length + gs.length = es.length := by
  induction length : es.length generalizing s u es fs with
  | zero =>
    obtain rfl := List.eq_nil_of_length_eq_zero length
    cases ran
    cases fs with
    | nil => cases other; exact ⟨[], rfl, rfl⟩
    | cons f fs =>
      obtain ⟨_, taken, _⟩ := exec_cons_eq_some.mp other
      nomatch (terminal f).symm.trans taken
  | succ n ih =>
    obtain ⟨e, es, rfl⟩ := List.exists_cons_of_length_eq_add_one length
    obtain rfl : es.length = n := Nat.succ.inj length
    cases fs with
    | nil => cases other; exact ⟨e :: es, ran, Nat.zero_add _⟩
    | cons f fs =>
      obtain ⟨first, taken, rest⟩ := exec_cons_eq_some.mp ran
      obtain ⟨second, taken', rest'⟩ := exec_cons_eq_some.mp other
      by_cases same : e = f
      · subst same
        obtain rfl : first = second := Option.some.inj (taken.symm.trans taken')
        obtain ⟨gs, completes, total⟩ := ih rest rest' rfl
        exact ⟨gs, completes, by rw [List.length_cons]; omega⟩
      · obtain ⟨v, left, right⟩ := commutes s e f first second taken taken' same
        -- the complete run from `first` may start with `f`, so `second` has one as long
        obtain ⟨gs, completes, total⟩ := ih rest
          (show exec step first [f] = some v from exec_cons_eq_some.mpr ⟨v, left, rfl⟩) rfl
        rw [List.length_singleton] at total
        obtain ⟨hs, completes', total'⟩ := ih
          (show exec step second (e :: gs) = some t from exec_cons_eq_some.mpr ⟨v, right, completes⟩)
          rest' (by rw [List.length_cons]; omega)
        exact ⟨hs, completes', by rw [List.length_cons]; omega⟩

/-- All complete runs end in the same state. -/
theorem Commutes.terminal_unique (commutes : Commutes step) {s t u : σ}
    (reached : Reachable step s t) (terminal : Terminal step t) (other : Reachable step s u)
    (ended : Terminal step u) : u = t := by
  obtain ⟨es, ran⟩ := reached
  obtain ⟨fs, ran'⟩ := other
  obtain ⟨gs, completes, -⟩ := commutes.complete ran terminal ran'
  cases gs with
  | nil => exact Option.some.inj completes
  | cons g gs =>
    obtain ⟨_, taken, _⟩ := exec_cons_eq_some.mp completes
    nomatch (ended g).symm.trans taken

/-- No run is longer than a complete one. -/
theorem Commutes.length_le (commutes : Commutes step) {s t u : σ} {es fs : List ε}
    (ran : exec step s es = some t) (terminal : Terminal step t)
    (other : exec step s fs = some u) : fs.length ≤ es.length := by
  obtain ⟨gs, -, total⟩ := commutes.complete ran terminal other
  omega

/-! ## Two parties joined by two queues -/

/-- A deterministic program that removes messages from the front of its inbox and sends others. An
act it can do is not affected by what arrives later. -/
structure Party (σ α β : Type*) where
  act : σ → List α → Option (σ × List α × List β)
  stable : ∀ {s t : σ} {inbox rest : List α} {sent : List β} (later : List α),
    act s inbox = some (t, rest, sent) → act s (inbox ++ later) = some (t, rest ++ later, sent)

/-- The two parties and the messages on their way to each. -/
structure Duplex (σ τ α β : Type*) where
  left : σ
  right : τ
  toLeft : List α
  toRight : List β

inductive Side
  | left
  | right

variable {τ α β : Type*}

/-- The party on one side acts. -/
def duplexStep (left : Party σ α β) (right : Party τ β α) (s : Duplex σ τ α β) :
    Side → Option (Duplex σ τ α β)
  | .left => (left.act s.left s.toLeft).map fun (next, rest, sent) =>
      { s with left := next, toLeft := rest, toRight := s.toRight ++ sent }
  | .right => (right.act s.right s.toRight).map fun (next, rest, sent) =>
      { s with right := next, toRight := rest, toLeft := s.toLeft ++ sent }

theorem duplex_commutes (left : Party σ α β) (right : Party τ β α) :
    Commutes (duplexStep left right) := by
  have crossed (s t u : Duplex σ τ α β) (leftActs : duplexStep left right s .left = some t)
      (rightActs : duplexStep left right s .right = some u) :
      ∃ v, duplexStep left right t .right = some v ∧ duplexStep left right u .left = some v := by
    obtain ⟨⟨next, rest, sent⟩, act, rfl⟩ := Option.map_eq_some_iff.mp leftActs
    obtain ⟨⟨next', rest', sent'⟩, act', rfl⟩ := Option.map_eq_some_iff.mp rightActs
    refine ⟨⟨next, next', rest ++ sent', rest' ++ sent⟩, ?_, ?_⟩
    · simp only [duplexStep, right.stable sent act', Option.map_some]
    · simp only [duplexStep, left.stable sent' act, Option.map_some]
  intro s e f t u first second different
  cases e with
  | left =>
    cases f with
    | left => exact absurd rfl different
    | right => exact crossed s t u first second
  | right =>
    cases f with
    | left =>
      obtain ⟨v, forth, back⟩ := crossed s u t second first
      exact ⟨v, back, forth⟩
    | right => exact absurd rfl different

end SystemProgramming.Lib
