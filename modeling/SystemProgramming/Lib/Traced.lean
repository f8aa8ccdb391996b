import Mathlib.Tactic.Common
import Mathlib.Data.List.Basic

/-! # Computations that leave a trace

A computation records what it does on the way to its result, if it has one. What must not happen is a
property of the recorded events, also of those in front of a point where the computation breaks off.
-/

namespace SystemProgramming.Lib

structure Traced (ω α : Type) where
  log : List ω
  result : Option α

namespace Traced

variable {ω α β : Type}

instance : Monad (Traced ω) where
  pure a := ⟨[], some a⟩
  bind x f :=
    match x.result with
    | some a => ⟨x.log ++ (f a).log, (f a).result⟩
    | none => ⟨x.log, none⟩

def tell (event : ω) : Traced ω Unit := ⟨[event], some ()⟩

def tellAll (events : List ω) : Traced ω Unit := ⟨events, some ()⟩

/-- The computation breaks off. -/
def stop : Traced ω α := ⟨[], none⟩

/-- A part that records nothing. -/
def ofOption (value : Option α) : Traced ω α := ⟨[], value⟩

/-- Every recorded event has the property. -/
def Always (P : ω → Prop) (x : Traced ω α) : Prop := ∀ event ∈ x.log, P event

instance {P : ω → Prop} [DecidablePred P] (x : Traced ω α) : Decidable (Always P x) :=
  inferInstanceAs (Decidable (∀ event ∈ x.log, P event))

section

variable {P : ω → Prop} {x : Traced ω α} {f : α → Traced ω β} {a : α} {event : ω}

@[simp] theorem result_pure : (pure a : Traced ω α).result = some a := rfl

@[simp] theorem result_tell : (tell event).result = some () := rfl

@[simp] theorem result_tellAll {events : List ω} : (tellAll events).result = some () := rfl

@[simp] theorem result_stop : (stop : Traced ω α).result = none := rfl

@[simp] theorem result_ofOption {value : Option α} : (ofOption value : Traced ω α).result = value := rfl

@[simp] theorem result_bind : (x >>= f).result = x.result.bind fun a => (f a).result := by
  cases found : x.result <;> simp [bind, found]

theorem ofOption_some_bind : ofOption (some a) >>= f = f a := rfl

@[simp] theorem always_pure : Always P (pure a : Traced ω α) := by
  intro event member
  cases member

@[simp] theorem always_stop : Always P (stop : Traced ω α) := by
  intro event member
  cases member

@[simp] theorem always_ofOption {value : Option α} : Always P (ofOption value : Traced ω α) := by
  intro event member
  cases member

@[simp] theorem always_tell : Always P (tell event) ↔ P event := by
  simp [Always, tell]

@[simp] theorem always_tellAll {events : List ω} : Always P (tellAll events) ↔ ∀ event ∈ events, P event :=
  Iff.rfl

/-- A sequence is harmless when its parts are. -/
@[simp] theorem always_bind : Always P (x >>= f) ↔ Always P x ∧ ∀ a, x.result = some a → Always P (f a) := by
  cases found : x.result with
  | none => simp [Always, bind, found]
  | some a => simp [Always, bind, found, or_imp, forall_and]

/-- A range of events, and what comes behind them. -/
theorem always_range_bind {n : ℕ} {event : ℕ → ω} {rest : Unit → Traced ω β} :
    Always P (tellAll ((List.range n).map event) >>= rest) ↔ (∀ i < n, P (event i)) ∧ Always P (rest ()) := by
  rw [always_bind, always_tellAll, List.forall_mem_map]
  constructor
  · rintro ⟨recorded, behind⟩
    exact ⟨fun i below => recorded i (List.mem_range.mpr below), behind () rfl⟩
  · rintro ⟨recorded, behind⟩
    exact ⟨fun i member => recorded i (List.mem_range.mp member), fun _ _ => behind⟩

/-- A first part that returns is passed. -/
theorem result_bind_of (returns : x.result = some a) : (x >>= f).result = (f a).result := by
  rw [result_bind, returns, Option.bind_some]

theorem always_bind_of (returns : x.result = some a) (harmless : Always P x) :
    Always P (x >>= f) ↔ Always P (f a) := by
  rw [always_bind, returns]
  constructor
  · intro all
    exact all.2 a rfl
  · intro rest
    refine ⟨harmless, fun b same => ?_⟩
    cases same
    exact rest

end

end Traced

end SystemProgramming.Lib
