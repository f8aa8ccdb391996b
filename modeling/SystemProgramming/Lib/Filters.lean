import SystemProgramming.Lib.Run
import SystemProgramming.Lib.Update
import Mathlib.Algebra.Order.BigOperators.Group.Finset
import Mathlib.Logic.Function.Basic

/-! # Chains of filters

A filter reads one stream and writes another one. In a chain the stages are joined by queues of bounded length:
a stage waits while its queue is empty or the next one is full, sees the end of its input when the stage before
it has ended and the queue is empty, and is ended by its first write behind a stage that has ended. Whatever the
order of the steps, the chain writes what the filters write one after the other.

The stages are numbered from the end: stage `j` reads queue `j + 1` and writes queue `j`.
-/

namespace SystemProgramming.Lib.Filters

variable {α σ : Type*}

/-- What a filter does next. At the end of its input it reads `none`. -/
inductive Action (α σ : Type*) where
  | read (next : Option α → σ)
  | write (a : α) (next : σ)
  | exit

variable (act : σ → Action α σ)

/-- The filter by itself: from this state and with this input it writes the output and exits, in so many
steps. -/
inductive Computes : σ → List α → List α → ℕ → Prop where
  | exit {s : σ} {input : List α} : act s = .exit → Computes s input [] 0
  | write {s next : σ} {a : α} {input output : List α} {n : ℕ} : act s = .write a next →
      Computes next input output n → Computes s input (a :: output) (n + 1)
  | read {s : σ} {next : Option α → σ} {a : α} {input output : List α} {n : ℕ} : act s = .read next →
      Computes (next (some a)) input output n → Computes s (a :: input) output (n + 1)
  | readEnd {s : σ} {next : Option α → σ} {output : List α} {n : ℕ} : act s = .read next →
      Computes (next none) [] output n → Computes s [] output (n + 1)

/-- Each filter computes the input of the next one. -/
def Composes : List σ → List α → List α → Prop
  | [], input, output => input = output
  | s :: rest, input, output => ∃ middle n, Computes act s input middle n ∧ Composes rest middle output

/-- `none` is a stage that has ended. -/
@[ext] structure State (α σ : Type*) where
  stages : ℕ → Option σ
  queues : ℕ → List α

def State.stop (s : State α σ) (j : ℕ) : State α σ where
  stages := Function.update s.stages j none
  queues := s.queues

/-- A stage goes on and leaves this of its queue. -/
def State.take (s : State α σ) (j : ℕ) (next : σ) (rest : List α) : State α σ where
  stages := Function.update s.stages j (some next)
  queues := Function.update s.queues (j + 1) rest

def State.put (s : State α σ) (j : ℕ) (next : σ) (a : α) : State α σ where
  stages := Function.update s.stages j (some next)
  queues := Function.update s.queues j (s.queues j ++ [a])

/-- The filters in the order of the stream. -/
def start (filters : List σ) (input : List α) : State α σ where
  stages j := filters.reverse[j]?
  queues k := if k = filters.length then input else []

variable (capacity : ℕ)

def step (s : State α σ) (j : ℕ) : Option (State α σ) :=
  match s.stages j with
  | none => none
  | some stage =>
    match act stage with
    | .exit => some (s.stop j)
    | .read next =>
      match s.queues (j + 1) with
      | a :: rest => some (s.take j (next (some a)) rest)
      | [] => if (s.stages (j + 1)).isNone then some (s.take j (next none) []) else none
    | .write a next =>
      match j with
      | 0 => some (s.put 0 next a)
      | k + 1 =>
        if (s.stages k).isNone then some (s.stop (k + 1))
        else if (s.queues (k + 1)).length < capacity then some (s.put (k + 1) next a)
        else none

/-! ## What is still to be written -/

/-- `todo j` is what stage `j` will write by itself to queue `j`, in so many steps. -/
structure Inv (output : List α) (s : State α σ) (todo : ℕ → List α) (fuel : ℕ → ℕ) : Prop where
  written : s.queues 0 ++ todo 0 = output
  running : ∀ j stage, s.stages j = some stage →
    Computes act stage (s.queues (j + 1) ++ todo (j + 1)) (todo j) (fuel j)
  ended : ∀ j, s.stages j = none → todo j = [] ∨ ∃ k, j = k + 1 ∧ s.stages k = none

/-- The last step of a stage is its end. -/
def weight : Option σ → ℕ → ℕ
  | none, _ => 0
  | some _, fuel => fuel + 1

/-- The steps that are left to the first `n` stages. -/
def rank (n : ℕ) (s : State α σ) (fuel : ℕ → ℕ) : ℕ :=
  ∑ j ∈ Finset.range n, weight (s.stages j) (fuel j)

section

variable {act} {capacity} {output : List α} {s t : State α σ} {todo : ℕ → List α} {fuel : ℕ → ℕ} {j : ℕ}
  {stage : σ}

theorem stages_stop (s : State α σ) (j : ℕ) : (s.stop j).stages = Function.update s.stages j none := rfl

theorem stages_take (s : State α σ) (j : ℕ) (next : σ) (rest : List α) :
    (s.take j next rest).stages = Function.update s.stages j (some next) := rfl

theorem queues_take (s : State α σ) (j : ℕ) (next : σ) (rest : List α) :
    (s.take j next rest).queues = Function.update s.queues (j + 1) rest := rfl

theorem stages_put (s : State α σ) (j : ℕ) (next : σ) (a : α) :
    (s.put j next a).stages = Function.update s.stages j (some next) := rfl

theorem queues_put (s : State α σ) (j : ℕ) (next : σ) (a : α) :
    (s.put j next a).queues = Function.update s.queues j (s.queues j ++ [a]) := rfl

/-- A stage takes one of the steps it has left. -/
theorem rank_lt {n : ℕ} {fuel' : ℕ → ℕ} (inside : j < n)
    (own : weight (t.stages j) (fuel' j) < weight (s.stages j) (fuel j))
    (others : ∀ i ≠ j, t.stages i = s.stages i ∧ fuel' i = fuel i) : rank n t fuel' < rank n s fuel := by
  apply Finset.sum_lt_sum
  · intro i _
    rcases eq_or_ne i j with rfl | other
    · exact own.le
    · obtain ⟨stages, left⟩ := others i other
      rw [stages, left]
  · exact ⟨j, Finset.mem_range.mpr inside, own⟩

theorem rank_goOn_lt {n : ℕ} {next : σ} {less : ℕ} (here : s.stages j = some stage) (inside : j < n)
    (stages : t.stages = Function.update s.stages j (some next)) (fewer : less < fuel j) :
    rank n t (Function.update fuel j less) < rank n s fuel := by
  apply rank_lt inside
  · rw [stages, Function.update_self, Function.update_self, here]
    exact Nat.succ_lt_succ fewer
  · intro i other
    rw [stages, Function.update_of_ne other, Function.update_of_ne other]
    exact ⟨rfl, rfl⟩

theorem rank_stop_lt {n : ℕ} (here : s.stages j = some stage) (inside : j < n) :
    rank n (s.stop j) fuel < rank n s fuel := by
  apply rank_lt inside
  · rw [stages_stop, Function.update_self, here]
    exact Nat.succ_pos _
  · intro i other
    rw [stages_stop, Function.update_of_ne other]
    exact ⟨rfl, rfl⟩

/-! ## One filter -/

section

variable {next : Option α → σ} {a : α} {input rest : List α} {n : ℕ}

theorem Computes.of_exit (exits : act stage = .exit) (computes : Computes act stage input output n) : output = [] := by
  cases computes with
  | exit _ => rfl
  | write other _ => cases exits.symm.trans other
  | read other _ => cases exits.symm.trans other
  | readEnd other _ => cases exits.symm.trans other

theorem Computes.of_write {next : σ} (writes : act stage = .write a next)
    (computes : Computes act stage input output n) :
    ∃ later m, output = a :: later ∧ m < n ∧ Computes act next input later m := by
  cases computes with
  | exit other => cases writes.symm.trans other
  | write same computes =>
    cases writes.symm.trans same
    exact ⟨_, _, rfl, Nat.lt_succ_self _, computes⟩
  | read other _ => cases writes.symm.trans other
  | readEnd other _ => cases writes.symm.trans other

theorem Computes.of_read (reads : act stage = .read next) (computes : Computes act stage (a :: input) output n) :
    ∃ m < n, Computes act (next (some a)) input output m := by
  cases computes with
  | exit other => cases reads.symm.trans other
  | write other _ => cases reads.symm.trans other
  | read same computes =>
    cases reads.symm.trans same
    exact ⟨_, Nat.lt_succ_self _, computes⟩

theorem Computes.of_readEnd (reads : act stage = .read next) (computes : Computes act stage [] output n) :
    ∃ m < n, Computes act (next none) [] output m := by
  cases computes with
  | exit other => cases reads.symm.trans other
  | write other _ => cases reads.symm.trans other
  | readEnd same computes =>
    cases reads.symm.trans same
    exact ⟨_, Nat.lt_succ_self _, computes⟩

end

/-! ## One step of the chain -/

/-- A stage may end when it has written everything, or when nobody reads it. -/
theorem Inv.stop (inv : Inv act output s todo fuel) (ends : todo j = [] ∨ ∃ k, j = k + 1 ∧ s.stages k = none) :
    Inv act output (s.stop j) todo fuel where
  written := inv.written
  running i other there := by
    rw [stages_stop, Function.update_apply] at there
    split_ifs at there
    exact inv.running i other there
  ended i there := by
    have before : todo i = [] ∨ ∃ k, i = k + 1 ∧ s.stages k = none := by
      rw [stages_stop, Function.update_apply] at there
      split_ifs at there with same
      · exact same ▸ ends
      · exact inv.ended i there
    refine before.imp_right fun ⟨k, same, gone⟩ => ⟨k, same, ?_⟩
    rw [stages_stop, Function.update_apply]
    split_ifs
    · rfl
    · exact gone

/-- The other stages that have ended are not concerned when one goes on. -/
theorem Inv.ended_update {next : σ} {i : ℕ} (inv : Inv act output s todo fuel) (here : s.stages j = some stage)
    (there : Function.update s.stages j (some next) i = none) :
    i ≠ j ∧ (todo i = [] ∨ ∃ k, i = k + 1 ∧ Function.update s.stages j (some next) k = none) := by
  rw [Function.update_apply] at there
  split_ifs at there with apart
  refine ⟨apart, (inv.ended i there).imp_right fun ⟨k, same, gone⟩ => ⟨k, same, ?_⟩⟩
  have other : k ≠ j := by
    rintro rfl
    cases here.symm.trans gone
  rw [Function.update_of_ne other, gone]

/-- A stage that has read goes on with less input. -/
theorem Inv.take {next : σ} {rest : List α} {less : ℕ} (inv : Inv act output s todo fuel)
    (here : s.stages j = some stage) (computes : Computes act next (rest ++ todo (j + 1)) (todo j) less) :
    Inv act output (s.take j next rest) todo (Function.update fuel j less) where
  written := inv.written
  running i other there := by
    rw [stages_take, Function.update_apply] at there
    rw [queues_take]
    split_ifs at there with same
    · subst same
      cases there
      rw [Function.update_self, Function.update_self]
      exact computes
    · have elsewhere : i + 1 ≠ j + 1 := fun equal => same (Nat.succ.inj equal)
      rw [Function.update_of_ne elsewhere, Function.update_of_ne same]
      exact inv.running i other there
  ended i there := (inv.ended_update here there).2

/-- What a stage writes the next one finds at the end of its queue. -/
theorem Inv.put {next : σ} {a : α} {later : List α} {less : ℕ} (inv : Inv act output s todo fuel)
    (here : s.stages j = some stage) (writes : todo j = a :: later)
    (computes : Computes act next (s.queues (j + 1) ++ todo (j + 1)) later less) :
    Inv act output (s.put j next a) (Function.update todo j later) (Function.update fuel j less) := by
  -- the queue with what is still to come to it is what it was
  have whole (k : ℕ) : (s.put j next a).queues k ++ Function.update todo j later k = s.queues k ++ todo k := by
    rcases eq_or_ne k j with rfl | apart
    · rw [queues_put, Function.update_self, Function.update_self, List.append_assoc, List.singleton_append, writes]
    · rw [queues_put, Function.update_of_ne apart, Function.update_of_ne apart]
  refine ⟨(whole 0).trans inv.written, fun i other there => ?_, fun i there => ?_⟩
  · rw [whole]
    rw [stages_put, Function.update_apply] at there
    split_ifs at there with same
    · subst same
      cases there
      rw [Function.update_self, Function.update_self]
      exact computes
    · rw [Function.update_of_ne same, Function.update_of_ne same]
      exact inv.running i other there
  · obtain ⟨apart, ended⟩ := inv.ended_update here there
    rw [Function.update_of_ne apart]
    exact ended

/-- A step keeps the outcome and takes one of the steps that are left. -/
theorem Inv.step {n : ℕ} (inv : Inv act output s todo fuel) (inside : j < n) (taken : step act capacity s j = some t) :
    ∃ todo' fuel', Inv act output t todo' fuel' ∧ rank n t fuel' < rank n s fuel := by
  cases here : s.stages j with
  | none => simp [Filters.step, here] at taken
  | some stage =>
    have computes := inv.running j stage here
    cases acts : act stage with
    | exit =>
      simp only [Filters.step, here, acts, Option.some.injEq] at taken
      subst taken
      exact ⟨todo, fuel, inv.stop (.inl (computes.of_exit acts)), rank_stop_lt here inside⟩
    | read next =>
      simp only [Filters.step, here, acts] at taken
      split at taken
      · next a rest queue =>
        cases taken
        rw [queue] at computes
        obtain ⟨less, fewer, computes⟩ := computes.of_read acts
        exact ⟨todo, _, inv.take here computes, rank_goOn_lt here inside (stages_take ..) fewer⟩
      · next queue =>
        split_ifs at taken with gone
        cases taken
        -- the stage before has written everything, since this one still reads
        have nothing : todo (j + 1) = [] := by
          rcases inv.ended (j + 1) (Option.isNone_iff_eq_none.mp gone) with written | ⟨k, same, ended⟩
          · exact written
          · obtain rfl := Nat.succ.inj same
            cases here.symm.trans ended
        rw [queue, nothing] at computes
        obtain ⟨less, fewer, computes⟩ := computes.of_readEnd acts
        refine ⟨todo, _, inv.take here ?_, rank_goOn_lt here inside (stages_take ..) fewer⟩
        rwa [nothing]
    | write a next =>
      obtain ⟨later, less, writes, fewer, computes⟩ := computes.of_write acts
      have puts : Inv act output (s.put j next a) (Function.update todo j later) (Function.update fuel j less) ∧
          rank n (s.put j next a) (Function.update fuel j less) < rank n s fuel :=
        ⟨inv.put here writes computes, rank_goOn_lt here inside (stages_put ..) fewer⟩
      cases j with
      | zero =>
        simp only [Filters.step, here, acts, Option.some.injEq] at taken
        subst taken
        exact ⟨_, _, puts⟩
      | succ k =>
        simp only [Filters.step, here, acts] at taken
        split_ifs at taken with gone room
        · cases taken
          have unread := Option.isNone_iff_eq_none.mp gone
          exact ⟨todo, fuel, inv.stop (.inr ⟨k, rfl, unread⟩), rank_stop_lt here inside⟩
        · cases taken
          exact ⟨_, _, puts⟩

/-- Nothing that is written is written too early. -/
theorem Inv.isPrefix (inv : Inv act output s todo fuel) : s.queues 0 <+: output := ⟨todo 0, inv.written⟩

/-! ## The start of the chain -/

theorem exists_streams {filters : List σ} {input : List α} (composes : Composes act filters input output) :
    ∃ (stream : ℕ → List α) (fuel : ℕ → ℕ), stream 0 = output ∧ stream filters.length = input ∧
      ∀ (j : ℕ) stage, filters.reverse[j]? = some stage → Computes act stage (stream (j + 1)) (stream j) (fuel j) := by
  induction filters generalizing input with
  | nil =>
    obtain rfl : input = output := composes
    exact ⟨fun _ => input, fun _ => 0, rfl, rfl, fun j stage there => by simp at there⟩
  | cons first filters ih =>
    obtain ⟨middle, n, computes, composes⟩ := composes
    obtain ⟨stream, fuel, last, rfl, between⟩ := ih composes
    refine ⟨Function.update stream (filters.length + 1) input, Function.update fuel filters.length n, ?_, ?_, ?_⟩
    · rw [Function.update_of_ne (Nat.succ_ne_zero _).symm, last]
    · rw [List.length_cons, Function.update_self]
    · intro j stage there
      rw [List.reverse_cons] at there
      rcases getElem?_append_cases there with ⟨same, rfl⟩ | ⟨before, there⟩
      · rw [List.length_reverse] at same
        subst same
        rw [Function.update_self, Function.update_self, Function.update_of_ne (Nat.succ_ne_self _).symm]
        exact computes
      · rw [List.length_reverse] at before
        rw [Function.update_of_ne (by omega), Function.update_of_ne (by omega), Function.update_of_ne (by omega)]
        exact between j stage there

theorem queues_start (filters : List σ) (input : List α) (k : ℕ) :
    (start filters input).queues k = if k = filters.length then input else [] := rfl

theorem exists_inv_start {filters : List σ} {input : List α} (composes : Composes act filters input output) :
    ∃ todo fuel, Inv act output (start filters input) todo fuel := by
  obtain ⟨stream, fuel, last, first, between⟩ := exists_streams composes
  have whole (k : ℕ) (below : k ≤ filters.length) :
      (start filters input).queues k ++ (if k < filters.length then stream k else []) = stream k := by
    rcases Nat.lt_or_eq_of_le below with inside | rfl
    · rw [if_pos inside, queues_start, if_neg inside.ne, List.nil_append]
    · rw [if_neg (Nat.lt_irrefl _), queues_start, if_pos rfl, List.append_nil, first]
  refine ⟨fun k => if k < filters.length then stream k else [], fuel, (whole 0 (Nat.zero_le _)).trans last, ?_, ?_⟩
  · intro j stage there
    have inside := lt_length_of_getElem? there
    rw [List.length_reverse] at inside
    rw [whole (j + 1) inside, if_pos inside]
    exact between j stage there
  · intro j absent
    have outside := List.getElem?_eq_none_iff.mp absent
    rw [List.length_reverse] at outside
    exact .inl (if_neg (Nat.not_lt.mpr outside))

/-! ## The end of the chain -/

/-- A stage that cannot go on waits for the stage before it or for the one behind it. -/
theorem stuck (room : 0 < capacity) (stops : step act capacity s j = none) (here : s.stages j = some stage) :
    (s.queues (j + 1) = [] ∧ ∃ before, s.stages (j + 1) = some before) ∨
      ∃ k reader, j = k + 1 ∧ s.stages k = some reader ∧ s.queues (k + 1) ≠ [] := by
  cases acts : act stage with
  | exit => simp [step, here, acts] at stops
  | read next =>
    left
    simp only [step, here, acts] at stops
    split at stops
    · cases stops
    · next empty =>
      split_ifs at stops with gone
      exact ⟨empty, Option.ne_none_iff_exists'.mp fun ended => gone (Option.isNone_iff_eq_none.mpr ended)⟩
  | write a next =>
    right
    cases j with
    | zero => simp [step, here, acts] at stops
    | succ k =>
      simp only [step, here, acts] at stops
      split_ifs at stops with gone full
      obtain ⟨reader, reads⟩ := Option.ne_none_iff_exists'.mp fun ended => gone (Option.isNone_iff_eq_none.mpr ended)
      refine ⟨k, reader, rfl, reads, ?_⟩
      rw [← List.length_pos_iff]
      omega

/-- The stages wait for those before them: each reader of a queue that is not empty would go on. -/
theorem waits_of_terminal (room : 0 < capacity) (terminal : Terminal (step act capacity) s)
    (here : s.stages j = some stage) : s.queues (j + 1) = [] ∧ ∃ before, s.stages (j + 1) = some before := by
  induction j generalizing stage with
  | zero =>
    rcases stuck room (terminal 0) here with waits | ⟨k, -, none, -⟩
    · exact waits
    · cases none
  | succ j ih =>
    rcases stuck room (terminal (j + 1)) here with waits | ⟨k, reader, same, reads, full⟩
    · exact waits
    · obtain rfl := Nat.succ.inj same
      exact absurd (ih reads).1 full

/-- No stage of a chain waits for ever. -/
theorem Inv.of_terminal {n : ℕ} (inv : Inv act output s todo fuel) (room : 0 < capacity)
    (finite : ∀ j, n ≤ j → s.stages j = none) (terminal : Terminal (Filters.step act capacity) s) :
    (∀ j, s.stages j = none) ∧ s.queues 0 = output := by
  have all (j : ℕ) : s.stages j = none := by
    rw [Option.eq_none_iff_forall_ne_some]
    intro stage here
    have later (d : ℕ) : ∃ other, s.stages (j + d) = some other := by
      induction d with
      | zero => exact ⟨stage, here⟩
      | succ d ih =>
        obtain ⟨other, there⟩ := ih
        exact (waits_of_terminal room terminal there).2
    obtain ⟨other, there⟩ := later n
    cases there.symm.trans (finite (j + n) (Nat.le_add_left _ _))
  refine ⟨all, ?_⟩
  have written := inv.written
  rcases inv.ended 0 (all 0) with nothing | ⟨k, none, -⟩
  · rwa [nothing, List.append_nil] at written
  · cases none

end

end SystemProgramming.Lib.Filters
