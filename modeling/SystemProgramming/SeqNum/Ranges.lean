import SystemProgramming.Lib.Arc
import SystemProgramming.Lib.Update
import SystemProgramming.SeqNum.Model

/-! # Which ranges the server hands out

The counter is the sum of the lengths of all requests whose FIFO was opened, modulo the word size.
Two ranges that reach their clients are disjoint exactly if the lengths between their starts, taken
modulo the word size, leave room for both. While everything handed out fits the word size they always
do; without failing writes this is the only way.
-/

namespace SystemProgramming.SeqNum

open Lib

/-- How far a request moves the counter. -/
def Served.advance (x : Served) : ℕ :=
  match x.outcome with
  | .openFailed => 0
  | .writeFailed | .delivered => x.req.seqLen.toNat

/-- The lengths of all requests whose FIFO was opened. -/
def total (served : List Served) : ℕ := (served.map Served.advance).sum

/-- The numbers `seqNum`, ..., `seqNum + seqLen - 1` of a request, in `int` arithmetic. -/
def Served.range (x : Served) : Set (BitVec 32) := arc x.seqNum x.req.seqLen.toNat

/-- No number reaches two clients. -/
def RangesDisjoint (served : List Served) : Prop :=
  ∀ (i j : ℕ) (x y : Served), i < j → served[i]? = some x → served[j]? = some y →
    x.outcome = .delivered → y.outcome = .delivered → Disjoint x.range y.range

/-- The lengths from one request up to the next, around the end of the numbers. -/
def gap (served : List Served) (i j : ℕ) : ℕ := total ((served.take j).drop i) % 2 ^ 32

/-- Between the starts of two requests that are delivered there is room for the first, and around the
end of the numbers for the second. -/
def RoomBetween (served : List Served) : Prop :=
  ∀ (i j : ℕ) (x y : Served), i < j → served[i]? = some x → served[j]? = some y →
    x.outcome = .delivered → y.outcome = .delivered →
      x.req.seqLen.toNat ≤ gap served i j ∧ gap served i j + y.req.seqLen.toNat ≤ 2 ^ 32

/-- What `getInt` with `GN_GT_0` lets a client ask for: 1 to `INT_MAX`. -/
def Admitted (req : Request) : Prop := 1 ≤ req.seqLen.toNat ∧ req.seqLen.toNat ≤ 2 ^ 31 - 1

/-! ## The counter -/

theorem total_append (first second : List Served) :
    total (first ++ second) = total first + total second := by
  simp [total]

theorem total_concat (served : List Served) (x : Served) :
    total (served ++ [x]) = total served + x.advance := by
  simp [total]

/-- The counter and the starts handed out are sums of the lengths so far. -/
structure Counted (s : State) : Prop where
  now : s.seqNum = BitVec.ofNat 32 (total s.served)
  before : ∀ i x, s.served[i]? = some x → x.seqNum = BitVec.ofNat 32 (total (s.served.take i))

theorem start_counted : Counted start := ⟨rfl, nofun⟩

/-- The server is through with one more request. -/
theorem Counted.serve {s t : State} (inv : Counted s) (req : Request) (outcome : Outcome)
    (served : t.served = s.served ++ [⟨req, s.seqNum, outcome⟩])
    (advanced : t.seqNum = s.seqNum + BitVec.ofNat 32 (Served.advance ⟨req, s.seqNum, outcome⟩)) :
    Counted t where
  now := by
    rw [advanced, served, total_concat, inv.now, BitVec.ofNat_add]
  before := by
    intro i x here
    rw [served] at here ⊢
    rcases getElem?_append_cases here with ⟨rfl, rfl⟩ | ⟨old, there⟩
    · rw [List.take_left]
      exact inv.now
    · rw [List.take_append_of_le_length old.le]
      exact inv.before i x there

theorem Counted.congr {s t : State} (inv : Counted s) (seqNum : t.seqNum = s.seqNum)
    (served : t.served = s.served) : Counted t where
  now := by
    rw [seqNum, served]
    exact inv.now
  before := by
    rw [served]
    exact inv.before

theorem step_counted (s : State) (e : Event) (t : State) (inv : Counted s)
    (taken : step s e = some t) : Counted t := by
  by_cases server : ∃ failure, e = .server failure
  · obtain ⟨failure, rfl⟩ := server
    cases stepServer_move taken with
    | giveUp req => exact inv.serve req .openFailed rfl (by simp [Served.advance, State.giveUp])
    | lost req => exact inv.serve req .writeFailed rfl (by simp [Served.advance, State.respond])
    | delivered req => exact inv.serve req .delivered rfl (by simp [Served.advance, State.respond])
    | discard | accept | wait | opened => exact inv.congr rfl rfl
  · have untouched := step_untouched (fun failure same => server ⟨failure, same⟩) taken
    exact inv.congr untouched.seqNum untouched.served

theorem run_counted {es : List Event} {s : State} (ran : exec step start es = some s) : Counted s :=
  exec_invariant step_counted ran start_counted

/-! ## Disjoint ranges -/

theorem total_take_drop (served : List Served) {i j : ℕ} (order : i ≤ j) :
    total (served.take j) = total (served.take i) + total ((served.take j).drop i) := by
  have parts := List.take_append_drop i (served.take j)
  rw [List.take_take, Nat.min_eq_left order] at parts
  rw [← total_append, parts]

theorem total_take_succ {served : List Served} {i : ℕ} {x : Served} (here : served[i]? = some x) :
    total (served.take (i + 1)) = total (served.take i) + x.advance := by
  rw [List.take_add_one, here, Option.toList_some, total_concat]

theorem total_take_mono (served : List Served) {i j : ℕ} (order : i ≤ j) :
    total (served.take i) ≤ total (served.take j) := by
  rw [total_take_drop served order]
  exact Nat.le_add_right _ _

theorem total_take_le (served : List Served) (i : ℕ) : total (served.take i) ≤ total served := by
  conv => right; rw [← List.take_append_drop i served, total_append]
  exact Nat.le_add_right _ _

/-- The request that takes the sum of the lengths over a bound. -/
theorem exists_crossing {served : List Served} {bound n : ℕ} (high : bound < total (served.take n)) :
    ∃ k x, k < n ∧ served[k]? = some x ∧ total (served.take k) ≤ bound ∧
      bound < total (served.take k) + x.advance := by
  induction n with
  | zero => simp [total] at high
  | succ n ih =>
    by_cases already : bound < total (served.take n)
    · obtain ⟨k, x, below, rest⟩ := ih already
      exact ⟨k, x, by omega, rest⟩
    · cases here : served[n]? with
      | none =>
        rw [List.take_add_one, here, Option.toList_none, List.append_nil] at high
        exact absurd high already
      | some x =>
        rw [total_take_succ here] at high
        exact ⟨n, x, by omega, here, by omega, high⟩

/-- The distance between two starts is the sum of the lengths between them. -/
theorem Counted.distance {s : State} (inv : Counted s) {i j : ℕ} {x y : Served} (order : i ≤ j)
    (first : s.served[i]? = some x) (second : s.served[j]? = some y) :
    (y.seqNum - x.seqNum).toNat = gap s.served i j := by
  rw [inv.before i x first, inv.before j y second, total_take_drop s.served order, BitVec.ofNat_add,
    add_sub_cancel_left, BitVec.toNat_ofNat]
  rfl

/-- No number is handed out twice exactly if there is room between any two deliveries. -/
theorem ranges_disjoint_iff {es : List Event} {s : State} (ran : exec step start es = some s)
    (admitted : ∀ x ∈ s.served, Admitted x.req) :
    RangesDisjoint s.served ↔ RoomBetween s.served := by
  have inv := run_counted ran
  have same {i j : ℕ} {x y : Served} (order : i < j) (first : s.served[i]? = some x)
      (second : s.served[j]? = some y) :
      Disjoint x.range y.range ↔
        x.req.seqLen.toNat ≤ gap s.served i j ∧
          gap s.served i j + y.req.seqLen.toNat ≤ 2 ^ 32 := by
    have left := admitted x (List.mem_of_getElem? first)
    have right := admitted y (List.mem_of_getElem? second)
    rw [← inv.distance order.le first second]
    exact arc_disjoint_iff left.1 right.1 x.req.seqLen.isLt.le y.req.seqLen.isLt.le
  constructor
  · intro apart i j x y order first second delivered delivered'
    exact (same order first second).mp (apart i j x y order first second delivered delivered')
  · intro room i j x y order first second delivered delivered'
    exact (same order first second).mpr (room i j x y order first second delivered delivered')

/-- Three clients ask for `INT_MAX` numbers each. -/
def greedyRun : List Event :=
  (client ⟨7, 0x7fffffff⟩ 0).take 3 ++ (client ⟨8, 0x7fffffff⟩ 1).take 3 ++
    (client ⟨9, 0x7fffffff⟩ 2).take 3 ++ List.replicate 9 (.server false)

/-- The third range starts two below the end of the numbers and runs into the first. -/
theorem greedy_not_disjoint : ¬ ∀ es s, exec step start es = some s →
    (∀ x ∈ s.served, Admitted x.req) → RangesDisjoint s.served := by
  intro all
  have ran : exec step start greedyRun = some _ := (Option.some_get (by decide +kernel)).symm
  have apart := all _ _ ran (by unfold Admitted; decide +kernel) 0 2
    ⟨⟨7, 0x7fffffff⟩, 0, .delivered⟩ ⟨⟨9, 0x7fffffff⟩, 0xfffffffe, .delivered⟩ (by decide)
    (by decide +kernel) (by decide +kernel) rfl rfl
  have first : 0 ∈ Served.range ⟨⟨7, 0x7fffffff⟩, 0, .delivered⟩ := start_mem_arc (by decide)
  have third : 0 ∈ Served.range ⟨⟨9, 0x7fffffff⟩, 0xfffffffe, .delivered⟩ :=
    ⟨2, by decide, by decide⟩
  exact Set.disjoint_left.mp apart first third

/-- Two of them are served apart. -/
theorem two_ranges_disjoint : ∃ s, exec step start (greedyRun.take 15) = some s ∧
    (RangesDisjoint s.served ↔ RoomBetween s.served) := by
  have ran : exec step start (greedyRun.take 15) = some _ :=
    (Option.some_get (by decide +kernel)).symm
  exact ⟨_, ran, ranges_disjoint_iff ran (by unfold Admitted; decide +kernel)⟩

theorem Served.advance_of_delivered {x : Served} (delivered : x.outcome = .delivered) :
    x.advance = x.req.seqLen.toNat := by
  rw [Served.advance, delivered]

/-- As long as everything handed out fits the word size there is room. -/
theorem roomBetween_of_total_le {served : List Served} (admitted : ∀ x ∈ served, Admitted x.req)
    (fits : total served ≤ 2 ^ 32) : RoomBetween served := by
  intro i j x y order first second delivered delivered'
  have positive := (admitted y (List.mem_of_getElem? second)).1
  have left := total_take_mono served (Nat.succ_le_of_lt order)
  have right := total_take_le served (j + 1)
  rw [total_take_succ first, x.advance_of_delivered delivered] at left
  rw [total_take_succ second, y.advance_of_delivered delivered'] at right
  rw [total_take_drop served order.le] at left right
  have small : total ((served.take j).drop i) < 2 ^ 32 := by omega
  rw [gap, Nat.mod_eq_of_lt small]
  omega

/-- Without failing writes the numbers stay apart exactly while they fit the word size. -/
theorem roomBetween_iff_total_le {served : List Served} (admitted : ∀ x ∈ served, Admitted x.req)
    (written : ∀ x ∈ served, x.outcome ≠ .writeFailed) :
    RoomBetween served ↔ total served ≤ 2 ^ 32 := by
  have delivered {k : ℕ} {x : Served} (here : served[k]? = some x) (moves : 0 < x.advance) :
      x.outcome = .delivered := by
    have known := written x (List.mem_of_getElem? here)
    cases outcome : x.outcome with
    | openFailed => simp [Served.advance, outcome] at moves
    | writeFailed => exact absurd outcome known
    | delivered => rfl
  refine ⟨fun room => ?_, roomBetween_of_total_le admitted⟩
  by_contra exceeds
  -- the request that goes over the end, and the first one that got any number
  have exceeded : 2 ^ 32 < total (served.take served.length) := by
    rw [List.take_length]
    omega
  obtain ⟨j, y, -, second, low, high⟩ := exists_crossing exceeded
  have last := delivered second (by omega)
  have short := (admitted y (List.mem_of_getElem? second)).2
  rw [y.advance_of_delivered last] at high
  have some_before : 0 < total (served.take j) := by omega
  obtain ⟨i, x, order, first, none_before, moves⟩ := exists_crossing some_before
  have initial := delivered first (by omega)
  have positive := (admitted x (List.mem_of_getElem? first)).1
  obtain ⟨behind, before⟩ := room i j x y order first second initial last
  have between := total_take_drop served order.le
  rw [gap] at behind before
  rcases Nat.lt_or_eq_of_le low with below | exactly
  · rw [Nat.mod_eq_of_lt (by omega)] at before
    omega
  · have full : total ((served.take j).drop i) = 2 ^ 32 := by omega
    rw [full, Nat.mod_self] at behind
    omega

end SystemProgramming.SeqNum
