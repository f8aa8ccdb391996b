import SystemProgramming.Broadcast.Collect
import Mathlib.Analysis.SpecialFunctions.Log.Base
import Mathlib.Algebra.Order.Floor.Semiring

/-! # The time limit of `collect_child`

It is the logarithm of the number of consumers times the length of the messages in seconds, truncated to
whole seconds. The logarithm and the products are exact here.
-/

namespace SystemProgramming.Broadcast.Collect

/-- `tv_sec`, which is assigned from `log10(n) * m * r / 1000`. -/
noncomputable def tvSec (n r m : ℕ) : ℕ := ⌊Real.logb 10 n * m * r / 1000⌋₊

/-- The milliseconds `producer_job` sleeps, once before each message and once before the end marker. The
microseconds of one `usleep` fit into `useconds_t`. -/
def slept (r m : ℕ) : ℕ := m * r + r

/-- The whole seconds are counted by the powers of ten below a power of the number of consumers. -/
theorem le_tvSec_iff {n r m k : ℕ} (some_ : 0 < n) :
    k ≤ tvSec n r m ↔ 10 ^ (1000 * k) ≤ n ^ (m * r) := by
  have one : (1 : ℝ) ≤ n := Nat.one_le_cast.mpr some_
  have limit : Real.logb 10 n * m * r / 1000 = Real.logb 10 ((n : ℝ) ^ (m * r)) / 1000 := by
    rw [Real.logb_pow, Nat.cast_mul]
    ring
  have nonneg : 0 ≤ Real.logb 10 ((n : ℝ) ^ (m * r)) / 1000 := by
    apply div_nonneg
    · exact Real.logb_nonneg (by norm_num) (one_le_pow₀ one)
    · norm_num
  rw [tvSec, limit, Nat.le_floor_iff nonneg, le_div_iff₀ (by norm_num),
    Real.le_logb_iff_rpow_le (by norm_num) (by positivity)]
  have exponent : (k : ℝ) * 1000 = ((1000 * k : ℕ) : ℝ) := by
    rw [Nat.cast_mul, mul_comm]
    norm_num
  rw [exponent, Real.rpow_natCast]
  exact_mod_cast Iff.rfl

/-- The limit covers the time the producer sleeps exactly if the power of the number of consumers
reaches the power of ten for that time in seconds, rounded up. -/
theorem slept_le_tvSec_iff {n : ℕ} (r m : ℕ) (some_ : 0 < n) :
    slept r m ≤ 1000 * tvSec n r m ↔ 10 ^ (1000 * ((slept r m + 999) / 1000)) ≤ n ^ (m * r) := by
  rw [← le_tvSec_iff some_]
  omega

/-- A hundred consumers and two messages in two seconds. -/
theorem slept_le_tvSec_hundred :
    slept 1000 2 ≤ 1000 * tvSec 100 1000 2 ↔
      10 ^ (1000 * ((slept 1000 2 + 999) / 1000)) ≤ 100 ^ (2 * 1000) :=
  slept_le_tvSec_iff 1000 2 (by decide)

/-- Up to ten consumers never get the time. -/
theorem tvSec_lt_slept {n r m : ℕ} (some_ : 0 < n) (few : n ≤ 10) (interval : 0 < r) :
    1000 * tvSec n r m < slept r m := by
  rw [← not_le, slept_le_tvSec_iff r m some_, not_le]
  calc n ^ (m * r) ≤ 10 ^ (m * r) := Nat.pow_le_pow_left few _
    _ < 10 ^ (1000 * ((slept r m + 999) / 1000)) := by
      apply Nat.pow_lt_pow_right (by decide)
      rw [slept]
      omega

/-- A thousand messages every half second for ten consumers. -/
theorem not_slept_le_tvSec : ¬ ∀ n r m : ℕ, 0 < n → 0 < r → 0 < m → slept r m ≤ 1000 * tvSec n r m := by
  intro enough
  have short := enough 10 500 1000 (by decide) (by decide) (by decide)
  have limit : tvSec 10 500 1000 = 500 := by
    rw [tvSec, Nat.cast_ofNat, Real.logb_self_eq_one (by norm_num)]
    norm_num
  rw [limit] at short
  exact absurd short (by decide)

end SystemProgramming.Broadcast.Collect
