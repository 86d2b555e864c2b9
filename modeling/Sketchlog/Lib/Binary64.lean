import Mathlib

/-!
# Finite binary64 values as exact rationals

A finite IEEE-754 double is `m * 2 ^ e` with `|m| < 2 ^ 53` and `-1074 ≤ e ≤ 971`. Only its exact
value matters to comparisons, so a double is kept as a rational with the proof that it has this
shape; the two zeros are one value. What the rest of the development needs is the range: a nonzero
double lies between the smallest subnormal and the largest finite double in magnitude.
-/

/-- The rational `q` is a finite double. -/
def IsBinary64 (q : ℚ) : Prop :=
  ∃ m e : ℤ, |m| < 2 ^ 53 ∧ -1074 ≤ e ∧ e ≤ 971 ∧ q = m * (2 : ℚ) ^ e

/-- A finite double, by its exact value. -/
@[ext]
structure Binary64 where
  val : ℚ
  isBinary64 : IsBinary64 val

/-- Whether a rational is a double is a question about the 2046 exponents in range. -/
instance : DecidablePred IsBinary64 := fun q =>
  decidable_of_iff (∃ k ∈ List.range 2046, (q / (2 : ℚ) ^ ((k : ℤ) - 1074)).den = 1
    ∧ (q / (2 : ℚ) ^ ((k : ℤ) - 1074)).num.natAbs < 2 ^ 53) <| by
    constructor
    · rintro ⟨k, hk, hden, hnum⟩
      rw [List.mem_range] at hk
      refine ⟨(q / (2 : ℚ) ^ ((k : ℤ) - 1074)).num, (k : ℤ) - 1074, ?_, by omega, by omega, ?_⟩
      · rw [Int.abs_eq_natAbs]
        exact_mod_cast hnum
      · rw [(Rat.den_eq_one_iff _).mp hden, div_mul_cancel₀ _ (by positivity)]
    · rintro ⟨m, e, hm, hlo, hhi, rfl⟩
      have hdiv : (m : ℚ) * (2 : ℚ) ^ e / (2 : ℚ) ^ e = m := mul_div_cancel_right₀ _ (by positivity)
      refine ⟨(e + 1074).toNat, List.mem_range.mpr (by omega), ?_⟩
      rw [show (((e + 1074).toNat : ℕ) : ℤ) - 1074 = e by omega, hdiv, Rat.den_intCast,
        Rat.num_intCast]
      rw [Int.abs_eq_natAbs] at hm
      exact ⟨rfl, by exact_mod_cast hm⟩

namespace Binary64

/-- `5e-324`, the smallest subnormal. -/
def minSubnormal : ℚ := (2 : ℚ) ^ (-1074 : ℤ)

/-- `sys.float_info.max`, `std::numeric_limits<double>::max()`. -/
def maxFinite : ℚ := (2 ^ 53 - 1) * (2 : ℚ) ^ (971 : ℤ)

theorem minSubnormal_pos : 0 < minSubnormal := by
  unfold minSubnormal
  positivity

/-- Small integers are doubles. -/
def ofInt (n : ℤ) (h : |n| < 2 ^ 53) : Binary64 :=
  ⟨n, n, 0, h, by norm_num, by norm_num, by simp⟩

/-! The integers that stand as literals. -/

theorem abs_zero_lt : |(0 : ℤ)| < 2 ^ 53 := by decide

theorem abs_one_lt : |(1 : ℤ)| < 2 ^ 53 := by decide

theorem abs_neg_two_lt : |(-2 : ℤ)| < 2 ^ 53 := by decide

theorem abs_three_lt : |(3 : ℤ)| < 2 ^ 53 := by decide

theorem abs_neg_three_lt : |(-3 : ℤ)| < 2 ^ 53 := by decide

theorem abs_four_lt : |(4 : ℤ)| < 2 ^ 53 := by decide

theorem abs_five_lt : |(5 : ℤ)| < 2 ^ 53 := by decide

theorem abs_six_lt : |(6 : ℤ)| < 2 ^ 53 := by decide

theorem abs_ten_lt : |(10 : ℤ)| < 2 ^ 53 := by decide

theorem abs_sixty_lt : |(60 : ℤ)| < 2 ^ 53 := by decide

theorem abs_hundred_lt : |(100 : ℤ)| < 2 ^ 53 := by decide

/-- `0.5`. -/
def half : Binary64 := ⟨1 / 2, 1, -1, by norm_num, by norm_num, by norm_num, by norm_num⟩

/-- A nonzero double is at least the smallest subnormal in magnitude. -/
theorem minSubnormal_le_abs (x : Binary64) (hx : x.val ≠ 0) : minSubnormal ≤ |x.val| := by
  obtain ⟨m, e, -, hlo, -, hq⟩ := x.isBinary64
  have hm : (1 : ℚ) ≤ |(m : ℚ)| := by
    have hm0 : m ≠ 0 := by
      rintro rfl
      exact hx (by simpa using hq)
    exact_mod_cast Int.one_le_abs hm0
  have he : (2 : ℚ) ^ (-1074 : ℤ) ≤ (2 : ℚ) ^ e := zpow_le_zpow_right₀ (by norm_num) hlo
  calc minSubnormal = 1 * (2 : ℚ) ^ (-1074 : ℤ) := by rw [one_mul, minSubnormal]
    _ ≤ |(m : ℚ)| * (2 : ℚ) ^ e := mul_le_mul hm he (by positivity) (by positivity)
    _ = |x.val| := by rw [hq, abs_mul, abs_of_pos (by positivity : (0 : ℚ) < 2 ^ e)]

/-- A double is at most the largest finite double in magnitude. -/
theorem abs_le_maxFinite (x : Binary64) : |x.val| ≤ maxFinite := by
  obtain ⟨m, e, hm, -, hhi, hq⟩ := x.isBinary64
  have hm' : |(m : ℚ)| ≤ 2 ^ 53 - 1 := by
    have hle : |m| ≤ 2 ^ 53 - 1 := by omega
    exact_mod_cast hle
  have he : (2 : ℚ) ^ e ≤ (2 : ℚ) ^ (971 : ℤ) := zpow_le_zpow_right₀ (by norm_num) hhi
  calc |x.val| = |(m : ℚ)| * (2 : ℚ) ^ e := by
        rw [hq, abs_mul, abs_of_pos (by positivity : (0 : ℚ) < 2 ^ e)]
    _ ≤ maxFinite := mul_le_mul hm' he (by positivity) (by norm_num)

end Binary64
