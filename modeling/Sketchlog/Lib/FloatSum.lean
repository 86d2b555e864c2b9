import Sketchlog.Lib.Rounding

/-!
# Sums of doubles

Doubles are multiples of `2 ^ -1074`, so the exact sum of two of them is one, and the double nearest
to it is the rounding of an integer in that unit. `Representable` says that a rational is such a
multiple with 53 significant bits: a double, but for the bound on its exponent. Sums are
`Representable` again, and adding something that is not negative never goes below (`le_floatAdd`).
It may add nothing: a summand below half a unit in the last place is absorbed.
-/

namespace Binary64

/-- `x + y` for floats: the exact sum, rounded to 53 bits. -/
def floatAdd (x y : ℚ) : ℚ := roundInt ((x + y) * 2 ^ 1074).num / 2 ^ 1074

/-- `x - y` for floats. -/
def floatSub (x y : ℚ) : ℚ := floatAdd x (-y)

/-- `k * x` for an int and a float. -/
def floatScale (k : ℤ) (x : ℚ) : ℚ := roundInt ((k * x) * 2 ^ 1074).num / 2 ^ 1074

/-- A multiple of `2 ^ -1074` with 53 significant bits. -/
def Representable (x : ℚ) : Prop := (∃ n : ℤ, x = n / 2 ^ 1074) ∧ Is53Bit x

variable {x y : ℚ}

theorem Is53Bit.mul_zpow (h : Is53Bit x) (e : ℤ) : Is53Bit (x * 2 ^ e) := by
  obtain ⟨k, f, hk, rfl⟩ := h
  refine ⟨k, f + e, hk, ?_⟩
  rw [zpow_add₀ (by norm_num)]
  ring

theorem is53Bit_roundNat (m : ℕ) : Is53Bit (roundNat m : ℚ) := by
  have hq := lt_two_pow_excess m
  unfold roundNat
  split
  · exact is53Bit_ceil m
  · refine ⟨(m / 2 ^ excess m : ℕ), excess m, ?_, ?_⟩
    · rw [Nat.abs_cast]
      exact_mod_cast hq.le
    · rw [zpow_natCast]
      push_cast
      rfl

theorem is53Bit_roundInt (n : ℤ) : Is53Bit (roundInt n : ℚ) := by
  by_cases hn : n < 0
  · rw [roundInt_of_neg hn, Int.cast_neg, Int.cast_natCast]
    exact (is53Bit_roundNat _).neg
  · rw [roundInt_of_nonneg (not_lt.mp hn), Int.cast_natCast]
    exact is53Bit_roundNat _

theorem representable_of_isBinary64 (h : IsBinary64 x) : Representable x := by
  refine ⟨?_, is53Bit_of_isBinary64 h⟩
  obtain ⟨m, e, -, hlo, -, rfl⟩ := h
  -- the exponent is at least -1074, so the power of two that is left is an integer
  refine ⟨m * 2 ^ (e + 1074).toNat, ?_⟩
  have he : (2 : ℚ) ^ e = 2 ^ (e + 1074).toNat / 2 ^ 1074 := by
    rw [eq_div_iff (by positivity), ← zpow_natCast, ← zpow_natCast, ← zpow_add₀ (by norm_num)]
    congr 1
    omega
  rw [he]
  push_cast
  ring

theorem representable_floatAdd (x y : ℚ) : Representable (floatAdd x y) := by
  refine ⟨⟨_, rfl⟩, ?_⟩
  have hshift : floatAdd x y = roundInt ((x + y) * 2 ^ 1074).num * (2 : ℚ) ^ (-1074 : ℤ) := by
    rw [floatAdd, div_eq_mul_inv, zpow_neg]
    rfl
  rw [hshift]
  exact (is53Bit_roundInt _).mul_zpow _

/-- **Adding does not go below.** -/
theorem le_floatAdd (hx : Representable x) (hy : Representable y) (hpos : 0 ≤ y) :
    x ≤ floatAdd x y := by
  obtain ⟨⟨n, hn⟩, hbits⟩ := hx
  obtain ⟨⟨m, hm⟩, -⟩ := hy
  have hunit : (0 : ℚ) < 2 ^ 1074 := by positivity
  have hsum : (x + y) * 2 ^ 1074 = ((n + m : ℤ) : ℚ) := by
    rw [hn, hm, ← add_div, div_mul_cancel₀ _ hunit.ne']
    push_cast
    rfl
  have hle : x * 2 ^ 1074 ≤ ((n + m : ℤ) : ℚ) := by
    rw [← hsum]
    exact mul_le_mul_of_nonneg_right (le_add_of_nonneg_right hpos) hunit.le
  have hround := le_roundInt (hbits.mul_zpow 1074) hle
  rw [floatAdd, hsum, Rat.num_intCast, le_div_iff₀ hunit]
  exact hround

end Binary64
