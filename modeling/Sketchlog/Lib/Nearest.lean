import Mathlib.Data.Int.Log
import Sketchlog.Lib.Binary64

/-!
# The double nearest to a rational

Every operation of binary64 arithmetic is the exact one, followed by a rounding to 53 bits with ties
to even; below the normal range the last place is `2 ^ -1074`. `nearest` is this rounding with no
bound on the exponent: a result that is not a double has overflowed. It leaves the doubles where
they are, is monotone, and moves a number by half a unit of its last place at most.
-/

namespace Binary64

/-- The nearest integer, ties to even. -/
def halfEven (q : ℚ) : ℤ :=
  if q - ⌊q⌋ < 1 / 2 then ⌊q⌋
  else if 1 / 2 < q - ⌊q⌋ then ⌊q⌋ + 1
  else if ⌊q⌋ % 2 = 0 then ⌊q⌋ else ⌊q⌋ + 1

/-- The exponent of the last place of `q`. -/
def lastPlace (q : ℚ) : ℤ := max (Int.log 2 |q| - 52) (-1074)

/-- `q`, rounded to 53 bits. -/
def nearest (q : ℚ) : ℚ := halfEven (q / 2 ^ lastPlace q) * 2 ^ lastPlace q

theorem halfEven_intCast (n : ℤ) : halfEven n = n := by
  unfold halfEven
  rw [Int.floor_intCast, sub_self, if_pos (by norm_num)]

/-- A double has no digits below its last place. -/
theorem lastPlace_le {m e : ℤ} (hm : |m| < 2 ^ 53) (hlo : -1074 ≤ e) (hne : m ≠ 0) :
    lastPlace (m * (2 : ℚ) ^ e) ≤ e := by
  refine max_le ?_ hlo
  have hpos : (0 : ℚ) < |m * (2 : ℚ) ^ e| := by
    have hm' : (m : ℚ) ≠ 0 := by exact_mod_cast hne
    positivity
  have hlt : |(m : ℚ) * (2 : ℚ) ^ e| < ((2 : ℕ) : ℚ) ^ (e + 53) := by
    rw [abs_mul, abs_of_pos (by positivity : (0 : ℚ) < 2 ^ e), Nat.cast_ofNat,
      zpow_add₀ (by norm_num), mul_comm]
    have hm' : |(m : ℚ)| < (2 : ℚ) ^ (53 : ℤ) := by exact_mod_cast hm
    gcongr
  have hlog := (Int.lt_zpow_iff_log_lt (by norm_num : 1 < 2) hpos).mp hlt
  omega

/-- **A double is its own rounding.** -/
theorem nearest_of_isBinary64 {q : ℚ} (h : IsBinary64 q) : nearest q = q := by
  obtain ⟨m, e, hm, hlo, -, rfl⟩ := h
  by_cases hne : m = 0
  · rw [hne]
    simp [nearest, halfEven]
  obtain ⟨d, hd⟩ := Int.eq_ofNat_of_zero_le (sub_nonneg.mpr (lastPlace_le hm hlo hne))
  have hquot : (m : ℚ) * 2 ^ e / 2 ^ lastPlace (m * (2 : ℚ) ^ e) = ((m * 2 ^ d : ℤ) : ℚ) := by
    rw [mul_div_assoc, ← zpow_sub₀ (by norm_num), hd]
    push_cast
    rw [zpow_natCast]
  unfold nearest
  rw [hquot, halfEven_intCast, ← hquot, div_mul_cancel₀ _ (by positivity)]

theorem floor_le_halfEven (q : ℚ) : ⌊q⌋ ≤ halfEven q := by
  unfold halfEven
  split
  · exact le_rfl
  split
  · omega
  split <;> omega

/-- **Rounding does not go below a double.** -/
theorem le_nearest {x q : ℚ} (hx : IsBinary64 x) (hpos : 0 < x) (h : x ≤ q) : x ≤ nearest q := by
  obtain ⟨m, k, hm, hlo, -, rfl⟩ := hx
  have hq : 0 < q := hpos.trans_le h
  have hunit : (0 : ℚ) < 2 ^ lastPlace q := by positivity
  -- it is enough to have an integer between them, in units of the last place
  have hint : ∀ n : ℤ, (m : ℚ) * 2 ^ k ≤ n * 2 ^ lastPlace q → (n : ℚ) * 2 ^ lastPlace q ≤ q
    → m * 2 ^ k ≤ nearest q := by
    intro n hle hn
    have hfloor : n ≤ ⌊q / 2 ^ lastPlace q⌋ := Int.le_floor.mpr ((le_div_iff₀ hunit).mpr hn)
    have hn' : (n : ℚ) ≤ halfEven (q / 2 ^ lastPlace q) := by
      exact_mod_cast hfloor.trans (floor_le_halfEven _)
    exact hle.trans (mul_le_mul_of_nonneg_right hn' hunit.le)
  by_cases hplace : lastPlace q ≤ k
  · obtain ⟨d, hd⟩ := Int.eq_ofNat_of_zero_le (sub_nonneg.mpr hplace)
    have heq : (m : ℚ) * 2 ^ k = ((m * 2 ^ d : ℤ) : ℚ) * 2 ^ lastPlace q := by
      have hk : k = d + lastPlace q := by omega
      push_cast
      rw [mul_assoc, ← zpow_natCast (2 : ℚ) d, ← zpow_add₀ (by norm_num), ← hk]
    exact hint _ heq.le (heq ▸ h)
  · -- the last place of `q` is above that of `x`, so `q` has another power of two in between
    have hlog : lastPlace q = Int.log 2 |q| - 52 := by
      unfold lastPlace at hplace ⊢
      omega
    have hpow : (2 : ℚ) ^ (52 + lastPlace q) ≤ q := by
      have := Int.zpow_log_le_self (by norm_num : 1 < 2) (abs_pos.mpr hq.ne')
      rw [abs_of_pos hq] at this hlog
      rw [hlog, show 52 + (Int.log 2 q - 52) = Int.log 2 q by omega]
      exact_mod_cast this
    have hsmall : (m : ℚ) * 2 ^ k ≤ 2 ^ (52 + lastPlace q) := by
      have hm' : (m : ℚ) ≤ 2 ^ (53 : ℤ) := by
        have : m ≤ 2 ^ 53 := (le_abs_self m).trans hm.le
        exact_mod_cast this
      calc (m : ℚ) * 2 ^ k ≤ 2 ^ (53 : ℤ) * 2 ^ k := mul_le_mul_of_nonneg_right hm' (by positivity)
        _ = 2 ^ (53 + k) := (zpow_add₀ (by norm_num) _ _).symm
        _ ≤ 2 ^ (52 + lastPlace q) := zpow_le_zpow_right₀ (by norm_num) (by omega)
    have heq : (2 : ℚ) ^ (52 + lastPlace q) = ((2 ^ 52 : ℤ) : ℚ) * 2 ^ lastPlace q := by
      rw [zpow_add₀ (by norm_num)]
      norm_num
    exact hint (2 ^ 52) (heq ▸ hsmall) (heq ▸ hpow)

/-! ## The error

How far a rational is from the nearest double. Between two powers of two the doubles have one
spacing, so the error is half of a last place; below the least normal number it is half of the least
double. Monotonicity and the behaviour of quotients near 1 follow from the same decomposition. -/

/-- The nearest integer is no further than a half. -/
theorem abs_halfEven_sub_le (q : ℚ) : |(halfEven q : ℚ) - q| ≤ 1 / 2 := by
  have hlow := Int.floor_le q
  have hhigh := Int.lt_floor_add_one q
  rw [abs_le]
  unfold halfEven
  split_ifs with hbelow habove heven <;> push_cast <;> constructor <;> linarith

theorem halfEven_mono {p q : ℚ} (h : p ≤ q) : halfEven p ≤ halfEven q := by
  have hfloor : ⌊p⌋ ≤ ⌊q⌋ := Int.floor_mono h
  by_cases heq : ⌊p⌋ = ⌊q⌋
  · -- the fractional parts are in order
    unfold halfEven
    rw [heq]
    have hp : p - ⌊q⌋ ≤ q - ⌊q⌋ := by linarith
    split_ifs <;> first | omega | linarith
  · have hup : halfEven p ≤ ⌊p⌋ + 1 := by
      unfold halfEven
      split_ifs <;> omega
    have hdown := floor_le_halfEven q
    omega

/-- What a rounding can move a number by: half a unit of the last place, of the number or of the
smallest double. -/
def slack (q : ℚ) : ℚ := |q| / 2 ^ 53 + minSubnormal / 2

theorem nearest_zero : nearest 0 = 0 := by
  norm_num [nearest, halfEven]

/-- Half a unit of the last place. -/
theorem abs_nearest_sub_le_half (q : ℚ) : |nearest q - q| ≤ 1 / 2 * 2 ^ lastPlace q := by
  have hunit : (0 : ℚ) < 2 ^ lastPlace q := by positivity
  have hsplit : nearest q - q
      = (halfEven (q / 2 ^ lastPlace q) - q / 2 ^ lastPlace q) * 2 ^ lastPlace q := by
    unfold nearest
    rw [sub_mul, div_mul_cancel₀ _ hunit.ne']
  rw [hsplit, abs_mul, abs_of_pos hunit]
  exact mul_le_mul_of_nonneg_right (abs_halfEven_sub_le _) hunit.le

/-- A unit of the last place, in the normal range. -/
theorem half_unit_le {q : ℚ} (hq : q ≠ 0) (hplace : lastPlace q = Int.log 2 |q| - 52) :
    1 / 2 * (2 : ℚ) ^ lastPlace q ≤ |q| / 2 ^ 53 := by
  have hlog : (2 : ℚ) ^ Int.log 2 |q| ≤ |q| := by
    exact_mod_cast Int.zpow_log_le_self (by norm_num : 1 < 2) (abs_pos.mpr hq)
  rw [hplace, zpow_sub₀ (by norm_num)]
  calc 1 / 2 * ((2 : ℚ) ^ Int.log 2 |q| / 2 ^ (52 : ℤ)) = 2 ^ Int.log 2 |q| / 2 ^ 53 := by
        norm_num
        ring
    _ ≤ |q| / 2 ^ 53 := by gcongr

theorem abs_nearest_sub_le (q : ℚ) : |nearest q - q| ≤ slack q := by
  by_cases hq : q = 0
  · rw [hq, nearest_zero, sub_self, abs_zero]
    exact add_nonneg (by positivity) (half_pos minSubnormal_pos).le
  refine (abs_nearest_sub_le_half q).trans ?_
  unfold slack
  rcases max_choice (Int.log 2 |q| - 52) (-1074) with hplace | hplace
  · exact (half_unit_le hq hplace).trans (le_add_of_nonneg_right (half_pos minSubnormal_pos).le)
  · have hpos : 0 ≤ |q| / 2 ^ 53 := by positivity
    unfold lastPlace
    rw [hplace]
    calc 1 / 2 * (2 : ℚ) ^ (-1074 : ℤ) = minSubnormal / 2 := by
          unfold minSubnormal
          ring
      _ ≤ |q| / 2 ^ 53 + minSubnormal / 2 := le_add_of_nonneg_left hpos

/-- In the normal range the error is relative. -/
theorem abs_nearest_sub_le_of_normal {q : ℚ} (h : (2 : ℚ) ^ (-1022 : ℤ) ≤ |q|) :
    |nearest q - q| ≤ |q| / 2 ^ 53 := by
  have hpos : 0 < |q| := lt_of_lt_of_le (by positivity) h
  have hlog : -1022 ≤ Int.log 2 |q| :=
    (Int.zpow_le_iff_le_log (by norm_num : 1 < 2) hpos).mp (by exact_mod_cast h)
  have hplace : lastPlace q = Int.log 2 |q| - 52 := by
    unfold lastPlace
    omega
  exact (abs_nearest_sub_le_half q).trans (half_unit_le (abs_pos.mp hpos) hplace)

/-- A rounding keeps all but the `2 ^ 53`-th part of a number that is normal or a double. -/
theorem le_abs_nearest {q : ℚ} (h : (2 : ℚ) ^ (-1022 : ℤ) ≤ |q| ∨ IsBinary64 q) :
    |q| * (1 - 1 / 2 ^ 53) ≤ |nearest q| := by
  rcases h with hnormal | hdouble
  · have herror := abs_nearest_sub_le_of_normal hnormal
    have htriangle := abs_sub_abs_le_abs_sub q (nearest q)
    rw [abs_sub_comm] at htriangle
    linarith
  · rw [nearest_of_isBinary64 hdouble]
    have hnonneg := abs_nonneg q
    linarith

/-- What rounds to a normal number at most is that number at most, but for the rounding. -/
theorem mul_le_of_nearest_le {q a : ℚ} (hq : 0 ≤ q) (ha : (2 : ℚ) ^ (-1022 : ℤ) ≤ a)
    (h : nearest q ≤ a) :
    q * (1 - 1 / 2 ^ 53) ≤ a := by
  by_cases hnormal : (2 : ℚ) ^ (-1022 : ℤ) ≤ q
  · have herror := (abs_le.mp (abs_nearest_sub_le_of_normal (q := q) (by rwa [abs_of_nonneg hq]))).1
    rw [abs_of_nonneg hq] at herror
    linarith
  · linarith [not_le.mp hnormal]

/-- A multiple of the smallest double is a double, up to the normal range. -/
theorem isBinary64_of_multiple {q : ℚ} {m : ℤ} (hq : q = m * (2 : ℚ) ^ (-1074 : ℤ))
    (h : |q| < (2 : ℚ) ^ (-1022 : ℤ)) : IsBinary64 q := by
  refine ⟨m, -1074, ?_, le_rfl, by norm_num, hq⟩
  have hunit : (0 : ℚ) < 2 ^ (-1074 : ℤ) := by positivity
  rw [hq, abs_mul, abs_of_pos hunit, ← lt_div_iff₀ hunit, ← zpow_sub₀ (by norm_num)] at h
  have hm : |(m : ℚ)| < ((2 ^ 53 : ℤ) : ℚ) := h.trans (by norm_num)
  exact_mod_cast hm

theorem isBinary64_neg {q : ℚ} (h : IsBinary64 q) : IsBinary64 (-q) := by
  obtain ⟨m, e, hm, hlo, hhi, rfl⟩ := h
  exact ⟨-m, e, by rwa [abs_neg], hlo, hhi, by rw [Int.cast_neg, neg_mul]⟩

theorem exists_multiple {q : ℚ} (h : IsBinary64 q) : ∃ m : ℤ, q = m * (2 : ℚ) ^ (-1074 : ℤ) := by
  obtain ⟨m, e, -, hlo, -, rfl⟩ := h
  obtain ⟨d, hd⟩ := Int.eq_ofNat_of_zero_le (by omega : 0 ≤ e + 1074)
  refine ⟨m * 2 ^ d, ?_⟩
  rw [show e = d + -1074 by omega, zpow_add₀ (by norm_num), zpow_natCast, Int.cast_mul, Int.cast_pow,
    Int.cast_ofNat, mul_assoc]

/-- The difference of two doubles is normal or a double itself. -/
theorem normal_or_isBinary64_sub {x y : ℚ} (hx : IsBinary64 x) (hy : IsBinary64 y) :
    (2 : ℚ) ^ (-1022 : ℤ) ≤ |x - y| ∨ IsBinary64 (x - y) := by
  by_cases hnormal : (2 : ℚ) ^ (-1022 : ℤ) ≤ |x - y|
  · exact .inl hnormal
  · obtain ⟨m, hm⟩ := exists_multiple hx
    obtain ⟨n, hn⟩ := exists_multiple hy
    have hsub : x - y = ((m - n : ℤ) : ℚ) * (2 : ℚ) ^ (-1074 : ℤ) := by
      rw [hm, hn, Int.cast_sub, sub_mul]
    exact .inr (isBinary64_of_multiple hsub (not_le.mp hnormal))

theorem halfEven_neg (q : ℚ) : halfEven (-q) = -halfEven q := by
  by_cases hint : (⌊q⌋ : ℚ) = q
  · rw [← hint, ← Int.cast_neg, halfEven_intCast, halfEven_intCast]
  · have hlow := lt_of_le_of_ne (Int.floor_le q) hint
    have hhigh := Int.lt_floor_add_one q
    have hfloor : ⌊-q⌋ = -⌊q⌋ - 1 := by
      rw [Int.floor_eq_iff]
      push_cast
      constructor <;> linarith
    unfold halfEven
    rw [hfloor]
    push_cast
    -- the two fractional parts sum to one
    split_ifs <;> first | omega | linarith

theorem nearest_neg (q : ℚ) : nearest (-q) = -nearest q := by
  unfold nearest lastPlace
  rw [abs_neg, neg_div, halfEven_neg, Int.cast_neg, neg_mul]

theorem abs_nearest_neg (q : ℚ) : |nearest (-q)| = |nearest q| := by
  rw [nearest_neg, abs_neg]

theorem nearest_nonpos {q : ℚ} (h : q ≤ 0) : nearest q ≤ 0 := by
  have hunit : (0 : ℚ) < 2 ^ lastPlace q := by positivity
  have hround := halfEven_mono (q := ((0 : ℤ) : ℚ))
    (by simpa using div_nonpos_of_nonpos_of_nonneg h hunit.le)
  rw [halfEven_intCast] at hround
  exact mul_nonpos_of_nonpos_of_nonneg (by exact_mod_cast hround) hunit.le

/-- **Rounding is monotone.** -/
theorem nearest_mono {p q : ℚ} (hpos : 0 ≤ p) (h : p ≤ q) : nearest p ≤ nearest q := by
  have hunit : (0 : ℚ) < 2 ^ lastPlace p := by positivity
  have hunit' : (0 : ℚ) < 2 ^ lastPlace q := by positivity
  by_cases hplace : lastPlace p = lastPlace q
  · unfold nearest
    rw [hplace]
    have hround := halfEven_mono (div_le_div_of_nonneg_right h hunit'.le)
    exact mul_le_mul_of_nonneg_right (by exact_mod_cast hround) hunit'.le
  by_cases hzero : p = 0
  · have hround := halfEven_mono (p := ((0 : ℤ) : ℚ))
      (by simpa using div_nonneg (hpos.trans h) hunit'.le)
    rw [halfEven_intCast] at hround
    rw [hzero, nearest_zero]
    exact mul_nonneg (by exact_mod_cast hround) hunit'.le
  -- a power of two is between them, and both roundings stay on their side of it
  have hp : 0 < p := lt_of_le_of_ne hpos (Ne.symm hzero)
  have hq : 0 < q := hp.trans_le h
  have hlogs : Int.log 2 p ≤ Int.log 2 q := Int.log_mono_right hp h
  have hlog : lastPlace q = Int.log 2 q - 52 ∧ Int.log 2 p + 1 ≤ Int.log 2 q ∧ lastPlace p
    ≤ lastPlace q := by
    unfold lastPlace at hplace ⊢
    rw [abs_of_pos hp, abs_of_pos hq] at hplace ⊢
    omega
  have hbelow : p ≤ 2 ^ Int.log 2 q := by
    have hlt : p < ((2 : ℕ) : ℚ) ^ (Int.log 2 p + 1) := Int.lt_zpow_succ_log_self (by norm_num) p
    exact hlt.le.trans (zpow_le_zpow_right₀ (by norm_num) hlog.2.1)
  have habove : (2 : ℚ) ^ Int.log 2 q ≤ q := by
    exact_mod_cast Int.zpow_log_le_self (by norm_num : 1 < 2) hq
  calc nearest p ≤ 2 ^ Int.log 2 q := by
        obtain ⟨d, hd⟩ := Int.eq_ofNat_of_zero_le (by omega : 0 ≤ Int.log 2 q - lastPlace p)
        have hmultiple : (2 : ℚ) ^ Int.log 2 q = ((2 ^ d : ℤ) : ℚ) * 2 ^ lastPlace p := by
          rw [show Int.log 2 q = d + lastPlace p by omega, zpow_add₀ (by norm_num)]
          norm_num
        have hround := halfEven_mono ((div_le_iff₀ hunit).mpr (hmultiple ▸ hbelow))
        rw [halfEven_intCast] at hround
        rw [hmultiple]
        exact mul_le_mul_of_nonneg_right (by exact_mod_cast hround) hunit.le
    _ ≤ nearest q := by
        have hmultiple : (2 : ℚ) ^ Int.log 2 q = ((2 ^ 52 : ℤ) : ℚ) * 2 ^ lastPlace q := by
          rw [show Int.log 2 q = 52 + lastPlace q by omega, zpow_add₀ (by norm_num)]
          norm_num
        have hround := halfEven_mono ((le_div_iff₀ hunit').mpr (hmultiple ▸ habove))
        rw [halfEven_intCast] at hround
        rw [hmultiple]
        exact mul_le_mul_of_nonneg_right (by exact_mod_cast hround) hunit'.le

/-- **Rounding is monotone**, on all numbers. -/
theorem nearest_monotone : Monotone nearest := by
  intro p q h
  rcases le_total 0 p with hp | hp
  · exact nearest_mono hp h
  rcases le_total 0 q with hq | hq
  · calc nearest p ≤ 0 := nearest_nonpos hp
      _ = nearest 0 := nearest_zero.symm
      _ ≤ nearest q := nearest_mono le_rfl hq
  · -- the mirror images are in order
    have hmirror := nearest_mono (neg_nonneg.mpr hq) (neg_le_neg h)
    rw [nearest_neg, nearest_neg] at hmirror
    exact neg_le_neg_iff.mp hmirror

theorem isBinary64_zero : IsBinary64 0 := ⟨0, 0, by norm_num, by norm_num, by norm_num, by norm_num⟩

theorem isBinary64_one : IsBinary64 1 := ⟨1, 0, by norm_num, by norm_num, by norm_num, by norm_num⟩

/-- **Doubles that differ have a difference that is not rounded away.** -/
theorem nearest_sub_neg_iff {x y : ℚ} (hx : IsBinary64 x) (hy : IsBinary64 y) :
    nearest (x - y) < 0 ↔ x < y := by
  constructor
  · intro h
    by_contra hle
    have hround := nearest_monotone (sub_nonneg.mpr (not_lt.mp hle))
    rw [nearest_zero] at hround
    exact absurd h (not_lt.mpr hround)
  · intro h
    have hneg : x - y < 0 := sub_neg.mpr h
    have hkept := le_abs_nearest (normal_or_isBinary64_sub hx hy)
    have hpos : 0 < |x - y| * (1 - 1 / 2 ^ 53) :=
      mul_pos (abs_pos.mpr hneg.ne) (by norm_num)
    exact lt_of_le_of_ne (nearest_nonpos hneg.le) (abs_pos.mp (hpos.trans_le hkept))

/-- A double is a multiple of its last place. -/
theorem exists_digits {q : ℚ} (h : IsBinary64 q) (hpos : 0 < q) :
    ∃ m : ℤ, m < 2 ^ 53 ∧ q = m * (2 : ℚ) ^ lastPlace q := by
  refine ⟨halfEven (q / 2 ^ lastPlace q), ?_, (nearest_of_isBinary64 h).symm⟩
  have hunit : (0 : ℚ) < 2 ^ lastPlace q := by positivity
  have hvalue : (halfEven (q / 2 ^ lastPlace q) : ℚ) * 2 ^ lastPlace q = q := nearest_of_isBinary64 h
  have hplace : Int.log 2 q + 1 ≤ 53 + lastPlace q := by
    unfold lastPlace
    rw [abs_of_pos hpos]
    omega
  have hlt : q < 2 ^ (53 : ℤ) * 2 ^ lastPlace q := by
    rw [← zpow_add₀ (by norm_num)]
    exact (Int.lt_zpow_succ_log_self (by norm_num : 1 < 2) q).trans_le
      (by exact_mod_cast zpow_le_zpow_right₀ (by norm_num : (1 : ℚ) ≤ 2) hplace)
  have hdigits : (halfEven (q / 2 ^ lastPlace q) : ℚ) < 2 ^ (53 : ℤ) :=
    lt_of_mul_lt_mul_right (hvalue.trans_lt hlt) hunit.le
  exact_mod_cast hdigits

theorem lastPlace_mono {p q : ℚ} (hp : 0 < p) (h : p ≤ q) : lastPlace p ≤ lastPlace q := by
  have hlogs : Int.log 2 p ≤ Int.log 2 q := Int.log_mono_right hp h
  unfold lastPlace
  rw [abs_of_pos hp, abs_of_pos (hp.trans_le h)]
  omega

/-- Of two doubles, the lesser is by a `2 ^ 53`-th part of the greater one below it. -/
theorem le_mul_of_lt {x y : ℚ} (hx : IsBinary64 x) (hy : IsBinary64 y) (hpos : 0 < x) (h : x < y) :
    x ≤ (1 - 1 / 2 ^ 53) * y := by
  obtain ⟨m, hm, hxm⟩ := exists_digits hx hpos
  obtain ⟨n, -, hyn⟩ := exists_digits hy (hpos.trans h)
  obtain ⟨d, hd⟩ := Int.eq_ofNat_of_zero_le (sub_nonneg.mpr (lastPlace_mono hpos h.le))
  set unit : ℚ := 2 ^ lastPlace x with hunit
  have hunit_pos : 0 < unit := by positivity
  -- both are multiples of the last place of the lesser
  have hy' : y = ((n * 2 ^ d : ℤ) : ℚ) * unit := by
    rw [hyn, show lastPlace y = d + lastPlace x by omega, zpow_add₀ (by norm_num), zpow_natCast]
    push_cast
    ring
  have hnext : (m : ℚ) + 1 ≤ ((n * 2 ^ d : ℤ) : ℚ) := by
    rw [hxm, hy'] at h
    have hlt : (m : ℚ) < ((n * 2 ^ d : ℤ) : ℚ) := lt_of_mul_lt_mul_right h hunit_pos.le
    exact_mod_cast Int.add_one_le_iff.mpr (by exact_mod_cast hlt)
  have hm' : (m : ℚ) + 1 ≤ 2 ^ 53 := by exact_mod_cast Int.add_one_le_iff.mpr hm
  calc x = m * unit := hxm
    _ ≤ (1 - 1 / 2 ^ 53) * (((m : ℚ) + 1) * unit) := by
      have hcoef : (m : ℚ) ≤ (1 - 1 / 2 ^ 53) * ((m : ℚ) + 1) := by
        have : ((m : ℚ) + 1) / 2 ^ 53 ≤ 1 := (div_le_one (by norm_num)).mpr hm'
        linarith
      rw [← mul_assoc]
      exact mul_le_mul_of_nonneg_right hcoef hunit_pos.le
    _ ≤ (1 - 1 / 2 ^ 53) * y := by
      rw [hy']
      exact mul_le_mul_of_nonneg_left (mul_le_mul_of_nonneg_right hnext hunit_pos.le)
        (by norm_num)

/-- The largest double below one. -/
theorem isBinary64_predOne : IsBinary64 (1 - 1 / 2 ^ 53) :=
  ⟨2 ^ 53 - 1, -53, by norm_num, by norm_num, by norm_num, by norm_num⟩

/-- **A quotient of doubles rounds to one only if they are equal**: below. -/
theorem nearest_div_lt_one_of_pos {x y : ℚ} (hx : IsBinary64 x) (hy : IsBinary64 y) (hpos : 0 < x)
    (h : x < y) : nearest (x / y) < 1 := by
  have hle : x / y ≤ 1 - 1 / 2 ^ 53 := (div_le_iff₀ (hpos.trans h)).mpr (le_mul_of_lt hx hy hpos h)
  have hround := nearest_monotone hle
  rw [nearest_of_isBinary64 isBinary64_predOne] at hround
  exact hround.trans_lt (by norm_num)

/-- Above. -/
theorem one_lt_nearest_div_of_pos {x y : ℚ} (hx : IsBinary64 x) (hy : IsBinary64 y) (hpos : 0 < y)
    (h : y < x) : 1 < nearest (x / y) := by
  have hle : (2 ^ 53 / (2 ^ 53 - 1) : ℚ) ≤ x / y := by
    rw [div_le_div_iff₀ (by norm_num) hpos]
    have hgap := le_mul_of_lt hy hx hpos h
    linarith
  calc 1 < nearest (2 ^ 53 / (2 ^ 53 - 1)) := by decide +kernel
    _ ≤ nearest (x / y) := nearest_monotone hle

theorem one_lt_nearest_div_iff {x y : ℚ} (hx : IsBinary64 x) (hy : IsBinary64 y) (hy0 : y ≠ 0) :
    1 < nearest (x / y) ↔ 1 < x / y := by
  constructor
  · intro h
    by_contra hle
    have hround := nearest_monotone (not_lt.mp hle)
    rw [nearest_of_isBinary64 isBinary64_one] at hround
    exact absurd h (not_lt.mpr hround)
  · intro h
    rcases lt_or_gt_of_ne hy0 with hneg | hpos
    · have hlt : x < y := (one_lt_div_of_neg hneg).mp h
      rw [← neg_div_neg_eq]
      exact one_lt_nearest_div_of_pos (isBinary64_neg hx) (isBinary64_neg hy) (neg_pos.mpr hneg)
        (neg_lt_neg hlt)
    · exact one_lt_nearest_div_of_pos hx hy hpos ((one_lt_div hpos).mp h)

theorem nearest_div_lt_one_iff {x y : ℚ} (hx : IsBinary64 x) (hy : IsBinary64 y) (hy0 : y ≠ 0) :
    nearest (x / y) < 1 ↔ x / y < 1 := by
  constructor
  · intro h
    by_contra hle
    -- rounding is monotone and leaves 1 as it is
    have hround := nearest_monotone (not_lt.mp hle)
    rw [nearest_of_isBinary64 isBinary64_one] at hround
    exact absurd h (not_lt.mpr hround)
  · intro h
    rcases le_or_gt (x / y) 0 with hnonpos | hquot
    · exact (nearest_nonpos hnonpos).trans_lt one_pos
    -- a positive quotient: the operands have one sign, and two negative ones are negated first
    rcases lt_or_gt_of_ne hy0 with hneg | hpos
    · have hx0 : x < 0 := by
        rcases div_pos_iff.mp hquot with ⟨-, hy'⟩ | ⟨hx', -⟩
        · exact absurd hy' hneg.not_gt
        · exact hx'
      have hlt : y < x := (div_lt_one_of_neg hneg).mp h
      rw [← neg_div_neg_eq]
      exact nearest_div_lt_one_of_pos (isBinary64_neg hx) (isBinary64_neg hy) (neg_pos.mpr hx0)
        (neg_lt_neg hlt)
    · have hx0 : 0 < x := by
        rcases div_pos_iff.mp hquot with ⟨hx', -⟩ | ⟨-, hy'⟩
        · exact hx'
        · exact absurd hy' hpos.not_gt
      exact nearest_div_lt_one_of_pos hx hy hx0 ((div_lt_one hpos).mp h)

/-- **Rounding stays in range.** A number between zero and a double rounds to a double. -/
theorem isBinary64_nearest {q : ℚ} (x : Binary64) (hpos : 0 < q) (h : q ≤ x.val) :
    IsBinary64 (nearest q) := by
  have hunit : (0 : ℚ) < 2 ^ lastPlace q := by positivity
  have hrange : q < (2 : ℚ) ^ (1024 : ℤ) := by
    refine (h.trans ((le_abs_self _).trans x.abs_le_maxFinite)).trans_lt ?_
    calc maxFinite < 2 ^ (53 : ℤ) * 2 ^ (971 : ℤ) := by
          unfold maxFinite
          gcongr
          norm_num
      _ = 2 ^ (1024 : ℤ) := by
          rw [← zpow_add₀ (by norm_num)]
          norm_num
  have hlog : Int.log 2 q < 1024 :=
    (Int.lt_zpow_iff_log_lt (by norm_num : 1 < 2) hpos).mp (by exact_mod_cast hrange)
  have hplace : -1074 ≤ lastPlace q ∧ lastPlace q ≤ 971 ∧ Int.log 2 q + 1 ≤ 53 + lastPlace q := by
    unfold lastPlace
    rw [abs_of_pos hpos]
    omega
  -- the digits of the rounding
  have hlow := halfEven_mono (p := ((0 : ℤ) : ℚ)) (q := q / 2 ^ lastPlace q)
    (by simpa using (div_pos hpos hunit).le)
  have hhigh := halfEven_mono (p := q / 2 ^ lastPlace q) (q := ((2 ^ 53 : ℤ) : ℚ)) <| by
    rw [div_le_iff₀ hunit]
    calc q ≤ ((2 : ℕ) : ℚ) ^ (Int.log 2 q + 1) := (Int.lt_zpow_succ_log_self (by norm_num) q).le
      _ ≤ 2 ^ (53 + lastPlace q) := zpow_le_zpow_right₀ (by norm_num) hplace.2.2
      _ = ((2 ^ 53 : ℤ) : ℚ) * 2 ^ lastPlace q := by
        rw [zpow_add₀ (by norm_num)]
        norm_num
  rw [halfEven_intCast] at hlow hhigh
  by_cases hcarry : halfEven (q / 2 ^ lastPlace q) = 2 ^ 53
  · -- a carry through all digits stays below the largest double, so its exponent is not the largest
    have hvalue : nearest q = 2 ^ (53 + lastPlace q) := by
      unfold nearest
      rw [hcarry, zpow_add₀ (by norm_num)]
      norm_num
    have hle : nearest q ≤ maxFinite := by
      have hround := nearest_mono hpos.le h
      rw [nearest_of_isBinary64 x.isBinary64] at hround
      exact hround.trans ((le_abs_self _).trans x.abs_le_maxFinite)
    have hexponent : lastPlace q ≠ 971 := by
      intro h971
      have hlarge : maxFinite < nearest q := by
        rw [hvalue, h971, zpow_add₀ (by norm_num)]
        unfold maxFinite
        gcongr
        norm_num
      linarith
    refine ⟨2 ^ 52, lastPlace q + 1, by norm_num, by omega, by omega, ?_⟩
    rw [hvalue, show 53 + lastPlace q = 52 + (lastPlace q + 1) by omega, zpow_add₀ (by norm_num)]
    norm_num
  · have hdigits : |halfEven (q / 2 ^ lastPlace q)| < 2 ^ 53 := by
      rw [abs_lt]
      omega
    exact ⟨_, _, hdigits, hplace.1, hplace.2.1, rfl⟩

/-- A share rounds to a double, and to a share. -/
theorem isBinary64_nearest_share {q : ℚ} (h0 : 0 ≤ q) (h1 : q ≤ 1) : IsBinary64 (nearest q) := by
  rcases h0.eq_or_lt with rfl | hpos
  · rw [nearest_zero]
    exact isBinary64_zero
  · exact isBinary64_nearest ⟨1, isBinary64_one⟩ hpos h1

theorem nearest_share {q : ℚ} (h0 : 0 ≤ q) (h1 : q ≤ 1) : 0 ≤ nearest q ∧ nearest q ≤ 1 := by
  have hlow := nearest_monotone h0
  have hhigh := nearest_monotone h1
  rw [nearest_zero] at hlow
  rw [nearest_of_isBinary64 isBinary64_one] at hhigh
  exact ⟨hlow, hhigh⟩

/-- Integers up to `2 ^ 53` are doubles. -/
theorem isBinary64_intCast {n : ℤ} (h : |n| ≤ 2 ^ 53) : IsBinary64 n := by
  rcases h.lt_or_eq with hlt | heq
  · exact (ofInt n hlt).isBinary64
  · rcases abs_eq (by norm_num) |>.mp heq with rfl | rfl
    · exact ⟨2 ^ 52, 1, by norm_num, by norm_num, by norm_num, by norm_num⟩
    · exact ⟨-2 ^ 52, 1, by norm_num, by norm_num, by norm_num, by norm_num⟩

/-- The difference of two doubles and its rounding differ by a `2 ^ 53`-th part at most. -/
theorem abs_nearest_sub_sub_le {x y : ℚ} (hx : IsBinary64 x) (hy : IsBinary64 y) :
    |nearest (x - y) - (x - y)| ≤ |x - y| / 2 ^ 53 := by
  rcases normal_or_isBinary64_sub hx hy with hnormal | hdouble
  · exact abs_nearest_sub_le_of_normal hnormal
  · rw [nearest_of_isBinary64 hdouble, sub_self, abs_zero]
    positivity

end Binary64
