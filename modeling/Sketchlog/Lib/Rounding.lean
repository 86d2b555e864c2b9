import Sketchlog.Lib.Binary64

/-!
# Integers rounded to doubles

`float(n)`, and the conversion of a Python int where a C++ `double` is asked for: the 53 leading bits
are kept, and ties go to the even neighbour. A number with 53 significant bits that is not above an
integer is not above its rounding, and dually (`le_roundNat`, `roundNat_le`); so rounding is monotone,
leaves doubles where they are, and keeps every comparison with a double.
-/

namespace Binary64

/-- How many trailing bits of an integer are rounded away. -/
def excess (m : ℕ) : ℕ := m.size - 53

/-- The rounding of a magnitude: 53 bits are kept, ties to even. -/
def roundNat (m : ℕ) : ℕ :=
  (if 2 * (m % 2 ^ excess m) > 2 ^ excess m
      ∨ (2 * (m % 2 ^ excess m) = 2 ^ excess m ∧ m / 2 ^ excess m % 2 = 1)
    then m / 2 ^ excess m + 1 else m / 2 ^ excess m) * 2 ^ excess m

/-- The rounding of an integer. -/
def roundInt (n : ℤ) : ℤ := if n < 0 then -(roundNat n.natAbs : ℤ) else roundNat n.natAbs

/-- At most 53 significant bits. -/
def Is53Bit (x : ℚ) : Prop := ∃ k e : ℤ, |k| ≤ 2 ^ 53 ∧ x = k * (2 : ℚ) ^ e

theorem is53Bit_of_isBinary64 {x : ℚ} (h : IsBinary64 x) : Is53Bit x := by
  obtain ⟨m, e, hm, -, -, hx⟩ := h
  exact ⟨m, e, hm.le, hx⟩

theorem Is53Bit.neg {x : ℚ} (h : Is53Bit x) : Is53Bit (-x) := by
  obtain ⟨k, e, hk, rfl⟩ := h
  exact ⟨-k, e, by rwa [abs_neg], by push_cast; ring⟩

variable {m n : ℕ}

/-! ## The two neighbours

Rounding to a number of significant bits lands on one of the two neighbouring multiples, and these
have the bits. A number that has them already is left alone, and rounding is monotone. -/

theorem lt_two_pow_excess (m : ℕ) : m / 2 ^ excess m < 2 ^ 53 := by
  have hm : m < 2 ^ m.size := Nat.lt_size_self m
  have hpow : 2 ^ m.size ≤ 2 ^ 53 * 2 ^ excess m := by
    rw [← pow_add]
    exact Nat.pow_le_pow_right (by norm_num) (by unfold excess; omega)
  exact Nat.div_lt_of_lt_mul (by rw [mul_comm]; omega)

theorem two_pow_le_div (h : 0 < excess m) : 2 ^ 52 ≤ m / 2 ^ excess m := by
  have hsize : 52 + excess m < m.size := by
    unfold excess at h ⊢
    omega
  rw [Nat.le_div_iff_mul_le (by positivity), ← pow_add]
  exact Nat.lt_size.mp hsize

theorem floor_le_roundNat (m : ℕ) : m / 2 ^ excess m * 2 ^ excess m ≤ roundNat m := by
  unfold roundNat
  refine Nat.mul_le_mul_right _ ?_
  split
  · exact Nat.le_succ _
  · exact le_rfl

theorem roundNat_le_ceil (m : ℕ) : roundNat m ≤ (m / 2 ^ excess m + 1) * 2 ^ excess m := by
  unfold roundNat
  refine Nat.mul_le_mul_right _ ?_
  split
  · exact le_rfl
  · exact Nat.le_succ _

/-- An integer with no bits to lose is its own rounding. -/
theorem roundNat_of_mod_eq_zero (h : m % 2 ^ excess m = 0) : roundNat m = m := by
  have hpos : 0 < 2 ^ excess m := by positivity
  have hkeep : ¬ (2 * (m % 2 ^ excess m) > 2 ^ excess m
      ∨ (2 * (m % 2 ^ excess m) = 2 ^ excess m ∧ m / 2 ^ excess m % 2 = 1)) := by
    rw [h]
    omega
  unfold roundNat
  rw [if_neg hkeep]
  exact Nat.div_mul_cancel (Nat.dvd_of_mod_eq_zero h)

/-- A number with 53 significant bits is a multiple of the last place kept, or small. -/
theorem Is53Bit.cases {x : ℚ} (h : Is53Bit x) (s : ℕ) :
    (∃ k : ℤ, x = k * 2 ^ s) ∨ x ≤ 2 ^ 52 * 2 ^ s := by
  obtain ⟨k, e, hk, rfl⟩ := h
  by_cases he : (s : ℤ) ≤ e
  · left
    obtain ⟨d, hd⟩ := Int.eq_ofNat_of_zero_le (by omega : 0 ≤ e - s)
    refine ⟨k * 2 ^ d, ?_⟩
    rw [show e = (d : ℤ) + s by omega, zpow_add₀ (by norm_num)]
    push_cast
    rw [zpow_natCast, zpow_natCast]
    ring
  · right
    have hk' : (k : ℚ) ≤ 2 ^ 53 := by exact_mod_cast (le_abs_self k).trans hk
    have hpow : (2 : ℚ) ^ e ≤ 2 ^ ((s : ℤ) - 1) := zpow_le_zpow_right₀ (by norm_num) (by omega)
    have hstep : (2 : ℚ) ^ 53 * 2 ^ ((s : ℤ) - 1) = 2 ^ 52 * 2 ^ s := by
      rw [zpow_sub_one₀ (by norm_num), zpow_natCast]
      ring
    calc (k : ℚ) * 2 ^ e ≤ 2 ^ 53 * 2 ^ e := by gcongr
      _ ≤ 2 ^ 53 * 2 ^ ((s : ℤ) - 1) := by gcongr
      _ = 2 ^ 52 * 2 ^ s := hstep

/-- What is not above an integer is not above its rounding. -/
theorem le_roundNat {x : ℚ} (hx : Is53Bit x) (h : x ≤ m) : x ≤ roundNat m := by
  have hfloor : ((m / 2 ^ excess m : ℕ) : ℚ) * 2 ^ excess m ≤ roundNat m := by
    exact_mod_cast floor_le_roundNat m
  by_cases hs : excess m = 0
  · rwa [roundNat_of_mod_eq_zero (by rw [hs]; simp [Nat.mod_one])]
  refine le_trans ?_ hfloor
  rcases hx.cases (excess m) with ⟨k, rfl⟩ | hsmall
  · -- a multiple of the last place that is not above `m` is not above the multiple below `m`
    have hle : k * ((2 ^ excess m : ℕ) : ℤ) ≤ m := by
      have : ((k * ((2 ^ excess m : ℕ) : ℤ) : ℤ) : ℚ) ≤ ((m : ℤ) : ℚ) := by
        push_cast
        exact h
      exact_mod_cast this
    have hk : k ≤ ((m / 2 ^ excess m : ℕ) : ℤ) := by
      rw [Int.natCast_div]
      exact Int.le_ediv_of_mul_le (by positivity) hle
    have hk' : ((k : ℤ) : ℚ) ≤ (((m / 2 ^ excess m : ℕ) : ℤ) : ℚ) := Int.cast_le.mpr hk
    rw [Int.cast_natCast] at hk'
    gcongr
  · have hq : (2 : ℚ) ^ 52 ≤ ((m / 2 ^ excess m : ℕ) : ℚ) := by
      exact_mod_cast two_pow_le_div (Nat.pos_of_ne_zero hs)
    exact hsmall.trans (by gcongr)

/-- What is not below an integer is not below its rounding. -/
theorem roundNat_le {x : ℚ} (hx : Is53Bit x) (h : m ≤ x) : roundNat m ≤ x := by
  by_cases hr : m % 2 ^ excess m = 0
  · rwa [roundNat_of_mod_eq_zero hr]
  have hs : 0 < excess m := by
    by_contra hs
    rw [show excess m = 0 by omega] at hr
    exact hr (by simp [Nat.mod_one])
  have hdiv := Nat.div_add_mod m (2 ^ excess m)
  have hceil : (roundNat m : ℚ) ≤ ((m / 2 ^ excess m : ℕ) + 1 : ℚ) * 2 ^ excess m := by
    exact_mod_cast roundNat_le_ceil m
  rcases hx.cases (excess m) with ⟨k, rfl⟩ | hsmall
  · -- a multiple of the last place that is not below `m` is at least the multiple above `m`
    have hle : (m : ℤ) ≤ k * ((2 ^ excess m : ℕ) : ℤ) := by
      have : ((m : ℤ) : ℚ) ≤ ((k * ((2 ^ excess m : ℕ) : ℤ) : ℤ) : ℚ) := by
        push_cast
        exact h
      exact_mod_cast this
    have hk : ((m / 2 ^ excess m : ℕ) : ℤ) + 1 ≤ k := by
      have hlt : ((2 ^ excess m : ℕ) : ℤ) * ((m / 2 ^ excess m : ℕ) : ℤ)
          < ((2 ^ excess m : ℕ) : ℤ) * k := by
        have hr0 : 0 < m % 2 ^ excess m := Nat.pos_of_ne_zero hr
        have hcast : (((2 ^ excess m : ℕ) : ℤ) * ((m / 2 ^ excess m : ℕ) : ℤ))
            + ((m % 2 ^ excess m : ℕ) : ℤ) = m := by exact_mod_cast hdiv
        rw [mul_comm k] at hle
        omega
      exact lt_of_mul_lt_mul_left hlt (by positivity)
    have hk' : ((((m / 2 ^ excess m : ℕ) : ℤ) + 1 : ℤ) : ℚ) ≤ k := Int.cast_le.mpr hk
    rw [Int.cast_add, Int.cast_natCast, Int.cast_one] at hk'
    exact hceil.trans (by gcongr)
  · -- a small number is below the leading bits of `m`
    exfalso
    have hq : (2 ^ 52 : ℕ) * 2 ^ excess m ≤ m / 2 ^ excess m * 2 ^ excess m :=
      Nat.mul_le_mul_right _ (two_pow_le_div hs)
    have hlt : (2 ^ 52 : ℕ) * 2 ^ excess m < m := by
      have hr0 : 0 < m % 2 ^ excess m := Nat.pos_of_ne_zero hr
      rw [mul_comm (m / _)] at hq
      omega
    have hlt' : (2 ^ 52 : ℚ) * 2 ^ excess m < m := by exact_mod_cast hlt
    linarith

theorem is53Bit_ceil (m : ℕ) : Is53Bit (((m / 2 ^ excess m + 1) * 2 ^ excess m : ℕ) : ℚ) := by
  have hq := lt_two_pow_excess m
  refine ⟨((m / 2 ^ excess m + 1 : ℕ) : ℤ), excess m, ?_, ?_⟩
  · rw [Nat.abs_cast]
    exact_mod_cast hq
  · rw [zpow_natCast]
    push_cast
    rfl

theorem excess_eq_of_lt_ceil (h : m ≤ n) (hn : n < (m / 2 ^ excess m + 1) * 2 ^ excess m) :
    excess n = excess m := by
  have hsize : m.size ≤ n.size := Nat.size_le_size h
  have hceil : (m / 2 ^ excess m + 1) * 2 ^ excess m ≤ 2 ^ (53 + excess m) := by
    rw [pow_add]
    exact Nat.mul_le_mul_right _ (lt_two_pow_excess m)
  have hn' : n.size ≤ 53 + excess m := Nat.size_le.mpr (lt_of_lt_of_le hn hceil)
  unfold excess at hn' ⊢
  omega

/-- Rounding is monotone. -/
theorem roundNat_mono (h : m ≤ n) : roundNat m ≤ roundNat n := by
  by_cases hn : n < (m / 2 ^ excess m + 1) * 2 ^ excess m
  · -- both lie between the same neighbours
    have he := excess_eq_of_lt_ceil h hn
    have hq : n / 2 ^ excess m = m / 2 ^ excess m := by
      refine le_antisymm ?_ (Nat.div_le_div_right h)
      exact Nat.lt_succ_iff.mp (Nat.div_lt_of_lt_mul (by rwa [mul_comm]))
    have hr : m % 2 ^ excess m ≤ n % 2 ^ excess m := by
      have hm' := Nat.div_add_mod m (2 ^ excess m)
      have hn' := Nat.div_add_mod n (2 ^ excess m)
      rw [hq] at hn'
      omega
    unfold roundNat
    rw [he, hq]
    refine Nat.mul_le_mul_right _ ?_
    split <;> split <;> omega
  · have hle : (((m / 2 ^ excess m + 1) * 2 ^ excess m : ℕ) : ℚ) ≤ n := by
      exact_mod_cast not_lt.mp hn
    have hceil := le_roundNat (is53Bit_ceil m) hle
    exact (roundNat_le_ceil m).trans (by exact_mod_cast hceil)

/-! ## In the range of the doubles

Rounding a natural below the largest double stays below it, so the result is a double. -/

theorem excess_le (h : m < (2 ^ 54 - 1) * 2 ^ 970) : excess m ≤ 971 := by
  have hpow : (2 ^ 54 - 1) * 2 ^ 970 ≤ 2 ^ 54 * 2 ^ 970 := Nat.mul_le_mul_right _ (by norm_num)
  rw [← pow_add] at hpow
  have hsize : m.size ≤ 54 + 970 := Nat.size_le.mpr (lt_of_lt_of_le h hpow)
  unfold excess
  omega

/-- An integer below the midpoint between the largest double and the next power of two rounds to a
double. -/
theorem isBinary64_roundNat (h : m < (2 ^ 54 - 1) * 2 ^ 970) : IsBinary64 (roundNat m : ℚ) := by
  have hq := lt_two_pow_excess m
  have he := excess_le h
  by_cases hup : 2 * (m % 2 ^ excess m) > 2 ^ excess m
      ∨ (2 * (m % 2 ^ excess m) = 2 ^ excess m ∧ m / 2 ^ excess m % 2 = 1)
  swap
  · refine ⟨(m / 2 ^ excess m : ℕ), excess m, ?_, by omega, by omega, ?_⟩
    · rw [Nat.abs_cast]
      exact_mod_cast hq
    · rw [roundNat, if_neg hup, zpow_natCast]
      push_cast
      rfl
  by_cases hcarry : m / 2 ^ excess m + 1 < 2 ^ 53
  · refine ⟨(m / 2 ^ excess m + 1 : ℕ), excess m, ?_, by omega, by omega, ?_⟩
    · rw [Nat.abs_cast]
      exact_mod_cast hcarry
    · rw [roundNat, if_pos hup, zpow_natCast]
      push_cast
      rfl
  -- the carry runs through all 53 bits, which is only possible below the largest exponent
  have hne : excess m ≠ 971 := by
    intro h971
    rw [h971] at hup hcarry
    have hdiv := Nat.div_add_mod m (2 ^ 971)
    rw [pow_succ] at hup hcarry hdiv
    generalize 2 ^ 970 = B at h hup hcarry hdiv
    generalize m % (B * 2) = r at hup hdiv
    have hq' : 2 ^ 53 - 1 ≤ m / (B * 2) := by omega
    have hmul : B * 2 * (2 ^ 53 - 1) ≤ B * 2 * (m / (B * 2)) := Nat.mul_le_mul_left _ hq'
    generalize B * 2 * (m / (B * 2)) = t at hdiv hmul
    omega
  have hall : m / 2 ^ excess m + 1 = 2 ^ 53 := by omega
  refine ⟨2 ^ 52, (excess m : ℤ) + 1, by norm_num, by omega, by omega, ?_⟩
  rw [roundNat, if_pos hup, hall, zpow_add_one₀ (by norm_num), zpow_natCast]
  push_cast
  ring

/-! ## Integers

The sign is taken off, the natural is rounded, and the sign is put back. `toDouble` extends this to
the infinities of an empty sketch. -/

theorem roundInt_of_nonneg {n : ℤ} (h : 0 ≤ n) : roundInt n = roundNat n.natAbs :=
  if_neg (not_lt.mpr h)

theorem roundInt_of_neg {n : ℤ} (h : n < 0) : roundInt n = -(roundNat n.natAbs : ℤ) := if_pos h

theorem isBinary64_roundInt {n : ℤ} (h : n.natAbs < (2 ^ 54 - 1) * 2 ^ 970) :
    IsBinary64 (roundInt n : ℚ) := by
  have hnat := isBinary64_roundNat h
  by_cases hn : n < 0
  · obtain ⟨k, e, hk, hlo, hhi, hx⟩ := hnat
    refine ⟨-k, e, by rwa [abs_neg], hlo, hhi, ?_⟩
    rw [roundInt_of_neg hn, Int.cast_neg, Int.cast_natCast, hx]
    push_cast
    ring
  · rwa [roundInt_of_nonneg (not_lt.mp hn), Int.cast_natCast]

theorem cast_natAbs_of_neg {n : ℤ} (h : n < 0) : ((n.natAbs : ℕ) : ℚ) = -n := by
  rw [Nat.cast_natAbs, abs_of_neg h]
  push_cast
  rfl

theorem cast_natAbs_of_nonneg {n : ℤ} (h : 0 ≤ n) : ((n.natAbs : ℕ) : ℚ) = n := by
  rw [Nat.cast_natAbs, abs_of_nonneg h]

/-- A double that is not above an integer is not above its rounding. -/
theorem le_roundInt {x : ℚ} {n : ℤ} (hx : Is53Bit x) (h : x ≤ n) : x ≤ roundInt n := by
  by_cases hn : n < 0
  · rw [roundInt_of_neg hn, Int.cast_neg, Int.cast_natCast]
    have hneg : roundNat n.natAbs ≤ -x := roundNat_le hx.neg (by rw [cast_natAbs_of_neg hn]; linarith)
    linarith
  · rw [roundInt_of_nonneg (not_lt.mp hn), Int.cast_natCast]
    exact le_roundNat hx (by rwa [cast_natAbs_of_nonneg (not_lt.mp hn)])

/-- A double that is not below an integer is not below its rounding. -/
theorem roundInt_le {x : ℚ} {n : ℤ} (hx : Is53Bit x) (h : n ≤ x) : roundInt n ≤ x := by
  by_cases hn : n < 0
  · rw [roundInt_of_neg hn, Int.cast_neg, Int.cast_natCast]
    have hneg : -x ≤ roundNat n.natAbs := le_roundNat hx.neg (by rw [cast_natAbs_of_neg hn]; linarith)
    linarith
  · rw [roundInt_of_nonneg (not_lt.mp hn), Int.cast_natCast]
    exact roundNat_le hx (by rwa [cast_natAbs_of_nonneg (not_lt.mp hn)])

theorem is53Bit_zero : Is53Bit 0 := ⟨0, 0, by norm_num, by norm_num⟩

theorem roundInt_mono {a b : ℤ} (h : a ≤ b) : (roundInt a : ℚ) ≤ roundInt b := by
  rcases lt_or_ge a 0 with ha | ha
  · rcases lt_or_ge b 0 with hb | hb
    · have hnat := roundNat_mono (show b.natAbs ≤ a.natAbs by omega)
      rw [roundInt_of_neg ha, roundInt_of_neg hb]
      exact_mod_cast neg_le_neg (Int.ofNat_le.mpr hnat)
    · have ha' : (a : ℚ) ≤ 0 := by exact_mod_cast ha.le
      have hb' : (0 : ℚ) ≤ b := by exact_mod_cast hb
      exact (roundInt_le is53Bit_zero ha').trans (le_roundInt is53Bit_zero hb')
  · have hnat := roundNat_mono (show a.natAbs ≤ b.natAbs by omega)
    rw [roundInt_of_nonneg ha, roundInt_of_nonneg (ha.trans h)]
    exact_mod_cast hnat

/-- The conversion of a finite number to a double: a double is itself, an int is rounded. -/
def toDouble (q : ℚ) : ℚ := if IsBinary64 q then q else roundInt q.num

theorem toDouble_of_isBinary64 {q : ℚ} (h : IsBinary64 q) : toDouble q = q := if_pos h

/-- An int that is a double is its own rounding. -/
theorem toDouble_intCast (n : ℤ) : toDouble n = roundInt n := by
  by_cases h : IsBinary64 (n : ℚ)
  · rw [toDouble_of_isBinary64 h]
    have hx := is53Bit_of_isBinary64 h
    exact le_antisymm (le_roundInt hx le_rfl) (roundInt_le hx le_rfl)
  · rw [toDouble, if_neg h, Rat.num_intCast]

theorem toDouble_mono {a b : ℚ} (ha : IsBinary64 a ∨ ∃ n : ℤ, a = n)
    (hb : IsBinary64 b ∨ ∃ n : ℤ, b = n) (h : a ≤ b) : toDouble a ≤ toDouble b := by
  rcases ha with ha | ⟨m, rfl⟩
  · rw [toDouble_of_isBinary64 ha]
    rcases hb with hb | ⟨n, rfl⟩
    · rwa [toDouble_of_isBinary64 hb]
    · rw [toDouble_intCast]
      exact le_roundInt (is53Bit_of_isBinary64 ha) h
  · rw [toDouble_intCast]
    rcases hb with hb | ⟨n, rfl⟩
    · rw [toDouble_of_isBinary64 hb]
      exact roundInt_le (is53Bit_of_isBinary64 hb) h
    · rw [toDouble_intCast]
      exact roundInt_mono (by exact_mod_cast h)

theorem is53Bit_one : Is53Bit 1 := ⟨1, 0, by norm_num, by norm_num⟩

/-- Rounding keeps the sign. -/
theorem roundInt_pos {n : ℤ} (h : 0 < n) : (0 : ℚ) < roundInt n := by
  have h1 : (1 : ℚ) ≤ n := by exact_mod_cast h
  exact lt_of_lt_of_le one_pos (le_roundInt is53Bit_one h1)

theorem roundInt_neg (n : ℤ) : roundInt (-n) = -roundInt n := by
  rcases lt_trichotomy n 0 with hn | rfl | hn
  · rw [roundInt_of_neg hn, roundInt_of_nonneg (by omega), Int.natAbs_neg, neg_neg]
  · rfl
  · rw [roundInt_of_nonneg hn.le, roundInt_of_neg (by omega), Int.natAbs_neg]

end Binary64
