import Sketchlog.Ebpf.InitEbpf
import Sketchlog.Properties.BucketSearch

/-!
# The accuracy of the kernel's buckets

The value that is added for bucket `k` is within `alpha` of the latencies from `gamma ^ (k - 1)` to
`gamma ^ k` and of no others (`pollValue_accurate_iff`). The kernel compares a latency with the
whole part of `gamma ^ j`, so that it takes the first bucket whose power is at least `latency + 1`,
or the last one: that is the right bucket when the last power reaches the latency and no earlier one
falls between the latency and the next number (`addedFor_accurate`).
-/

namespace Sketchlog.Ebpf

variable {alpha : ℝ}

section Powers

variable (h0 : 0 < alpha) (h1 : alpha < 1)

include h0 h1

theorem one_lt_gamma : 1 < gamma alpha := by
  rw [gamma, lt_div_iff₀ (by linarith)]
  linarith

theorem log_gamma_pos : 0 < Real.log (gamma alpha) := Real.log_pos (one_lt_gamma h0 h1)

/-- The index of a number is that of the first power that reaches it. -/
theorem indexOf_spec {ns : ℤ} (hns : 0 < ns) :
    gamma alpha ^ (indexOf alpha ns - 1) < ns ∧ (ns : ℝ) ≤ gamma alpha ^ indexOf alpha ns := by
  have hgamma := one_lt_gamma h0 h1
  have hlog := log_gamma_pos h0 h1
  have hpos : (0 : ℝ) < ns := by exact_mod_cast hns
  have hpow (k : ℤ) : 0 < gamma alpha ^ k := zpow_pos (by linarith) k
  have hindex : indexOf alpha ns = ⌈Real.log ns / Real.log (gamma alpha)⌉ := by
    rw [indexOf, multiplier, mul_one_div]
  rw [hindex]
  constructor
  · rw [← Real.log_lt_log_iff (hpow _) hpos, Real.log_zpow, ← lt_div_iff₀ hlog]
    have hceil := Int.ceil_lt_add_one (Real.log ns / Real.log (gamma alpha))
    push_cast
    linarith
  · rw [← Real.log_le_log_iff hpos (hpow _), Real.log_zpow, ← div_le_iff₀ hlog]
    exact Int.le_ceil _

/-- A boundary is above a latency when its power reaches the next number. -/
theorem lt_boundVal_iff (x : ℕ) (i : ℤ) : x < boundVal alpha i ↔ (x : ℝ) + 1 ≤ gamma alpha ^ i := by
  have hgamma := one_lt_gamma h0 h1
  have hpow : 0 < gamma alpha ^ i := zpow_pos (by linarith) i
  have hexp : Real.exp (i / multiplier alpha) = gamma alpha ^ i := by
    rw [multiplier, div_div_eq_mul_div, div_one, mul_comm, ← Real.rpow_def_of_pos (by linarith),
      Real.rpow_intCast]
  rw [boundVal, hexp, ← Nat.succ_le_iff, Nat.le_floor_iff hpow.le]
  push_cast
  rfl

/-- The value of a bucket is within `alpha` of the latencies in the bucket. -/
theorem pollValue_accurate_iff (x : ℝ) (i : ℤ) :
    |pollValue alpha i - x| ≤ alpha * x ↔ gamma alpha ^ (i - 1) ≤ x ∧ x ≤ gamma alpha ^ i := by
  have hgamma := one_lt_gamma h0 h1
  have hsub : 0 < 1 - alpha := by linarith
  -- the midpoint is `1 - alpha` times the upper bound and `1 + alpha` times the lower
  have hfactor : 2 / (1 + gamma alpha) = 1 - alpha := by
    rw [gamma]
    field_simp
    ring
  have hprod : (1 - alpha) * gamma alpha = 1 + alpha := by
    rw [gamma]
    field_simp
  have hpow : gamma alpha ^ i = gamma alpha ^ (i - 1) * gamma alpha := by
    rw [← zpow_add_one₀ (by linarith), sub_add_cancel]
  rw [pollValue, hfactor, abs_le]
  constructor
  · -- each half of the absolute value gives one bound
    rintro ⟨hlow, hhigh⟩
    constructor
    · refine le_of_mul_le_mul_left ?_ (by linarith : 0 < 1 + alpha)
      calc (1 + alpha) * gamma alpha ^ (i - 1)
          = (1 - alpha) * gamma alpha ^ i := by rw [hpow, ← hprod]; ring
        _ ≤ (1 + alpha) * x := by linarith
    · refine le_of_mul_le_mul_left ?_ hsub
      linarith
  · rintro ⟨hlow, hhigh⟩
    constructor
    · have := mul_le_mul_of_nonneg_left hhigh hsub.le
      linarith
    · have hle := mul_le_mul_of_nonneg_left hlow (by linarith : 0 ≤ 1 + alpha)
      have heq : (1 + alpha) * gamma alpha ^ (i - 1) = (1 - alpha) * gamma alpha ^ i := by
        rw [hpow, ← hprod]
        ring
      linarith

variable {minNs maxNs : ℤ} (hmin : 0 < minNs) (hmax : minNs < maxNs)

include hmin hmax

theorem indexOf_le : indexOf alpha minNs ≤ indexOf alpha maxNs := by
  have hgamma := one_lt_gamma h0 h1
  obtain ⟨hlow, -⟩ := indexOf_spec h0 h1 hmin
  obtain ⟨-, hhigh⟩ := indexOf_spec h0 h1 (hmin.trans hmax)
  have hcast : (minNs : ℝ) < maxNs := by exact_mod_cast hmax
  have hlt : indexOf alpha minNs - 1 < indexOf alpha maxNs :=
    (zpow_lt_zpow_iff_right₀ hgamma).mp (by linarith)
  omega

/-- What is loaded, and how many of the powers do not reach past a latency: the value that is added
for it is that of the next index, or of the last one. -/
theorem addedFor_eq :
    ∃ loaded, initEbpf alpha minNs maxNs = .ok loaded
      ∧ ∃ num : ℕ, (num : ℤ) = numBuckets alpha minNs maxNs ∧ 0 < num
      ∧ ∀ x : ℕ, ∃ t ≤ num,
        (∀ j < num, (x : ℝ) + 1 ≤ gamma alpha ^ (indexOf alpha minNs + j) ↔ t ≤ j)
        ∧ loaded.addedFor alpha x
          = some (pollValue alpha (indexOf alpha minNs + (min t (num - 1) : ℕ))) := by
  have hgamma := one_lt_gamma h0 h1
  have hle := indexOf_le h0 h1 hmin hmax
  obtain ⟨num, hnum⟩ := Int.eq_ofNat_of_zero_le
    (show 0 ≤ numBuckets alpha minNs maxNs by rw [numBuckets]; omega)
  have hpos : 0 < num := by
    rw [numBuckets] at hnum
    omega
  have hsize : num ≤ maxBuckets := by
    rw [numBuckets] at hnum
    unfold maxBuckets
    omega
  have hguard : ¬ (minNs ≤ 0 ∨ maxNs ≤ 0 ∨ maxNs ≤ minNs) := by omega
  have hwidth : (UInt32.ofNat num).toNat = num := by
    unfold maxBuckets at hsize
    rw [UInt32.toNat_ofNat']
    omega
  refine ⟨_, if_neg hguard, num, hnum.symm, hpos, fun x => ?_⟩
  rw [hnum, Int.toNat_natCast]
  obtain ⟨t, ht, hsep⟩ := exists_threshold (p := fun j =>
    ¬ (x : ℝ) + 1 ≤ gamma alpha ^ (indexOf alpha minNs + j))
    num fun i j hij _ hj hi =>
      hj (hi.trans (zpow_le_zpow_right₀ hgamma.le (by omega)))
  have hreach (j : ℕ) (hj : j < num) : (x : ℝ) + 1 ≤ gamma alpha ^ (indexOf alpha minNs + j)
    ↔ t ≤ j := by
    rw [← not_lt (a := j), ← hsep j hj, not_not]
  refine ⟨t, ht, hreach, ?_⟩
  -- the boundaries that the kernel compares with are above the latency from the same index on
  have hseparates : Separates (fun i : Fin maxBuckets =>
    if i.val < num then boundVal alpha (indexOf alpha minNs + i.val) else 0)
      x (UInt32.ofNat num).toNat t := by
    rw [hwidth]
    refine ⟨hpos, hsize, ht, fun j hj => ?_⟩
    rw [if_pos hj, lt_boundVal_iff h0 h1, hreach j.val hj]
  have hchosen := chosen_toNat hseparates
  rw [hwidth] at hchosen
  have hlt : min t (num - 1) < num := by omega
  show (((List.range num).map fun i : ℕ =>
    indexOf alpha minNs + i)[(chosen _ x (UInt32.ofNat num)).toNat]?).map _ = _
  rw [hchosen, List.getElem?_map, List.getElem?_range hlt]
  rfl

/-- **The latencies within the accuracy.** The value that is added for a latency of the range is
within `alpha` of it when the last power reaches the latency and no earlier one lies strictly
between it and the next number; a latency past the last power is counted in the last bucket. -/
theorem addedFor_accurate :
    ∃ loaded, initEbpf alpha minNs maxNs = .ok loaded ∧ ∀ x : ℕ, minNs ≤ x → (x : ℤ) ≤ maxNs →
      let last := indexOf alpha minNs + numBuckets alpha minNs maxNs - 1
      ((x : ℝ) ≤ gamma alpha ^ last →
          (∀ j, indexOf alpha minNs ≤ j → j < last
            → ¬ ((x : ℝ) < gamma alpha ^ j ∧ gamma alpha ^ j < x + 1)) →
        ∃ v, loaded.addedFor alpha x = some v ∧ |v - x| ≤ alpha * x)
      ∧ (gamma alpha ^ last < x → loaded.addedFor alpha x = some (pollValue alpha last)) := by
  have hgamma := one_lt_gamma h0 h1
  obtain ⟨loaded, hinit, num, hnum, hpos, hadded⟩ := addedFor_eq h0 h1 hmin hmax
  refine ⟨loaded, hinit, fun x hxmin _ => ?_⟩
  obtain ⟨t, ht, hreach, hvalue⟩ := hadded x
  have hcast : (minNs : ℝ) ≤ x := by exact_mod_cast hxmin
  rw [← hnum]
  refine ⟨fun hlast hbetween => ⟨_, hvalue, ?_⟩, fun hpast => ?_⟩
  · rw [pollValue_accurate_iff h0 h1]
    constructor
    · -- the power before is one that does not reach the next number, or it is below the range
      rcases Nat.eq_zero_or_pos (min t (num - 1)) with hm | hm
      · obtain ⟨hlow, -⟩ := indexOf_spec h0 h1 hmin
        rw [hm, Nat.cast_zero, add_zero]
        linarith
      · have hindex : indexOf alpha minNs + ((min t (num - 1) : ℕ) : ℤ) - 1
            = indexOf alpha minNs + ((min t (num - 1) - 1 : ℕ) : ℤ) := by omega
        have hshort := mt (hreach (min t (num - 1) - 1) (by omega)).mp (by omega)
        have hnot := hbetween (indexOf alpha minNs + ((min t (num - 1) - 1 : ℕ) : ℤ)) (by omega)
          (by omega)
        rw [hindex]
        by_contra hgt
        exact hnot ⟨not_le.mp hgt, not_le.mp hshort⟩
    · rcases Nat.lt_or_ge t num with hlt | hge
      · have hm : min t (num - 1) = t := by omega
        have hfound := (hreach t hlt).mpr le_rfl
        rw [hm]
        linarith
      · have hm : min t (num - 1) = num - 1 := by omega
        have hindex : indexOf alpha minNs + ((num - 1 : ℕ) : ℤ) = indexOf alpha minNs + num
          - 1 := by omega
        rw [hm, hindex]
        exact hlast
  · have hall : t = num := by
      by_contra hne
      have hlt : t < num := by omega
      have hfound := (hreach t hlt).mpr le_rfl
      have hmono : gamma alpha ^ (indexOf alpha minNs + (t : ℤ))
        ≤ gamma alpha ^ (indexOf alpha minNs + (num : ℤ) - 1) :=
        zpow_le_zpow_right₀ hgamma.le (by omega)
      linarith
    have hindex : indexOf alpha minNs + ((min t (num - 1) : ℕ) : ℤ)
      = indexOf alpha minNs + num - 1 := by omega
    rw [hvalue, hindex]

end Powers

/-- At accuracy one third, where `gamma` is 2, between one and four nanoseconds: 3 falls into the
bucket that ends at 4. -/
theorem addedFor_accurate_third :
    ∃ loaded, initEbpf (1 / 3) 1 4 = .ok loaded ∧ ∃ v, loaded.addedFor (1 / 3) 3 = some v ∧ |v - 3|
      ≤ 1 / 3 * 3 := by
  have hgamma : gamma (1 / 3) = 2 := by norm_num [gamma]
  have hlog : 0 < Real.log 2 := Real.log_pos one_lt_two
  have hfirst : indexOf (1 / 3) 1 = 0 := by simp [indexOf]
  have hlast : indexOf (1 / 3) 4 = 2 := by
    have h4 : Real.log 4 = 2 * Real.log 2 := by
      rw [show (4 : ℝ) = 2 ^ 2 by norm_num, Real.log_pow]
      norm_num
    rw [indexOf, multiplier, hgamma, Int.cast_ofNat, h4, mul_one_div, mul_div_assoc, div_self hlog.ne']
    norm_num
  obtain ⟨loaded, hinit, haccurate⟩ := @addedFor_accurate (1 / 3) (by norm_num) (by norm_num) 1 4
    (by norm_num) (by norm_num)
  have h3 := (haccurate 3 (by norm_num) (by norm_num)).1
  rw [numBuckets, hfirst, hlast, hgamma] at h3
  refine ⟨loaded, hinit, ?_⟩
  refine (h3 (by norm_num) fun j hj hjlast => ?_).imp fun v hv => by simpa using hv
  -- the powers 1 and 2 are whole numbers below the latency
  rintro ⟨hbelow, -⟩
  have hpow : (2 : ℝ) ^ j ≤ 2 ^ (1 : ℤ) := zpow_le_zpow_right₀ one_le_two (by norm_num at hjlast; omega)
  norm_num at hbelow hpow
  linarith

/-- With accuracy 0.001 and the default range the 2048 buckets end far below a minute, which is
counted in the last. -/
theorem addedFor_not_accurate :
    ∃ loaded, initEbpf (1 / 1000) 1000 60000000000 = .ok loaded
      ∧ ∃ v, loaded.addedFor (1 / 1000) 60000000000 = some v
        ∧ ¬ |v - 60000000000| ≤ 1 / 1000 * 60000000000 := by
  have h0 : (0 : ℝ) < 1 / 1000 := by norm_num
  have h1 : (1 : ℝ) / 1000 < 1 := by norm_num
  have hgamma : gamma (1 / 1000) = 1001 / 999 := by norm_num [gamma]
  obtain ⟨loaded, hinit, num, hnum, hpos, hadded⟩ :=
    @addedFor_eq _ h0 h1 1000 60000000000 (by norm_num) (by norm_num)
  obtain ⟨t, -, -, hvalue⟩ := hadded 60000000000
  refine ⟨loaded, hinit, _, hvalue, fun haccurate => ?_⟩
  -- an accurate value would lie within the bucket that was bumped
  obtain ⟨-, hreach⟩ := (pollValue_accurate_iff h0 h1 60000000000 _).mp haccurate
  have hnum2048 : num ≤ 2048 := by
    rw [numBuckets] at hnum
    omega
  obtain ⟨hlow, -⟩ := @indexOf_spec _ h0 h1 1000 (by norm_num)
  -- but the last bucket ends at most 2048 steps above the first
  set first := indexOf (1 / 1000) 1000 with hfirst
  have hmono : gamma (1 / 1000) ^ (first + ((min t (num - 1) : ℕ) : ℤ))
      ≤ gamma (1 / 1000) ^ (first - 1 + 2048) :=
    zpow_le_zpow_right₀ (one_lt_gamma h0 h1).le (by omega)
  have hsplit : gamma (1 / 1000) ^ (first - 1 + 2048)
      = gamma (1 / 1000) ^ (first - 1) * gamma (1 / 1000) ^ (2048 : ℤ) :=
    zpow_add₀ (by rw [hgamma]; norm_num) _ _
  -- and 2048 steps of `gamma` multiply by less than a hundred
  have hbig : gamma (1 / 1000) ^ (2048 : ℤ) ≤ 100 := by
    have h128 : ((1001 : ℝ) / 999) ^ 128 ≤ 13 / 10 := by norm_num
    calc gamma (1 / 1000) ^ (2048 : ℤ)
        = (((1001 : ℝ) / 999) ^ 128) ^ 16 := by rw [hgamma, ← pow_mul]; norm_cast
      _ ≤ (13 / 10) ^ 16 := by gcongr
      _ ≤ 100 := by norm_num
  have hprod : gamma (1 / 1000) ^ (first - 1) * gamma (1 / 1000) ^ (2048 : ℤ) ≤ 1000 * 100 := by
    refine mul_le_mul ?_ hbig (zpow_nonneg (by rw [hgamma]; norm_num) _) (by norm_num)
    exact_mod_cast hlow.le
  linarith

end Sketchlog.Ebpf
