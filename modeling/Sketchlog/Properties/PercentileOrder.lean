import Sketchlog.Properties.Thresholds

/-!
# Percentiles are monotone

`quantile(q)` is the representative of the bucket of an order statistic (`walk_buckets`). A larger `q`
asks for a larger order statistic, its bucket comes no earlier, and representatives follow the order of
the buckets that hold accepted values: within one sign by the monotone `bucket_value`, across signs
because a representative has the sign of its values. That the walk stops at a bucket at all is what
rules out the last line of `quantile`.
-/

namespace Sketchlog

open OrderStatistics Bucket

/-! ## What is assumed and what is ruled out -/

/-- `bucket_value` is monotone in the index. -/
def IndexMapping.ValuesMonotone (M : IndexMapping) : Prop :=
  ∀ alpha i j, i ≤ j → M.bucketValue alpha i ≤ M.bucketValue alpha j

theorem IndexMapping.binary_valuesMonotone : IndexMapping.binary.ValuesMonotone := by
  intro alpha i j hij
  show (2 : ℚ) ^ max (-900) (min i 900) ≤ 2 ^ max (-900) (min j 900)
  exact zpow_le_zpow_right₀ (by norm_num) (max_le_max le_rfl (min_le_min hij le_rfl))

theorem IndexMapping.nearTenth_valuesMonotone : IndexMapping.nearTenth.ValuesMonotone := by
  intro alpha i j hij
  show (if i ≤ 24 then (244386127068217 * 2 ^ (-41 : ℤ) : ℚ) else 136)
    ≤ if j ≤ 24 then 244386127068217 * 2 ^ (-41 : ℤ) else 136
  by_cases hj : j ≤ 24
  · rw [if_pos hj, if_pos (hij.trans hj)]
  · rw [if_neg hj]
    split
    · norm_num
    · exact le_rfl

namespace DDSketch

variable {M : IndexMapping} {alpha : ℚ} {sk : DDSketch} {vs : Multiset ℚ}

/-! ## Representatives in the order of the values

Values in one order have representatives in the same order, and none is far from its value. -/

theorem representative_mono (hM : M.Monotone) (hB : M.ValuesMonotone) (halpha : alpha < 1) {v w : ℚ}
    (hvd : IsBinary64 v) (hwd : IsBinary64 w) (hv : Valid M alpha v) (hw : Valid M alpha w)
    (h : v ≤ w) :
    representative M alpha (bucketOf M alpha v) ≤ representative M alpha (bucketOf M alpha w) := by
  have hsv := representative_sign halpha hvd hv
  have hsw := representative_sign halpha hwd hw
  rcases lt_trichotomy v 0 with hneg | rfl | hpos
  · rcases lt_or_ge w 0 with hwneg | hwnonneg
    · rw [bucketOf_neg hneg, bucketOf_neg hwneg]
      exact neg_le_neg (hB alpha _ _ (hM alpha (-w) (-v) (neg_pos.mpr hwneg) (neg_le_neg h)))
    · -- zero lies between the two
      rw [sign_neg hneg, sign_eq_neg_one_iff] at hsv
      have hnonneg : 0 ≤ representative M alpha (bucketOf M alpha w) := by
        rw [← sign_nonneg_iff, hsw, sign_nonneg_iff]
        exact hwnonneg
      exact hsv.le.trans hnonneg
  · rw [bucketOf_zero]
    show (0 : ℚ) ≤ representative M alpha (bucketOf M alpha w)
    rw [← sign_nonneg_iff, hsw, sign_nonneg_iff]
    exact h
  · rw [bucketOf_pos hpos, bucketOf_pos (hpos.trans_le h)]
    exact hB alpha _ _ (hM alpha v w hpos h)

/-- The extrema of a sketch that holds values are the least and the largest of them. -/
theorem Holds.exists_extrema (h : Holds M alpha sk vs) (hn : 0 < vs.card) :
    ∃ lo hi : ℚ, sk.min = (lo : ERat) ∧ sk.max = (hi : ERat) ∧ lo ∈ vs ∧ hi ∈ vs
      ∧ ∀ v ∈ vs, lo ≤ v ∧ v ≤ hi := by
  rw [h.represents.min, h.represents.max]
  clear h
  -- a further value takes part in both extrema
  induction vs using Multiset.induction_on with
  | empty => exact absurd hn (by simp)
  | cons v vs ih =>
    rw [tallyOf_cons, Tally.add_min, Tally.add_max, Tally.single_min, Tally.single_max]
    rcases Nat.eq_zero_or_pos vs.card with h0 | hpos
    · obtain rfl := Multiset.card_eq_zero.mp h0
      refine ⟨v, v, ?_, ?_, by simp, by simp, by simp⟩
      · simp [tallyOf]
      · simp [tallyOf]
    · obtain ⟨lo, hi, hmin, hmax, hlo, hhi, hall⟩ := ih hpos
      rw [hmin, hmax]
      refine ⟨Min.min v lo, Max.max v hi, ?_, ?_, ?_, ?_, ?_⟩
      · exact (Monotone.map_min (f := fun q : ℚ => (q : ERat)) fun _ _ hq =>
          WithBotTop.coe_le_coe.mpr hq).symm
      · exact (Monotone.map_max (f := fun q : ℚ => (q : ERat)) fun _ _ hq =>
          WithBotTop.coe_le_coe.mpr hq).symm
      · -- the smaller of two members is a member, and so is the larger
        rcases min_choice v lo with hc | hc
        · rw [hc]
          exact Multiset.mem_cons_self v vs
        · rw [hc]
          exact Multiset.mem_cons_of_mem hlo
      · rcases max_choice v hi with hc | hc
        · rw [hc]
          exact Multiset.mem_cons_self v vs
        · rw [hc]
          exact Multiset.mem_cons_of_mem hhi
      · intro w hw
        rcases Multiset.mem_cons.mp hw with rfl | hw
        · exact ⟨min_le_left _ _, le_max_left _ _⟩
        · exact ⟨(min_le_right _ _).trans (hall w hw).1, (hall w hw).2.trans (le_max_right _ _)⟩

/-- A number close to `x` and of its sign is not far below a lower bound of `x`. -/
theorem le_of_close {beta r x lo : ℚ} (h0 : 0 ≤ beta) (hr : |r - x| ≤ beta * |x|)
    (hsign : SignType.sign r = SignType.sign x) (hlo : lo ≤ x) : lo - beta * |lo| ≤ r := by
  have hx := (abs_le.mp hr).1
  rcases lt_or_ge 0 lo with hpos | hnonpos
  · -- both numbers are positive, and the bound shrinks with `x`
    have hxpos : 0 < x := hpos.trans_le hlo
    have hrpos : 0 < r := sign_eq_one_iff.mp (hsign.trans (sign_pos hxpos))
    rw [abs_of_pos hpos]
    rw [abs_of_pos hxpos] at hx
    rcases le_or_gt 1 beta with hlarge | hsmall
    · nlinarith
    · nlinarith
  · rcases le_or_gt 0 r with hrnonneg | hrneg
    · have habs := mul_nonneg h0 (abs_nonneg lo)
      linarith
    · -- a negative number close to `x` has a negative `x`, no larger than the bound
      have hxneg : x < 0 := sign_eq_neg_one_iff.mp (hsign.symm.trans (sign_neg hrneg))
      rw [abs_of_nonpos hnonpos]
      rw [abs_of_neg hxneg] at hx
      nlinarith

/-- A number close to one in `[lo, hi]`, and of its sign, is close to the interval. -/
theorem within_of_close {beta r x lo hi : ℚ} (h0 : 0 ≤ beta) (hr : |r - x| ≤ beta * |x|)
    (hsign : SignType.sign r = SignType.sign x) (hlo : lo ≤ x) (hhi : x ≤ hi) :
    lo - beta * |lo| ≤ r ∧ r ≤ hi + beta * |hi| := by
  refine ⟨le_of_close h0 hr hsign hlo, ?_⟩
  have hneg : |-r - -x| ≤ beta * |-x| := by rwa [← neg_sub', abs_neg, abs_neg]
  have hsign' : SignType.sign (-r) = SignType.sign (-x) := by rw [Left.sign_neg, Left.sign_neg, hsign]
  have hle := le_of_close h0 hneg hsign' (neg_le_neg hhi)
  rw [abs_neg] at hle
  linarith

/-! ## The guarantee

The last line of `quantile` is the only one that a call with `0 < q < 1` can read the maximum on. So
a call that is the same whatever the maximum does not return from there (`walks`). -/

/-- The representatives of the buckets that hold values. -/
def Occupied (M : IndexMapping) (sk : DDSketch) (r : ℚ) : Prop :=
  ∃ b c, (b, c) ∈ sk.buckets ∧ 0 < c ∧ representative M sk.alpha b = r

/-- What `quantile` promises over a sketch whose extrema are `lo` and `hi`. `quantileWith` is the
call on the same sketch with another maximum, and `occupied` are the representatives of its buckets.
-/
structure OrderedPercentiles {μ : Type} (alpha : ℚ) (lo hi : ERat) (quantile : ℚ → ERat)
    (quantileWith : μ → ℚ → ERat) (occupied : ℚ → Prop) : Prop where
  monotone : ∀ q₁ q₂, 0 < q₁ → q₁ ≤ q₂ → q₂ < 1 → quantile q₁ ≤ quantile q₂
  walks : ∀ q, 0 < q → q < 1 → ∃ r : ℚ, occupied r ∧ quantile q = (r : ERat)
    ∧ ∀ m, quantileWith m q = (r : ERat)
  within : ∀ q, 0 ≤ q → q ≤ 1 → ∃ least greatest r : ℚ, lo = (least : ERat) ∧ hi = (greatest : ERat)
    ∧ quantile q = (r : ERat) ∧ least - widened alpha * |least| ≤ r
    ∧ r ≤ greatest + widened alpha * |greatest|

theorem Holds.quantileAt_eq (hM : M.Monotone) (h : Holds M alpha sk vs) (hn : 0 < vs.card) {q : ℚ}
    (h0 : 0 < q) (h1 : q < 1) :
    sk.quantileAt M q
      = ((representative M alpha (bucketOf M alpha (nth vs (⌈q * vs.card⌉₊ - 1) (rank_lt h1 hn))) :
        ℚ) : ERat) := by
  have hcount : sk.count ≠ 0 := by
    rw [h.represents.count, count_tallyOf]
    omega
  rw [quantileAt_eq_walk M sk hcount h0 h1, walk_buckets hM h h0 h1 hn, h.alpha_eq]

/-- The call stops at the bucket of the order statistic, whatever the maximum is. -/
theorem Holds.quantileAt_withMax (hM : M.Monotone) (h : Holds M alpha sk vs) (hn : 0 < vs.card) {q : ℚ}
    (h0 : 0 < q) (h1 : q < 1) (m : ERat) :
    ({ sk with max := m } : DDSketch).quantileAt M q
      = ((representative M alpha (bucketOf M alpha (nth vs (⌈q * vs.card⌉₊ - 1) (rank_lt h1 hn))) :
        ℚ) : ERat) := by
  have hcount : sk.count ≠ 0 := by
    rw [h.represents.count, count_tallyOf]
    omega
  have hwalk : walk ({ sk with max := m } : DDSketch).buckets
    (q * ({ sk with max := m } : DDSketch).count)
      = walk sk.buckets (q * sk.count) := rfl
  rw [quantileAt_eq_walk M { sk with max := m } hcount h0 h1, hwalk, walk_buckets hM h h0 h1 hn]
  exact congrArg (fun a => ((representative M a _ : ℚ) : ERat)) h.alpha_eq

/-- The bucket of an accepted value is occupied. -/
theorem Holds.occupied (h : Holds M alpha sk vs) {v : ℚ} (hv : v ∈ vs) :
    Occupied M sk (representative M alpha (bucketOf M alpha v)) := by
  have hsum := sum_filter_buckets h.represents fun b => b = bucketOf M alpha v
  rw [mass_tallyOf] at hsum
  have hpos : 0 < vs.countP fun w => bucketOf M alpha w = bucketOf M alpha v :=
    Multiset.countP_pos.mpr ⟨v, hv, rfl⟩
  obtain ⟨c, hmem, hc⟩ : ∃ c ∈ (sk.buckets.filter fun e =>
      e.1 = bucketOf M alpha v).map Prod.snd, 0 < c := by
    by_contra hnone
    push Not at hnone
    have hnonpos := List.sum_le_card_nsmul _ 0 hnone
    rw [smul_zero, hsum] at hnonpos
    omega
  obtain ⟨e, he, rfl⟩ := List.mem_map.mp hmem
  obtain ⟨hbucket, hkey⟩ := List.mem_filter.mp he
  exact ⟨e.1, e.2, hbucket, hc, by rw [of_decide_eq_true hkey, h.alpha_eq]⟩

theorem Holds.orderedPercentiles (hM : M.Monotone) (hB : M.ValuesMonotone) (hF : M.Floats)
    (h : Holds M alpha sk vs) (hn : 0 < vs.card) :
    OrderedPercentiles alpha sk.min sk.max (sk.quantileAt M)
      (fun m => ({ sk with max := m } : DDSketch).quantileAt M) (Occupied M sk) where
  -- a higher percentile has a higher rank
  monotone q₁ q₂ h0 hq h1 := by
    rw [h.quantileAt_eq hM hn h0 (hq.trans_lt h1), h.quantileAt_eq hM hn (h0.trans_le hq) h1]
    have hrank : ⌈q₁ * vs.card⌉₊ - 1 ≤ ⌈q₂ * vs.card⌉₊ - 1 :=
      Nat.sub_le_sub_right (Nat.ceil_mono (mul_le_mul_of_nonneg_right hq (Nat.cast_nonneg _))) 1
    exact WithBotTop.coe_le_coe.mpr (representative_mono hM hB h.alpha_lt (h.doubles _ (nth_mem vs _ _))
      (h.doubles _ (nth_mem vs _ _)) (h.valid _ (nth_mem vs _ _)) (h.valid _ (nth_mem vs _ _))
      (nth_le_nth vs _ _ hrank))
  -- inside (0, 1) the rank stops in an occupied bucket, whatever the maximum
  walks q h0 h1 :=
    ⟨_, h.occupied (nth_mem vs _ _), h.quantileAt_eq hM hn h0 h1, h.quantileAt_withMax hM hn h0 h1⟩
  within q h0 h1 := by
    obtain ⟨lo, hi, hmin, hmax, hlo, hhi, hall⟩ := h.exists_extrema hn
    have hcount : sk.count ≠ 0 := by
      rw [h.represents.count, count_tallyOf]
      omega
    -- every value lies within the bounds itself, and a representative is close to a value
    have hwide : 0 ≤ widened alpha := div_nonneg h.alpha_pos.le (by norm_num)
    have hwithin : ∀ x ∈ vs, lo - widened alpha * |lo| ≤ x ∧ x ≤ hi + widened alpha * |hi| :=
      fun x hx =>
      within_of_close hwide (by rw [sub_self, abs_zero]; exact mul_nonneg hwide (abs_nonneg x)) rfl
        (hall x hx).1 (hall x hx).2
    rcases h0.lt_or_eq with h0 | rfl
    · rcases h1.lt_or_eq with h1 | rfl
      · -- the walk ends at the representative of the value of that rank
        set x := nth vs (⌈q * vs.card⌉₊ - 1) (rank_lt h1 hn) with hx
        have hmem : x ∈ vs := nth_mem vs _ _
        refine ⟨lo, hi, representative M alpha (bucketOf M alpha x), hmin, hmax,
          h.quantileAt_eq hM hn h0 h1, ?_⟩
        exact within_of_close hwide
          (representative_accurate hF h.alpha_ge (h.doubles x hmem) (h.valid x hmem))
          (representative_sign h.alpha_lt (h.doubles x hmem) (h.valid x hmem)) (hall x hmem).1
            (hall x hmem).2
      · -- at 1 the maximum is returned, at 0 the minimum
        refine ⟨lo, hi, hi, hmin, hmax, ?_, hwithin hi hhi⟩
        rw [← hmax, quantileAt, if_neg hcount, if_neg (not_le.mpr one_pos), if_pos le_rfl]
    · refine ⟨lo, hi, lo, hmin, hmax, ?_, hwithin lo hlo⟩
      rw [← hmin, quantileAt, if_neg hcount, if_pos le_rfl]

/-- **Percentiles are monotone**, the walk always stops at a bucket that holds values, and every
result lies between the extrema up to the accuracy; on both backends. -/
theorem quantile_ordered (hM : M.Monotone) (hB : M.ValuesMonotone) (hF : M.Floats) (alpha : ℚ)
    {vs : Multiset ℚ} (hn : 0 < vs.card) :
    (∀ sk, Built M alpha sk vs →
        OrderedPercentiles alpha sk.min sk.max (sk.quantileAt M)
          (fun m : ERat => ({ sk with max := m } : DDSketch).quantileAt M) (Occupied M sk))
      ∧ ∀ sk, Cpp.DDSketch.Built M alpha sk vs →
        OrderedPercentiles alpha (sk.minValue.val : ERat) (sk.maxValue.val : ERat)
          (fun q => (sk.quantileAt M q : ERat))
          (fun (m : Binary64) q => (({ sk with maxValue := m } : Cpp.DDSketch).quantileAt M q : ERat))
          (Occupied M sk.toPython) := by
  refine ⟨fun sk h => h.holds.orderedPercentiles hM hB hF hn, fun sk h => ?_⟩
  -- the native sketch answers like its image, whose extrema are its own when something is counted
  have hkeeps := h.keeps
  obtain ⟨hmonotone, hwalks, hwithin⟩ := hkeeps.holds.orderedPercentiles hM hB hF hn
  have hcount : sk.count ≠ 0 := by
    have hrep : sk.count = ((tallyOf M alpha vs).count : ℤ) := hkeeps.holds.represents.count
    rw [count_tallyOf] at hrep
    omega
  have hmin : sk.toPython.min = (sk.minValue.val : ERat) := if_neg hcount
  have hmax : sk.toPython.max = (sk.maxValue.val : ERat) := if_neg hcount
  have hquantile : sk.toPython.quantileAt M = fun q => (sk.quantileAt M q : ERat) :=
    funext fun q => (Cpp.DDSketch.quantileAt_toPython hkeeps.represents q).symm
  -- the same holds with another maximum, as the walk does not read it
  have hother : ∀ (m : Binary64) q, (({ sk with maxValue := m } : Cpp.DDSketch).quantileAt M q : ERat)
      = ({ sk.toPython with max := (m.val : ERat) } : DDSketch).quantileAt M q := by
    intro m q
    have hwalk := @Cpp.DDSketch.quantileAt_toPython_of_stores M { sk with maxValue := m }
      hkeeps.represents.positive hkeeps.represents.negative q
    rw [hwalk]
    unfold Cpp.DDSketch.toPython
    rw [if_neg hcount, if_neg hcount]
  rw [hmin, hmax, hquantile] at hwithin
  rw [hquantile] at hmonotone hwalks
  refine ⟨hmonotone, fun q h0 h1 => ?_, hwithin⟩
  obtain ⟨r, hr, hq, hm⟩ := hwalks q h0 h1
  exact ⟨r, hr, hq, fun m => (hother m q).trans (hm _)⟩

/-- Over values of both signs and zero. -/
theorem quantile_ordered_mixed : ∃ sk, Built .binary (1 / 2) sk ([3, -3, 0, 1, 3] : List ℚ)
    ∧ OrderedPercentiles (1 / 2) sk.min sk.max (sk.quantileAt .binary)
      (fun m : ERat => ({ sk with max := m } : DDSketch).quantileAt .binary) (Occupied .binary sk) := by
  obtain ⟨sk, hbuilt⟩ := exists_built_mixed
  exact ⟨sk, hbuilt, (quantile_ordered IndexMapping.binary_monotone IndexMapping.binary_valuesMonotone
    IndexMapping.binary_floats (1 / 2) (by simp)).1 sk hbuilt⟩

/-- The one value `123.48215986408276` of the accuracy `0.1` is the minimum, and the percentile is
further below it than a tenth. -/
theorem quantile_below_extrema :
    IndexMapping.nearTenth.Monotone ∧ IndexMapping.nearTenth.ValuesMonotone
      ∧ ∃ sk, Built .nearTenth oneTenth.val sk {acceptedValue.val}
        ∧ sk.min = (acceptedValue.val : ERat)
        ∧ ∃ r : ℚ, sk.quantileAt .nearTenth (1 / 2) = (r : ERat)
          ∧ ¬ acceptedValue.val - oneTenth.val * |acceptedValue.val| ≤ r := by
  obtain ⟨sk, hbuilt, hquantile⟩ := exists_built_nearTenth
  refine ⟨IndexMapping.nearTenth_monotone, IndexMapping.nearTenth_valuesMonotone, sk, hbuilt, ?_, _,
    hquantile, by decide +kernel⟩
  rw [hbuilt.holds.represents.min]
  simp [tallyOf]

end DDSketch

end Sketchlog
