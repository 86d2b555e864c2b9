import Sketchlog.Refine.CppHistories

/-!
# `count_greater_than` is a tight upper bound

Between the extrema, `count_greater_than(t)` sums whole buckets: those at or above the bucket of `t`,
or above the zero bucket when `t` is zero. In the order of the signed buckets this is one condition on
a bucket, `Above`, for thresholds of every sign, so the sum is the number of accepted values whose
bucket satisfies it (`countAbove_eq_countP`). Sending a value to its bucket is monotone: a value above
`t` is counted, and one that is not above `t` is counted only when it shares the bucket of `t`.
-/

namespace Sketchlog

open CountMap Bucket

namespace DDSketch

variable {M : IndexMapping} {alpha : ℚ} {sk : DDSketch} {vs : Multiset ℚ}

/-! ## The buckets that are counted

The sum over the buckets above that of the threshold, which counts the values in them. -/

/-- Between the extrema a bucket is counted for the threshold `x`. -/
def Above (M : IndexMapping) (alpha x : ℚ) (b : Bucket) : Prop :=
  if x = 0 then .zero < b else bucketOf M alpha x ≤ b

instance (M : IndexMapping) (alpha x : ℚ) : DecidablePred (Above M alpha x) := fun b =>
  inferInstanceAs (Decidable (if x = 0 then .zero < b else bucketOf M alpha x ≤ b))

theorem sumWhere_eq_sum {store : Bins} {f : ℤ →₀ ℕ} (h : Tallies store f) (p : ℤ → Bool) :
    sumWhere store p = ((f.sum fun i c => if p i then c else 0 : ℕ) : ℤ) := by
  have hfilter : ∀ l : List (ℤ × ℤ), ((l.filter fun kv => p kv.1).map Prod.snd).sum
      = (l.map fun kv => if p kv.1 then kv.2 else 0).sum := by
    intro l
    induction l with
    | nil => rfl
    | cons e l ih =>
      cases hp : p e.1 with
      | true => simp [hp, ← ih]
      | false => simp [hp, ← ih]
  rw [sumWhere, hfilter, h.sum_toList fun i c => if p i then c else 0, Finsupp.sum, Finsupp.sum]
  push_cast
  rfl

theorem countAbove_eq_mass {t : Tally} (h : sk.Represents t) (x : ℚ) :
    sk.countAbove M x = (mass (Above M sk.alpha x) t : ℤ) := by
  have hzero : sk.zeroCount = t.zeroCount := h.zeroCount
  unfold countAbove
  rcases lt_trichotomy x 0 with hx | rfl | hx
  · rw [if_pos hx, sumWhere_eq_sum h.negative, sumWhere_eq_sum h.positive, hzero]
    have hbucket : bucketOf M sk.alpha x = .negative (M.key sk.alpha (-x)) := bucketOf_neg hx
    have hz : Bucket.negative (M.key sk.alpha (-x)) ≤ .zero := (negative_lt_zero _).le
    have hp : ∀ i, Bucket.negative (M.key sk.alpha (-x)) ≤ .positive i :=
      fun i => (negative_lt_positive _ i).le
    simp [mass, Above, hx.ne, hbucket, hz, hp]
  · rw [if_neg (lt_irrefl 0), if_pos rfl, sumWhere_eq_sum h.positive]
    have hn : ∀ i, ¬ Bucket.zero < .negative i := fun i => (negative_lt_zero i).not_gt
    simp [mass, Above, hn]
  · rw [if_neg hx.not_gt, if_neg hx.ne', sumWhere_eq_sum h.positive]
    have hbucket : bucketOf M sk.alpha x = .positive (M.key sk.alpha x) := bucketOf_pos hx
    have hz : ¬ Bucket.positive (M.key sk.alpha x) ≤ .zero := (zero_lt_positive _).not_ge
    have hn : ∀ i, ¬ Bucket.positive (M.key sk.alpha x) ≤ .negative i :=
      fun i => (negative_lt_positive i _).not_ge
    simp [mass, Above, hx.ne', hbucket, hz, hn]

/-- Between the extrema, the accepted values in counted buckets. -/
theorem countAbove_eq_countP (h : Holds M alpha sk vs) (x : ℚ) :
    sk.countAbove M x = (vs.countP fun v => Above M alpha x (bucketOf M alpha v) : ℤ) := by
  rw [countAbove_eq_mass h.represents, h.alpha_eq, mass_tallyOf]

theorem above_of_lt (hM : M.Monotone) {x v : ℚ} (h : x < v) : Above M alpha x (bucketOf M alpha v) := by
  unfold Above
  by_cases hx : x = 0
  · rw [if_pos hx, bucketOf_pos (hx ▸ h)]
    exact zero_lt_positive _
  · rw [if_neg hx]
    exact bucketOf_monotone hM h.le

/-- A value that is counted without being above the threshold shares its bucket. -/
theorem lt_or_same_of_above (hM : M.Monotone) {x v : ℚ} (h : Above M alpha x (bucketOf M alpha v)) :
    x < v ∨ (bucketOf M alpha v = bucketOf M alpha x ∧ v ≤ x) := by
  rcases lt_or_ge x v with hlt | hle
  · exact .inl hlt
  have hbucket : bucketOf M alpha v ≤ bucketOf M alpha x := bucketOf_monotone hM hle
  unfold Above at h
  by_cases hx : x = 0
  · rw [if_pos hx] at h
    rw [hx, bucketOf_zero] at hbucket
    exact absurd h hbucket.not_gt
  · rw [if_neg hx] at h
    exact .inr ⟨le_antisymm hbucket h, hle⟩

theorem above_zero_iff {v : ℚ} : Above M alpha 0 (bucketOf M alpha v) ↔ 0 < v := by
  rw [Above, if_pos rfl]
  constructor
  · intro h
    by_contra hv
    exact h.not_ge (bucketOf_le_zero (not_lt.mp hv))
  · intro h
    rw [bucketOf_pos h]
    exact zero_lt_positive _

/-- Fewer buckets are counted for a larger threshold. -/
theorem Above.antitone (hM : M.Monotone) {x y v : ℚ} (hxy : x ≤ y)
    (h : Above M alpha y (bucketOf M alpha v)) : Above M alpha x (bucketOf M alpha v) := by
  rcases lt_or_same_of_above hM h with hlt | ⟨hsame, hle⟩
  · exact above_of_lt hM (hxy.trans_lt hlt)
  -- the value shares the bucket of `y`, which is not zero
  have hy : y ≠ 0 := by
    rintro rfl
    exact (above_zero_iff.mp h).not_ge hle
  unfold Above
  by_cases hx : x = 0
  · have hpos : 0 < y := lt_of_le_of_ne (hx ▸ hxy) hy.symm
    rw [if_pos hx, hsame, bucketOf_pos hpos]
    exact zero_lt_positive _
  · rw [if_neg hx, hsame]
    exact bucketOf_monotone hM hxy

/-! ## The extrema

The early returns compare the threshold with the extrema, before any bucket is looked at. -/

theorem tallyOf_cons (v : ℚ) (vs : Multiset ℚ) :
    tallyOf M alpha (v ::ₘ vs) = Tally.single M alpha v + tallyOf M alpha vs := by
  rw [tallyOf, Multiset.map_cons, Multiset.sum_cons, tallyOf]

/-- The extrema of a tally bound its values, and are finite or the neutral ones. -/
theorem extrema_tallyOf (M : IndexMapping) (alpha : ℚ) (vs : Multiset ℚ) :
    ⊥ < (tallyOf M alpha vs).min ∧ (∀ v ∈ vs, (tallyOf M alpha vs).min ≤ (v : ERat))
      ∧ ∀ v ∈ vs, (v : ERat) ≤ (tallyOf M alpha vs).max := by
  induction vs using Multiset.induction_on with
  | empty => exact ⟨bot_lt_top, by simp, by simp⟩
  | cons v vs ih =>
    obtain ⟨hbot, hmin, hmax⟩ := ih
    have hv : ⊥ < (v : ERat) := WithBot.bot_lt_coe _
    rw [tallyOf_cons, Tally.add_min, Tally.add_max, Tally.single_min, Tally.single_max]
    refine ⟨lt_min hv hbot, fun w hw => ?_, fun w hw => ?_⟩
    · rcases Multiset.mem_cons.mp hw with rfl | hw
      · exact min_le_left _ _
      · exact (min_le_right _ _).trans (hmin w hw)
    · rcases Multiset.mem_cons.mp hw with rfl | hw
      · exact le_max_left _ _
      · exact (hmax w hw).trans (le_max_right _ _)

theorem countGreaterThan_of_max_le {t : ERat} (h : sk.max ≤ t) : sk.countGreaterThan M t = 0 := by
  unfold countGreaterThan
  rw [if_pos (show t ≥ sk.max from h), ite_self]

/-- `count_greater_than` in its four cases. -/
theorem countGreaterThan_cases (h : Holds M alpha sk vs) (t : ERat) :
    (vs = 0 ∧ sk.countGreaterThan M t = 0)
      ∨ (sk.max ≤ t ∧ (∀ v ∈ vs, (v : ERat) ≤ t) ∧ sk.countGreaterThan M t = 0)
      ∨ (t < sk.min ∧ (∀ v ∈ vs, t < (v : ERat)) ∧ sk.countGreaterThan M t = vs.card)
      ∨ (¬ sk.max ≤ t ∧ ¬ t < sk.min ∧ ∃ x : ℚ, t = (x : ERat)
          ∧ sk.countGreaterThan M t = (vs.countP fun v =>
            Above M alpha x (bucketOf M alpha v) : ℤ)) := by
  obtain ⟨hbot, hmin, hmax⟩ := extrema_tallyOf M alpha vs
  rw [← h.represents.min] at hbot hmin
  rw [← h.represents.max] at hmax
  have hcount : sk.count = vs.card := by rw [h.represents.count, count_tallyOf]
  -- the early returns of the source, in their order
  unfold countGreaterThan
  by_cases h0 : sk.count = 0
  · rw [if_pos h0]
    have hcard : vs.card = 0 := by omega
    exact .inl ⟨Multiset.card_eq_zero.mp hcard, rfl⟩
  rw [if_neg h0]
  by_cases hhi : t ≥ sk.max
  · rw [if_pos hhi]
    exact .inr (.inl ⟨hhi, fun v hv => (hmax v hv).trans hhi, rfl⟩)
  rw [if_neg hhi]
  by_cases hlo : t < sk.min
  · rw [if_pos hlo]
    exact .inr (.inr (.inl ⟨hlo, fun v hv => hlo.trans_le (hmin v hv), hcount⟩))
  -- neither infinity comes this far, so the threshold is a number and the buckets are counted
  rw [if_neg hlo]
  match t with
  | none => exact absurd hbot hlo
  | some none => exact absurd le_top hhi
  | some (some x) => exact .inr (.inr (.inr ⟨hhi, hlo, x, rfl, countAbove_eq_countP h x⟩))

/-! ## The bound

The exact count lies between the answer and the answer with the bucket of the threshold. -/

theorem countP_mono {vs : Multiset ℚ} {p q : ℚ → Prop} [DecidablePred p] [DecidablePred q]
    (h : ∀ v, p v → q v) : vs.countP p ≤ vs.countP q := by
  rw [Multiset.countP_eq_card_filter, Multiset.countP_eq_card_filter]
  exact Multiset.card_le_card (Multiset.monotone_filter_right vs h)

theorem countP_le_add {vs : Multiset ℚ} {p q r : ℚ → Prop} [DecidablePred p] [DecidablePred q]
    [DecidablePred r] (h : ∀ v, p v → q v ∨ r v) : vs.countP p ≤ vs.countP q + vs.countP r := by
  induction vs using Multiset.induction_on with
  | empty => simp
  | cons v vs ih =>
    have hv := h v
    rw [Multiset.countP_cons, Multiset.countP_cons, Multiset.countP_cons]
    split_ifs with hp hq hr hr <;> first | omega | tauto

/-- What `count_greater_than` promises of the values `vs`, over a sketch whose extrema are `lo` and
`hi`. -/
structure TightCount (M : IndexMapping) (alpha : ℚ) (vs : Multiset ℚ) (lo hi : ERat)
    (count : ERat → ℤ) :
    Prop where
  /-- At least the exact number of values above the threshold. -/
  conservative : ∀ t : ERat, (vs.countP fun v : ℚ => t < (v : ERat) : ℤ) ≤ count t
  /-- The excess is made of values in the threshold's own bucket that are not above it. -/
  tight : ∀ x : ℚ, count (x : ERat) ≤ (vs.countP fun v => x < v : ℤ)
    + (vs.countP fun v => bucketOf M alpha v = bucketOf M alpha x ∧ v ≤ x : ℤ)
  exact_outside : ∀ t : ERat, t < lo ∨ hi ≤ t ∨ t = ((0 : ℚ) : ERat) →
    count t = (vs.countP fun v : ℚ => t < (v : ERat) : ℤ)
  antitone : Antitone count

theorem Holds.tightCount (hM : M.Monotone) (h : Holds M alpha sk vs) :
    TightCount M alpha vs sk.min sk.max (sk.countGreaterThan M) where
  conservative t := by
    rcases countGreaterThan_cases h t with ⟨rfl, hc⟩ | ⟨-, hle, hc⟩ | ⟨-, -, hc⟩ | ⟨-, -, x, rfl, hc⟩
    · simp [hc]
    · rw [hc, Multiset.countP_eq_zero.mpr fun v hv => (hle v hv).not_gt, Nat.cast_zero]
    · rw [hc]
      exact_mod_cast Multiset.countP_le_card _ _
    · rw [hc]
      have hlt : ∀ v : ℚ, (x : ERat) < (v : ERat) → Above M alpha x (bucketOf M alpha v) := fun v hv =>
        above_of_lt hM (WithBotTop.coe_lt_coe.mp hv)
      exact_mod_cast countP_mono hlt
  tight x := by
    rcases countGreaterThan_cases h x with ⟨-, hc⟩ | ⟨-, -, hc⟩ | ⟨-, hlt, hc⟩ | ⟨-, -, y, hy, hc⟩
    · rw [hc]
      positivity
    · rw [hc]
      positivity
    · have hall : ∀ v ∈ vs, x < v := fun v hv => WithBotTop.coe_lt_coe.mp (hlt v hv)
      rw [hc, Multiset.countP_eq_card.mpr hall]
      omega
    · obtain rfl : x = y := WithBotTop.coe_injective hy
      rw [hc]
      exact_mod_cast countP_le_add fun v => lt_or_same_of_above hM
  exact_outside t ht := by
    rcases countGreaterThan_cases h t with ⟨rfl, hc⟩ | ⟨-, hle, hc⟩ | ⟨-, hlt, hc⟩ | ⟨hhi, hlo, x,
      rfl, hc⟩
    · simp [hc]
    · rw [hc, Multiset.countP_eq_zero.mpr fun v hv => (hle v hv).not_gt, Nat.cast_zero]
    · rw [hc, Multiset.countP_eq_card.mpr hlt]
    · -- only the threshold zero is left, at which the positive buckets are counted
      obtain rfl : x = 0 := by
        rcases ht with ht | ht | ht
        · exact absurd ht hlo
        · exact absurd ht hhi
        · exact WithBotTop.coe_injective ht
      rw [hc]
      congr 1
      refine Multiset.countP_congr rfl fun v _ => ?_
      rw [above_zero_iff, WithBotTop.coe_lt_coe]
  antitone s t hst := by
    have hnonneg : 0 ≤ sk.countGreaterThan M s := by
      rcases countGreaterThan_cases h s with ⟨-, hc⟩ | ⟨-, -, hc⟩ | ⟨-, -, hc⟩ | ⟨-, -, x, -, hc⟩
        <;> omega
    have hcard : sk.countGreaterThan M t ≤ vs.card := by
      rcases countGreaterThan_cases h t with ⟨-, hc⟩ | ⟨-, -, hc⟩ | ⟨-, -, hc⟩ | ⟨-, -, x, -, hc⟩
      · omega
      · omega
      · omega
      · rw [hc]
        exact_mod_cast Multiset.countP_le_card _ _
    rcases countGreaterThan_cases h s with ⟨rfl, -⟩ | ⟨hshi, -, -⟩ | ⟨-, -, hs⟩ | ⟨-, hslo, x, rfl, hs⟩
    · exact hcard.trans hnonneg
    · rwa [countGreaterThan_of_max_le (hshi.trans hst)]
    · rwa [hs]
    · -- the smaller threshold lies between the extrema
      rcases countGreaterThan_cases h t with ⟨-, ht⟩ | ⟨-, -, ht⟩ | ⟨htlo, -, -⟩ | ⟨-, -, y, rfl, ht⟩
      · rwa [ht]
      · rwa [ht]
      · exact absurd (hst.trans_lt htlo) hslo
      · rw [hs, ht]
        exact_mod_cast countP_mono fun v => Above.antitone hM (WithBotTop.coe_le_coe.mp hst)

/-- **`count_greater_than` is a tight conservative bound**, on both backends and whatever accepted
calls have built the sketch. -/
theorem countGreaterThan_tight (hM : M.Monotone) (alpha : ℚ) (vs : Multiset ℚ) :
    (∀ sk, Built M alpha sk vs → TightCount M alpha vs sk.min sk.max (sk.countGreaterThan M))
      ∧ ∀ sk, Cpp.DDSketch.Built M alpha sk vs →
          TightCount M alpha vs sk.toPython.min sk.toPython.max (sk.countGreaterThan M) := by
  refine ⟨fun sk h => h.holds.tightCount hM, fun sk h => ?_⟩
  have hkeeps := h.keeps
  have hsame : sk.countGreaterThan M = sk.toPython.countGreaterThan M :=
    funext (Cpp.DDSketch.countGreaterThan_toPython hkeeps.represents hkeeps.holds.fits)
  rw [hsame]
  exact hkeeps.holds.tightCount hM

/-- Over values of both signs and zero. Four of them are above `-5/2`, and `-3` is in its bucket. -/
theorem countGreaterThan_tight_mixed : ∃ sk, Built .binary (1 / 2) sk ([3, -3, 0, 1, 3] : List ℚ)
    ∧ TightCount .binary (1 / 2) ([3, -3, 0, 1, 3] : List ℚ) sk.min sk.max
      (sk.countGreaterThan .binary)
    ∧ 4 ≤ sk.countGreaterThan .binary ((-5 / 2 : ℚ) : ERat)
    ∧ sk.countGreaterThan .binary ((-5 / 2 : ℚ) : ERat) ≤ 5 := by
  obtain ⟨sk, hbuilt⟩ := exists_built_mixed
  have htight := (countGreaterThan_tight IndexMapping.binary_monotone (1 / 2)
    ([3, -3, 0, 1, 3] : List ℚ)).1 sk hbuilt
  have habove : Multiset.countP (fun v : ℚ => ((-5 / 2 : ℚ) : ERat) < (v : ERat))
      ([3, -3, 0, 1, 3] : List ℚ) = 4 := by decide +kernel
  have hlower := htight.conservative ((-5 / 2 : ℚ) : ERat)
  have hupper := htight.tight (-5 / 2)
  have hexact : Multiset.countP (fun v : ℚ => -5 / 2 < v) ([3, -3, 0, 1, 3] : List ℚ) = 4 := by
    decide +kernel
  have hshared : Multiset.countP (fun v : ℚ => bucketOf .binary (1 / 2) v
      = bucketOf .binary (1 / 2) (-5 / 2) ∧ v ≤ -5 / 2) ([3, -3, 0, 1, 3] : List ℚ) = 1 := by
    decide +kernel
  rw [habove] at hlower
  rw [hexact, hshared] at hupper
  exact ⟨sk, hbuilt, htight, hlower, hupper⟩

end DDSketch

end Sketchlog
