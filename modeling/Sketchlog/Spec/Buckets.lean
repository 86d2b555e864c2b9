import Sketchlog.Spec.Contents

/-!
# Signed buckets in the order of their values

A quantile sketch keeps the buckets of either sign in a map of its own. Put in the order of the
values they hold (negative buckets by descending index, zero, positive buckets by ascending index)
they are one linear order, `Bucket`, and sending a value to its bucket is monotone
(`bucketOf_monotone`). The extrema of a sketch and its percentiles are statements about this order.

* **`Tally.weight`** — how many values a bucket holds; **`Tally.occupied`** — the buckets that hold
  any;
* **`Tally.Coherent`** — the extrema of a tally lie in its extreme buckets. Single values are
  coherent and sums of coherent tallies are (`coherent_single`, `Coherent.add`), so every tally built
  by adding is.
-/

namespace Sketchlog

inductive Bucket where
  | negative (index : ℤ)
  | zero
  | positive (index : ℤ)
  deriving DecidableEq

namespace Bucket

/-- The position of a bucket: its sign, then its index in the direction of growing values. -/
def position : Bucket → ℤ ×ₗ ℤ
  | .negative i => toLex (-1, -i)
  | .zero => toLex (0, 0)
  | .positive i => toLex (1, i)

theorem position_injective : Function.Injective position := by
  rintro (i | _ | i) (j | _ | j) h <;> simp [position] at h ⊢ <;> exact h

instance : LinearOrder Bucket := LinearOrder.lift' position position_injective

theorem le_def {a b : Bucket} : a ≤ b ↔ position a ≤ position b := Iff.rfl

theorem lt_def {a b : Bucket} : a < b ↔ position a < position b := Iff.rfl

@[simp] theorem negative_le_negative {i j : ℤ} : negative i ≤ negative j ↔ j ≤ i := by
  simp [le_def, position, Prod.Lex.le_iff]

@[simp] theorem negative_lt_negative {i j : ℤ} : negative i < negative j ↔ j < i := by
  simp [lt_def, position, Prod.Lex.lt_iff]

@[simp] theorem positive_le_positive {i j : ℤ} : positive i ≤ positive j ↔ i ≤ j := by
  simp [le_def, position, Prod.Lex.le_iff]

@[simp] theorem positive_lt_positive {i j : ℤ} : positive i < positive j ↔ i < j := by
  simp [lt_def, position, Prod.Lex.lt_iff]

@[simp] theorem negative_lt_zero (i : ℤ) : negative i < zero := by
  simp [lt_def, position, Prod.Lex.lt_iff]

@[simp] theorem zero_lt_positive (i : ℤ) : zero < positive i := by
  simp [lt_def, position, Prod.Lex.lt_iff]

@[simp] theorem negative_lt_positive (i j : ℤ) : negative i < positive j :=
  (negative_lt_zero i).trans (zero_lt_positive j)

/-- The bucket of a value. -/
def bucketOf (M : IndexMapping) (alpha v : ℚ) : Bucket :=
  if 0 < v then .positive (M.key alpha v)
  else if v < 0 then .negative (M.key alpha (-v))
  else .zero

variable {M : IndexMapping} {alpha v w : ℚ}

theorem bucketOf_pos (hv : 0 < v) : bucketOf M alpha v = .positive (M.key alpha v) := if_pos hv

theorem bucketOf_neg (hv : v < 0) : bucketOf M alpha v = .negative (M.key alpha (-v)) := by
  rw [bucketOf, if_neg hv.not_gt, if_pos hv]

@[simp] theorem bucketOf_zero : bucketOf M alpha 0 = .zero := by simp [bucketOf]

theorem bucketOf_le_zero (hv : v ≤ 0) : bucketOf M alpha v ≤ .zero := by
  rcases hv.lt_or_eq with h | rfl
  · rw [bucketOf_neg h]
    exact (negative_lt_zero _).le
  · rw [bucketOf_zero]

theorem zero_le_bucketOf (hv : 0 ≤ v) : .zero ≤ bucketOf M alpha v := by
  rcases hv.lt_or_eq with h | rfl
  · rw [bucketOf_pos h]
    exact (zero_lt_positive _).le
  · rw [bucketOf_zero]

theorem bucketOf_monotone (hM : M.Monotone) : Monotone (bucketOf M alpha) := by
  intro v w hvw
  rcases lt_trichotomy v 0 with hv | rfl | hv
  · rw [bucketOf_neg hv]
    rcases lt_trichotomy w 0 with hw | rfl | hw
    · rw [bucketOf_neg hw, negative_le_negative]
      exact hM alpha (-w) (-v) (neg_pos.mpr hw) (neg_le_neg hvw)
    · rw [bucketOf_zero]
      exact (negative_lt_zero _).le
    · rw [bucketOf_pos hw]
      exact (negative_lt_positive _ _).le
  · rcases hvw.lt_or_eq with hw | rfl
    · rw [bucketOf_zero, bucketOf_pos hw]
      exact (zero_lt_positive _).le
    · exact le_rfl
  · rw [bucketOf_pos hv, bucketOf_pos (lt_of_lt_of_le hv hvw), positive_le_positive]
    exact hM alpha v w hv hvw

end Bucket

open Bucket

namespace Tally

/-- How many values bucket `b` holds. -/
def weight (t : Tally) : Bucket → ℕ
  | .negative i => t.negative i
  | .zero => t.zeroCount
  | .positive i => t.positive i

/-- The buckets that hold values. -/
def occupied (t : Tally) : Set Bucket := {b | t.weight b ≠ 0}

variable {M : IndexMapping} {alpha : ℚ} {s t : Tally}

@[simp] theorem weight_zero (b : Bucket) : (0 : Tally).weight b = 0 := by
  cases b <;> rfl

@[simp] theorem weight_add (s t : Tally) (b : Bucket) :
    (s + t).weight b = s.weight b + t.weight b := by
  cases b <;> rfl

theorem weight_single (v : ℚ) (b : Bucket) :
    (single M alpha v).weight b = if bucketOf M alpha v = b then 1 else 0 := by
  rcases lt_trichotomy v 0 with hv | rfl | hv
  · obtain ⟨hp, hn, hz⟩ := single_of_neg M alpha hv
    cases b <;> simp [weight, bucketOf_neg hv, hp, hn, hz, Finsupp.single_apply]
  · obtain ⟨hp, hn, hz⟩ := single_zero M alpha
    cases b <;> simp [weight, hp, hn, hz]
  · obtain ⟨hp, hn, hz⟩ := single_of_pos M alpha hv
    cases b <;> simp [weight, bucketOf_pos hv, hp, hn, hz, Finsupp.single_apply]

theorem occupied_add (s t : Tally) : (s + t).occupied = s.occupied ∪ t.occupied := by
  ext b
  simp only [occupied, Set.mem_ofPred_eq, Set.mem_union, weight_add]
  omega

theorem occupied_single (v : ℚ) : (single M alpha v).occupied = {bucketOf M alpha v} := by
  ext b
  simp only [occupied, Set.mem_ofPred_eq, Set.mem_singleton_iff, weight_single]
  split
  · next h => simp [h]
  · next h => simpa using fun hb => h hb.symm

/-! ## Coherent extrema

The extrema of a coherent tally lie in its first and its last occupied bucket, which is what the
validation of a document checks. Single values are coherent and sums of coherent tallies are, since
the bucket map is monotone. -/

/-- A number that `math.isfinite` accepts: a finite float, or an int that converts to one. -/
def IsPyFinite (q : ℚ) : Prop := IsBinary64 q ∨ ∃ n : ℤ, q = n ∧ n.natAbs < floatLimit

/-- The indexes a value can have lie between those of the smallest and the largest double. -/
def IndexInRange (M : IndexMapping) (alpha : ℚ) (k : ℤ) : Prop :=
  M.key alpha Binary64.minSubnormal ≤ k ∧ k ≤ M.key alpha Binary64.maxFinite

/-- `lo` and `hi` are the extrema of the tally, lying in its extreme buckets. -/
structure Extrema (M : IndexMapping) (alpha : ℚ) (t : Tally) (lo hi : ℚ) : Prop where
  min_eq : t.min = lo
  max_eq : t.max = hi
  le : lo ≤ hi
  lo_finite : IsPyFinite lo
  hi_finite : IsPyFinite hi
  least : IsLeast t.occupied (bucketOf M alpha lo)
  greatest : IsGreatest t.occupied (bucketOf M alpha hi)

structure Coherent (M : IndexMapping) (alpha : ℚ) (t : Tally) : Prop where
  positive_inRange : ∀ k, t.positive k ≠ 0 → IndexInRange M alpha k
  negative_inRange : ∀ k, t.negative k ≠ 0 → IndexInRange M alpha k
  extrema : t.count ≠ 0 → ∃ lo hi, Extrema M alpha t lo hi

theorem coherent_zero : Coherent M alpha 0 where
  positive_inRange := by simp
  negative_inRange := by simp
  extrema := by simp

theorem Extrema.add (hM : M.Monotone) {lo hi lo' hi' : ℚ} (hs : Extrema M alpha s lo hi)
    (ht : Extrema M alpha t lo' hi') :
    Extrema M alpha (s + t) (Min.min lo lo') (Max.max hi hi') where
  min_eq := by
    rw [add_min, hs.min_eq, ht.min_eq]
    rfl
  max_eq := by
    rw [add_max, hs.max_eq, ht.max_eq]
    rfl
  le := (min_le_left lo lo').trans (hs.le.trans (le_max_left hi hi'))
  lo_finite := by
    -- the smaller of two doubles is one of the two
    rcases min_choice lo lo' with h | h
    · rw [h]
      exact hs.lo_finite
    · rw [h]
      exact ht.lo_finite
  hi_finite := by
    rcases max_choice hi hi' with h | h
    · rw [h]
      exact hs.hi_finite
    · rw [h]
      exact ht.hi_finite
  least := by
    -- the bucket map is monotone, so the bucket of the minimum is the lesser of the two
    rw [occupied_add, (bucketOf_monotone hM).map_min]
    exact hs.least.union ht.least
  greatest := by
    rw [occupied_add, (bucketOf_monotone hM).map_max]
    exact hs.greatest.union ht.greatest

/-- Sums of coherent tallies are coherent. -/
theorem Coherent.add (hM : M.Monotone) (hs : Coherent M alpha s) (ht : Coherent M alpha t) :
    Coherent M alpha (s + t) := by
  -- an empty summand is zero, and two non-empty ones have extrema to combine
  have hzero : ∀ u : Tally, u.count = 0 → u = 0 := by
    intro u hu
    obtain ⟨hp, hn, hz⟩ := u.count_eq_zero_iff.mp hu
    obtain ⟨hmin, hmax⟩ := u.empty_extrema hp hn hz
    exact Tally.ext hp hn hz hmin hmax
  by_cases hs0 : s.count = 0
  · rwa [hzero s hs0, zero_add]
  by_cases ht0 : t.count = 0
  · rwa [hzero t ht0, add_zero]
  refine ⟨fun k hk => ?_, fun k hk => ?_, fun _ => ?_⟩
  · by_cases hk' : s.positive k = 0
    · exact ht.positive_inRange k (by simpa [hk'] using hk)
    · exact hs.positive_inRange k hk'
  · by_cases hk' : s.negative k = 0
    · exact ht.negative_inRange k (by simpa [hk'] using hk)
    · exact hs.negative_inRange k hk'
  · obtain ⟨lo, hi, hex⟩ := hs.extrema hs0
    obtain ⟨lo', hi', hex'⟩ := ht.extrema ht0
    exact ⟨_, _, hex.add hM hex'⟩

/-- The index of a nonzero double is in range. -/
theorem indexInRange_key (hM : M.Monotone) (alpha : ℚ) (x : Binary64) (hx : x.val ≠ 0) :
    IndexInRange M alpha (M.key alpha |x.val|) :=
  ⟨hM alpha _ _ Binary64.minSubnormal_pos (x.minSubnormal_le_abs hx),
    hM alpha _ _ (abs_pos.mpr hx) x.abs_le_maxFinite⟩

theorem coherent_single (hM : M.Monotone) (x : Binary64) :
    Coherent M alpha (single M alpha x.val) where
  positive_inRange := by
    intro k hk
    by_cases hx : 0 < x.val
    · rw [(single_of_pos M alpha hx).1, Finsupp.single_apply_ne_zero] at hk
      have h := indexInRange_key hM alpha x hx.ne'
      rwa [abs_of_pos hx, ← hk.1] at h
    · simp [single, hx] at hk
  negative_inRange := by
    intro k hk
    by_cases hx : x.val < 0
    · rw [(single_of_neg M alpha hx).2.1, Finsupp.single_apply_ne_zero] at hk
      have h := indexInRange_key hM alpha x hx.ne
      rwa [abs_of_neg hx, ← hk.1] at h
    · simp [single, hx] at hk
  extrema _ := by
    refine ⟨x.val, x.val, rfl, rfl, le_rfl, .inl x.isBinary64, .inl x.isBinary64, ?_, ?_⟩
    · rw [occupied_single]
      exact isLeast_singleton
    · rw [occupied_single]
      exact isGreatest_singleton

end Tally

end Sketchlog
