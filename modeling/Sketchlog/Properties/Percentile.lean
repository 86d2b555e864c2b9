import Sketchlog.Spec.Buckets
import Sketchlog.Refine.PythonMerge

/-!
# Percentiles within the relative accuracy

The sketch never stores a value, yet `quantile(q)` is within the accuracy `alpha` of an actual order
statistic of everything it was given. The argument has three steps:

* a sketch built by `add`, `add_batch` and merges holds the sum of the single-value tallies of the
  multiset it accepted (`Built.represents`), so the weight of a bucket is the number of accepted
  values in it;
* the three loops of `quantile` are one walk over the signed buckets in the order of their values
  (`quantileAt_eq_walk`), which stops where the cumulative weights reach the rank;
* that bucket is the bucket of the exact order statistic (`OrderStatistics.map_nth_eq`), whose
  representative passed the accuracy check when the value was added.
-/

namespace Sketchlog

open Imperative CountMap OrderStatistics Bucket

namespace DDSketch

/-! ## Histories

`Built` describes the sketches that additions, batches and merges lead to, with the list of values
that were accepted. By induction, such a sketch represents the tally of its values. -/

/-- The values one call of `add` counts. -/
def copies (value : PyFloat) (count : ℤ) : Multiset ℚ :=
  match value with
  | .fin v => Multiset.replicate count.toNat v.val
  | _ => 0

/-- `Built M alpha sk vs`: some mixture of accepted `add`, `add_batch` and merge calls on sketches of
accuracy `alpha` has left `sk`, and `vs` are the values they accepted. -/
inductive Built (M : IndexMapping) (alpha : ℚ) : DDSketch → Multiset ℚ → Prop where
  | new {sk : DDSketch} (relativeAccuracy : PyFloat) (h : new relativeAccuracy = .ok sk)
      (halpha : sk.alpha = alpha) : Built M alpha sk 0
  | add {sk sk' : DDSketch} {vs : Multiset ℚ} (value : PyFloat) (count : ℤ) (h : Built M alpha sk vs)
      (hrun : (add M value count).run sk = .ok () sk') : Built M alpha sk' (vs + copies value count)
  | addBatch {sk sk' : DDSketch} {vs : Multiset ℚ} (values : List PyFloat) (h : Built M alpha sk vs)
      (hrun : (addBatch M values).run sk = .ok () sk') :
      Built M alpha sk' (vs + (finiteValues values : Multiset ℚ))
  | merge {sk other sk' : DDSketch} {vs ws : Multiset ℚ} (h : Built M alpha sk vs)
      (h' : Built M alpha other ws) (hcount : ¬ sk.count > maxUInt64 - other.count)
      (hzero : ¬ sk.zeroCount > maxInt64 - other.zeroCount)
      (hrun : StreamLog.mergeLatency sk other = .ok sk') : Built M alpha sk' (vs + ws)

/-- The tally of a multiset of values. -/
noncomputable def tallyOf (M : IndexMapping) (alpha : ℚ) (vs : Multiset ℚ) : Tally :=
  (vs.map (Tally.single M alpha)).sum

variable {M : IndexMapping} {alpha : ℚ} {sk : DDSketch} {vs : Multiset ℚ}

theorem tallyOf_add (vs ws : Multiset ℚ) :
    tallyOf M alpha (vs + ws) = tallyOf M alpha vs + tallyOf M alpha ws := by
  rw [tallyOf, Multiset.map_add, Multiset.sum_add, tallyOf, tallyOf]

theorem tallyOf_replicate (n : ℕ) (v : ℚ) :
    tallyOf M alpha (Multiset.replicate n v) = n • Tally.single M alpha v := by
  rw [tallyOf, Multiset.map_replicate, Multiset.sum_replicate]

theorem tallyOf_finiteValues (values : List PyFloat) :
    tallyOf M alpha (finiteValues values : Multiset ℚ) = batchTally M alpha values := by
  rw [tallyOf, Multiset.map_coe, Multiset.sum_coe, batchTally]

theorem count_tallyOf (vs : Multiset ℚ) : (tallyOf M alpha vs).count = vs.card := by
  induction vs using Multiset.induction_on with
  | empty => simp [tallyOf]
  | cons v vs ih =>
    rw [tallyOf, Multiset.map_cons, Multiset.sum_cons, Tally.count_add, Tally.count_single,
      Multiset.card_cons, ← ih, tallyOf, add_comm]

/-- What a history establishes: the sketch holds the tally of the accepted values, which all passed
the accuracy check. -/
structure Holds (M : IndexMapping) (alpha : ℚ) (sk : DDSketch) (vs : Multiset ℚ) : Prop where
  alpha_eq : sk.alpha = alpha
  alpha_ge : oneMicro ≤ alpha
  alpha_lt : alpha < 1
  represents : sk.Represents (tallyOf M alpha vs)
  fits : (tallyOf M alpha vs).Fits
  valid : ∀ v ∈ vs, Valid M alpha v
  doubles : ∀ v ∈ vs, IsBinary64 v

theorem Holds.alpha_pos (h : Holds M alpha sk vs) : 0 < alpha :=
  lt_of_lt_of_le (by norm_num [oneMicro]) h.alpha_ge

theorem isBinary64_of_mem_copies {value : PyFloat} {count : ℤ} {v : ℚ} (h : v ∈ copies value count) :
    IsBinary64 v := by
  cases value with
  | fin x => exact Multiset.eq_of_mem_replicate h ▸ x.isBinary64
  | _ => cases h

theorem isBinary64_of_mem_finiteValues {values : List PyFloat} {v : ℚ} (h : v ∈ finiteValues values) :
    IsBinary64 v := by
  obtain ⟨value, -, hv⟩ := List.mem_filterMap.mp h
  cases value with
  | fin x =>
    cases hv
    exact x.isBinary64
  | _ => cases hv

theorem Holds.add (h : Holds M alpha sk vs) {sk' : DDSketch} {value : PyFloat} {count : ℤ}
    (hrun : (add M value count).run sk = .ok () sk') :
    Holds M alpha sk' (vs + copies value count) := by
  -- calls that count nothing leave the sketch
  have hnone : sk' = sk → copies value count = 0 → Holds M alpha sk' (vs + copies value count) := by
    rintro rfl h0
    rwa [h0, add_zero]
  cases value with
  | nan => exact hnone (by cases hrun; rfl) rfl
  | inf b => exact hnone (by cases hrun; rfl) rfl
  | fin v =>
    by_cases hc : count ≤ 0
    · rw [DDSketch.add, if_pos hc] at hrun
      exact hnone (by cases hrun; rfl) (by simp [copies, Int.toNat_of_nonpos hc])
    obtain ⟨c, rfl⟩ := Int.eq_ofNat_of_zero_le (by omega : 0 ≤ count)
    obtain ⟨⟨hvalid, hfits⟩, halpha, hrep⟩ :=
      (add_guarded h.represents h.fits v (by omega : 0 < c)).of_run_ok hrun
    rw [h.alpha_eq] at hvalid hfits halpha hrep
    have hcopies : copies (.fin v) c = Multiset.replicate c v.val := rfl
    have htally : tallyOf M alpha (vs + copies (.fin v) c)
        = tallyOf M alpha vs + c • Tally.single M alpha v.val := by
      rw [tallyOf_add, hcopies, tallyOf_replicate]
    refine ⟨halpha, h.alpha_ge, h.alpha_lt, htally ▸ hrep, htally ▸ hfits, fun w hw => ?_, fun w hw =>
      (Multiset.mem_add.mp hw).elim (h.doubles w) isBinary64_of_mem_copies⟩
    rcases Multiset.mem_add.mp hw with hw | hw
    · exact h.valid w hw
    · rw [hcopies] at hw
      exact Multiset.eq_of_mem_replicate hw ▸ hvalid

theorem Holds.addBatch (h : Holds M alpha sk vs) {sk' : DDSketch} {values : List PyFloat}
    (hrun : (addBatch M values).run sk = .ok () sk') :
    Holds M alpha sk' (vs + (finiteValues values : Multiset ℚ)) := by
  obtain ⟨⟨hvalid, hfits⟩, halpha, hrep⟩ :=
    (addBatch_guarded h.represents h.fits values).of_run_ok hrun
  rw [h.alpha_eq] at hvalid hfits halpha hrep
  have htally : tallyOf M alpha (vs + (finiteValues values : Multiset ℚ))
      = tallyOf M alpha vs + batchTally M alpha values := by
    rw [tallyOf_add, tallyOf_finiteValues]
  refine ⟨halpha, h.alpha_ge, h.alpha_lt, htally ▸ hrep, htally ▸ hfits, fun w hw => ?_, fun w hw =>
    (Multiset.mem_add.mp hw).elim (h.doubles w) fun hw =>
      isBinary64_of_mem_finiteValues (by simpa using hw)⟩
  rcases Multiset.mem_add.mp hw with hw | hw
  · exact h.valid w hw
  · exact hvalid w (by simpa using hw)

theorem Holds.merge (h : Holds M alpha sk vs) {other sk' : DDSketch} {ws : Multiset ℚ}
    (h' : Holds M alpha other ws) (hcount : ¬ sk.count > maxUInt64 - other.count)
    (hzero : ¬ sk.zeroCount > maxInt64 - other.zeroCount)
    (hrun : StreamLog.mergeLatency sk other = .ok sk') : Holds M alpha sk' (vs + ws) := by
  rcases StreamLog.mergeLatency_outcome h.represents h'.represents h.fits with
    ⟨hbins, m, hm, halpha, hrep⟩ | ⟨-, e, he⟩
  · rw [hm] at hrun
    cases hrun
    rw [h.represents.count, h'.represents.count] at hcount
    rw [h.represents.zeroCount, h'.represents.zeroCount] at hzero
    rw [← tallyOf_add] at hrep hbins
    refine ⟨halpha.trans h.alpha_eq, h.alpha_ge, h.alpha_lt, hrep,
      ⟨hbins.positive_card, hbins.negative_card, hbins.positive_le, hbins.negative_le, ?_, ?_⟩,
      fun w hw => (Multiset.mem_add.mp hw).elim (h.valid w) (h'.valid w),
      fun w hw => (Multiset.mem_add.mp hw).elim (h.doubles w) (h'.doubles w)⟩
    · rw [tallyOf_add, Tally.add_zeroCount]
      omega
    · rw [tallyOf_add, Tally.count_add]
      omega
  · rw [he] at hrun
    cases hrun

theorem Built.holds (h : Built M alpha sk vs) : Holds M alpha sk vs := by
  induction h with
  | new relativeAccuracy h halpha =>
    obtain ⟨x, -, hge, hlt, rfl⟩ := new_eq_ok.mp h
    obtain rfl : x.val = alpha := halpha
    exact ⟨rfl, hge, hlt, represents_empty x.val, Tally.fits_zero, by simp, by simp⟩
  | add value count _ hrun ih => exact ih.add hrun
  | addBatch values _ hrun ih => exact ih.addBatch hrun
  | merge _ _ hcount hzero hrun ih ih' => exact ih.merge ih' hcount hzero hrun

/-! ## The walk over signed buckets

The negative bins in descending order of their keys, the zeros, the positive bins in ascending
order: one list of buckets in the order of the values they stand for. -/

/-- The buckets of the sketch in the order of their values. -/
def buckets (sk : DDSketch) : List (Bucket × ℤ) :=
  sk.negative.toList.reverse.map (fun e => (.negative e.1, e.2))
    ++ (.zero, sk.zeroCount) :: sk.positive.toList.map (fun e => (.positive e.1, e.2))

/-- The value `quantile` returns when its walk stops at a bucket. -/
def representative (M : IndexMapping) (alpha : ℚ) : Bucket → ℚ
  | .negative i => -(M.bucketValue alpha i)
  | .zero => 0
  | .positive i => M.bucketValue alpha i

/-- The three loops of `quantile` are one walk. -/
theorem quantileAt_eq_walk (M : IndexMapping) (sk : DDSketch) (hcount : sk.count ≠ 0) {q : ℚ}
    (h0 : 0 < q) (h1 : q < 1) :
    sk.quantileAt M q = match walk sk.buckets (q * sk.count) with
      | .inl b => ((representative M sk.alpha b : ℚ) : ERat)
      | .inr _ => sk.max := by
  unfold quantileAt buckets
  rw [if_neg hcount, if_neg (not_le.mpr h0), if_neg (not_le.mpr h1), walk_append, walk_map]
  cases hneg : walk sk.negative.toList.reverse (q * sk.count) with
  | inl idx => rfl
  | inr rank =>
    simp only [Sum.map_inr, id_eq, walk]
    by_cases hz : rank - sk.zeroCount ≤ 0
    · rw [if_pos hz, if_pos hz]
      rfl
    · rw [if_neg hz, if_neg hz, walk_map]
      cases walk sk.positive.toList (rank - sk.zeroCount) <;> rfl

theorem buckets_sorted (sk : DDSketch) : sk.buckets.Pairwise fun e e' => e.1 < e'.1 := by
  have hordered : ∀ m : Bins, m.toList.Pairwise fun e e' => e.1 < e'.1 := by
    intro m
    exact Std.ExtTreeMap.ordered_keys_toList.imp fun h => by simpa [compare_lt_iff_lt] using h
  unfold buckets
  refine List.pairwise_append.mpr ⟨?_, List.pairwise_cons.mpr ⟨?_, ?_⟩, ?_⟩
  · rw [List.pairwise_map, List.pairwise_reverse]
    exact (hordered sk.negative).imp fun h => negative_lt_negative.mpr h
  · intro e he
    obtain ⟨i, -, rfl⟩ := List.mem_map.mp he
    exact zero_lt_positive _
  · rw [List.pairwise_map]
    exact (hordered sk.positive).imp fun h => positive_lt_positive.mpr h
  · intro e he e' he'
    obtain ⟨i, -, rfl⟩ := List.mem_map.mp he
    rcases List.mem_cons.mp he' with rfl | he'
    · exact negative_lt_zero _
    · obtain ⟨j, -, rfl⟩ := List.mem_map.mp he'
      exact negative_lt_positive _ _

/-! ## Weights count values

The weight of a bucket is the number of values that fall into it, so a sum over buckets counts
values. -/

/-- The total weight of the buckets that satisfy `p`. -/
noncomputable def mass (p : Bucket → Prop) [DecidablePred p] (t : Tally) : ℕ :=
  (t.negative.sum fun i c => if p (.negative i) then c else 0)
    + (if p .zero then t.zeroCount else 0)
    + t.positive.sum fun i c => if p (.positive i) then c else 0

theorem mass_add (p : Bucket → Prop) [DecidablePred p] (s t : Tally) :
    mass p (s + t) = mass p s + mass p t := by
  have hsum : ∀ (f g : ℤ →₀ ℕ) (b : ℤ → Bucket),
      ((f + g).sum fun i c => if p (b i) then c else 0)
        = (f.sum fun i c => if p (b i) then c else 0) + g.sum fun i c => if p (b i) then c else 0 := by
    intro f g b
    refine Finsupp.sum_add_index' (by simp) fun i c c' => ?_
    split <;> rfl
  simp only [mass, Tally.add_negative, Tally.add_positive, Tally.add_zeroCount, hsum]
  split <;> omega

theorem mass_single (p : Bucket → Prop) [DecidablePred p] (v : ℚ) :
    mass p (Tally.single M alpha v) = if p (bucketOf M alpha v) then 1 else 0 := by
  rcases lt_trichotomy v 0 with hv | rfl | hv
  · obtain ⟨hp, hn, hz⟩ := Tally.single_of_neg M alpha hv
    simp [mass, hp, hn, hz, bucketOf_neg hv]
  · obtain ⟨hp, hn, hz⟩ := Tally.single_zero M alpha
    simp [mass, hp, hn, hz]
  · obtain ⟨hp, hn, hz⟩ := Tally.single_of_pos M alpha hv
    simp [mass, hp, hn, hz, bucketOf_pos hv]

/-- The mass of a set of buckets is the number of values that fall into it. -/
theorem mass_tallyOf (p : Bucket → Prop) [DecidablePred p] (vs : Multiset ℚ) :
    mass p (tallyOf M alpha vs) = vs.countP fun v => p (bucketOf M alpha v) := by
  induction vs using Multiset.induction_on with
  | empty => simp [tallyOf, mass]
  | cons v vs ih =>
    have hcons : tallyOf M alpha (v ::ₘ vs) = Tally.single M alpha v + tallyOf M alpha vs := by
      rw [tallyOf, Multiset.map_cons, Multiset.sum_cons, tallyOf]
    rw [hcons, mass_add, mass_single, ih, Multiset.countP_cons, add_comm]

/-- Summing the counts of the buckets that satisfy `p` gives their mass. -/
theorem sum_filter_buckets {t : Tally} (h : sk.Represents t) (p : Bucket → Prop) [DecidablePred p] :
    ((sk.buckets.filter fun e => p e.1).map Prod.snd).sum = (mass p t : ℤ) := by
  -- a filtered sum is the sum with zeros in the other places
  have hfilter : ∀ l : List (Bucket × ℤ), ((l.filter fun e => p e.1).map Prod.snd).sum
      = (l.map fun e => if p e.1 then e.2 else 0).sum := by
    intro l
    induction l with
    | nil => rfl
    | cons e l ih =>
      by_cases he : p e.1
      · simp [he, ← ih]
      · simp [he, ← ih]
  -- over one store, that sum is the one over its tally
  have hside : ∀ {m : Bins} {f : ℤ →₀ ℕ} (b : ℤ → Bucket), Tallies m f →
      (m.toList.map fun e => if p (b e.1) then e.2 else 0).sum
        = ((f.sum fun i c => if p (b i) then c else 0 : ℕ) : ℤ) := by
    intro m f b hm
    rw [hm.sum_toList fun i c => if p (b i) then c else 0, Finsupp.sum, Finsupp.sum]
    push_cast
    rfl
  -- the bins stand in the order negative, zero, positive, the negative ones reversed
  rw [hfilter, buckets, List.map_append, List.map_cons, List.map_map, List.map_map, List.sum_append,
    List.sum_cons, List.map_reverse, List.sum_reverse]
  have hn := hside .negative h.negative
  have hp := hside .positive h.positive
  simp only [Function.comp_def] at hn hp ⊢
  rw [hn, hp, h.zeroCount, mass]
  push_cast
  ring

/-! ## The walk finds the rank

The walk stops in the bucket of the value with the rank asked for: the buckets are sorted like the
values, and their weights count them. -/

/-- The rank `⌈q n⌉`, counted from zero, is an index into `n` values. -/
theorem rank_lt {q : ℚ} (h1 : q < 1) {n : ℕ} (hn : 0 < n) : ⌈q * n⌉₊ - 1 < n := by
  have hle : ⌈q * n⌉₊ ≤ n := by
    refine Nat.ceil_le.mpr ?_
    have hn' : (0 : ℚ) ≤ n := by positivity
    nlinarith
  omega

/-- The buckets hold all the values, so they cover every rank. -/
theorem rank_le_sum_buckets (h : Holds M alpha sk vs) {q : ℚ} (h1 : q < 1) :
    q * (vs.card : ℚ) ≤ ((sk.buckets.map Prod.snd).sum : ℤ) := by
  have hall : ((sk.buckets.map Prod.snd).sum : ℤ) = vs.card := by
    have hsum := sum_filter_buckets h.represents fun _ => True
    rw [mass_tallyOf] at hsum
    simpa using hsum
  rw [hall]
  have hn : (0 : ℚ) ≤ vs.card := by positivity
  push_cast
  nlinarith

/-- The walk of `quantile` stops at the bucket of the exact order statistic. -/
theorem walk_buckets (hM : M.Monotone) (h : Holds M alpha sk vs) {q : ℚ} (h0 : 0 < q) (h1 : q < 1)
    (hn : 0 < vs.card) :
    walk sk.buckets (q * sk.count)
      = .inl (bucketOf M alpha (nth vs (⌈q * vs.card⌉₊ - 1) (rank_lt h1 hn))) := by
  have hcount : (sk.count : ℚ) = vs.card := by
    rw [h.represents.count, count_tallyOf]
    simp
  have hrank : 0 < q * (vs.card : ℚ) := by
    have : (0 : ℚ) < vs.card := by exact_mod_cast hn
    positivity
  obtain ⟨b, hwalk, hlt, hle⟩ :=
    walk_eq_inl sk.buckets (buckets_sorted sk) hrank (rank_le_sum_buckets h h1)
  rw [sum_filter_buckets h.represents fun b' => b' < b, mass_tallyOf] at hlt
  rw [sum_filter_buckets h.represents fun b' => b' ≤ b, mass_tallyOf] at hle
  have hceil : 0 < ⌈q * (vs.card : ℚ)⌉₊ := Nat.ceil_pos.mpr hrank
  have hlt' : vs.countP (fun v => bucketOf M alpha v < b) < ⌈q * (vs.card : ℚ)⌉₊ :=
    Nat.lt_ceil.mpr (by exact_mod_cast hlt)
  have hle' : ⌈q * (vs.card : ℚ)⌉₊ ≤ vs.countP fun v => bucketOf M alpha v ≤ b :=
    Nat.ceil_le.mpr (by exact_mod_cast hle)
  rw [hcount, hwalk, map_nth_eq (bucketOf_monotone hM) (rank_lt h1 hn) (b := b) (by omega)
    (by omega)]

/-! ## The accuracy check

The check compares rounded numbers, so a value may be accepted whose representative misses the
accuracy by the rounding of the difference and that of the quotient, each a `2 ^ 53`-th part at
most. -/

/-- The accuracy `alpha`, widened by the rounding of its check. -/
def widened (alpha : ℚ) : ℚ := alpha / (1 - 1 / 2 ^ 53) ^ 2

/-- The representative of a positive value passes the check. -/
theorem abs_sub_le_of_accurate {rep x : ℚ} (hrep : IsBinary64 rep) (hx : IsBinary64 x) (hpos : 0 < x)
    (halpha : oneMicro ≤ alpha)
    (hacc : Binary64.nearest (|Binary64.nearest (rep - x)| / x) ≤ alpha) :
    |rep - x| ≤ widened alpha * x := by
  have hquotient : |Binary64.nearest (rep - x)| / x * (1 - 1 / 2 ^ 53) ≤ alpha := by
    refine Binary64.mul_le_of_nearest_le (by positivity) (le_trans ?_ halpha) hacc
    calc (2 : ℚ) ^ (-1022 : ℤ) ≤ 2 ^ (-20 : ℤ) := zpow_le_zpow_right₀ (by norm_num) (by norm_num)
      _ ≤ oneMicro := by norm_num [oneMicro]
  have hdifference := Binary64.le_abs_nearest (Binary64.normal_or_isBinary64_sub hrep hx)
  have hscaled : |Binary64.nearest (rep - x)| * (1 - 1 / 2 ^ 53) ≤ alpha * x := by
    rwa [div_mul_eq_mul_div, div_le_iff₀ hpos] at hquotient
  rw [widened, div_mul_eq_mul_div, le_div_iff₀ (by norm_num)]
  calc |rep - x| * (1 - 1 / 2 ^ 53) ^ 2 = |rep - x| * (1 - 1 / 2 ^ 53) * (1 - 1 / 2 ^ 53) := by ring
    _ ≤ |Binary64.nearest (rep - x)| * (1 - 1 / 2 ^ 53) :=
      mul_le_mul_of_nonneg_right hdifference (by norm_num)
    _ ≤ alpha * x := hscaled

/-- A representative that is not positive fails the check. -/
theorem pos_of_accurate {rep x : ℚ} (hx : IsBinary64 x) (hpos : 0 < x) (halpha : alpha < 1)
    (hacc : Binary64.nearest (|Binary64.nearest (rep - x)| / x) ≤ alpha) : 0 < rep := by
  by_contra hrep
  have hfar : x ≤ x - rep := by linarith [not_lt.mp hrep]
  have hdifference : x ≤ |Binary64.nearest (rep - x)| := by
    rw [← neg_sub, Binary64.abs_nearest_neg]
    exact (Binary64.le_nearest hx hpos hfar).trans (le_abs_self _)
  have hone : (1 : ℚ) ≤ |Binary64.nearest (rep - x)| / x := (one_le_div hpos).mpr hdifference
  have hrounded := Binary64.le_nearest ⟨1, 0, by norm_num, by norm_num, by norm_num, by
    norm_num⟩ one_pos hone
  linarith

/-- The representative of the bucket of an accepted value is within `alpha` of the value, but for the
rounding of the check. -/
theorem representative_accurate (hF : M.Floats) (halpha : oneMicro ≤ alpha) {v : ℚ}
    (hdouble : IsBinary64 v)
    (hv : Valid M alpha v) :
    |representative M alpha (bucketOf M alpha v) - v| ≤ widened alpha * |v| := by
  rcases lt_trichotomy v 0 with hneg | rfl | hpos
  · have hacc := hv hneg.ne
    rw [IndexMapping.Accurate, abs_of_neg hneg] at hacc
    rw [bucketOf_neg hneg, representative, abs_of_neg hneg, ← abs_neg,
      show -(-M.bucketValue alpha (M.key alpha (-v)) - v)
        = M.bucketValue alpha (M.key alpha (-v)) - -v by ring]
    exact abs_sub_le_of_accurate (hF _ _) (Binary64.isBinary64_neg hdouble)
      (neg_pos.mpr hneg) halpha hacc
  · simp [representative]
  · have hacc := hv hpos.ne'
    rw [IndexMapping.Accurate, abs_of_pos hpos] at hacc
    rw [bucketOf_pos hpos, representative, abs_of_pos hpos]
    exact abs_sub_le_of_accurate (hF _ _) hdouble hpos halpha hacc

/-- The representative has the sign of the value. -/
theorem representative_sign {v : ℚ} (halpha : alpha < 1) (hdouble : IsBinary64 v)
    (hv : Valid M alpha v) :
    SignType.sign (representative M alpha (bucketOf M alpha v)) = SignType.sign v := by
  rcases lt_trichotomy v 0 with hneg | rfl | hpos
  · have hacc := hv hneg.ne
    rw [IndexMapping.Accurate, abs_of_neg hneg] at hacc
    have hrep := pos_of_accurate (Binary64.isBinary64_neg hdouble) (neg_pos.mpr hneg) halpha hacc
    rw [bucketOf_neg hneg, representative, sign_neg (neg_neg_of_pos hrep), sign_neg hneg]
  · rw [bucketOf_zero, representative]
  · have hacc := hv hpos.ne'
    rw [IndexMapping.Accurate, abs_of_pos hpos] at hacc
    have hrep := pos_of_accurate hdouble hpos halpha hacc
    rw [bucketOf_pos hpos, representative, sign_pos hrep, sign_pos hpos]

/-! ## The guarantee -/

/-- **The relative-error guarantee.** For any mixture of accepted calls, `quantile(q)` is within
`alpha` of the exact `⌈q n⌉`-th smallest accepted value, but for the rounding of the accuracy check, and
has its sign. -/
theorem quantile_relative_error (hM : M.Monotone) (hF : M.Floats) (h : Built M alpha sk vs)
    (hn : 0 < vs.card) {q : ℚ} (h0 : 0 < q) (h1 : q < 1) :
    ∃ r : ℚ, sk.quantileAt M q = (r : ERat)
      ∧ (∀ q' : Binary64, q'.val = q → sk.quantile M (.fin q') = .ok (r : ERat))
      ∧ |r - nth vs (⌈q * vs.card⌉₊ - 1) (rank_lt h1 hn)|
          ≤ widened alpha * |nth vs (⌈q * vs.card⌉₊ - 1) (rank_lt h1 hn)|
      ∧ SignType.sign r = SignType.sign (nth vs (⌈q * vs.card⌉₊ - 1) (rank_lt h1 hn)) := by
  have hold := h.holds
  set x := nth vs (⌈q * vs.card⌉₊ - 1) (rank_lt h1 hn) with hx
  have hcount : sk.count ≠ 0 := by
    rw [hold.represents.count, count_tallyOf]
    omega
  have hquantile : sk.quantileAt M q = ((representative M alpha (bucketOf M alpha x) : ℚ) : ERat) := by
    rw [quantileAt_eq_walk M sk hcount h0 h1, walk_buckets hM hold h0 h1 hn, ← hx, hold.alpha_eq]
  have hmem : x ∈ vs := nth_mem vs _ _
  have hacc := representative_accurate hF hold.alpha_ge (hold.doubles x hmem) (hold.valid x hmem)
  have hsign := representative_sign hold.alpha_lt (hold.doubles x hmem) (hold.valid x hmem)
  refine ⟨_, hquantile, ?_, hacc, hsign⟩
  rintro q' rfl
  show Except.ok (sk.quantileAt M q'.val) = _
  rw [hquantile]

/-! ## A mixture of values

Values of both signs and a zero, at an accuracy of a half. The closed statement applies the theorem
to a sketch that has accepted a batch of them. -/

/-- The sketch of accuracy `alpha` that has accepted a batch of a few values. -/
theorem exists_built (M : IndexMapping) (alpha : Binary64) (hge : oneMicro ≤ alpha.val)
    (hlt : alpha.val < 1)
    {values : List PyFloat} (hvalid : BatchValid M alpha.val values)
    (hfew : (finiteValues values).length ≤ 1024) :
    ∃ sk, Built M alpha.val sk (finiteValues values : Multiset ℚ) := by
  have hnew : DDSketch.new (.fin alpha) = .ok (empty alpha.val) := if_neg (not_not.mpr ⟨hge, hlt⟩)
  have hcount : (0 + batchTally M alpha.val values).count ≤ 1024 := by
    rw [zero_add, ← tallyOf_finiteValues, count_tallyOf, Multiset.coe_card]
    exact hfew
  obtain ⟨sk, hrun, -⟩ := (addBatch_guarded (M := M) (represents_empty alpha.val) Tally.fits_zero
    values).run_ok
    ⟨hvalid, Tally.fits_of_count_le hcount⟩
  have hempty : Built M alpha.val (empty alpha.val) 0 := .new _ hnew rfl
  exact ⟨sk, by simpa using Built.addBatch values hempty hrun⟩

/-- Values of both signs, and zero. -/
def mixedValues : List PyFloat :=
  [.fin (.ofInt 3 (by norm_num)), .fin (.ofInt (-3) (by norm_num)), .fin (.ofInt 0 (by norm_num)),
    .fin (.ofInt 1 (by norm_num)), .fin (.ofInt 3 (by norm_num))]

theorem finiteValues_mixedValues : finiteValues mixedValues = [3, -3, 0, 1, 3] := by
  simp [finiteValues, mixedValues, Binary64.ofInt]

/-- A few values that the mapping to powers of two represents to within a half. -/
theorem exists_built_binary {values : List PyFloat} {vs : List ℚ} (hfinite : finiteValues values = vs)
    (hall : ∀ v ∈ vs, v = 0 ∨ IndexMapping.binary.Accurate (1 / 2) |v|) (hfew : vs.length ≤ 1024) :
    ∃ sk, Built .binary (1 / 2) sk (vs : Multiset ℚ) := by
  have hvalid : BatchValid .binary (1 / 2) values := by
    rw [BatchValid, hfinite]
    exact fun v hv hne => (hall v hv).resolve_left hne
  rw [← hfinite] at hfew ⊢
  exact exists_built .binary Binary64.half (by norm_num [oneMicro, Binary64.half])
    (by norm_num [Binary64.half]) hvalid hfew

/-- They are accepted at accuracy `1/2`. -/
theorem exists_built_mixed : ∃ sk, Built .binary (1 / 2) sk ([3, -3, 0, 1, 3] : List ℚ) :=
  exists_built_binary finiteValues_mixedValues (by decide +kernel) (by decide)

/-- The fourth of the five values is 3, in the bucket of the representative 4. -/
theorem quantile_relative_error_mixed :
    ∃ sk, Built .binary (1 / 2) sk ([3, -3, 0, 1, 3] : List ℚ)
      ∧ ∃ r : ℚ, sk.quantileAt .binary (7 / 10) = (r : ERat)
        ∧ |r - 3| ≤ widened (1 / 2) * |(3 : ℚ)| ∧ 0 < r := by
  obtain ⟨sk, hbuilt⟩ := exists_built_mixed
  obtain ⟨r, hr, -, herr, hsign⟩ := quantile_relative_error IndexMapping.binary_monotone
    IndexMapping.binary_floats hbuilt (by simp) (q := 7 / 10) (by norm_num) (by norm_num)
  -- three of the values are below 3
  have hnth : ∀ k hk, k = 3 → nth (([3, -3, 0, 1, 3] : List ℚ) : Multiset ℚ) k hk = 3 := by
    rintro k hk rfl
    exact map_nth_eq monotone_id hk (by decide +kernel) (by decide +kernel)
  have hrank : ⌈(7 / 10 : ℚ) * ((([3, -3, 0, 1, 3] : List ℚ) : Multiset ℚ).card)⌉₊ - 1 = 3 := by
    norm_num [Nat.ceil_eq_iff]
  rw [hnth _ _ hrank] at herr hsign
  exact ⟨sk, hbuilt, r, hr, herr, sign_eq_one_iff.mp (hsign.trans (sign_pos (by norm_num)))⟩

/-! ## A value that is accepted by a rounding

At accuracy `0.1` the representative of the bucket of `123.48215986408276` is `111.13394387767448`. The
difference is a double; its quotient by the value is above `0.1`, and is rounded to `0.1`. -/

/-- The literal `0.1`, by the exact value of the double it denotes. -/
def oneTenth : Binary64 :=
  ⟨3602879701896397 * 2 ^ (-55 : ℤ), 3602879701896397, -55, by norm_num, by norm_num, by
    norm_num, rfl⟩

/-- The literal `123.48215986408276`. -/
def acceptedValue : Binary64 :=
  ⟨8689284517981049 * 2 ^ (-46 : ℤ), 8689284517981049, -46, by norm_num, by norm_num, by norm_num, rfl⟩

end DDSketch

/-- The mapping of accuracy `0.1` around this value. -/
def IndexMapping.nearTenth : IndexMapping where
  key _ v := if v ≤ DDSketch.acceptedValue.val then 24 else 25
  bucketValue _ i := if i ≤ 24 then 244386127068217 * 2 ^ (-41 : ℤ) else 136

theorem IndexMapping.nearTenth_monotone : IndexMapping.nearTenth.Monotone := by
  intro alpha v w _ hvw
  show (if _ then (24 : ℤ) else 25) ≤ if _ then 24 else 25
  split
  · split <;> norm_num
  · next hv => rw [if_neg fun hw => hv (hvw.trans hw)]

theorem IndexMapping.nearTenth_floats : IndexMapping.nearTenth.Floats := by
  intro alpha i
  show IsBinary64 (if i ≤ 24 then _ else 136)
  split
  · exact ⟨244386127068217, -41, by norm_num, by norm_num, by norm_num, rfl⟩
  · exact ⟨136, 0, by norm_num, by norm_num, by norm_num, by norm_num⟩

namespace DDSketch

theorem exists_built_nearTenth :
    ∃ sk, Built .nearTenth oneTenth.val sk {acceptedValue.val}
      ∧ sk.quantileAt .nearTenth (1 / 2) = ((244386127068217 * 2 ^ (-41 : ℤ) : ℚ) : ERat) := by
  -- the value is accepted: the mapping's test in doubles lets it through
  have hfinite : finiteValues [.fin acceptedValue] = [acceptedValue.val] := by simp [finiteValues]
  have hvalid : BatchValid .nearTenth oneTenth.val [.fin acceptedValue] := by
    have haccepted : IndexMapping.nearTenth.Accurate oneTenth.val |acceptedValue.val| := by
      decide +kernel
    rw [BatchValid, hfinite]
    exact fun v hv _ => (List.mem_singleton.mp hv) ▸ haccepted
  obtain ⟨sk, hbuilt⟩ := exists_built .nearTenth oneTenth (by norm_num [oneMicro, oneTenth])
    (by norm_num [oneTenth]) hvalid (by rw [hfinite]; norm_num)
  rw [hfinite] at hbuilt
  refine ⟨sk, hbuilt, ?_⟩
  have hold := hbuilt.holds
  have hcard : ((([acceptedValue.val] : List ℚ) : Multiset ℚ)).card = 1 := rfl
  have hcount : sk.count ≠ 0 := by
    rw [hold.represents.count, count_tallyOf, hcard]
    norm_num
  -- the walk stops in the one bucket there is, and what is returned is its representative
  rw [quantileAt_eq_walk .nearTenth sk hcount (by norm_num) (by norm_num),
    walk_buckets IndexMapping.nearTenth_monotone hold (by norm_num) (by norm_num)
      (by rw [hcard]; norm_num)]
  have hnth : ∀ k hk, nth (([acceptedValue.val] : List ℚ) : Multiset ℚ) k hk = acceptedValue.val :=
    fun k hk =>
    Multiset.mem_singleton.mp (nth_mem _ k hk)
  have hpos : 0 < acceptedValue.val := by norm_num [acceptedValue]
  rw [hnth, bucketOf_pos hpos]
  show ((IndexMapping.nearTenth.bucketValue sk.alpha (IndexMapping.nearTenth.key oneTenth.val _) :
    ℚ) : ERat) = _
  have hkey : IndexMapping.nearTenth.key oneTenth.val acceptedValue.val = 24 := if_pos le_rfl
  rw [hkey]
  rfl

/-- The representative is further from the value than a tenth of it. -/
theorem quantile_misses_accuracy :
    IndexMapping.nearTenth.Monotone ∧ IndexMapping.nearTenth.Floats
      ∧ ∃ sk, Built .nearTenth oneTenth.val sk {acceptedValue.val}
        ∧ ∃ r : ℚ, sk.quantileAt .nearTenth (1 / 2) = (r : ERat)
          ∧ ¬ |r - acceptedValue.val| ≤ oneTenth.val * |acceptedValue.val| := by
  obtain ⟨sk, hbuilt, hquantile⟩ := exists_built_nearTenth
  exact ⟨IndexMapping.nearTenth_monotone, IndexMapping.nearTenth_floats, sk, hbuilt, _, hquantile,
    by decide +kernel⟩

end DDSketch

end Sketchlog
