import Sketchlog.Python.DDSketch
import Sketchlog.Spec.Contents

/-!
# The Python `DDSketch` implements `Tally`

`sk.Represents t`: the fields of the sketch hold the tally `t`. The two ingestion methods are
guarded additions: `add` of a finite value adds `count` copies of it, `add_batch` adds the sum of its
finite values, and each is accepted exactly when every value passes the accuracy check and the sum
fits (`add_guarded`, `addBatch_guarded`). Both statements are about the whole method, check by check:
in particular a rejected call leaves the sketch as it was.
-/

namespace Sketchlog

open Imperative CountMap

namespace DDSketch

structure Represents (sk : DDSketch) (t : Tally) : Prop where
  positive : Tallies sk.positive t.positive
  negative : Tallies sk.negative t.negative
  zeroCount : sk.zeroCount = t.zeroCount
  count : sk.count = t.count
  min : sk.min = t.min
  max : sk.max = t.max

theorem Represents.tally_eq {sk : DDSketch} {t u : Tally} (ht : sk.Represents t)
    (hu : sk.Represents u) : t = u := by
  refine Tally.ext (ht.positive.count_eq hu.positive) (ht.negative.count_eq hu.negative) ?_
    (ht.min.symm.trans hu.min) (ht.max.symm.trans hu.max)
  have hz : (t.zeroCount : ℤ) = u.zeroCount := ht.zeroCount.symm.trans hu.zeroCount
  exact_mod_cast hz

theorem Represents.sketch_eq {sk sk' : DDSketch} {t : Tally} (h : sk.Represents t)
    (h' : sk'.Represents t) (halpha : sk.alpha = sk'.alpha) : sk = sk' :=
  DDSketch.ext halpha (h.positive.map_eq h'.positive) (h.negative.map_eq h'.negative)
    (h.zeroCount.trans h'.zeroCount.symm) (h.count.trans h'.count.symm)
    (h.min.trans h'.min.symm) (h.max.trans h'.max.symm)

theorem represents_empty (alpha : ℚ) : (empty alpha).Represents 0 where
  positive := tallies_empty
  negative := tallies_empty
  zeroCount := rfl
  count := by simp [empty]
  min := rfl
  max := rfl

theorem new_eq_ok {relativeAccuracy : PyFloat} {sk : DDSketch} :
    new relativeAccuracy = .ok sk ↔ ∃ x : Binary64, relativeAccuracy = .fin x ∧ oneMicro ≤ x.val
      ∧ x.val < 1 ∧ sk = empty x.val := by
  cases relativeAccuracy with
  | nan => simp [new]
  | inf b => simp [new]
  | fin x =>
    simp only [new, PyFloat.fin.injEq, exists_eq_left']
    split
    · next h =>
      simp only [reduceCtorEq, false_iff]
      exact fun hn => h ⟨hn.1, hn.2.1⟩
    · next h =>
      rw [not_not] at h
      simp [h, eq_comm]

/-- The accuracy check `add` makes, vacuous for zero. -/
def Valid (M : IndexMapping) (alpha v : ℚ) : Prop := v ≠ 0 → M.Accurate alpha |v|

/-! ## `add`

The check sees the three counters and the sizes of the two stores. `checkAdd_guarded` turns it into
the statement that the sum of the tally and the single value fits, one case for each sign. -/

/-- The sketch after the writes of `add`. -/
def added (M : IndexMapping) (sk : DDSketch) (v : ℚ) (c : ℤ) : DDSketch where
  alpha := sk.alpha
  positive := if v > 0 then bump sk.positive (M.key sk.alpha v) c else sk.positive
  negative := if v < 0 then bump sk.negative (M.key sk.alpha (-v)) c else sk.negative
  zeroCount := if v = 0 then sk.zeroCount + c else sk.zeroCount
  count := sk.count + c
  min := Min.min sk.min v
  max := Max.max sk.max v

theorem ite_lt_eq_min (a b : ERat) : (if b < a then b else a) = Min.min a b := by
  rw [min_comm, min_def_lt]

theorem ite_gt_eq_max (a b : ERat) : (if b > a then b else a) = Max.max a b := by
  rw [max_def_lt]

theorem run_commitAdd (M : IndexMapping) (sk : DDSketch) (v : ℚ) (c : ℤ) :
    (commitAdd M v c).run sk = .ok () (added M sk v c) := by
  simp only [commitAdd, EStateM.run_bind, EStateM.run_modify]
  congr 1
  rcases lt_trichotomy v 0 with hv | hv | hv
  · simp only [added, hv, hv.ne, lt_asymm hv, gt_iff_lt, if_true, if_false,
      ← ite_lt_eq_min, ← ite_gt_eq_max]
    split <;> split <;> rfl
  · subst hv
    simp only [added, lt_irrefl, gt_iff_lt, if_true, if_false, ← ite_lt_eq_min, ← ite_gt_eq_max]
    split <;> split <;> rfl
  · simp only [added, hv, hv.ne', lt_asymm hv, gt_iff_lt, if_true, if_false,
      ← ite_lt_eq_min, ← ite_gt_eq_max]
    split <;> split <;> rfl

theorem Represents.added {M : IndexMapping} {sk : DDSketch} {t : Tally} (h : sk.Represents t)
    (v : ℚ) {c : ℕ} (hc : 0 < c) :
    (added M sk v c).Represents (t + c • Tally.single M sk.alpha v) := by
  have hcount : (DDSketch.added M sk v c).count = ((t + c • Tally.single M sk.alpha v).count : ℕ) := by
    simp [DDSketch.added, h.count]
  have hmin : (DDSketch.added M sk v c).min = (t + c • Tally.single M sk.alpha v).min := by
    simp [DDSketch.added, h.min, Tally.nsmul_min _ hc]
  have hmax : (DDSketch.added M sk v c).max = (t + c • Tally.single M sk.alpha v).max := by
    simp [DDSketch.added, h.max, Tally.nsmul_max _ hc]
  -- the value changes one bin of its own sign, or the zero count
  rcases lt_trichotomy v 0 with hv | rfl | hv
  · obtain ⟨hp, hn, hz⟩ := Tally.single_of_neg M sk.alpha hv
    refine ⟨?_, ?_, ?_, hcount, hmin, hmax⟩
    · simpa [DDSketch.added, lt_asymm hv, hp] using h.positive
    · simpa [DDSketch.added, hv, hn] using h.negative.bump (M.key sk.alpha (-v)) hc
    · simp [DDSketch.added, hv.ne, hz, h.zeroCount]
  · obtain ⟨hp, hn, hz⟩ := Tally.single_zero M sk.alpha
    refine ⟨?_, ?_, ?_, hcount, hmin, hmax⟩
    · simpa [DDSketch.added, hp] using h.positive
    · simpa [DDSketch.added, hn] using h.negative
    · simp [DDSketch.added, hz, h.zeroCount]
  · obtain ⟨hp, hn, hz⟩ := Tally.single_of_pos M sk.alpha hv
    refine ⟨?_, ?_, ?_, hcount, hmin, hmax⟩
    · simpa [DDSketch.added, hv, hp] using h.positive.bump (M.key sk.alpha v) hc
    · simpa [DDSketch.added, lt_asymm hv, hn] using h.negative
    · simp [DDSketch.added, hv.ne', hz, h.zeroCount]

/-- The checks on the bin, or the zero count, that `c` copies of `v` go to. -/
@[mk_iff roomFor_iff]
structure RoomFor (M : IndexMapping) (sk : DDSketch) (v : ℚ) (c : ℤ) : Prop where
  positive : 0 < v → storeCanFit sk.positive (M.key sk.alpha v)
    ∧ ¬ sk.positive.getD (M.key sk.alpha v) 0 > maxInt64 - c
  negative : v < 0 → storeCanFit sk.negative (M.key sk.alpha (-v))
    ∧ ¬ sk.negative.getD (M.key sk.alpha (-v)) 0 > maxInt64 - c
  zeroCount : v = 0 → ¬ sk.zeroCount > maxInt64 - c

/-- The sum fits exactly when the limit checks of `add` pass. -/
theorem fits_add_single_iff {M : IndexMapping} {sk : DDSketch} {t : Tally} (h : sk.Represents t)
    (hf : t.Fits) (v : ℚ) {c : ℕ} (hc : 0 < c) :
    (t + c • Tally.single M sk.alpha v).Fits ↔
      ¬ (c : ℤ) > maxInt64 ∧ ¬ sk.count > maxUInt64 - (c : ℤ) ∧ RoomFor M sk v c := by
  have hcount : (t + c • Tally.single M sk.alpha v).count ≤ maxUInt64
      ↔ ¬ sk.count > maxUInt64 - (c : ℤ) := by
    rw [h.count, Tally.count_add, Tally.nsmul_count, Tally.count_single]
    omega
  -- the sign of `v` says which counter grows; the limits of the other two are those of `t`
  rcases lt_trichotomy v 0 with hv | rfl | hv
  · obtain ⟨hp, hn, hz⟩ := Tally.single_of_neg M sk.alpha hv
    have hneg : (t + c • Tally.single M sk.alpha v).negative
        = t.negative + Finsupp.single (M.key sk.alpha (-v)) c := by simp [hn]
    have hcard := card_support_add_single_le_iff (k := M.key sk.alpha (-v)) hc hf.negative_card
    have hbins := forall_add_single_le_iff (k := M.key sk.alpha (-v)) (c := c) hf.negative_le
    rw [← hneg] at hcard hbins
    have hget := h.negative.getD_eq (M.key sk.alpha (-v))
    have hroom : storeCanFit sk.negative (M.key sk.alpha (-v))
        ↔ t.negative (M.key sk.alpha (-v)) ≠ 0 ∨ t.negative.support.card < 1024 := by
      rw [storeCanFit, h.negative.mem_iff, h.negative.size_eq, maxBins]
    constructor
    · intro hfits
      have h1 := hcard.mp hfits.negative_card
      have h2 := hbins.mp hfits.negative_le
      exact ⟨by omega, hcount.mp hfits.count_le, fun hv' => absurd hv' (lt_asymm hv),
        fun _ => ⟨hroom.mpr h1, by omega⟩, fun hv' => absurd hv' hv.ne⟩
    · rintro ⟨-, hc', hside⟩
      obtain ⟨hfit, hbin⟩ := hside.negative hv
      rw [hroom] at hfit
      exact
        { positive_card := by simpa [hp] using hf.positive_card
          negative_card := hcard.mpr hfit
          positive_le := by simpa [hp] using hf.positive_le
          negative_le := hbins.mpr (by omega)
          zeroCount_le := by simpa [hz] using hf.zeroCount_le
          count_le := hcount.mpr hc' }
  · obtain ⟨hp, hn, hz⟩ := Tally.single_zero M sk.alpha
    have hzero : (t + c • Tally.single M sk.alpha 0).zeroCount = t.zeroCount + c := by simp [hz]
    constructor
    · intro hfits
      have h1 := hfits.zeroCount_le
      rw [hzero] at h1
      refine ⟨by omega, hcount.mp hfits.count_le, fun hv' => absurd hv' (lt_irrefl _),
        fun hv' => absurd hv' (lt_irrefl _), fun _ => by rw [h.zeroCount]; omega⟩
    · rintro ⟨-, hc', hside⟩
      have hz' := hside.zeroCount rfl
      rw [h.zeroCount] at hz'
      exact
        { positive_card := by simpa [hp] using hf.positive_card
          negative_card := by simpa [hn] using hf.negative_card
          positive_le := by simpa [hp] using hf.positive_le
          negative_le := by simpa [hn] using hf.negative_le
          zeroCount_le := by rw [hzero]; omega
          count_le := hcount.mpr hc' }
  · obtain ⟨hp, hn, hz⟩ := Tally.single_of_pos M sk.alpha hv
    have hpos : (t + c • Tally.single M sk.alpha v).positive
        = t.positive + Finsupp.single (M.key sk.alpha v) c := by simp [hp]
    have hcard := card_support_add_single_le_iff (k := M.key sk.alpha v) hc hf.positive_card
    have hbins := forall_add_single_le_iff (k := M.key sk.alpha v) (c := c) hf.positive_le
    rw [← hpos] at hcard hbins
    have hget := h.positive.getD_eq (M.key sk.alpha v)
    have hroom : storeCanFit sk.positive (M.key sk.alpha v)
        ↔ t.positive (M.key sk.alpha v) ≠ 0 ∨ t.positive.support.card < 1024 := by
      rw [storeCanFit, h.positive.mem_iff, h.positive.size_eq, maxBins]
    constructor
    · intro hfits
      have h1 := hcard.mp hfits.positive_card
      have h2 := hbins.mp hfits.positive_le
      exact ⟨by omega, hcount.mp hfits.count_le, fun _ => ⟨hroom.mpr h1, by omega⟩,
        fun hv' => absurd hv' (lt_asymm hv), fun hv' => absurd hv' hv.ne'⟩
    · rintro ⟨-, hc', hside⟩
      obtain ⟨hfit, hbin⟩ := hside.positive hv
      rw [hroom] at hfit
      exact
        { positive_card := hcard.mpr hfit
          negative_card := by simpa [hn] using hf.negative_card
          positive_le := hbins.mpr (by omega)
          negative_le := by simpa [hn] using hf.negative_le
          zeroCount_le := by simpa [hz] using hf.zeroCount_le
          count_le := hcount.mpr hc' }

/-- The checks of `add` only read: they pass, or raise and leave the sketch. -/
theorem checkAdd_guarded (M : IndexMapping) (sk : DDSketch) (v : ℚ) (c : ℤ) :
    Guarded (checkAdd M sk v c) sk
      (¬ c > maxInt64 ∧ ¬ sk.count > maxUInt64 - c ∧ Valid M sk.alpha v ∧ RoomFor M sk v c)
      (· = sk) := by
  unfold checkAdd
  rcases lt_trichotomy v 0 with hv | rfl | hv
  · simp only [ne_eq, hv.ne, not_false_eq_true, if_true, gt_iff_lt]
    refine (Guarded.raiseIf_bind fun _ => Guarded.raiseIf_bind fun _ => Guarded.raiseIf_bind fun _ =>
      Guarded.raiseIf_bind fun _ => Guarded.raiseIf).imp ?_ fun _ _ h => h
    simp [Valid, roomFor_iff, hv, hv.ne, lt_asymm hv, abs_of_neg hv]
  · simp only [ne_eq, not_true_eq_false, if_false]
    refine (Guarded.raiseIf_bind fun _ => Guarded.raiseIf_bind fun _ => Guarded.raiseIf).imp ?_
      fun _ _ h => h
    simp [Valid, roomFor_iff]
  · simp only [ne_eq, hv.ne', not_false_eq_true, if_true, gt_iff_lt]
    refine (Guarded.raiseIf_bind fun _ => Guarded.raiseIf_bind fun _ => Guarded.raiseIf_bind fun _ =>
      Guarded.raiseIf_bind fun _ => Guarded.raiseIf).imp ?_ fun _ _ h => h
    simp [Valid, roomFor_iff, hv, hv.ne', lt_asymm hv, abs_of_pos hv]

/-- **`add` of a finite value is guarded addition.** -/
theorem add_guarded {M : IndexMapping} {sk : DDSketch} {t : Tally} (h : sk.Represents t)
    (hf : t.Fits) (v : Binary64) {c : ℕ} (hc : 0 < c) :
    Guarded (add M (.fin v) c) sk
      (Valid M sk.alpha v.val ∧ (t + c • Tally.single M sk.alpha v.val).Fits)
      (fun sk' => sk'.alpha = sk.alpha
        ∧ sk'.Represents (t + c • Tally.single M sk.alpha v.val)) := by
  have hc' : ¬ (c : ℤ) ≤ 0 := by omega
  simp only [add, hc', if_false]
  refine Guarded.get_bind (((checkAdd_guarded M sk v.val c).bind_ok fun sk' _ hsk => ?_).imp ?_
    fun _ _ hR => hR)
  · subst hsk
    exact ⟨added M sk' v.val c, run_commitAdd M sk' v.val c, rfl, h.added v.val hc⟩
  · rw [fits_add_single_iff h hf v.val hc]
    tauto

/-- A value `add` silently drops. -/
theorem add_of_not_finite (M : IndexMapping) {value : PyFloat} (hv : value.isFinite = false)
    (c : ℤ) : add M value c = pure () := by
  cases value with
  | nan => rfl
  | inf _ => rfl
  | fin v => cases hv

/-! ## `add_batch`

The loop accumulates a sketch of its own in local variables; seen as a sketch (`Batch.toSketch`),
each iteration is one `added`. -/

/-- The finite values of a batch, in order. -/
def finiteValues (values : List PyFloat) : List ℚ :=
  values.filterMap fun value =>
    match value with
    | .fin v => some v.val
    | _ => none

/-- What a batch adds. -/
noncomputable def batchTally (M : IndexMapping) (alpha : ℚ) (values : List PyFloat) : Tally :=
  ((finiteValues values).map (Tally.single M alpha)).sum

/-- Every finite value of the batch passes the accuracy check. -/
def BatchValid (M : IndexMapping) (alpha : ℚ) (values : List PyFloat) : Prop :=
  ∀ v ∈ finiteValues values, Valid M alpha v

def Batch.toSketch (alpha : ℚ) (tmp : Batch) : DDSketch :=
  ⟨alpha, tmp.pos, tmp.neg, tmp.zeroCount, tmp.count, tmp.min, tmp.max⟩

theorem batchStep_fin (M : IndexMapping) (alpha : ℚ) (tmp : Batch) (v : Binary64) :
    (Valid M alpha v.val ∧ ∃ tmp', batchStep M alpha tmp (.fin v) = .ok tmp'
        ∧ tmp'.toSketch alpha = added M (tmp.toSketch alpha) v.val 1)
      ∨ (¬ Valid M alpha v.val ∧ ∃ e, batchStep M alpha tmp (.fin v) = .error e) := by
  -- one case for each branch of the loop body: zero, inaccurate, negative, positive
  by_cases hz : v.val = 0
  · refine .inl ⟨fun h => absurd hz h, { tmp.observe v.val with zeroCount := tmp.zeroCount + 1 },
      by simp only [batchStep, hz, if_true]; rfl, ?_⟩
    simp [Batch.toSketch, Batch.observe, added, hz, ← ite_lt_eq_min, ← ite_gt_eq_max]
  by_cases hacc : M.Accurate alpha |v.val|
  · refine .inl ⟨fun _ => hacc, ?_⟩
    rcases lt_or_gt_of_ne hz with hv | hv
    · refine ⟨{ tmp.observe v.val with neg := bump tmp.neg (M.key alpha |v.val|) 1 }, ?_, ?_⟩
      · simp only [batchStep, hz, hacc, not_true_eq_false, if_false, gt_iff_lt, lt_asymm hv]
        rfl
      · simp [Batch.toSketch, Batch.observe, added, hz, hv, lt_asymm hv, abs_of_neg hv,
          ← ite_lt_eq_min, ← ite_gt_eq_max]
    · refine ⟨{ tmp.observe v.val with pos := bump tmp.pos (M.key alpha |v.val|) 1 }, ?_, ?_⟩
      · simp only [batchStep, hz, hacc, not_true_eq_false, if_false, gt_iff_lt, hv, if_true]
        rfl
      · simp [Batch.toSketch, Batch.observe, added, hz, hv, lt_asymm hv, abs_of_pos hv,
          ← ite_lt_eq_min, ← ite_gt_eq_max]
  · refine .inr ⟨fun h => hacc (h hz),
      .valueError "Value magnitude too small to satisfy relative accuracy", ?_⟩
    simp only [batchStep, hz, hacc, not_false_eq_true, if_true, if_false]
    rfl

/-- The accumulation loop, from any accumulated tally: induction on the values. -/
theorem foldlM_batchStep (M : IndexMapping) (alpha : ℚ) (values : List PyFloat) (tmp : Batch)
    (t : Tally) (h : (tmp.toSketch alpha).Represents t) :
    (BatchValid M alpha values ∧ ∃ tmp', values.foldlM (batchStep M alpha) tmp = .ok tmp'
        ∧ (tmp'.toSketch alpha).Represents (t + batchTally M alpha values))
      ∨ (¬ BatchValid M alpha values ∧ ∃ e, values.foldlM (batchStep M alpha) tmp = .error e) := by
  induction values generalizing tmp t with
  | nil =>
    exact .inl ⟨by simp [BatchValid, finiteValues], tmp, rfl,
      by simpa [batchTally, finiteValues] using h⟩
  | cons value values ih =>
    -- what is no number is passed over by the loop and adds nothing to the tally
    rw [List.foldlM_cons]
    cases value with
    | nan => exact ih tmp t h
    | inf b => exact ih tmp t h
    | fin v =>
      have hvalid : BatchValid M alpha (.fin v :: values)
          ↔ Valid M alpha v.val ∧ BatchValid M alpha values := by
        simp [BatchValid, finiteValues]
      have htally : batchTally M alpha (.fin v :: values)
          = Tally.single M alpha v.val + batchTally M alpha values := by
        simp [batchTally, finiteValues]
      rw [hvalid, htally, ← add_assoc]
      -- the first invalid value ends the loop, so the batch is valid when the head and the rest are
      rcases batchStep_fin M alpha tmp v with ⟨hv, tmp', hstep, hadd⟩ | ⟨hv, e, hstep⟩
      · rw [hstep]
        have hrep := h.added (M := M) v.val (c := 1) (by norm_num)
        rw [one_nsmul, Nat.cast_one, ← hadd] at hrep
        rcases ih tmp' _ hrep with ⟨hvs, hok⟩ | ⟨hvs, herr⟩
        · exact .inl ⟨⟨hv, hvs⟩, hok⟩
        · exact .inr ⟨fun hn => hvs hn.2, herr⟩
      · rw [hstep]
        exact .inr ⟨fun hn => hv hn.1, e, rfl⟩

/-- The sketch after the writes of `add_batch`. -/
def batchAdded (sk : DDSketch) (tmp : Batch) : DDSketch :=
  if tmp.count = 0 then sk
  else
    { alpha := sk.alpha
      positive := CountMap.addAll sk.positive tmp.pos
      negative := CountMap.addAll sk.negative tmp.neg
      zeroCount := sk.zeroCount + tmp.zeroCount
      count := sk.count + tmp.count
      min := Min.min sk.min tmp.min
      max := Max.max sk.max tmp.max }

section Commit

variable {sk : DDSketch} {t u : Tally} {tmp : Batch}

theorem Represents.batchAdded (h : sk.Represents t) (hu : (tmp.toSketch sk.alpha).Represents u) :
    (sk.batchAdded tmp).Represents (t + u) := by
  unfold DDSketch.batchAdded
  split
  · next h0 =>
    -- an empty batch adds nothing
    have hcount : u.count = 0 := by
      have := hu.count
      simp only [Batch.toSketch, h0] at this
      omega
    obtain ⟨hp, hn, hz⟩ := u.count_eq_zero_iff.mp hcount
    obtain ⟨hmin, hmax⟩ := u.empty_extrema hp hn hz
    have hu0 : u = 0 := Tally.ext hp hn hz hmin hmax
    rwa [hu0, add_zero]
  · exact
      { positive := h.positive.addAll hu.positive
        negative := h.negative.addAll hu.negative
        zeroCount := by simpa [Batch.toSketch, h.zeroCount] using hu.zeroCount
        count := by simpa [Batch.toSketch, h.count] using hu.count
        min := by
          have hmin : tmp.min = u.min := hu.min
          rw [h.min, hmin, Tally.add_min]
        max := by
          have hmax : tmp.max = u.max := hu.max
          rw [h.max, hmax, Tally.add_max] }

theorem card_combinedKeys {m n : Bins} {f g : ℤ →₀ ℕ} (hm : Tallies m f) (hn : Tallies n g) :
    (combinedKeys m n).card = (f + g).support.card := by
  unfold combinedKeys
  rw [hm.keys_toFinset, hn.keys_toFinset]
  congr 1
  ext k
  simp only [Finset.mem_union, Finsupp.mem_support_iff, Finsupp.add_apply]
  omega

theorem not_anyBinOverflows_iff {m n : Bins} {f g : ℤ →₀ ℕ} (hm : Tallies m f) (hn : Tallies n g)
    (hf : ∀ k, f k ≤ maxInt64) : ¬ anyBinOverflows m n ↔ ∀ k, (f + g) k ≤ maxInt64 := by
  unfold anyBinOverflows
  push Not
  constructor
  · intro hall k
    rw [Finsupp.add_apply]
    by_cases hk : g k = 0
    · simpa [hk] using hf k
    · have hle := hall (k, g k) (hn.mem_toList_iff.mpr ⟨hk, rfl⟩)
      simp only [hm.getD_eq] at hle
      omega
  · rintro hall ⟨k, v⟩ hkv
    obtain ⟨-, rfl⟩ := hn.mem_toList_iff.mp hkv
    have hle := hall k
    rw [Finsupp.add_apply] at hle
    simp only [hm.getD_eq]
    omega

theorem run_writeBatch (sk : DDSketch) (tmp : Batch) (h0 : tmp.count ≠ 0) :
    (writeBatch tmp).run sk = .ok () (sk.batchAdded tmp) := by
  simp only [writeBatch, EStateM.run_bind, EStateM.run_modify, DDSketch.batchAdded, if_neg h0]
  congr 1
  simp only [gt_iff_lt, ← ite_lt_eq_min, ← ite_gt_eq_max]
  split <;> split <;> rfl

theorem commitBatch_guarded (h : sk.Represents t) (hf : t.Fits)
    (hu : (tmp.toSketch sk.alpha).Represents u) :
    Guarded (commitBatch tmp) sk (t + u).Fits (· = sk.batchAdded tmp) := by
  -- an empty batch commits nothing, and the sum is then the tally the sketch already has
  by_cases h0 : tmp.count = 0
  · have hrep := h.batchAdded hu
    simp only [commitBatch, DDSketch.batchAdded, h0, if_true] at hrep ⊢
    have htu : t = t + u := h.tally_eq hrep
    exact (Guarded.of_ok (R := (· = sk)) rfl rfl).imp (iff_of_true trivial (htu ▸ hf)) fun _ _ h => h
  · -- six checks stand before the write; their conjunction is compared with the limits below
    simp only [commitBatch, h0, if_false]
    refine Guarded.get_bind ((Guarded.raiseIf_bind fun _ => Guarded.raiseIf_bind fun _ =>
      Guarded.raiseIf_bind fun _ => Guarded.raiseIf_bind fun _ => Guarded.raiseIf_bind fun _ =>
      Guarded.raiseIf_bind fun _ =>
      Guarded.of_ok (R := (· = sk.batchAdded tmp)) (run_writeBatch sk tmp h0) rfl).imp ?_
      fun _ _ h => h)
    have hcount : tmp.count = u.count := hu.count
    have hzero : tmp.zeroCount = u.zeroCount := hu.zeroCount
    have hpos : Tallies tmp.pos u.positive := hu.positive
    have hneg : Tallies tmp.neg u.negative := hu.negative
    rw [card_combinedKeys h.positive hpos, card_combinedKeys h.negative hneg,
      not_anyBinOverflows_iff h.positive hpos hf.positive_le,
      not_anyBinOverflows_iff h.negative hneg hf.negative_le, h.count, h.zeroCount,
      hcount, hzero, maxBins]
    -- the remaining conjuncts are the limits of `Fits`, one by one
    constructor
    · rintro ⟨hp, hn, hc, hz, hpb, hnb, -⟩
      exact ⟨by simpa using hp, by simpa using hn, hpb, hnb, by simp; omega, by simp; omega⟩
    · intro hfits
      have hc := hfits.count_le
      have hz := hfits.zeroCount_le
      simp only [Tally.count_add, Tally.add_zeroCount] at hc hz
      exact ⟨by simpa using hfits.positive_card, by simpa using hfits.negative_card, by omega,
        by omega, hfits.positive_le, hfits.negative_le, trivial⟩

end Commit

/-- **`add_batch` is guarded addition of its finite values.** -/
theorem addBatch_guarded {M : IndexMapping} {sk : DDSketch} {t : Tally} (h : sk.Represents t)
    (hf : t.Fits) (values : List PyFloat) :
    Guarded (addBatch M values) sk
      (BatchValid M sk.alpha values ∧ (t + batchTally M sk.alpha values).Fits)
      (fun sk' => sk'.alpha = sk.alpha ∧ sk'.Represents (t + batchTally M sk.alpha values)) := by
  have hstart : (Batch.toSketch sk.alpha {}).Represents 0 := represents_empty sk.alpha
  unfold addBatch
  refine Guarded.get_bind ?_
  rcases foldlM_batchStep M sk.alpha values {} 0 hstart with ⟨hv, tmp, hok, hu⟩ | ⟨hv, e, herr⟩
  · rw [zero_add] at hu
    rw [hok]
    refine (commitBatch_guarded h hf hu).imp ⟨fun hfit => ⟨hv, hfit⟩, fun hn => hn.2⟩ ?_
    rintro sk' - rfl
    refine ⟨?_, h.batchAdded hu⟩
    unfold DDSketch.batchAdded
    split <;> rfl
  · rw [herr]
    exact .reject (fun hn => hv hn.1) e rfl

end DDSketch

end Sketchlog
