import Sketchlog.Lib.BoundedMonoid
import Sketchlog.Cpp.DDSketch
import Sketchlog.Refine.PythonMerge

/-!
# The C++ `DDSketch` implements `Tally`

The C++ sketch keeps the contents of a Python sketch (`toPython`) with three redundant fields per
store, which its bins determine (`DenseStore.ofBins`), and `0.0` for the extrema while it is empty.
Its checks come in another order and its arithmetic wraps, but within the limits no expression does:
`add`, `add_batch` and `merge` are the same guarded additions as in Python.
-/

namespace Sketchlog.Cpp

open Imperative CountMap

/-! ## Stores

A dense store that fits behaves like the dictionary of its bins: the same additions, the same
merges, the same refusals. -/

/-- The limits of a store. -/
structure StoreFits (f : ℤ →₀ ℕ) : Prop where
  card : f.support.card ≤ 1024
  le : ∀ k, f k ≤ maxInt64

theorem StoreFits.of_add {f g : ℤ →₀ ℕ} (h : StoreFits (f + g)) : StoreFits f :=
  ⟨(Tally.card_support_le_add f g).trans h.card, fun k => le_trans (by simp) (h.le k)⟩

namespace DenseStore

/-- The store with the bins `b`. -/
def ofBins (b : Bins) : DenseStore := ⟨b, b.minKey?.getD 0, b.maxKey?.getD 0, b.isEmpty⟩

theorem ofBins_empty : ofBins ∅ = init := by
  simp [ofBins, init]

/-- After the first element `min_index` is the least key. -/
theorem minIndex_bump (b : Bins) (index c : ℤ) :
    (if index < (if b.isEmpty then index else b.minKey?.getD 0) then index
      else if b.isEmpty then index else b.minKey?.getD 0) = (bump b index c).minKey?.getD 0 := by
  rw [bump, Std.ExtTreeMap.minKey?_insert, Option.getD_some]
  cases hb : b.isEmpty with
  | true =>
    have hnone : b.minKey? = none := Std.ExtTreeMap.minKey?_eq_none_iff.mpr (by simpa using hb)
    simp [hnone]
  | false =>
    obtain ⟨m, hm⟩ : ∃ m, b.minKey? = some m := by
      refine Option.isSome_iff_exists.mp ?_
      rw [Std.ExtTreeMap.isSome_minKey?_eq_not_isEmpty, hb]
      rfl
    simp only [hm, Option.getD_some, Option.elim_some, Std.isLE_compare, Bool.false_eq_true, if_false]
    split <;> split <;> omega

theorem maxIndex_bump (b : Bins) (index c : ℤ) :
    (if index > (if b.isEmpty then index else b.maxKey?.getD 0) then index
      else if b.isEmpty then index else b.maxKey?.getD 0) = (bump b index c).maxKey?.getD 0 := by
  rw [bump, Std.ExtTreeMap.maxKey?_insert, Option.getD_some]
  cases hb : b.isEmpty with
  | true =>
    have hnone : b.maxKey? = none := Std.ExtTreeMap.maxKey?_eq_none_iff.mpr (by simpa using hb)
    simp [hnone]
  | false =>
    obtain ⟨m, hm⟩ : ∃ m, b.maxKey? = some m := by
      refine Option.isSome_iff_exists.mp ?_
      rw [Std.ExtTreeMap.isSome_maxKey?_eq_not_isEmpty, hb]
      rfl
    simp only [hm, Option.getD_some, Option.elim_some, Std.isLE_compare, Bool.false_eq_true, if_false]
    split <;> split <;> omega

theorem insert_insertIfNew (b : Bins) (index v w : ℤ) :
    (b.insertIfNew index v).insert index w = b.insert index w := by
  refine Std.ExtTreeMap.ext_getElem? fun k => ?_
  rw [Std.ExtTreeMap.getElem?_insert, Std.ExtTreeMap.getElem?_insert,
    Std.ExtTreeMap.getElem?_insertIfNew]
  split
  · rfl
  · next h => simp [h]

theorem getD_insertIfNew_zero (b : Bins) (index : ℤ) :
    (b.insertIfNew index 0).getD index 0 = b.getD index 0 := by
  rw [Std.ExtTreeMap.getD_insertIfNew]
  by_cases h : index ∈ b
  · simp [h]
  · simp [h, Std.ExtTreeMap.getD_eq_fallback]

theorem run_add_ofBins (b : Bins) (index c : ℤ) (hfit : (ofBins b).canFit index)
    (hroom : ¬ i64 (maxInt64 - b.getD index 0) < c)
    (hsum : i64 (b.getD index 0 + c) = b.getD index 0 + c) :
    (add index c).run (ofBins b) = .ok () (ofBins (bump b index c)) := by
  have hroom' : ¬ i64 (maxInt64 - (b.insertIfNew index 0).getD index 0) < c := by
    rwa [getD_insertIfNew_zero]
  have hbins : (b.insertIfNew index 0).insert index (i64 ((b.insertIfNew index 0).getD index 0 + c))
      = bump b index c := by
    rw [getD_insertIfNew_zero, hsum, insert_insertIfNew, bump]
  have hempty : (bump b index c).isEmpty = false := by simp [bump]
  have hmin := minIndex_bump b index c
  have hmax := maxIndex_bump b index c
  simp only [add, EStateM.run_bind, EStateM.run_get, run_raiseIf, hfit, not_true_eq_false, if_false,
    EStateM.run_modify]
  cases hb : b.isEmpty with
  | true =>
    simp only [ofBins, hb, if_true, hroom', if_false, hbins, lt_irrefl] at hmin hmax ⊢
    rw [← hmin, ← hmax, hempty]
  | false =>
    simp only [ofBins, hb, Bool.false_eq_true, hroom', if_false, hbins, gt_iff_lt] at hmin hmax ⊢
    rw [← hmin, ← hmax, hempty]
    congr 1
    split <;> split <;> rfl

/-- A store takes `c` more values in a bin exactly when the sum fits. -/
theorem add_outcome {b : Bins} {f : ℤ →₀ ℕ} (h : Tallies b f) (hf : StoreFits f) (index : ℤ) {c : ℕ}
    (hc : 0 < c) :
    Outcome (add index c) (ofBins b) (StoreFits (f + Finsupp.single index c))
      (· = ofBins (bump b index c)) := by
  have hget := h.getD_eq index
  have hle := hf.le index
  have hi64 : i64 (maxInt64 - b.getD index 0) = maxInt64 - b.getD index 0 :=
    i64_eq (by omega) (by omega)
  have hcard := card_support_add_single_le_iff (k := index) hc hf.card
  have hbins := forall_add_single_le_iff (k := index) (c := c) hf.le
  have hfit : (ofBins b).canFit index ↔ f index ≠ 0 ∨ f.support.card < 1024 := by
    rw [canFit, ofBins, h.mem_iff, h.size_eq, maxBins]
  by_cases hfit' : (ofBins b).canFit index
  swap
  · refine .reject (fun hs => hfit' (hfit.mpr (hcard.mp hs.card)))
      (.valueError "DDSketch: occupied bucket count exceeds bounded sparse-store capacity")
        (ofBins b) ?_
    simp only [add, EStateM.run_bind, EStateM.run_get, run_raiseIf, hfit', not_false_eq_true, if_true]
  by_cases hroom : i64 (maxInt64 - b.getD index 0) < c
  · -- the entry has been made by then, on what can only be a copy
    have hraise : i64 (maxInt64 - (b.insertIfNew index 0).getD index 0) < c := by
      rwa [getD_insertIfNew_zero]
    have hnot : ¬ StoreFits (f + Finsupp.single index c) := by
      intro hs
      have hsum := hbins.mp hs.le
      rw [hi64] at hroom
      omega
    have herr : ∃ t', (add index c).run (ofBins b)
        = .error (.overflowError "DDSketch: bin count overflow") t' := by
      simp only [add, EStateM.run_bind, EStateM.run_get, run_raiseIf, hfit', not_true_eq_false,
        if_false, EStateM.run_modify]
      cases hb : b.isEmpty with
      | true =>
        simp only [ofBins, hb, if_true, hraise]
        exact ⟨_, rfl⟩
      | false =>
        simp only [ofBins, hb, Bool.false_eq_true, if_false, hraise, if_true]
        exact ⟨_, rfl⟩
    obtain ⟨t', ht'⟩ := herr
    exact .reject hnot _ t' ht'
  · rw [hi64] at hroom
    refine .accept ⟨hcard.mpr (hfit.mp hfit'), hbins.mpr (by omega)⟩ _
      (run_add_ofBins b index c hfit' (by rwa [hi64]) (i64_eq (by omega) (by omega))) rfl

/-- Merging adds every bin of the other store. -/
theorem merge_outcome {b b' : Bins} {f g : ℤ →₀ ℕ} (h : Tallies b f) (h' : Tallies b' g)
    (hf : StoreFits f) :
    Outcome (merge (ofBins b')) (ofBins b) (StoreFits (f + g)) (· = ofBins (addAll b b')) := by
  have hloop : Outcome (b'.toList.forM fun kc => add kc.1 kc.2) (ofBins b) (StoreFits (f + g))
      (fun s => ∃ m, s = ofBins m ∧ Tallies m (f + g)) := by
    have hsum : (b'.toList.map fun kc => Finsupp.single kc.1 kc.2.toNat).sum = g := h'.sum_single
    have hstep : ∀ kc ∈ b'.toList, ∀ (s : DenseStore) (a : ℤ →₀ ℕ),
        (∃ m, s = ofBins m ∧ Tallies m a) → StoreFits a →
        Outcome (add kc.1 kc.2) s (True ∧ StoreFits (a + Finsupp.single kc.1 kc.2.toNat))
          (fun s' => ∃ m, s' = ofBins m ∧ Tallies m (a + Finsupp.single kc.1 kc.2.toNat)) := by
      rintro kc hkc _ a ⟨m, rfl, hm⟩ ha
      have hpos : 0 < kc.2 := h'.toList_pos hkc
      have hcast : ((kc.2.toNat : ℕ) : ℤ) = kc.2 := Int.toNat_of_nonneg hpos.le
      have hadd := add_outcome hm ha kc.1 (c := kc.2.toNat) (by omega)
      have hbump := hm.bump kc.1 (c := kc.2.toNat) (by omega)
      rw [hcast] at hadd hbump
      exact hadd.imp (by simp) fun s _ hs => ⟨_, hs, hbump⟩
    have hrun := BoundedMonoid.forM_outcome (fun s a => ∃ m, s = ofBins m ∧ Tallies m a)
      (fun _ => True) (fun kc : ℤ × ℤ => Finsupp.single kc.1 kc.2.toNat)
      (fun _ _ hs => StoreFits.of_add hs) b'.toList hstep ⟨b, rfl, h⟩ hf
    rw [hsum] at hrun
    exact hrun.imp (by simp) fun _ _ hR => hR
  have hR : ∀ s, (∃ m, s = ofBins m ∧ Tallies m (f + g)) → s = ofBins (addAll b b') := by
    rintro s ⟨m, rfl, hm⟩
    rw [hm.map_eq (h.addAll h')]
  unfold merge
  by_cases hempty : b'.isEmpty = true
  · -- an empty store adds nothing
    have hg : g = 0 := h'.isEmpty_iff.mp hempty
    have hb' : b' = ∅ := h'.eq_empty_iff.mpr hg
    rw [if_pos (show (ofBins b').empty = true from hempty), hg, add_zero]
    refine .accept hf (ofBins b) rfl ?_
    rw [hb']
    rfl
  · rw [if_neg (show ¬ (ofBins b').empty = true from hempty)]
    exact hloop.imp Iff.rfl fun s _ hs => hR s hs

end DenseStore

/-! ## Sketches

`toPython` maps a native sketch to the Python one with the same bins. An operation commutes with the
map, so the refinement of the Python sketch carries over. -/

namespace DDSketch

/-- The Python sketch with the same contents. -/
def toPython (sk : DDSketch) : Sketchlog.DDSketch where
  alpha := sk.alpha.val
  positive := sk.positive.bins
  negative := sk.negative.bins
  zeroCount := sk.zeroCount
  count := sk.count
  min := if sk.count = 0 then ⊤ else (sk.minValue.val : ERat)
  max := if sk.count = 0 then ⊥ else (sk.maxValue.val : ERat)

structure Represents (sk : DDSketch) (t : Tally) : Prop where
  contents : sk.toPython.Represents t
  positive : sk.positive = .ofBins sk.positive.bins
  negative : sk.negative = .ofBins sk.negative.bins
  extrema : sk.count = 0 → sk.minValue = zero ∧ sk.maxValue = zero

variable {M : IndexMapping} {sk other : DDSketch} {s t : Tally}

theorem represents_empty (alpha : Binary64) : (empty alpha).Represents 0 where
  contents := Sketchlog.DDSketch.represents_empty alpha.val
  positive := DenseStore.ofBins_empty.symm
  negative := DenseStore.ofBins_empty.symm
  extrema _ := ⟨rfl, rfl⟩

/-- Two sketches of one accuracy with the same contents are the same. -/
theorem Represents.sketch_eq (h : sk.Represents t) (h' : other.Represents t)
    (halpha : sk.alpha = other.alpha) : sk = other := by
  -- the two have one Python image; the fields that it drops are compared after
  have hpy : sk.toPython = other.toPython :=
    h.contents.sketch_eq h'.contents (congrArg Binary64.val halpha)
  have hpos : sk.positive.bins = other.positive.bins := congrArg Sketchlog.DDSketch.positive hpy
  have hneg : sk.negative.bins = other.negative.bins := congrArg Sketchlog.DDSketch.negative hpy
  have hzero : sk.zeroCount = other.zeroCount := congrArg Sketchlog.DDSketch.zeroCount hpy
  have hcount : sk.count = other.count := congrArg Sketchlog.DDSketch.count hpy
  -- with nothing counted the image forgets the extrema, and both are the initial ones
  have hextrema : sk.minValue = other.minValue ∧ sk.maxValue = other.maxValue := by
    by_cases h0 : sk.count = 0
    · obtain ⟨hmin, hmax⟩ := h.extrema h0
      obtain ⟨hmin', hmax'⟩ := h'.extrema (hcount ▸ h0)
      exact ⟨hmin.trans hmin'.symm, hmax.trans hmax'.symm⟩
    · have h0' : ¬ other.count = 0 := hcount ▸ h0
      have hmin := congrArg Sketchlog.DDSketch.min hpy
      have hmax := congrArg Sketchlog.DDSketch.max hpy
      simp only [toPython, if_neg h0, if_neg h0'] at hmin hmax
      exact ⟨Binary64.ext (WithTop.coe_injective (WithBot.coe_injective hmin)),
        Binary64.ext (WithTop.coe_injective (WithBot.coe_injective hmax))⟩
  have hp : sk.positive = other.positive := by rw [h.positive, h'.positive, hpos]
  have hn : sk.negative = other.negative := by rw [h.negative, h'.negative, hneg]
  obtain ⟨hmin, hmax⟩ := hextrema
  cases sk
  cases other
  simp only at halpha hp hn hzero hcount hmin hmax
  rw [halpha, hp, hn, hzero, hcount, hmin, hmax]

theorem Represents.storeFits_positive (h : t.Fits) : StoreFits t.positive :=
  ⟨h.positive_card, h.positive_le⟩

theorem Represents.storeFits_negative (h : t.Fits) : StoreFits t.negative :=
  ⟨h.negative_card, h.negative_le⟩

/-- The extrema after a value, in the order the branches of `add` take. -/
theorem extrema_add (sk : DDSketch) (v : Binary64) :
    ((if sk.count = 0 then v else if v.val < sk.minValue.val then v else sk.minValue :
      Binary64).val : ERat)
        = Min.min sk.toPython.min v.val
      ∧ ((if sk.count = 0 then v else if v.val > sk.maxValue.val then v else sk.maxValue : Binary64).val
        : ERat) = Max.max sk.toPython.max v.val := by
  by_cases hc : sk.count = 0
  · simp [toPython, hc]
  · have hmin : (if v.val < sk.minValue.val then v else sk.minValue).val
        = Min.min sk.minValue.val v.val := by
      rw [min_comm, min_def_lt]
      split <;> rfl
    have hmax : (if v.val > sk.maxValue.val then v else sk.maxValue).val
        = Max.max sk.maxValue.val v.val := by
      rw [max_def_lt]
      split <;> rfl
    simp only [toPython, hc, if_false]
    rw [hmin, hmax]
    exact ⟨rfl, rfl⟩

theorem canAdd_iff {b : Bins} {f : ℤ →₀ ℕ} (h : Tallies b f) (hf : ∀ k, f k ≤ maxInt64) (index : ℤ)
    {c : ℤ} (hc : c ≤ maxInt64) :
    (DenseStore.ofBins b).canAdd index c ↔ ¬ b.getD index 0 > maxInt64 - c := by
  have hle := hf index
  have hget := h.getD_eq index
  have hindex := h index
  unfold DenseStore.canAdd
  rw [show (DenseStore.ofBins b).bins = b from rfl, hindex, hget]
  split
  · next heq =>
    split at heq
    · next h0 => simp [h0]; omega
    · cases heq
  · next n heq =>
    split at heq
    · cases heq
    · obtain rfl : (f index : ℤ) = n := Option.some.inj heq
      rw [i64_eq (by omega) (by omega)]
      omega

/-- The checks of `add` pass exactly when the value is valid and the sum fits. -/
theorem checkAdd_guarded (h : sk.Represents t) (hf : t.Fits) (v : ℚ) {c : ℕ} (hc : 0 < c) :
    Guarded (checkAdd M sk v c) sk
      (Sketchlog.DDSketch.Valid M sk.alpha.val v ∧ (t + c • Tally.single M sk.alpha.val v).Fits)
      (· = sk) := by
  have hfits := Sketchlog.DDSketch.fits_add_single_iff (M := M) h.contents hf v hc
  have hcount : sk.count = t.count := h.contents.count
  have hcle := hf.count_le
  have hzero : sk.zeroCount = t.zeroCount := h.contents.zeroCount
  have hzle := hf.zeroCount_le
  have hu64 : u64 (maxUInt64 - sk.count) = maxUInt64 - sk.count := u64_eq (by omega) (by omega)
  have hi64 : i64 (maxInt64 - sk.zeroCount) = maxInt64 - sk.zeroCount := i64_eq (by omega) (by omega)
  have hvalid : ¬ (v ≠ 0 ∧ ¬ M.Accurate sk.alpha.val |v|)
    ↔ Sketchlog.DDSketch.Valid M sk.alpha.val v := by
    rw [Sketchlog.DDSketch.Valid]
    tauto
  unfold checkAdd
  rw [hu64, hi64]
  refine (Guarded.raiseIf_bind fun _ => Guarded.raiseIf_bind fun _ => Guarded.raiseIf_bind
    (P := Sketchlog.DDSketch.RoomFor M sk.toPython v c) fun hle => ?_).imp ?_ fun _ _ hR => hR
  · -- past the third check the count is an `int64_t`
    have hn : i64 c = c := i64_eq (by omega) (by omega)
    have hcanAdd := fun (b : Bins) f (hb : Tallies b f) hbf index =>
      canAdd_iff (c := c) hb hbf index (by omega)
    rw [hn]
    rcases lt_trichotomy v 0 with hv | rfl | hv
    · rw [if_neg (not_lt.mpr hv.le), if_pos hv, h.negative]
      refine (Guarded.raiseIf_bind fun _ => Guarded.raiseIf).imp ?_ fun _ _ hR => hR
      rw [not_not, not_not, hcanAdd sk.negative.bins _ h.contents.negative hf.negative_le]
      simp [Sketchlog.DDSketch.roomFor_iff, hv, hv.ne, lt_asymm hv]
      rfl
    · rw [if_neg (lt_irrefl _), if_neg (lt_irrefl _)]
      refine Guarded.raiseIf.imp ?_ fun _ _ hR => hR
      simp [Sketchlog.DDSketch.roomFor_iff]
      show _ ↔ sk.zeroCount ≤ maxInt64 - (c : ℤ)
      omega
    · rw [if_pos hv, h.positive]
      refine (Guarded.raiseIf_bind fun _ => Guarded.raiseIf).imp ?_ fun _ _ hR => hR
      rw [not_not, not_not, hcanAdd sk.positive.bins _ h.contents.positive hf.positive_le]
      simp [Sketchlog.DDSketch.roomFor_iff, hv, hv.ne', lt_asymm hv]
      rfl
  · rw [hvalid, show sk.alpha.val = sk.toPython.alpha from rfl, hfits]
    show _ ↔ _ ∧ _ ∧ ¬ sk.count > maxUInt64 - (c : ℤ) ∧ _
    have hlt : ¬ maxUInt64 - sk.count < c ↔ ¬ sk.count > maxUInt64 - (c : ℤ) := by omega
    rw [hlt]
    tauto

/-- The sketch after the extrema and the count have been written. -/
def counted (sk : DDSketch) (v : Binary64) (c : ℤ) : DDSketch :=
  { sk with
    minValue := if sk.count = 0 then v else if v.val < sk.minValue.val then v else sk.minValue
    maxValue := if sk.count = 0 then v else if v.val > sk.maxValue.val then v else sk.maxValue
    count := sk.count + c }

theorem run_commitAdd (sk : DDSketch) (v : Binary64) {c : ℤ} (hn : i64 c = c)
    (hcount : u64 (sk.count + c) = sk.count + c) :
    (commitAdd M sk.alpha.val v c).run sk
      = (if v.val > 0 then onPositive (DenseStore.add (M.key sk.alpha.val v.val) c)
        else if v.val < 0 then onNegative (DenseStore.add (M.key sk.alpha.val (-v.val)) c)
        else modify fun self => { self with zeroCount := i64 (self.zeroCount + c) }).run
          (counted sk v c) := by
  have hfirst : (if sk.count = 0 then { sk with minValue := v, maxValue := v }
      else { sk with
        minValue := if v.val < sk.minValue.val then v else sk.minValue
        maxValue := if v.val > sk.maxValue.val then v else sk.maxValue } : DDSketch)
      = { counted sk v c with count := sk.count } := by
    unfold counted
    split <;> rfl
  simp only [commitAdd, EStateM.run_bind, EStateM.run_modify, hn, hfirst, hcount]
  rfl

/-- A sketch whose Python counterpart has taken the value holds the sum. -/
theorem Represents.of_toPython_eq (h : sk.Represents t) (v : Binary64) {c : ℕ} (hc : 0 < c)
    {sk' : DDSketch} (heq : sk'.toPython = Sketchlog.DDSketch.added M sk.toPython v.val c)
    (hpos : sk'.positive = .ofBins sk'.positive.bins)
    (hneg : sk'.negative = .ofBins sk'.negative.bins) :
    sk'.Represents (t + c • Tally.single M sk.alpha.val v.val) := by
  refine ⟨heq ▸ h.contents.added v.val hc, hpos, hneg, fun h0 => ?_⟩
  have hcount : sk'.count = sk.count + c := congrArg Sketchlog.DDSketch.count heq
  have hsk : sk.count = t.count := h.contents.count
  omega

/-- The Python counterpart of a counted sketch, bins and zero count aside. -/
theorem toPython_counted (h : sk.Represents t) (v : Binary64) {c : ℕ} (hc : 0 < c) :
    (counted sk v c).toPython
      = { sk.toPython with
          count := sk.count + c
          min := Min.min sk.toPython.min v.val
          max := Max.max sk.toPython.max v.val } := by
  have hsk : sk.count = t.count := h.contents.count
  have hne : ¬ sk.count + (c : ℤ) = 0 := by omega
  obtain ⟨hmin, hmax⟩ := extrema_add sk v
  rw [← hmin, ← hmax]
  simp only [toPython, counted, hne, if_false]

theorem commitAdd_ok (h : sk.Represents t) (hf : t.Fits) (v : Binary64) {c : ℕ} (hc : 0 < c)
    (hsum : (t + c • Tally.single M sk.alpha.val v.val).Fits) :
    ∃ sk', (commitAdd M sk.alpha.val v c).run sk = .ok () sk' ∧ sk'.alpha = sk.alpha
      ∧ sk'.Represents (t + c • Tally.single M sk.alpha.val v.val) := by
  obtain ⟨hcle, -, -⟩ := (Sketchlog.DDSketch.fits_add_single_iff (M := M) h.contents hf v.val hc).mp
    hsum
  have hsk : sk.count = t.count := h.contents.count
  have hzero : sk.zeroCount = t.zeroCount := h.contents.zeroCount
  have hn : i64 c = c := i64_eq (by omega) (by omega)
  have hcount : u64 (sk.count + c) = sk.count + c := by
    have hle := hsum.count_le
    rw [Tally.count_add, Tally.nsmul_count, Tally.count_single] at hle
    exact u64_eq (by omega) (by omega)
  have hpy := toPython_counted h v hc
  rw [run_commitAdd sk v hn hcount]
  rcases lt_trichotomy v.val 0 with hv | hv | hv
  · -- a negative value goes to the store of its magnitude
    have hstore := (DenseStore.add_outcome h.contents.negative (Represents.storeFits_negative hf)
      (M.key sk.alpha.val (-v.val)) hc).run_ok (by
        have hn' := Represents.storeFits_negative hsum
        simpa [(Tally.single_of_neg M sk.alpha.val hv).2.1] using hn')
    obtain ⟨store, hrun, hstore'⟩ := hstore
    rw [if_neg (not_lt.mpr hv.le), if_pos hv]
    refine ⟨{ counted sk v c with negative := store }, ?_, rfl, h.of_toPython_eq v hc ?_ h.positive ?_⟩
    · rw [onNegative, run_zoom, show (counted sk v c).negative
        = .ofBins sk.negative.bins from h.negative,
        show DenseStore.ofBins sk.negative.bins = .ofBins sk.toPython.negative from rfl, hrun]
    · show { (counted sk v c).toPython with negative := store.bins } = _
      rw [hpy, hstore', Sketchlog.DDSketch.added]
      simp only [hv, hv.ne, lt_asymm hv, if_true, if_false]
      rfl
    · rw [hstore']
      rfl
  · rw [if_neg (by rw [hv]; exact lt_irrefl _), if_neg (by rw [hv]; exact lt_irrefl _)]
    have hz : i64 (sk.zeroCount + c) = sk.zeroCount + c := by
      have hle := hsum.zeroCount_le
      rw [hv] at hle
      simp only [Tally.add_zeroCount, Tally.nsmul_zeroCount,
        (Tally.single_zero M sk.alpha.val).2.2] at hle
      exact i64_eq (by omega) (by omega)
    refine ⟨{ counted sk v c with zeroCount := sk.zeroCount + c }, ?_, rfl,
      h.of_toPython_eq v hc ?_ h.positive h.negative⟩
    · rw [EStateM.run_modify, show (counted sk v c).zeroCount = sk.zeroCount from rfl, hz]
    · show { (counted sk v c).toPython with zeroCount := sk.zeroCount + c } = _
      rw [hpy, Sketchlog.DDSketch.added]
      simp only [hv, lt_irrefl, if_true, if_false]
      rfl
  · have hstore := (DenseStore.add_outcome h.contents.positive (Represents.storeFits_positive hf)
      (M.key sk.alpha.val v.val) hc).run_ok (by
        have hp' := Represents.storeFits_positive hsum
        simpa [(Tally.single_of_pos M sk.alpha.val hv).1] using hp')
    obtain ⟨store, hrun, hstore'⟩ := hstore
    rw [if_pos hv]
    refine ⟨{ counted sk v c with positive := store }, ?_, rfl, h.of_toPython_eq v hc ?_ ?_ h.negative⟩
    · rw [onPositive, run_zoom, show (counted sk v c).positive
        = .ofBins sk.positive.bins from h.positive,
        show DenseStore.ofBins sk.positive.bins = .ofBins sk.toPython.positive from rfl, hrun]
    · show { (counted sk v c).toPython with positive := store.bins } = _
      rw [hpy, hstore', Sketchlog.DDSketch.added]
      simp only [hv, hv.ne', lt_asymm hv, if_true, if_false]
      rfl
    · rw [hstore']
      rfl

/-- **`add` of a finite value is guarded addition.** -/
theorem addCount_guarded (h : sk.Represents t) (hf : t.Fits) (v : Binary64) {c : ℕ} (hc : 0 < c) :
    Guarded (addCount M (.fin v) c) sk
      (Sketchlog.DDSketch.Valid M sk.alpha.val v.val
        ∧ (t + c • Tally.single M sk.alpha.val v.val).Fits)
      (fun sk' => sk'.alpha = sk.alpha
        ∧ sk'.Represents (t + c • Tally.single M sk.alpha.val v.val)) := by
  have hc' : ¬ (c : ℤ) = 0 := by omega
  simp only [addCount, hc', if_false]
  refine Guarded.get_bind ((checkAdd_guarded h hf v.val hc).bind_ok fun sk' hP hsk => ?_)
  subst hsk
  exact commitAdd_ok h hf v hc hP.2

theorem add_of_not_finite {value : PyFloat} (hv : value.isFinite = false) :
    add M value = pure () := by
  cases value with
  | nan => rfl
  | inf _ => rfl
  | fin v => cases hv

theorem add_guarded (h : sk.Represents t) (hf : t.Fits) (v : Binary64) :
    Guarded (add M (.fin v)) sk
      (Sketchlog.DDSketch.Valid M sk.alpha.val v.val ∧ (t + Tally.single M sk.alpha.val v.val).Fits)
      (fun sk' => sk'.alpha = sk.alpha ∧ sk'.Represents (t + Tally.single M sk.alpha.val v.val)) := by
  have hadd := addCount_guarded (M := M) h hf v one_pos
  rw [one_nsmul, Nat.cast_one] at hadd
  exact hadd

/-! ### `add_batch` -/

/-- What one value of a batch adds. -/
noncomputable def valueTally (M : IndexMapping) (alpha : ℚ) : PyFloat → Tally
  | .fin v => Tally.single M alpha v.val
  | _ => 0

def ValueValid (M : IndexMapping) (alpha : ℚ) : PyFloat → Prop
  | .fin v => Sketchlog.DDSketch.Valid M alpha v.val
  | _ => True

theorem sum_valueTally (alpha : ℚ) (values : List PyFloat) :
    (values.map (valueTally M alpha)).sum = Sketchlog.DDSketch.batchTally M alpha values := by
  induction values with
  | nil => rfl
  | cons value values ih =>
    rw [List.map_cons, List.sum_cons, ih]
    cases value with
    | nan => exact zero_add _
    | inf b => exact zero_add _
    | fin v => simp [valueTally, Sketchlog.DDSketch.batchTally, Sketchlog.DDSketch.finiteValues]

theorem forall_valueValid_iff (alpha : ℚ) (values : List PyFloat) :
    (∀ value ∈ values, ValueValid M alpha value)
      ↔ Sketchlog.DDSketch.BatchValid M alpha values := by
  induction values with
  | nil => simp [Sketchlog.DDSketch.BatchValid, Sketchlog.DDSketch.finiteValues]
  | cons value values ih =>
    rw [List.forall_mem_cons, ih]
    cases value with
    | nan => exact and_iff_right trivial
    | inf b => exact and_iff_right trivial
    | fin v => simp [ValueValid, Sketchlog.DDSketch.BatchValid, Sketchlog.DDSketch.finiteValues]

theorem addValue_outcome (h : sk.Represents t) (hf : t.Fits) (value : PyFloat) :
    Outcome (add M value) sk
      (ValueValid M sk.alpha.val value ∧ (t + valueTally M sk.alpha.val value).Fits)
      (fun sk' => sk'.alpha = sk.alpha ∧ sk'.Represents (t + valueTally M sk.alpha.val value)) := by
  cases value with
  | nan => exact .accept ⟨trivial, by simpa [valueTally] using hf⟩ sk rfl ⟨rfl, by
      simpa [valueTally] using h⟩
  | inf b => exact .accept ⟨trivial, by simpa [valueTally] using hf⟩ sk rfl ⟨rfl, by
      simpa [valueTally] using h⟩
  | fin v => exact (add_guarded h hf v).outcome

/-- **`add_batch` is guarded addition of its finite values.** -/
theorem addBatch_guarded (h : sk.Represents t) (hf : t.Fits) (values : List PyFloat) :
    Guarded (addBatch M values) sk
      (Sketchlog.DDSketch.BatchValid M sk.alpha.val values
        ∧ (t + Sketchlog.DDSketch.batchTally M sk.alpha.val values).Fits)
      (fun sk' => sk'.alpha = sk.alpha
        ∧ sk'.Represents (t + Sketchlog.DDSketch.batchTally M sk.alpha.val values)) := by
  have hparts : ∀ a b : Tally, (a + b).Fits → a.Fits := fun _ _ hs => hs.of_add
  have hstep : ∀ value ∈ values, ∀ (sk' : DDSketch) (t' : Tally),
      sk'.alpha = sk.alpha ∧ sk'.Represents t' → t'.Fits →
      Outcome (add M value) sk'
        (ValueValid M sk.alpha.val value ∧ (t' + valueTally M sk.alpha.val value).Fits)
        (fun sk'' => sk''.alpha = sk.alpha
          ∧ sk''.Represents (t' + valueTally M sk.alpha.val value)) := by
    rintro value - sk' t' ⟨halpha, hrep⟩ hfits
    rw [← halpha]
    exact addValue_outcome hrep hfits value
  have hloop := BoundedMonoid.forM_outcome
    (fun (sk' : DDSketch) t' => sk'.alpha = sk.alpha ∧ sk'.Represents t')
    (ValueValid M sk.alpha.val) (valueTally M sk.alpha.val) hparts values hstep ⟨rfl, h⟩ hf
  rw [forall_valueValid_iff, sum_valueTally] at hloop
  exact hloop.onCopy

/-! ### `merge` -/

/-- The extrema after a merge. -/
def mergedMin (sk other : DDSketch) : Binary64 :=
  if sk.count = 0 then other.minValue
  else if other.minValue.val < sk.minValue.val then other.minValue else sk.minValue

def mergedMax (sk other : DDSketch) : Binary64 :=
  if sk.count = 0 then other.maxValue
  else if other.maxValue.val > sk.maxValue.val then other.maxValue else sk.maxValue

/-- The sketch `merge` leaves when it completes. -/
def merged (sk other : DDSketch) : DDSketch where
  alpha := sk.alpha
  positive := .ofBins (addAll sk.positive.bins other.positive.bins)
  negative := .ofBins (addAll sk.negative.bins other.negative.bins)
  zeroCount := sk.zeroCount + other.zeroCount
  count := sk.count + other.count
  minValue := mergedMin sk other
  maxValue := mergedMax sk other

theorem toPython_merged (h : sk.Represents s) (h' : other.Represents t) (hne : other.count ≠ 0) :
    (merged sk other).toPython = StreamLog.latencySum sk.toPython other.toPython := by
  have hsk : sk.count = s.count := h.contents.count
  have hother : other.count = t.count := h'.contents.count
  have hsum : ¬ sk.count + other.count = 0 := by omega
  have hpos : other.count > 0 := by omega
  have hmin : ((mergedMin sk other).val : ERat) = Min.min sk.toPython.min other.minValue.val := by
    have hext := (extrema_add sk other.minValue).1
    rwa [mergedMin]
  have hmax : ((mergedMax sk other).val : ERat) = Max.max sk.toPython.max other.maxValue.val := by
    have hext := (extrema_add sk other.maxValue).2
    rwa [mergedMax]
  have hcount : (StreamLog.latencySum sk.toPython other.toPython).min
      = Min.min sk.toPython.min other.minValue.val := by
    simp [StreamLog.latencySum, toPython, hpos, hne]
  have hcount' : (StreamLog.latencySum sk.toPython other.toPython).max
      = Max.max sk.toPython.max other.maxValue.val := by
    simp [StreamLog.latencySum, toPython, hpos, hne]
  refine Sketchlog.DDSketch.ext rfl rfl rfl rfl rfl ?_ ?_
  · rw [hcount, ← hmin]
    exact if_neg hsum
  · rw [hcount', ← hmax]
    exact if_neg hsum

/-- The sketch when only the stores are left to merge. -/
def counters (sk other : DDSketch) : DDSketch :=
  ⟨sk.alpha, sk.positive, sk.negative, sk.zeroCount + other.zeroCount, sk.count + other.count,
    mergedMin sk other, mergedMax sk other⟩

theorem mergeStores_outcome (h : sk.Represents s) (hf : s.Fits) (h' : other.Represents t) :
    Outcome (do onPositive (DenseStore.merge other.positive)
                onNegative (DenseStore.merge other.negative))
      (counters sk other) (StoreFits (s + t).positive ∧ StoreFits (s + t).negative)
      (· = merged sk other) := by
  have hpos := DenseStore.merge_outcome h.contents.positive h'.contents.positive
    (Represents.storeFits_positive hf)
  have hneg := DenseStore.merge_outcome h.contents.negative h'.contents.negative
    (Represents.storeFits_negative hf)
  have hp : DenseStore.ofBins other.toPython.positive = other.positive := h'.positive.symm
  have hn : DenseStore.ofBins other.toPython.negative = other.negative := h'.negative.symm
  have hp' : DenseStore.ofBins sk.toPython.positive = sk.positive := h.positive.symm
  have hn' : DenseStore.ofBins sk.toPython.negative = sk.negative := h.negative.symm
  rw [hp, hp'] at hpos
  rw [hn, hn'] at hneg
  refine (Outcome.zoom (s := counters sk other) hpos).bind fun sk' _ hsk' => ?_
  obtain ⟨store, rfl, rfl⟩ := hsk'
  -- the negative store is merged into a sketch whose positive store has already changed
  have hlast : ∀ mid : DDSketch, mid.negative = sk.negative →
      Outcome (onNegative (DenseStore.merge other.negative)) mid (StoreFits (s + t).negative)
        (· = { mid with
          negative := .ofBins (addAll sk.toPython.negative other.toPython.negative) }) := by
    intro mid hmid
    rw [← hmid] at hneg
    refine (Outcome.zoom hneg).imp Iff.rfl fun sk'' _ hsk'' => ?_
    obtain ⟨store', rfl, rfl⟩ := hsk''
    rfl
  exact hlast _ rfl

theorem mergeInto_outcome (h : sk.Represents s) (hf : s.Fits) (h' : other.Represents t) :
    Outcome (mergeInto sk.count other) sk (s + t).Fits (· = merged sk other) := by
  have hsk : sk.count = s.count := h.contents.count
  have hother : other.count = t.count := h'.contents.count
  have hzero : sk.zeroCount = s.zeroCount := h.contents.zeroCount
  have hzero' : other.zeroCount = t.zeroCount := h'.contents.zeroCount
  have hcle := hf.count_le
  have hzle := hf.zeroCount_le
  have hu64 : u64 (maxUInt64 - sk.count) = maxUInt64 - sk.count := u64_eq (by omega) (by omega)
  have hi64 : i64 (maxInt64 - sk.zeroCount) = maxInt64 - sk.zeroCount := i64_eq (by omega) (by omega)
  unfold mergeInto
  refine (Outcome.get_bind (Outcome.raiseIf_bind fun hcount => Outcome.modify_bind (Outcome.get_bind
    (Outcome.raiseIf_bind fun hz => Outcome.modify_bind (Outcome.modify_bind
      (P := StoreFits (s + t).positive ∧ StoreFits (s + t).negative)
      (R := (· = merged sk other)) ?_))))).imp ?_ fun _ _ hR => hR
  · -- the writes so far have left everything as in the merged sketch, the stores apart
    rw [hu64] at hcount
    have hz' : ¬ i64 (maxInt64 - sk.zeroCount) < other.zeroCount := hz
    rw [hi64] at hz'
    have hsum : u64 (sk.count + other.count) = sk.count + other.count := u64_eq (by omega) (by omega)
    have hzsum : i64 (sk.zeroCount + other.zeroCount) = sk.zeroCount + other.zeroCount :=
      i64_eq (by omega) (by omega)
    have hstores := mergeStores_outcome h hf h'
    have hmid : counters sk other
        = (if sk.count = 0 then
            { sk with
              count := sk.count + other.count, zeroCount := sk.zeroCount + other.zeroCount
              minValue := other.minValue, maxValue := other.maxValue }
          else
            { sk with
              count := sk.count + other.count, zeroCount := sk.zeroCount + other.zeroCount
              minValue := if other.minValue.val < sk.minValue.val then other.minValue else sk.minValue
              maxValue := if other.maxValue.val > sk.maxValue.val then other.maxValue else sk.maxValue }
          : DDSketch) := by
      unfold counters mergedMin mergedMax
      split <;> rfl
    rw [hmid] at hstores
    simp only [hsum, hzsum]
    exact hstores
  · rw [hu64]
    show (¬ maxUInt64 - sk.count < other.count
      ∧ ¬ i64 (maxInt64 - sk.zeroCount) < other.zeroCount ∧ _) ↔ _
    rw [hi64]
    constructor
    · rintro ⟨hcount, hz, hp, hn⟩
      exact
        { positive_card := hp.card
          negative_card := hn.card
          positive_le := hp.le
          negative_le := hn.le
          zeroCount_le := by simp; omega
          count_le := by simp; omega }
    · intro hfits
      have hcount := hfits.count_le
      have hz := hfits.zeroCount_le
      simp only [Tally.count_add, Tally.add_zeroCount] at hcount hz
      exact ⟨by omega, by omega, Represents.storeFits_positive hfits,
        Represents.storeFits_negative hfits⟩

/-- **`merge` of a sketch of the same accuracy is guarded addition of its contents.** -/
theorem merge_guarded (h : sk.Represents s) (hf : s.Fits) (h' : other.Represents t)
    (halpha : sk.alpha = other.alpha) :
    Guarded (merge other) sk (s + t).Fits
      (fun sk' => sk'.alpha = sk.alpha ∧ sk'.Represents (s + t)) := by
  have hother : other.count = t.count := h'.contents.count
  unfold merge
  refine (Guarded.get_bind (Guarded.raiseIf_bind (P := (s + t).Fits) fun _ => ?_)).imp ?_
    fun _ _ hR => hR
  · by_cases h0 : other.count = 0
    · -- an empty sketch adds nothing
      have ht : t = 0 := by
        obtain ⟨hp, hn, hz⟩ := t.count_eq_zero_iff.mp (by omega)
        obtain ⟨hmin, hmax⟩ := t.empty_extrema hp hn hz
        exact Tally.ext hp hn hz hmin hmax
      rw [if_pos h0, ht, add_zero]
      exact .accept hf sk rfl ⟨rfl, h⟩
    · rw [if_neg h0]
      refine (mergeInto_outcome h hf h').onCopy.imp Iff.rfl fun sk' _ hsk' => ?_
      subst hsk'
      refine ⟨rfl, ?_, rfl, rfl, fun hc => ?_⟩
      · rw [toPython_merged h h' h0]
        exact StreamLog.represents_latencySum h.contents h'.contents
      · have hsk : sk.count = s.count := h.contents.count
        have hsum : sk.count + other.count = 0 := hc
        omega
  · rw [halpha]
    simp

theorem merge_of_alpha_ne (hne : sk.alpha.val ≠ other.alpha.val) :
    (merge other).run sk = .error (.valueError "DDSketch::merge: relative_accuracy mismatch") sk := by
  simp only [merge, EStateM.run_bind, EStateM.run_get, run_raiseIf, if_pos hne]

theorem new_eq_ok {relativeAccuracy : PyFloat} {sk : DDSketch} :
    new relativeAccuracy = .ok sk ↔ ∃ x : Binary64, relativeAccuracy = .fin x ∧ oneMicro ≤ x.val
      ∧ x.val < 1 ∧ sk = empty x := by
  cases relativeAccuracy with
  | nan => simp [new]
  | inf b => simp [new]
  | fin x =>
    simp only [new, PyFloat.fin.injEq, exists_eq_left']
    split
    · next h =>
      simp only [reduceCtorEq, false_iff]
      rintro ⟨hge, hlt, -⟩
      rcases h with h | h
      · exact absurd hge (not_le.mpr h)
      · exact absurd hlt (not_lt.mpr h)
    · next h =>
      push Not at h
      simp [h, eq_comm]

end DDSketch

end Sketchlog.Cpp
