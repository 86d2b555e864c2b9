import Sketchlog.Python.Document
import Sketchlog.Spec.Buckets
import Sketchlog.Refine.PythonStreamLog

/-!
# What `from_dict` accepts: the latency part

The latency part of `from_dict` accepts exactly the documents of well-formed sketches: what it
returns is well formed (`readLatency_sound`), and it returns a well-formed sketch from the sketch's
own document (`readLatency_complete`). The bucket keys of a document may be ints or their decimal
strings; completeness holds for every encoding `enc` of keys that `bucketIndex` inverts.

The eleven checks of the extrema against the buckets say one thing: the extrema lie in the extreme
buckets, in the order of values (`extremaMatch_iff`).
-/

namespace Sketchlog

open Checked CountMap Bucket Tally

/-! ## Reads

Each primitive reader succeeds on exactly one kind of value. These equivalences are what the proofs
below take the parts of `read_latency` apart with. -/

theorem intIn_eq_ok {lo hi n : ℤ} {e : PyError} {v : PyVal} :
    intIn lo hi e v = .ok n ↔ v = .int n ∧ lo ≤ n ∧ n ≤ hi := by
  cases v with
  | int m =>
    simp only [intIn, ite_ok_eq_ok, PyVal.int.injEq]
    constructor
    · rintro ⟨hr, rfl⟩
      exact ⟨rfl, hr⟩
    · rintro ⟨rfl, hr⟩
      exact ⟨hr, rfl⟩
  | _ => simp [intIn]

theorem intFrom_eq_ok {lo n : ℤ} {e : PyError} {v : PyVal} :
    intFrom lo e v = .ok n ↔ v = .int n ∧ lo ≤ n := by
  cases v with
  | int m =>
    simp only [intFrom, ite_ok_eq_ok, PyVal.int.injEq]
    constructor
    · rintro ⟨hr, rfl⟩
      exact ⟨rfl, hr⟩
    · rintro ⟨rfl, hr⟩
      exact ⟨hr, rfl⟩
  | _ => simp [intFrom]

theorem asDict_eq_ok {e : PyError} {v : PyVal} {d : Items} : asDict e v = .ok d ↔ v = .dict d := by
  cases v <;> simp [asDict]

theorem asList_eq_ok {e : PyError} {v : PyVal} {xs : List PyVal} :
    asList e v = .ok xs ↔ v = .list xs := by
  cases v <;> simp [asList]

theorem readAlpha_eq_ok {v : PyVal} {x : Binary64} :
    readAlpha v = .ok x ↔ v = .float (.fin x) ∧ 0 < x.val ∧ x.val < 1 := by
  cases v with
  | float y =>
    cases y with
    | fin y =>
      simp only [readAlpha, ite_ok_eq_ok, PyVal.float.injEq, PyFloat.fin.injEq]
      constructor
      · rintro ⟨hr, rfl⟩
        exact ⟨rfl, hr⟩
      · rintro ⟨rfl, hr⟩
        exact ⟨hr, rfl⟩
    | _ => simp [readAlpha]
  | _ => simp [readAlpha]

theorem mapM_intIn {lo hi : ℤ} {e : PyError} {xs : List PyVal} {vs : List ℤ} :
    xs.mapM (intIn lo hi e) = .ok vs
      ↔ xs = vs.map .int ∧ ∀ v ∈ vs, lo ≤ v ∧ v ≤ hi :=
  mapM_eq_ok_of_iff fun _ _ => intIn_eq_ok

/-! ## Buckets

A list of bins that passes the validation is the store that they tally, with counters in range; and
the bins of such a store pass. -/

theorem validateBucket_eq_ok {minIdx maxIdx : ℤ} {res res' : Bins} {kv : PyKey × PyVal} :
    validateBucket minIdx maxIdx res kv = .ok res' ↔ ∃ ik v, bucketIndex kv.1 = .ok ik ∧ ik ∉ res
      ∧ kv.2 = .int v ∧ (1 ≤ v ∧ v ≤ maxInt64) ∧ (minIdx ≤ ik ∧ ik ≤ maxIdx)
      ∧ res' = res.insert ik v := by
  unfold validateBucket
  simp only [bind_eq_ok, failIf_eq_ok, exists_unit, intIn_eq_ok]
  constructor
  · rintro ⟨ik, hik, hnew, v, ⟨hv, hr⟩, hidx, hres⟩
    cases hres
    exact ⟨ik, v, hik, hnew, hv, hr, by omega, rfl⟩
  · rintro ⟨ik, v, hik, hnew, hv, hr, hidx, rfl⟩
    exact ⟨ik, hik, hnew, v, ⟨hv, hr⟩, by omega, rfl⟩

/-- Every entry of a validated dictionary has a positive count and an index in range: each step of
the loop adds one such entry. -/
theorem foldlM_validateBucket_sound {minIdx maxIdx : ℤ} (items : Items) {res res' : Bins}
    (h : items.foldlM (validateBucket minIdx maxIdx) res = .ok res')
    (hres : ∀ (k v : ℤ), res[k]? = some v → (1 ≤ v ∧ v ≤ maxInt64) ∧ minIdx ≤ k ∧ k ≤ maxIdx) :
    ∀ (k v : ℤ), res'[k]? = some v → (1 ≤ v ∧ v ≤ maxInt64) ∧ minIdx ≤ k ∧ k ≤ maxIdx := by
  induction items generalizing res with
  | nil =>
    cases h
    exact hres
  | cons kv items ih =>
    rw [List.foldlM_cons, bind_eq_ok] at h
    obtain ⟨next, hstep, hrest⟩ := h
    obtain ⟨ik, v, -, -, -, hv, hidx, rfl⟩ := validateBucket_eq_ok.mp hstep
    refine ih hrest fun k w hw => ?_
    rw [Std.ExtTreeMap.getElem?_insert] at hw
    split at hw
    · next heq =>
      obtain rfl : ik = k := by simpa using heq
      cases hw
      exact ⟨hv, hidx⟩
    · exact hres k w hw

theorem validateBuckets_sound {minIdx maxIdx : ℤ} {items : Items} {res : Bins}
    (h : validateBuckets minIdx maxIdx items = .ok res) :
    ∃ f : ℤ →₀ ℕ, Tallies res f ∧ (∀ k, f k ≤ maxInt64)
      ∧ ∀ k, f k ≠ 0 → minIdx ≤ k ∧ k ≤ maxIdx := by
  have hall := foldlM_validateBucket_sound items h (by simp)
  obtain ⟨f, hf⟩ := exists_tallies (m := res) fun k v hv => (hall k v hv).1.1
  refine ⟨f, hf, fun k => ?_, fun k hk => ?_⟩
  · by_cases hk : f k = 0
    · omega
    · have hget := hf k
      rw [if_neg hk] at hget
      have := (hall k _ hget).1.2
      omega
  · have hget := hf k
    rw [if_neg hk] at hget
    exact (hall k _ hget).2

/-- The loop rebuilds a dictionary from its entries, under any encoding of the keys. -/
theorem foldlM_validateBucket_complete {minIdx maxIdx : ℤ} {enc : ℤ → PyKey}
    (henc : ∀ k, bucketIndex (enc k) = .ok k) (l : List (ℤ × ℤ))
    (hdistinct : l.Pairwise fun a b => a.1 ≠ b.1)
    (hl : ∀ e ∈ l, (1 ≤ e.2 ∧ e.2 ≤ maxInt64) ∧ minIdx ≤ e.1 ∧ e.1 ≤ maxIdx) (res : Bins)
    (hres : ∀ e ∈ l, e.1 ∉ res) :
    (l.map fun e => (enc e.1, PyVal.int e.2)).foldlM (validateBucket minIdx maxIdx) res
      = .ok (l.foldl (fun acc e => acc.insert e.1 e.2) res) := by
  induction l generalizing res with
  | nil => rfl
  | cons e l ih =>
    obtain ⟨hhead, htail⟩ := List.pairwise_cons.mp hdistinct
    rw [List.forall_mem_cons] at hl hres
    have hstep : validateBucket minIdx maxIdx res (enc e.1, .int e.2) = .ok (res.insert e.1 e.2) :=
      validateBucket_eq_ok.mpr ⟨e.1, e.2, henc e.1, hres.1, rfl, hl.1.1, hl.1.2, rfl⟩
    rw [List.map_cons, List.foldlM_cons, hstep]
    refine ih htail hl.2 _ fun e' he' => ?_
    rw [Std.ExtTreeMap.mem_insert]
    rintro (heq | hmem)
    · exact hhead e' he' (by simpa using heq)
    · exact hres.2 e' he' hmem

theorem validateBuckets_complete {minIdx maxIdx : ℤ} {enc : ℤ → PyKey}
    (henc : ∀ k, bucketIndex (enc k) = .ok k) {m : Bins} {f : ℤ →₀ ℕ} (hm : Tallies m f)
    (hf : ∀ k, f k ≤ maxInt64) (hrange : ∀ k, f k ≠ 0 → minIdx ≤ k ∧ k ≤ maxIdx) :
    validateBuckets minIdx maxIdx (m.toList.map fun e => (enc e.1, PyVal.int e.2)) = .ok m := by
  have hdistinct : m.toList.Pairwise fun a b => a.1 ≠ b.1 :=
    Std.ExtTreeMap.distinct_keys_toList.imp fun h heq => h (by simpa using heq)
  unfold validateBuckets
  rw [foldlM_validateBucket_complete henc m.toList hdistinct ?_ ∅ (by simp), foldl_insert_toList]
  rintro ⟨k, v⟩ he
  obtain ⟨hk, rfl⟩ := hm.mem_toList_iff.mp he
  have := hf k
  exact ⟨⟨by omega, by omega⟩, hrange k hk⟩

theorem bucketIndex_int (k : ℤ) : bucketIndex (.int k) = .ok k := rfl

theorem bucketIndex_str (k : ℤ) : bucketIndex (.str (toString k)) = .ok k := by
  have hparse : (toString k).toInt? = some k := Int.toInt?_repr k
  simp only [bucketIndex, hparse, if_true]

/-! ## Extrema

The checks on the minimum and the maximum of a document. `ExtremaMatch` states them for the two
occupied buckets at the ends, and `checkExtrema_eq_ok_match` shows that the code checks just that. -/

section Extrema

variable {M : IndexMapping} {alpha : ℚ} {positive negative : Bins} {t : Tally}

theorem isEmpty_eq_false_iff {m : Bins} {f : ℤ →₀ ℕ} (h : Tallies m f) :
    m.isEmpty = false ↔ ∃ k, f k ≠ 0 := by
  rw [← Bool.not_eq_true, h.isEmpty_iff, Finsupp.ext_iff]
  simp

/-- What the checks establish, before it is put in the order of values. -/
structure ExtremaMatch (M : IndexMapping) (alpha : ℚ) (t : Tally) (lo hi : ℚ) : Prop where
  le : lo ≤ hi
  positive_max : (∃ k, t.positive k ≠ 0) → 0 < hi ∧ IsGreatest {k | t.positive k ≠ 0} (M.key alpha hi)
  positive_min : (∃ k, t.positive k ≠ 0) → 0 < lo → IsLeast {k | t.positive k ≠ 0} (M.key alpha lo)
  negative_max : (∃ k, t.negative k ≠ 0)
    → lo < 0 ∧ IsGreatest {k | t.negative k ≠ 0} (M.key alpha (-lo))
  negative_min : (∃ k, t.negative k ≠ 0) → hi < 0
    → IsLeast {k | t.negative k ≠ 0} (M.key alpha (-hi))
  zero : t.zeroCount ≠ 0 → lo ≤ 0 ∧ 0 ≤ hi
  hi_pos : 0 < hi → ∃ k, t.positive k ≠ 0
  lo_neg : lo < 0 → ∃ k, t.negative k ≠ 0
  hi_zero : hi = 0 → t.zeroCount ≠ 0
  lo_zero : lo = 0 → t.zeroCount ≠ 0

theorem checkPositive_eq_ok {f : ℤ →₀ ℕ} {u : Unit} (hp : Tallies positive f) (lo hi : ℚ) :
    checkPositive M alpha positive lo hi = .ok u ↔ ((∃ k, f k ≠ 0) →
      0 < hi ∧ IsGreatest {k | f k ≠ 0} (M.key alpha hi)
        ∧ (0 < lo → IsLeast {k | f k ≠ 0} (M.key alpha lo))) := by
  have hempty := isEmpty_eq_false_iff hp
  unfold checkPositive
  split
  · next h =>
    have hnone : ¬ ∃ k, f k ≠ 0 := fun hk => by simp [hempty.mpr hk] at h
    simp [hnone]
  · next h =>
    have hsome : ∃ k, f k ≠ 0 := hempty.mp (by simpa using h)
    simp only [bind_eq_ok, failIf_eq_ok, exists_unit, hsome, forall_const]
    rw [not_le, not_not, hp.maxKey?_eq_some_iff, not_and, not_not, hp.minKey?_eq_some_iff]

theorem checkNegative_eq_ok {f : ℤ →₀ ℕ} {u : Unit} (hn : Tallies negative f) (lo hi : ℚ) :
    checkNegative M alpha negative lo hi = .ok u ↔ ((∃ k, f k ≠ 0) →
      lo < 0 ∧ IsGreatest {k | f k ≠ 0} (M.key alpha (-lo))
        ∧ (hi < 0 → IsLeast {k | f k ≠ 0} (M.key alpha (-hi)))) := by
  have hempty := isEmpty_eq_false_iff hn
  unfold checkNegative
  split
  · next h =>
    have hnone : ¬ ∃ k, f k ≠ 0 := fun hk => by simp [hempty.mpr hk] at h
    simp [hnone]
  · next h =>
    have hsome : ∃ k, f k ≠ 0 := hempty.mp (by simpa using h)
    simp only [bind_eq_ok, failIf_eq_ok, exists_unit, hsome, forall_const]
    rw [ge_iff_le, not_le, not_not, hn.maxKey?_eq_some_iff, not_and, not_not,
      hn.minKey?_eq_some_iff]

theorem checkExtrema_eq_ok_match {zeroCount : ℤ} {u : Unit} (hp : Tallies positive t.positive)
    (hn : Tallies negative t.negative) (hz : zeroCount = t.zeroCount) (lo hi : ℚ) :
    checkExtrema M alpha positive negative zeroCount lo hi = .ok u
      ↔ ExtremaMatch M alpha t lo hi := by
  have hpos : positive.isEmpty = true ↔ ¬ ∃ k, t.positive k ≠ 0 := by
    rw [← isEmpty_eq_false_iff hp, Bool.not_eq_false]
  have hneg : negative.isEmpty = true ↔ ¬ ∃ k, t.negative k ≠ 0 := by
    rw [← isEmpty_eq_false_iff hn, Bool.not_eq_false]
  -- after this the two sides have the same conjuncts, one for each check of the source
  unfold checkExtrema
  simp only [bind_eq_ok, failIf_eq_ok, exists_unit, checkPositive_eq_ok hp,
    checkNegative_eq_ok hn, hpos, hneg, hz]
  constructor
  · rintro ⟨hle, hpc, hnc, hzc, hhi, hlo, hhi0, hlo0⟩
    exact
      { le := not_lt.mp hle
        positive_max := fun h => ⟨(hpc h).1, (hpc h).2.1⟩
        positive_min := fun h => (hpc h).2.2
        negative_max := fun h => ⟨(hnc h).1, (hnc h).2.1⟩
        negative_min := fun h => (hnc h).2.2
        zero := fun h => by
          have hnot : ¬ (lo > 0 ∨ hi < 0) := fun hn => hzc ⟨by omega, hn⟩
          push Not at hnot
          exact hnot
        hi_pos := fun h => by_contra fun hno => hhi ⟨hno, h⟩
        lo_neg := fun h => by_contra fun hno => hlo ⟨hno, h⟩
        hi_zero := fun h h0 => hhi0 ⟨h, by omega⟩
        lo_zero := fun h h0 => hlo0 ⟨h, by omega⟩ }
  · intro h
    refine ⟨not_lt.mpr h.le, fun hk => ⟨(h.positive_max hk).1, (h.positive_max hk).2,
      h.positive_min hk⟩, fun hk => ⟨(h.negative_max hk).1, (h.negative_max hk).2,
      h.negative_min hk⟩, ?_, fun hn => hn.1 (h.hi_pos hn.2), fun hn => hn.1 (h.lo_neg hn.2), ?_, ?_⟩
    · rintro ⟨hpos0, hn⟩
      have hz0 := h.zero (by omega)
      rcases hn with hn | hn
      · exact absurd hz0.1 (not_le.mpr hn)
      · exact absurd hz0.2 (not_le.mpr hn)
    · rintro ⟨h0, hz0⟩
      exact h.hi_zero h0 (by omega)
    · rintro ⟨h0, hz0⟩
      exact h.lo_zero h0 (by omega)

/-- In the order of values, the checks say that the extrema lie in the extreme buckets. -/
theorem extremaMatch_iff {lo hi : ℚ} :
    ExtremaMatch M alpha t lo hi ↔ lo ≤ hi ∧ IsLeast t.occupied (bucketOf M alpha lo)
      ∧ IsGreatest t.occupied (bucketOf M alpha hi) := by
  constructor
  · intro h
    refine ⟨h.le, ?_, ?_⟩
    · -- the sign of `lo` decides which bucket is the first
      rcases lt_trichotomy lo 0 with hlo | hlo | hlo
      · obtain ⟨hmem, hub⟩ := (h.negative_max (h.lo_neg hlo)).2
        rw [bucketOf_neg hlo]
        refine ⟨hmem, ?_⟩
        rintro (i | _ | i) hi'
        · exact negative_le_negative.mpr (hub hi')
        · exact (negative_lt_zero _).le
        · exact (negative_lt_positive _ _).le
      · subst hlo
        rw [bucketOf_zero]
        refine ⟨h.lo_zero rfl, ?_⟩
        rintro (i | _ | i) hi'
        · exact absurd (h.negative_max ⟨i, hi'⟩).1 (lt_irrefl _)
        · exact le_rfl
        · exact (zero_lt_positive _).le
      · obtain ⟨hmem, hlb⟩ := h.positive_min (h.hi_pos (lt_of_lt_of_le hlo h.le)) hlo
        rw [bucketOf_pos hlo]
        refine ⟨hmem, ?_⟩
        rintro (i | _ | i) hi'
        · exact absurd (h.negative_max ⟨i, hi'⟩).1 (lt_asymm hlo)
        · exact absurd (h.zero hi').1 (not_le.mpr hlo)
        · exact positive_le_positive.mpr (hlb hi')
    · rcases lt_trichotomy hi 0 with hhi | hhi | hhi
      · obtain ⟨hmem, hlb⟩ := h.negative_min (h.lo_neg (lt_of_le_of_lt h.le hhi)) hhi
        rw [bucketOf_neg hhi]
        refine ⟨hmem, ?_⟩
        rintro (i | _ | i) hi'
        · exact negative_le_negative.mpr (hlb hi')
        · exact absurd (h.zero hi').2 (not_le.mpr hhi)
        · exact absurd (h.positive_max ⟨i, hi'⟩).1 (lt_asymm hhi)
      · subst hhi
        rw [bucketOf_zero]
        refine ⟨h.hi_zero rfl, ?_⟩
        rintro (i | _ | i) hi'
        · exact (negative_lt_zero _).le
        · exact le_rfl
        · exact absurd (h.positive_max ⟨i, hi'⟩).1 (lt_irrefl _)
      · obtain ⟨hmem, hub⟩ := (h.positive_max (h.hi_pos hhi)).2
        rw [bucketOf_pos hhi]
        refine ⟨hmem, ?_⟩
        rintro (i | _ | i) hi'
        · exact (negative_lt_positive _ _).le
        · exact (zero_lt_positive _).le
        · exact positive_le_positive.mpr (hub hi')
  · rintro ⟨hle, hleast, hgreatest⟩
    -- an occupied bucket of either sign forces the sign of the extremum beyond it
    have hpos_hi : ∀ k, t.positive k ≠ 0 → 0 < hi := by
      intro k hk
      by_contra hhi
      have hub : Bucket.positive k ≤ bucketOf M alpha hi := hgreatest.2 hk
      have hle0 : bucketOf M alpha hi ≤ .zero := bucketOf_le_zero (not_lt.mp hhi)
      exact absurd (zero_lt_positive k) (not_lt.mpr (hub.trans hle0))
    have hneg_lo : ∀ k, t.negative k ≠ 0 → lo < 0 := by
      intro k hk
      by_contra hlo
      have hlb : bucketOf M alpha lo ≤ .negative k := hleast.2 hk
      have hge0 : .zero ≤ bucketOf M alpha lo := zero_le_bucketOf (not_lt.mp hlo)
      exact absurd (negative_lt_zero k) (not_lt.mpr (hge0.trans hlb))
    refine ⟨hle, ?_, ?_, ?_, ?_, ?_, ?_, ?_, ?_, ?_⟩
    · rintro ⟨k, hk⟩
      have hhi := hpos_hi k hk
      rw [bucketOf_pos hhi] at hgreatest
      exact ⟨hhi, hgreatest.1, fun j hj => positive_le_positive.mp (hgreatest.2 hj)⟩
    · rintro - hlo
      rw [bucketOf_pos hlo] at hleast
      exact ⟨hleast.1, fun j hj => positive_le_positive.mp (hleast.2 hj)⟩
    · rintro ⟨k, hk⟩
      have hlo := hneg_lo k hk
      rw [bucketOf_neg hlo] at hleast
      exact ⟨hlo, hleast.1, fun j hj => negative_le_negative.mp (hleast.2 hj)⟩
    · rintro - hhi
      rw [bucketOf_neg hhi] at hgreatest
      exact ⟨hgreatest.1, fun j hj => negative_le_negative.mp (hgreatest.2 hj)⟩
    · intro hz
      constructor
      · by_contra hlo
        have hlb : bucketOf M alpha lo ≤ .zero := hleast.2 hz
        rw [bucketOf_pos (not_le.mp hlo)] at hlb
        exact absurd (zero_lt_positive _) (not_lt.mpr hlb)
      · by_contra hhi
        have hub : .zero ≤ bucketOf M alpha hi := hgreatest.2 hz
        rw [bucketOf_neg (not_le.mp hhi)] at hub
        exact absurd (negative_lt_zero _) (not_lt.mpr hub)
    · intro hhi
      rw [bucketOf_pos hhi] at hgreatest
      exact ⟨_, hgreatest.1⟩
    · intro hlo
      rw [bucketOf_neg hlo] at hleast
      exact ⟨_, hleast.1⟩
    · rintro rfl
      rw [bucketOf_zero] at hgreatest
      exact hgreatest.1
    · rintro rfl
      rw [bucketOf_zero] at hleast
      exact hleast.1

/-- A finite number of value `q`. -/
structure IsNumber (v : PyVal) (q : ℚ) : Prop where
  isNumber : v.isNumber = true
  isFinite : isFiniteNumber v = .ok true
  value : v.number = q

theorem IsNumber.isPyFinite {v : PyVal} {q : ℚ} (h : IsNumber v q) : IsPyFinite q := by
  obtain ⟨hnum, hfin, rfl⟩ := h
  cases v with
  | int n =>
    simp only [isFiniteNumber, ite_ok_eq_ok] at hfin
    exact .inr ⟨n, rfl, hfin.1⟩
  | float x =>
    cases x with
    | fin x => exact .inl x.isBinary64
    | nan => cases hfin
    | inf b => cases hfin
  | _ => cases hnum

theorem isNumber_ofRat {q : ℚ} (h : IsPyFinite q) : IsNumber (.ofRat q) q := by
  unfold PyVal.ofRat
  split
  · exact ⟨rfl, rfl, rfl⟩
  · next hnot =>
    rcases h with h | ⟨n, rfl, hn⟩
    · exact absurd h hnot
    · rw [Rat.num_intCast]
      exact ⟨rfl, by rw [isFiniteNumber, if_pos hn], rfl⟩

theorem checkFinite_eq_ok {a b : PyVal} {u : Unit} :
    checkFinite a b = .ok u ↔ isFiniteNumber a = .ok true ∧ isFiniteNumber b = .ok true := by
  simp only [checkFinite, bind_eq_ok, failIf_eq_ok, Bool.not_eq_false]
  constructor
  · rintro ⟨_, ha, _, rfl, _, hb, rfl⟩
    exact ⟨ha, hb⟩
  · rintro ⟨ha, hb⟩
    exact ⟨true, ha, (), rfl, true, hb, rfl⟩

theorem readExtrema_eq_ok {zeroCount : ℤ} (hp : Tallies positive t.positive)
    (hn : Tallies negative t.negative) (hz : zeroCount = t.zeroCount) {a b : PyVal} {r : ERat × ERat} :
    readExtrema M alpha positive negative zeroCount a b = .ok r ↔ ∃ lo hi, IsNumber a lo
      ∧ IsNumber b hi ∧ ExtremaMatch M alpha t lo hi ∧ r = ((lo : ERat), (hi : ERat)) := by
  simp only [readExtrema, bind_eq_ok, failIf_eq_ok, exists_unit, checkFinite_eq_ok,
    checkExtrema_eq_ok_match hp hn hz, Except.ok.injEq]
  constructor
  · rintro ⟨-, hnum, ⟨hfa, hfb⟩, hmatch, rfl⟩
    rw [not_or, Bool.not_eq_false, Bool.not_eq_false] at hnum
    exact ⟨a.number, b.number, ⟨hnum.1, hfa, rfl⟩, ⟨hnum.2, hfb, rfl⟩, hmatch, rfl⟩
  · rintro ⟨lo, hi, ⟨hna, hfa, rfl⟩, ⟨hnb, hfb, rfl⟩, hmatch, rfl⟩
    have hnone : ∀ v : PyVal, v.isNumber = true → ¬ v.isNone = true := by
      intro v hv
      cases v with
      | none => cases hv
      | _ => simp [PyVal.isNone]
    exact ⟨not_or.mpr ⟨hnone a hna, hnone b hnb⟩, by simp [hna, hnb], ⟨hfa, hfb⟩, hmatch, rfl⟩

end Extrema

/-! ## Latency

Soundness and completeness of the reader: what it accepts represents a coherent tally that fits, and
the document of such a tally is accepted. -/

section Latency

variable {M : IndexMapping}

theorem item_eq_ok {d : Items} {name : String} {v : PyVal} :
    d.item name = .ok v ↔ d.lookup (.str name) = some v := by
  unfold Items.item
  split
  · next h => rw [h]; simp
  · next h => rw [h]; simp

theorem sumValues_eq {m : Bins} {f : ℤ →₀ ℕ} (h : Tallies m f) : sumValues m = f.degree :=
  h.sum_values

/-- What `from_dict` restores a latency sketch to is well formed. -/
theorem readLatency_sound {d : Items} {x : Binary64} {sk : DDSketch}
    (h : readLatency M d = .ok (x, sk)) : sk.alpha = x.val ∧ 0 < x.val ∧ x.val < 1
      ∧ ∃ t, sk.Represents t ∧ t.Fits ∧ Coherent M sk.alpha t := by
  simp only [readLatency, bind_eq_ok, failIf_eq_ok, exists_unit, item_eq_ok, readAlpha_eq_ok,
    intIn_eq_ok, asDict_eq_ok] at h
  obtain ⟨-, -, x', ⟨rfl, hpos, hlt⟩, -, -, -, -, zc, ⟨rfl, hz0, hz⟩, c, ⟨rfl, hc0, hc⟩, pd, -, nd,
    -, -,
    positive, hp, negative, hn, hpcard, hncard, hsum, h⟩ := h
  obtain ⟨f, hf, hfle, hfr⟩ := validateBuckets_sound hp
  obtain ⟨g, hg, hgle, hgr⟩ := validateBuckets_sound hn
  rw [not_not, sumValues_eq hf, sumValues_eq hg] at hsum
  rw [hf.size_eq, not_lt] at hpcard
  rw [hg.size_eq, not_lt] at hncard
  obtain ⟨z, rfl⟩ := Int.eq_ofNat_of_zero_le hz0
  -- the tally of the document, once its extrema are known
  have hfits : ∀ t : Tally, t.positive = f → t.negative = g → t.zeroCount = z → t.Fits := by
    rintro t rfl rfl rfl
    exact ⟨hpcard, hncard, hfle, hgle, by omega, by unfold Tally.count; omega⟩
  have hcount : ∀ t : Tally, t.positive = f → t.negative = g → t.zeroCount = z → c = t.count := by
    rintro t rfl rfl rfl
    unfold Tally.count
    omega
  split at h
  · next hcpos =>
    rw [bind_eq_ok] at h
    obtain ⟨⟨lo', hi'⟩, hext, h⟩ := h
    cases h
    have hne : ¬ (f = 0 ∧ g = 0 ∧ z = 0) := by
      rintro ⟨rfl, rfl, rfl⟩
      simp at hsum
      omega
    let t : Tally := ⟨f, g, z, lo', hi', fun h1 h2 h3 => absurd ⟨h1, h2, h3⟩ hne⟩
    obtain ⟨lo, hi, hlo, hhi, hmatch, hr⟩ :=
      (readExtrema_eq_ok (t := t) hf hg rfl).mp hext
    cases hr
    obtain ⟨hle, hleast, hgreatest⟩ := extremaMatch_iff.mp hmatch
    exact ⟨rfl, hpos, hlt, t, ⟨hf, hg, rfl, hcount t rfl rfl rfl, rfl, rfl⟩, hfits t rfl rfl rfl,
      hfr, hgr, fun _ => ⟨lo, hi, rfl, rfl, hle, hlo.isPyFinite, hhi.isPyFinite, hleast, hgreatest⟩⟩
  · next hcpos =>
    simp only [bind_eq_ok, failIf_eq_ok, exists_unit] at h
    obtain ⟨-, h⟩ := h
    cases h
    let t : Tally := ⟨f, g, z, ⊤, ⊥, fun _ _ _ => ⟨rfl, rfl⟩⟩
    have hct := hcount t rfl rfl rfl
    exact ⟨rfl, hpos, hlt, t, ⟨hf, hg, rfl, hct, rfl, rfl⟩, hfits t rfl rfl rfl, hfr, hgr,
      fun hne => absurd (by omega) hne⟩

/-- The entries of a document of the latency sketch `sk`, with bucket keys encoded by `enc`. -/
structure IsLatencyDoc (enc : ℤ → PyKey) (sk : DDSketch) (d : Items) : Prop where
  alpha : d.lookup (.str "alpha") = some (.ofRat sk.alpha)
  positive : d.lookup (.str "positive")
    = some (.dict (sk.positive.toList.map fun e => (enc e.1, .int e.2)))
  negative : d.lookup (.str "negative")
    = some (.dict (sk.negative.toList.map fun e => (enc e.1, .int e.2)))
  zeroCount : d.lookup (.str "zero_count") = some (.int sk.zeroCount)
  count : d.lookup (.str "count") = some (.int sk.count)
  min : d.lookup (.str "min") = some (if sk.count > 0 then .ofERat sk.min else .none)
  max : d.lookup (.str "max") = some (if sk.count > 0 then .ofERat sk.max else .none)

theorem get_of_lookup {d : Items} {name : String} {v : PyVal}
    (h : d.lookup (.str name) = some v) : d.get name = v := by
  rw [Items.get, h]
  rfl

/-- `from_dict` restores a well-formed sketch from its own document. -/
theorem readLatency_complete {enc : ℤ → PyKey} (henc : ∀ k, bucketIndex (enc k) = .ok k)
    {sk : DDSketch} {t : Tally} (h : sk.Represents t) (hf : t.Fits)
    (hc : Coherent M sk.alpha t) (hbin : IsBinary64 sk.alpha) (hge : oneMicro ≤ sk.alpha)
    (hlt : sk.alpha < 1) {d : Items} (hd : IsLatencyDoc enc sk d) :
    readLatency M d = .ok (⟨sk.alpha, hbin⟩, sk) := by
  have hmicro : (2 : ℚ) ^ (-54 : ℤ) < oneMicro := by norm_num [oneMicro]
  have hpos : 0 < sk.alpha := lt_of_lt_of_le (by norm_num [oneMicro]) hge
  have halpha : PyVal.ofRat sk.alpha = .float (.fin ⟨sk.alpha, hbin⟩) := dif_pos hbin
  have hzc := hf.zeroCount_le
  have hcc := hf.count_le
  have hp := validateBuckets_complete henc h.positive hf.positive_le hc.positive_inRange
  have hn := validateBuckets_complete henc h.negative hf.negative_le hc.negative_inRange
  simp only [readLatency, bind_eq_ok, failIf_eq_ok, exists_unit, item_eq_ok, readAlpha_eq_ok,
    intIn_eq_ok, asDict_eq_ok]
  refine ⟨_, hd.alpha, ⟨sk.alpha, hbin⟩, ⟨halpha, hpos, hlt⟩, _, hd.zeroCount, _, hd.count,
    sk.zeroCount, ⟨rfl, by rw [h.zeroCount]; omega, by rw [h.zeroCount]; omega⟩, sk.count,
    ⟨rfl, by rw [h.count]; omega, by rw [h.count]; omega⟩, _, get_of_lookup hd.positive, _,
    get_of_lookup hd.negative, not_le.mpr (lt_of_lt_of_le hmicro hge), sk.positive, hp, sk.negative,
    hn, ?_, ?_, ?_, ?_⟩
  · rw [h.positive.size_eq, not_lt]
    exact hf.positive_card
  · rw [h.negative.size_eq, not_lt]
    exact hf.negative_card
  · rw [not_not, sumValues_eq h.positive, sumValues_eq h.negative, h.count, h.zeroCount, Tally.count]
    push_cast
    rfl
  · rw [get_of_lookup hd.min, get_of_lookup hd.max]
    split
    · next hcpos =>
      -- the extrema of a coherent tally pass every check
      obtain ⟨lo, hi, hex⟩ := hc.extrema (by rw [h.count] at hcpos; omega)
      have hmin : sk.min = ((lo : ℚ) : ERat) := h.min.trans hex.min_eq
      have hmax : sk.max = ((hi : ℚ) : ERat) := h.max.trans hex.max_eq
      rw [bind_eq_ok]
      refine ⟨(sk.min, sk.max), (readExtrema_eq_ok h.positive h.negative h.zeroCount).mpr
        ⟨lo, hi, ?_, ?_, extremaMatch_iff.mpr ⟨hex.le, hex.least, hex.greatest⟩, ?_⟩, rfl⟩
      · rw [hmin]
        exact isNumber_ofRat hex.lo_finite
      · rw [hmax]
        exact isNumber_ofRat hex.hi_finite
      · rw [hmin, hmax]
    · next hcpos =>
      have hc0 : t.count = 0 := by
        rw [h.count] at hcpos
        omega
      obtain ⟨hmin, hmax⟩ := t.extrema_of_count_eq_zero hc0
      simp only [bind_eq_ok, failIf_eq_ok, exists_unit]
      refine ⟨by simp [PyVal.isNone], ?_⟩
      rw [← hmin, ← hmax, ← h.min, ← h.max]

end Latency

end Sketchlog
