import Sketchlog.Refine.PythonReachable

/-!
# The invariant of a log

What every reachable log satisfies, stated on its own fields: the totals agree, every counter is
within its limit, every row of the Count-Min table sums to the event total, no register exceeds the
largest rank, and the extrema lie in the extreme buckets of their sign. Each field of `Invariant` is
read off the contents the log holds (`Sound.invariant`), so one induction over runs serves them all.

The cell checks of `CountMinSketch.add` and of `merge` repeat what the totals already guarantee:
neither raises on a reachable log (`add_no_bucket_overflow`, `merge_no_bucket_overflow`).
-/

namespace Sketchlog

open Imperative Checked CountMap Bucket Tally

/-- `OverflowError("CountMinSketch: bucket counter overflow")`. -/
def bucketOverflow : PyError := .overflowError "CountMinSketch: bucket counter overflow"

namespace StreamLog

/-- The finite extrema `lo` and `hi` of a sketch that is not empty: the bucket of each is the extreme
occupied bucket of its sign. -/
structure ExtremeBins (M : IndexMapping) (l : DDSketch) (lo hi : ℚ) : Prop where
  min_eq : l.min = lo
  max_eq : l.max = hi
  le : lo ≤ hi
  max_pos : 0 < hi → l.positive.maxKey? = some (M.key l.alpha hi)
  max_zero : hi = 0 → l.positive = ∅ ∧ 0 < l.zeroCount
  max_neg : hi < 0 → l.positive = ∅ ∧ l.zeroCount = 0
    ∧ l.negative.minKey? = some (M.key l.alpha (-hi))
  min_neg : lo < 0 → l.negative.maxKey? = some (M.key l.alpha (-lo))
  min_zero : lo = 0 → l.negative = ∅ ∧ 0 < l.zeroCount
  min_pos : 0 < lo → l.negative = ∅ ∧ l.zeroCount = 0
    ∧ l.positive.minKey? = some (M.key l.alpha lo)

structure Invariant (M : IndexMapping) (log : StreamLog) : Prop where
  total_eq : log.total = log.latency.count + log.events.total
  total_le : log.total ≤ maxUInt64
  count_eq : log.latency.count = log.latency.zeroCount + sumValues log.latency.positive
    + sumValues log.latency.negative
  positive_bins : ∀ k n : ℤ, log.latency.positive[k]? = some n → 1 ≤ n ∧ n ≤ maxInt64
  negative_bins : ∀ k n : ℤ, log.latency.negative[k]? = some n → 1 ≤ n ∧ n ≤ maxInt64
  zeroCount : 0 ≤ log.latency.zeroCount ∧ log.latency.zeroCount ≤ maxInt64
  positive_size : log.latency.positive.size ≤ 1024
  negative_size : log.latency.negative.size ≤ 1024
  rows : log.events.table.length = log.events.depth
  row_sum : ∀ row ∈ log.events.table, row.length = log.events.width ∧ (∀ cell ∈ row, 0 ≤ cell)
    ∧ row.sum = log.events.total
  events_total : 0 ≤ log.events.total ∧ log.events.total ≤ maxInt64
  registers : log.uniques.registers.length = 2 ^ log.uniques.p
    ∧ ∀ r ∈ log.uniques.registers, r ≤ 64 - log.uniques.p + 1
  extrema : log.latency.count > 0 → ∃ lo hi, ExtremeBins M log.latency lo hi

variable {M : IndexMapping} {log other : StreamLog} {S : Shape} {c : Contents S}

/-! ## The fields, from the contents

Every conjunct of the invariant is read off the contents that a sound log represents: stores from
the tally, rows from the table, extrema from coherence. -/

theorem bin_range {m : Bins} {f : ℤ →₀ ℕ} (h : Tallies m f) (hf : ∀ k, f k ≤ maxInt64) {k n : ℤ}
    (hk : m[k]? = some n) : 1 ≤ n ∧ n ≤ maxInt64 := by
  rw [h k] at hk
  split at hk
  · cases hk
  · next hne =>
    obtain rfl : (f k : ℤ) = n := Option.some.inj hk
    have hle := hf k
    omega

/-- The checks of `from_dict` on the extrema, read on the bins of the sketch. -/
theorem extremeBins_of_match {l : DDSketch} {t : Tally} (h : l.Represents t) {lo hi : ℚ}
    (hlo : t.min = lo) (hhi : t.max = hi) (hm : ExtremaMatch M l.alpha t lo hi) :
    ExtremeBins M l lo hi := by
  have hnopos : hi ≤ 0 → l.positive = ∅ := by
    intro hle
    refine h.positive.eq_empty_iff.mpr (Finsupp.ext fun k => by_contra fun hk => ?_)
    exact absurd (hm.positive_max ⟨k, hk⟩).1 (not_lt.mpr hle)
  have hnoneg : 0 ≤ lo → l.negative = ∅ := by
    intro hle
    refine h.negative.eq_empty_iff.mpr (Finsupp.ext fun k => by_contra fun hk => ?_)
    exact absurd (hm.negative_max ⟨k, hk⟩).1 (not_lt.mpr hle)
  have hnozero : ¬ (lo ≤ 0 ∧ 0 ≤ hi) → l.zeroCount = 0 := by
    intro hn
    have h0 : t.zeroCount = 0 := by_contra fun hz => hn (hm.zero hz)
    rw [h.zeroCount, h0]
    rfl
  have hzero : t.zeroCount ≠ 0 → 0 < l.zeroCount := by
    intro hne
    rw [h.zeroCount]
    omega
  refine
    { min_eq := h.min.trans hlo
      max_eq := h.max.trans hhi
      le := hm.le
      max_pos := fun hpos => h.positive.maxKey?_eq_some_iff.mpr (hm.positive_max (hm.hi_pos hpos)).2
      max_zero := fun h0 => ⟨hnopos h0.le, hzero (hm.hi_zero h0)⟩
      max_neg := fun hneg => ⟨hnopos hneg.le, hnozero fun hn => absurd hn.2 (not_le.mpr hneg), ?_⟩
      min_neg := fun hneg => h.negative.maxKey?_eq_some_iff.mpr (hm.negative_max (hm.lo_neg hneg)).2
      min_zero := fun h0 => ⟨hnoneg h0.ge, hzero (hm.lo_zero h0)⟩
      min_pos := fun hpos => ⟨hnoneg hpos.le, hnozero fun hn => absurd hn.1 (not_le.mpr hpos), ?_⟩ }
  · -- a negative maximum comes with a smaller minimum, so there are negative bins
    have hlo' := hm.lo_neg (lt_of_le_of_lt hm.le hneg)
    exact h.negative.minKey?_eq_some_iff.mpr (hm.negative_min hlo' hneg)
  · have hhi' := hm.hi_pos (lt_of_lt_of_le hpos hm.le)
    exact h.positive.minKey?_eq_some_iff.mpr (hm.positive_min hhi' hpos)

theorem Sound.invariant (h : log.Sound M c) : Invariant M log := by
  have hlat := h.represents.latency
  have hfits := h.fits
  have htot : log.events.total = c.events.total := by rw [h.represents.events]; rfl
  -- the count is what the three counters sum to
  have hcount : (c.latency.count : ℤ) = c.latency.zeroCount + c.latency.positive.degree
      + c.latency.negative.degree := by
    rw [Tally.count]
    push_cast
    rfl
  refine
    { total_eq := ?_
      total_le := ?_
      count_eq := ?_
      positive_bins := fun k n hk => bin_range hlat.positive hfits.latency.positive_le hk
      negative_bins := fun k n hk => bin_range hlat.negative hfits.latency.negative_le hk
      zeroCount := ?_
      positive_size := ?_
      negative_size := ?_
      rows := ?_
      row_sum := ?_
      events_total := ?_
      registers := ?_
      extrema := ?_ }
  · rw [h.represents.total, hlat.count, htot, Contents.total]
    push_cast
    rfl
  · rw [h.represents.total]
    exact_mod_cast hfits.total_le
  · rw [hlat.count, hcount, hlat.zeroCount, sumValues_eq hlat.positive, sumValues_eq hlat.negative]
  · have hz := hfits.latency.zeroCount_le
    rw [hlat.zeroCount]
    omega
  · rw [hlat.positive.size_eq]
    exact hfits.latency.positive_card
  · rw [hlat.negative.size_eq]
    exact hfits.latency.negative_card
  · -- the rows of the table, each summing to the total
    rw [h.represents.events]
    exact List.length_ofFn
  · intro row hrow
    rw [h.represents.events] at hrow ⊢
    obtain ⟨r, rfl⟩ := List.mem_ofFn.mp hrow
    refine ⟨List.length_ofFn, fun cell hcell => ?_, ?_⟩
    · obtain ⟨j, rfl⟩ := List.mem_ofFn.mp hcell
      exact Int.natCast_nonneg _
    · rw [List.sum_ofFn_natCast, c.events.row_sum]
      rfl
  · have he := hfits.events_le
    rw [htot]
    omega
  · rw [h.represents.uniques]
    refine ⟨List.length_ofFn, fun r hr => ?_⟩
    obtain ⟨i, rfl⟩ := List.mem_ofFn.mp hr
    exact c.uniques.register_le i
  · -- the extrema of a nonempty log lie in its least and its greatest bucket
    intro hpos
    have hne : c.latency.count ≠ 0 := by
      rw [hlat.count] at hpos
      omega
    obtain ⟨lo, hi, hex⟩ := h.coherent.extrema hne
    have hm := extremaMatch_iff.mpr ⟨hex.le, hex.least, hex.greatest⟩
    rw [← h.represents.alpha] at hm
    exact ⟨lo, hi, extremeBins_of_match hlat hex.min_eq hex.max_eq hm⟩

/-! ## The cell checks never raise

The checks on the cells of the table come after the one on its total, and no cell is larger than the
total. So neither `add` nor `merge` raises the error of a cell. -/

theorem add_no_bucket_overflow (h : log.Sound M c) (item : EventKey) (count : ℤ)
    (t : CountMinSketch) :
    (CountMinSketch.add item count).run log.events ≠ .error bucketOverflow t := by
  intro herr
  have hcells : ¬ (CountMinSketch.ofCounts c.events).total > maxInt64 - count → _ :=
    CountMinSketch.cells_fit S.width_pos c.events (CountMinSketch.keyOf item)
  rw [← h.represents.events] at hcells
  simp only [CountMinSketch.add, EStateM.run_bind, run_raiseIf, EStateM.run_get] at herr
  -- every check that comes before the cell check has a text of its own
  by_cases hpos : count ≤ 0
  · simp [hpos, bucketOverflow] at herr
  by_cases hle : count > maxInt64
  · simp [hpos, hle, bucketOverflow] at herr
  by_cases htotal : log.events.total > maxInt64 - count
  · simp [hpos, hle, htotal, bucketOverflow] at herr
  · simp only [if_neg hpos, if_neg hle, if_neg htotal, if_neg (hcells htotal)] at herr
    cases herr

theorem mergeBins_error {m n : Bins} {e : PyError} (h : mergeBins m n = .error e) :
    e = .overflowError "DDSketch: bin count overflow" := by
  unfold mergeBins at h
  generalize n.toList = l at h
  induction l generalizing m with
  | nil => cases h
  | cons p l ih =>
    rw [List.foldlM_cons] at h
    split at h
    · exact (Except.error.inj h).symm
    · exact ih h

theorem mergeLatency_error {a b : DDSketch} {e : PyError} (h : mergeLatency a b = .error e) :
    e ≠ bucketOverflow := by
  unfold mergeLatency at h
  have hbins : PyError.overflowError "DDSketch: bin count overflow" ≠ bucketOverflow := by
    simp [bucketOverflow]
  -- the positive bins are merged first; what is raised there is another error
  cases hp : mergeBins a.positive b.positive with
  | error e' =>
    rw [hp] at h
    obtain rfl : e' = e := Except.error.inj h
    rw [mergeBins_error hp]
    exact hbins
  | ok p =>
    simp only [hp, bind, Except.bind, failIf] at h
    by_cases hps : p.size > DDSketch.maxBins
    · rw [if_pos hps] at h
      cases h
      simp [bucketOverflow]
    · rw [if_neg hps] at h
      cases hn : mergeBins a.negative b.negative with
      | error e' =>
        simp only [hn] at h
        obtain rfl : e' = e := Except.error.inj h
        rw [mergeBins_error hn]
        exact hbins
      | ok n =>
        simp only [hn] at h
        by_cases hns : n.size > DDSketch.maxBins
        · rw [if_pos hns] at h
          cases h
          simp [bucketOverflow]
        · rw [if_neg hns] at h
          cases h

theorem checkMerge_error {self : StreamLog} {e : PyError} {t : StreamLog}
    (h : (checkMerge self other).run self = .error e t) : e ≠ bucketOverflow := by
  simp only [checkMerge, EStateM.run_bind, run_raiseIf] at h
  intro he
  subst he
  revert h
  simp only [bucketOverflow]
  split_ifs <;> simp

theorem merge_no_bucket_overflow {S' : Shape} {c' : Contents S'} (h : log.Sound M c)
    (h' : other.Sound M c') (t : StreamLog) :
    (merge other).run log ≠ .error bucketOverflow t := by
  intro herr
  rw [merge, EStateM.run_bind, EStateM.run_get] at herr
  simp only [EStateM.run_bind] at herr
  by_cases hm : Mergeable log other
  swap
  · -- one of the checks in front raised
    obtain ⟨e, he⟩ := (checkMerge_guarded log other).run_error hm
    rw [he] at herr
    cases herr
    exact checkMerge_error he rfl
  obtain ⟨log', hrun, rfl⟩ := (checkMerge_guarded log other).run_ok hm
  have hshape : S = S' := by
    have hp := hm.p
    have hw := hm.width
    have hd := hm.depth
    rw [h.represents.uniques, h'.represents.uniques] at hp
    rw [h.represents.events, h'.represents.events] at hw hd
    exact Shape.ext (h.represents.alpha.symm.trans (hm.alpha.trans h'.represents.alpha)) hp hw hd
  subst hshape
  have hfit : c.events.total + c'.events.total ≤ maxInt64 := by
    have he := hm.events
    rw [h.represents.events, h'.represents.events] at he
    have he' : ¬ (c.events.total : ℤ) > maxInt64 - c'.events.total := he
    omega
  have htable := mergeTable_ofCounts c.events c'.events hfit
  rw [← h.represents.events, ← h'.represents.events] at htable
  rw [hrun] at herr
  simp only [htable] at herr
  cases hl : mergeLatency log'.latency other.latency with
  | error e =>
    simp only [hl, run_liftExcept_error] at herr
    cases herr
    exact mergeLatency_error hl rfl
  | ok l =>
    simp only [hl, run_liftExcept_ok, run_commitMerge] at herr
    cases herr

/-! ## Over whole runs -/

/-- **The invariant of a log.** Every log that any sequence of calls can leave satisfies `Invariant`,
and the cell checks of `CountMinSketch.add` and `merge` are never the ones that raise. -/
theorem reachable_invariant (hM : M.Monotone) (h : Reachable M log) :
    Invariant M log
      ∧ (∀ item count t, (CountMinSketch.add item count).run log.events ≠ .error bucketOverflow t)
      ∧ ∀ other, Reachable M other → ∀ t, (merge other).run log ≠ .error bucketOverflow t := by
  obtain ⟨S, c, hsound⟩ := h.sound hM
  refine ⟨hsound.invariant, add_no_bucket_overflow hsound, fun other h' t => ?_⟩
  obtain ⟨S', c', hsound'⟩ := h'.sound hM
  exact merge_no_bucket_overflow hsound hsound' t

/-- Four occurrences of one key in a log of accuracy `1/2` with two cells. -/
theorem reachable_invariant_event :
    ∃ log, Reachable .ternary log ∧ log.total = 4 ∧ log.events.table = [[4, 0]]
      ∧ Invariant .ternary log := by
  have hnew : new ⟨.fin Binary64.half, 4, 2, 1, false⟩
      = .ok ⟨.empty (1 / 2), .empty 2 1, .empty 4, 0, false⟩ :=
    new_eq_ok.mpr ⟨⟨1 / 2, 4, 2, 1, Binary64.half.isBinary64, by norm_num [oneMicro], by norm_num,
      by decide, by decide, by decide, by decide⟩, by norm_num [Shape.Bounded], rfl, rfl, rfl, rfl, rfl⟩
  have hreach : Reachable .ternary (after (ingest .ternary (.event (.int 7) 4))
      ⟨.empty (1 / 2), .empty 2 1, .empty 4, 0, false⟩) := .ingest _ (.new _ hnew)
  exact ⟨_, hreach, by decide +kernel, by decide +kernel,
    (reachable_invariant IndexMapping.ternary_monotone hreach).1⟩

end StreamLog

end Sketchlog
