import Sketchlog.Lib.Runs
import Sketchlog.Refine.ExporterCalls

/-!
# Cumulative histograms are replayed

A cumulative sum is emitted as its growth. A cumulative histogram is not: the exporter keeps nothing
of it, and every export emits all the samples of its buckets again. So the samples that are emitted
exceed the growth of the count as soon as a count that is not zero comes first, or comes after a
count that is not zero and not larger.
-/

namespace Sketchlog.Otel

open Runs

variable {V : Type} {R : Runtime V}

/-! ## How many samples an export emits -/

/-- The representative of a bucket is a number. -/
def hasRepresentative (bounds : List Float64) (bucket : ℕ) : Bool :=
  ((histogramRepresentative bucket bounds).map PyFloat.isFinite).getD false

/-- The samples of the buckets, from the index `i` on. -/
def bucketSamples (bounds : List Float64) : List (UInt64 × ℕ) → ℕ
  | [] => 0
  | ci :: rest => (if hasRepresentative bounds ci.2 then ci.1.toNat else 0) + bucketSamples bounds rest

/-- The samples of a histogram that is not down-sampled. -/
def HistogramDataPoint.samples (dp : HistogramDataPoint) : ℕ :=
  if dp.count = 0 then 0
  else if dp.bucketCounts = [] then
    match dp.sum with
    | some sum => if (sum.div (Float64.ofRat dp.count.toNat)).isFinite then 1 else 0
    | none => 0
  else bucketSamples dp.explicitBounds dp.bucketCounts.zipIdx

section Latency

variable {mapping : MetricMapping} {batch : EventBatch}

theorem length_addNumber (hkind : mapping.kind = .latency) (v : Float64) :
    (addNumber R mapping batch v).latencies.length = batch.latencies.length + if v.isFinite then 1
      else 0 := by
  cases v with
  | nan => rfl
  | inf negative => rfl
  | fin x =>
    simp only [addNumber, hkind]
    rw [List.length_append]
    rfl

theorem length_iterate_addNumber (hkind : mapping.kind = .latency) (v : Float64) (n : ℕ) :
    ((fun b => addNumber R mapping b v)^[n] batch).latencies.length
      = batch.latencies.length + if v.isFinite then n else 0 := by
  induction n generalizing batch with
  | zero => split <;> rfl
  | succ n ih =>
    rw [Function.iterate_succ_apply, ih, length_addNumber hkind]
    split <;> omega

theorem length_emitHistogramBucket (hkind : mapping.kind = .latency) (bucket n : ℕ)
    (bounds : List Float64) :
    (emitHistogramBucket (addNumber R mapping) bucket n bounds batch).latencies.length
      = batch.latencies.length + if hasRepresentative bounds bucket then n else 0 := by
  unfold emitHistogramBucket hasRepresentative
  split
  · next h => rw [h, ite_self]; rfl
  · cases histogramRepresentative bucket bounds with
    | none => rfl
    | some v => exact length_iterate_addNumber hkind v n

theorem length_emitBuckets (hkind : mapping.kind = .latency) (bounds : List Float64)
    (buckets : List (UInt64 × ℕ)) :
    (buckets.foldl (fun b ci => emitHistogramBucket (addNumber R mapping) ci.2 ci.1.toNat bounds b)
        batch).latencies.length
      = batch.latencies.length + bucketSamples bounds buckets := by
  induction buckets generalizing batch with
  | nil => rfl
  | cons ci buckets ih =>
    rw [List.foldl_cons, ih, length_emitHistogramBucket hkind, bucketSamples]
    omega

/-- **An export emits all the samples** of a histogram whose count is in the limit. -/
theorem length_expandHistogram (hkind : mapping.kind = .latency) {dp : HistogramDataPoint}
    {maxSamples : ℤ}
    (hmax : (dp.count.toNat : ℤ) ≤ maxSamples) :
    (expandHistogram R (addNumber R mapping) (emitHistogramBucket (addNumber R mapping)) dp maxSamples
        batch).latencies.length
      = batch.latencies.length + dp.samples := by
  unfold expandHistogram HistogramDataPoint.samples
  by_cases hcount : dp.count = 0
  · rw [if_pos hcount, if_pos hcount]
    rfl
  rw [if_neg hcount, if_neg hcount]
  have hpos : ¬ maxSamples ≤ 0 := by
    have hne : dp.count.toNat ≠ 0 := fun h => hcount (UInt64.toNat_inj.mp h)
    omega
  simp only [if_neg hpos, if_pos hmax]
  by_cases hbuckets : dp.bucketCounts = []
  · rw [if_pos hbuckets, if_pos hbuckets]
    cases dp.sum with
    | none => rfl
    | some sum => exact length_addNumber hkind _
  · rw [if_neg hbuckets, if_neg hbuckets]
    exact length_emitBuckets hkind _ _

end Latency

/-! ## Counts and samples

Where the buckets hold no more than the count says, the samples are at most as many; when the point
is full, they are exactly as many. -/

/-- The observations in the buckets. -/
def HistogramDataPoint.inBuckets (dp : HistogramDataPoint) : ℕ := (dp.bucketCounts.map UInt64.toNat).sum

/-- The point has nothing that samples could be made of: no observations, or neither buckets nor a
sum, or buckets without bounds. -/
def HistogramDataPoint.Silent (dp : HistogramDataPoint) : Prop :=
  dp.count = 0 ∨ (dp.bucketCounts = [] ∧ dp.sum = none)
    ∨ (dp.bucketCounts ≠ [] ∧ dp.explicitBounds = [])

/-- A well-formed point whose buckets all have a representative: there is one more bucket than
bounds, and the buckets hold all the observations. -/
structure HistogramDataPoint.Full (dp : HistogramDataPoint) : Prop where
  buckets : dp.bucketCounts.length = dp.explicitBounds.length + 1
  bounded : dp.explicitBounds ≠ []
  counted : dp.inBuckets = dp.count.toNat
  finite : ∀ i, i ≤ dp.explicitBounds.length → hasRepresentative dp.explicitBounds i = true

variable {dp : HistogramDataPoint}

theorem bucketSamples_le (bounds : List Float64) (counts : List UInt64) (i : ℕ) :
    bucketSamples bounds (counts.zipIdx i) ≤ (counts.map UInt64.toNat).sum := by
  induction counts generalizing i with
  | nil => exact le_rfl
  | cons c counts ih =>
    have hrest := ih (i + 1)
    rw [List.zipIdx_cons, bucketSamples, List.map_cons, List.sum_cons]
    show (if hasRepresentative bounds i then c.toNat else 0) + _ ≤ _
    split <;> omega

theorem bucketSamples_eq {bounds : List Float64} {counts : List UInt64} {i : ℕ}
    (h : ∀ j, j < i + counts.length → hasRepresentative bounds j = true) :
    bucketSamples bounds (counts.zipIdx i) = (counts.map UInt64.toNat).sum := by
  induction counts generalizing i with
  | nil => rfl
  | cons c counts ih =>
    have hrest : bucketSamples bounds (counts.zipIdx (i + 1)) = (counts.map UInt64.toNat).sum := by
      apply ih
      intro j hj
      exact h j (by rw [List.length_cons]; omega)
    rw [List.zipIdx_cons, bucketSamples, if_pos (h i (by rw [List.length_cons]; omega)), hrest,
      List.map_cons,
      List.sum_cons]

theorem bucketSamples_of_no_bounds (counts : List (UInt64 × ℕ)) : bucketSamples [] counts = 0 := by
  induction counts with
  | nil => rfl
  | cons ci counts ih =>
    rw [bucketSamples, ih]
    rfl

theorem samples_of_silent (h : dp.Silent) : dp.samples = 0 := by
  unfold HistogramDataPoint.samples
  rcases h with hcount | ⟨hbuckets, hsum⟩ | ⟨hbuckets, hbounds⟩
  · rw [if_pos hcount]
  · rw [if_pos hbuckets, hsum]
    exact ite_self 0
  · rw [if_neg hbuckets, hbounds, bucketSamples_of_no_bounds]
    exact ite_self 0

/-- There are no more samples than observations, where the buckets hold no more. -/
theorem samples_le_count (h : dp.inBuckets ≤ dp.count.toNat) : dp.samples ≤ dp.count.toNat := by
  unfold HistogramDataPoint.samples
  split
  · exact Nat.zero_le _
  · next hcount =>
    have hpos : 0 < dp.count.toNat := Nat.pos_of_ne_zero fun h => hcount (UInt64.toNat_inj.mp h)
    split
    · split
      · split
        · exact hpos
        · exact Nat.zero_le _
      · exact Nat.zero_le _
    · exact (bucketSamples_le _ _ 0).trans h

theorem samples_of_full (h : dp.Full) : dp.samples = dp.count.toNat := by
  have hbuckets : dp.bucketCounts ≠ [] := fun hnil => by
    have hlength := h.buckets
    rw [hnil] at hlength
    cases hlength
  unfold HistogramDataPoint.samples
  by_cases hcount : dp.count = 0
  · rw [if_pos hcount, hcount]
    rfl
  · rw [if_neg hcount, if_neg hbuckets, ← h.counted]
    apply bucketSamples_eq
    intro j hj
    exact h.finite j (by rw [h.buckets] at hj; omega)

/-! ## Runs of exports

Every export emits the buckets afresh. Its samples are within the growth of the count exactly when
the count begins anew, after zero or below the one before it, or when nothing is emitted. -/

/-- The payload of an export: one resource with the histogram. -/
def histogramPayload (resource : Attributes V) (name : String) (dp : HistogramDataPoint) : Metrics V :=
  [⟨resource, [[⟨name, .histogram .cumulative [dp]⟩]]⟩]

/-- What a count adds to the growth, as `cumulativeDelta` has it. -/
def countGrowth (previous : Option ℕ) (count : ℕ) : ℕ :=
  match previous with
  | none => 0
  | some previous => if count < previous then count else count - previous

/-- The exports of a histogram so far: the last count, the samples that were emitted, and the growth
of the count. -/
structure HistogramExports where
  exporter : Exporter
  previous : Option ℕ := none
  samples : ℕ := 0
  growth : ℕ := 0

/-- An export of the histogram, whose count is in the limit. -/
def HistogramExports.export (R : Runtime V) (mapping : MetricMapping) (s : HistogramExports)
    (x : Attributes V × HistogramDataPoint) : Option HistogramExports :=
  let (resource, dp) := x
  if (dp.count.toNat : ℤ) ≤ s.exporter.cfg.maxBatchItems then
    let (exporter, batches) := collect R s.exporter (histogramPayload resource mapping.name dp)
    some { exporter
           previous := some dp.count.toNat
           samples := s.samples + ((batches.get? mapping.stream).map fun batch =>
             batch.latencies.length).getD 0
           growth := s.growth + countGrowth s.previous dp.count.toNat }
  else none

/-- The export has no samples, or it follows one with a count that is zero or larger, and its
buckets hold no more than its count says. -/
def NotReplayed (s : HistogramExports) (x : Attributes V × HistogramDataPoint) : Prop :=
  x.2.Silent
    ∨ ((∃ previous, s.previous = some previous ∧ (previous = 0 ∨ x.2.count.toNat < previous))
      ∧ x.2.inBuckets ≤ x.2.count.toNat)

/-- The mapping of a latency metric in an exporter. -/
structure Maps (mapping : MetricMapping) (e : Exporter) : Prop where
  mapped : e.metricMap.get? mapping.name = some mapping
  latency : mapping.kind = .latency

section Exports

variable {mapping : MetricMapping} {s s' t : HistogramExports} {x : Attributes V × HistogramDataPoint}
  {exports : List (Attributes V × HistogramDataPoint)}

/-- **One export.** It emits all the samples of the point, whatever was exported before. -/
theorem export_of_le (hmaps : Maps mapping s.exporter)
    (hmax : (x.2.count.toNat : ℤ) ≤ s.exporter.cfg.maxBatchItems) :
    s.export R mapping x
      = some { exporter := s.exporter
               previous := some x.2.count.toNat
               samples := s.samples + x.2.samples
               growth := s.growth + countGrowth s.previous x.2.count.toNat } := by
  obtain ⟨resource, dp⟩ := x
  have hcollect : collect R s.exporter (histogramPayload resource mapping.name dp)
      = (s.exporter, (∅ : Dict String EventBatch).set mapping.stream
          (expandHistogram R (addNumber R mapping) (emitHistogramBucket (addNumber R mapping)) dp
            s.exporter.cfg.maxBatchItems {})) :=
    collectMapped_of_some hmaps.mapped
  simp only [HistogramExports.export, if_pos hmax, hcollect, Dict.get?_set_self, Option.map_some,
    Option.getD_some,
    length_expandHistogram hmaps.latency hmax, List.length_nil, zero_add]

theorem export_eq (hmaps : Maps mapping s.exporter) (h : s.export R mapping x = some s') :
    s' = { exporter := s.exporter
           previous := some x.2.count.toNat
           samples := s.samples + x.2.samples
           growth := s.growth + countGrowth s.previous x.2.count.toNat } := by
  by_cases hmax : (x.2.count.toNat : ℤ) ≤ s.exporter.cfg.maxBatchItems
  · exact (Option.some.inj ((export_of_le hmaps hmax).symm.trans h)).symm
  · simp only [HistogramExports.export, if_neg hmax] at h
    cases h

/-- Two exports. -/
theorem run_pair {y : Attributes V × HistogramDataPoint} (hmaps : Maps mapping s.exporter)
    (hx : (x.2.count.toNat : ℤ) ≤ s.exporter.cfg.maxBatchItems)
    (hy : (y.2.count.toNat : ℤ) ≤ s.exporter.cfg.maxBatchItems) :
    run (HistogramExports.export R mapping) s [x, y]
      = some { exporter := s.exporter
               previous := some y.2.count.toNat
               samples := s.samples + x.2.samples + y.2.samples
               growth := s.growth + countGrowth s.previous x.2.count.toNat
                 + countGrowth (some x.2.count.toNat) y.2.count.toNat } := by
  apply run_cons.mpr
  refine ⟨_, export_of_le hmaps hx, ?_⟩
  apply run_cons.mpr
  exact ⟨_, export_of_le hmaps hy, rfl⟩

/-- What two exports emit, and how much the count has grown. -/
theorem run_pair_totals {y : Attributes V × HistogramDataPoint} {m n : ℕ}
    (hmaps : Maps mapping s.exporter)
    (hx : (x.2.count.toNat : ℤ) ≤ s.exporter.cfg.maxBatchItems)
    (hy : (y.2.count.toNat : ℤ) ≤ s.exporter.cfg.maxBatchItems) (hm : x.2.samples = m)
    (hn : y.2.samples = n) :
    ∃ t, run (HistogramExports.export R mapping) s [x, y] = some t ∧ t.samples = s.samples + m + n
      ∧ t.growth = s.growth + countGrowth s.previous x.2.count.toNat
        + countGrowth (some x.2.count.toNat) y.2.count.toNat := by
  refine ⟨_, run_pair hmaps hx hy, ?_, rfl⟩
  dsimp only
  rw [hm, hn]

theorem maps_export (hmaps : Maps mapping s.exporter) (h : s.export R mapping x = some s') :
    Maps mapping s'.exporter := by
  rw [export_eq hmaps h]
  exact hmaps

theorem countGrowth_le (previous : Option ℕ) (count : ℕ) : countGrowth previous count ≤ count := by
  unfold countGrowth
  split
  · exact Nat.zero_le _
  · split <;> omega

/-- An export that meets the condition has no more samples than growth. -/
theorem samples_le_countGrowth (h : NotReplayed s x) :
    x.2.samples ≤ countGrowth s.previous x.2.count.toNat := by
  rcases h with hsilent | ⟨⟨previous, hprevious, hafter⟩, hbuckets⟩
  · rw [samples_of_silent hsilent]
    exact Nat.zero_le _
  · have hgrowth : countGrowth s.previous x.2.count.toNat = x.2.count.toNat := by
      rw [hprevious]
      show (if _ then _ else _) = _
      rcases hafter with hzero | hless
      · rw [hzero, if_neg (Nat.not_lt_zero _), Nat.sub_zero]
      · rw [if_pos hless]
    rw [hgrowth]
    exact samples_le_count hbuckets

/-- A full point that has no more samples than growth meets the condition. -/
theorem notReplayed_of_full (hfull : x.2.Full)
    (h : x.2.samples ≤ countGrowth s.previous x.2.count.toNat) :
    NotReplayed s x := by
  rw [samples_of_full hfull] at h
  by_cases hcount : x.2.count.toNat = 0
  · exact .inl (.inl (UInt64.toNat_inj.mp hcount))
  -- the growth is the whole count only after a zero or after a larger count
  refine .inr ⟨?_, hfull.counted.le⟩
  cases hprevious : s.previous with
  | none =>
    rw [hprevious] at h
    exact absurd (Nat.le_zero.mp h) hcount
  | some previous =>
    rw [hprevious] at h
    refine ⟨previous, rfl, ?_⟩
    by_cases hless : x.2.count.toNat < previous
    · exact .inr hless
    · have hle : x.2.count.toNat ≤ x.2.count.toNat - previous := by
        simpa [countGrowth, hless] using h
      exact .inl (by omega)

/-- Over full points no samples are missing, so that one replay is never made up for. -/
theorem meets_of_full (hmaps : Maps mapping s.exporter) (hbalance : s.samples = s.growth)
    (hfull : ∀ x ∈ exports, x.2.Full)
    (hrun : run (HistogramExports.export R mapping) s exports = some t)
    (hgood : ∀ xs, xs <+: exports → ∀ t, run (HistogramExports.export R mapping) s xs = some t
      → t.samples ≤ t.growth) :
    Meets (HistogramExports.export R mapping) NotReplayed s exports := by
  induction exports generalizing s with
  | nil => trivial
  | cons x rest ih =>
    obtain ⟨s₁, hs₁, hrest⟩ := run_cons.mp hrun
    have hx : x.2.Full := hfull x List.mem_cons_self
    have heq := export_eq hmaps hs₁
    have hle : s.samples + x.2.samples ≤ s.growth + countGrowth s.previous x.2.count.toNat := by
      have hstate := hgood [x] (List.prefix_append [x] rest) s₁ (run_cons.mpr ⟨s₁, hs₁, rfl⟩)
      rwa [heq] at hstate
    have hnot : NotReplayed s x := notReplayed_of_full hx (by omega)
    -- the growth is at most the count, and the samples of a full point are its count
    have hbalance₁ : s₁.samples = s₁.growth := by
      have hsamples := samples_of_full hx
      have hgrowth := countGrowth_le s.previous x.2.count.toNat
      rw [heq]
      show s.samples + x.2.samples = s.growth + countGrowth s.previous x.2.count.toNat
      omega
    refine ⟨hnot, fun s₁' hs₁' => ?_⟩
    cases hs₁.symm.trans hs₁'
    apply ih (maps_export hmaps hs₁) hbalance₁ (fun y hy => hfull y (List.mem_cons_of_mem x hy)) hrest
    intro xs hxs t' ht'
    exact hgood (x :: xs) (List.cons_prefix_cons.mpr ⟨rfl, hxs⟩) t' (run_cons.mpr ⟨s₁, hs₁, ht'⟩)

/-- **Histograms are not replayed** in a run of exports where every export meets the condition:
after each of them, the samples that were emitted are at most the growth of the count. In a run of
full points there is no other way. -/
theorem histogram_samples_within_growth {e : Exporter} (hmaps : Maps mapping e)
    (hrun : run (HistogramExports.export R mapping) { exporter := e } exports = some t) :
    (Meets (HistogramExports.export R mapping) NotReplayed { exporter := e } exports
      → t.samples ≤ t.growth)
      ∧ ((∀ x ∈ exports, x.2.Full) →
        (Meets (HistogramExports.export R mapping) NotReplayed { exporter := e } exports
          ↔ ∀ xs, xs <+: exports → ∀ t', run (HistogramExports.export R mapping)
            { exporter := e } xs = some t' →
            t'.samples ≤ t'.growth)) := by
  -- an export that replays nothing brings at most the growth of its count
  have hwithin : ∀ {xs t'}, Meets (HistogramExports.export R mapping) NotReplayed { exporter := e } xs →
      run (HistogramExports.export R mapping) { exporter := e } xs = some t'
        → t'.samples ≤ t'.growth := by
    intro xs t' hmeets hrun'
    have hinv := run_invariant (I := fun s => Maps mapping s.exporter ∧ s.samples ≤ s.growth) ?_
      ⟨hmaps, le_rfl⟩
      hmeets hrun'
    · exact hinv.2
    · intro s x s' ⟨hs, hle⟩ hnot hstep
      refine ⟨maps_export hs hstep, ?_⟩
      have hsamples := samples_le_countGrowth hnot
      rw [export_eq hs hstep]
      show s.samples + x.2.samples ≤ s.growth + countGrowth s.previous x.2.count.toNat
      omega
  -- one direction for any data point; with full ones every excess shows in the samples
  refine ⟨fun hmeets => hwithin hmeets hrun, fun hfull =>
    ⟨fun hmeets xs hxs t' hrun' => ?_, fun hgood => ?_⟩⟩
  · exact hwithin (meets_initial hxs hmeets) hrun'
  · exact meets_of_full hmaps rfl hfull hrun hgood

end Exports

/-! ## A histogram of three requests

Three requests are exported after an export without any, and then the same three are exported twice. -/

namespace Durations

def mapping : MetricMapping := ⟨"http.server.duration", "api.latency", .latency, "", Float64.one⟩

def exporter : Exporter where
  cfg := { createDefaultConfig with metrics := [mapping] }
  metricMap := (∅ : Dict String MetricMapping).set "http.server.duration" mapping
  cumulativeSums := ∅

theorem maps_exporter : Maps mapping exporter := ⟨Dict.get?_set_self, rfl⟩

def ten : Float64 := .fin (Binary64.ofInt 10 Binary64.abs_ten_lt)

/-- One request below ten milliseconds, two above. -/
def three : HistogramDataPoint := ⟨3, none, [1, 2], [ten]⟩

/-- No request yet. -/
def idle : HistogramDataPoint := ⟨0, none, [0, 0], [ten]⟩

theorem full_three : three.Full where
  buckets := rfl
  bounded := List.cons_ne_nil _ _
  counted := rfl
  finite := by
    have htwo : Float64.add .one .one = .fin (Binary64.ofInt 2 (by norm_num)) := by
      have hsum : (Binary64.ofInt 1 Binary64.abs_one_lt).val
        + (Binary64.ofInt 1 Binary64.abs_one_lt).val
          = (Binary64.ofInt 2 (by norm_num)).val := by norm_num [Binary64.ofInt]
      rw [Float64.one, Float64.fin_add_fin, hsum, Float64.ofRat_of_isBinary64 (Binary64.isBinary64 _)]
    have hfive : ten.div (Float64.add .one .one) = .fin (Binary64.ofInt 5 Binary64.abs_five_lt) := by
      have hquot : (Binary64.ofInt 10 Binary64.abs_ten_lt).val / (Binary64.ofInt 2 (by norm_num)).val
          = (Binary64.ofInt 5 Binary64.abs_five_lt).val := by norm_num [Binary64.ofInt]
      rw [htwo, ten, Float64.fin_div_fin _ (by norm_num [Binary64.ofInt]), hquot,
        Float64.ofRat_of_isBinary64 (Binary64.isBinary64 _)]
    intro i hi
    have hcases : i = 0 ∨ i = 1 := by
      have hlength : i ≤ 1 := hi
      omega
    rcases hcases with rfl | rfl
    · show ((some (ten.div _)).map PyFloat.isFinite).getD false = true
      rw [hfive]
      rfl
    · rfl

theorem samples_three : three.samples = 3 := samples_of_full full_three

theorem samples_idle : idle.samples = 0 := samples_of_silent (.inl rfl)

end Durations

open Durations in
/-- Three requests after an export without any are emitted once. -/
theorem histogram_samples_within_growth_once :
    ∃ t, run (HistogramExports.export .plain mapping) { exporter } [([], idle), ([], three)] = some t
      ∧ t.samples = 3 ∧ t.samples ≤ t.growth := by
  obtain ⟨t, hrun, hsamples, -⟩ := run_pair_totals (R := .plain) (s := { exporter }) (x := ([], idle))
    (y := ([], three)) maps_exporter (by decide) (by decide) samples_idle samples_three
  refine ⟨t, hrun, hsamples, (histogram_samples_within_growth maps_exporter hrun).1 ?_⟩
  refine ⟨.inl (.inl rfl), fun s' hs' => ⟨.inr ⟨⟨0, ?_, .inl rfl⟩, by decide⟩, fun _ _ => trivial⟩⟩
  rw [export_eq maps_exporter hs']
  rfl

open Durations in
/-- The same histogram of three requests, exported twice: six samples are emitted, and the count has
not grown. -/
theorem unchanged_histogram_replayed :
    ∃ t, run (HistogramExports.export .plain mapping) { exporter } [([], three), ([], three)] = some t
      ∧ t.samples = 6 ∧ t.growth = 0 := by
  obtain ⟨t, hrun, hsamples, hgrowth⟩ :=
    run_pair_totals (R := .plain) (s := { exporter }) (x := ([], three))
    (y := ([], three)) maps_exporter (by decide) (by decide) samples_three samples_three
  exact ⟨t, hrun, hsamples, hgrowth⟩

end Sketchlog.Otel
