import Sketchlog.Lib.Keyed
import Sketchlog.Otel.Exporter

/-!
# The calls of `cumulativeDelta`

A payload has cumulative points, and collecting it calls `cumulativeDelta` once for each of them, in
order (`collect_exporter`); what the calls return goes to `addNumber` (`collectMetric_sum`). A call
reads and writes the table under the key of its series, so the calls are a `Keyed.feed`
(`callEach_eq_feed`).
-/

namespace Sketchlog.Otel

variable {V : Type} (R : Runtime V)

/-- A series: a resource, the name of a metric, and a map of attributes. -/
@[ext]
structure Series (V : Type) where
  resource : Multiset (String × V)
  metricName : String
  attributes : Multiset (String × V)
  deriving DecidableEq

/-- A cumulative point of a payload. -/
structure SumPoint (V : Type) where
  resource : Attributes V
  metricName : String
  attributes : Attributes V
  value : Float64

def SumPoint.series (p : SumPoint V) : Series V := ⟨p.resource, p.metricName, p.attributes⟩

/-- The key does not depend on the order of the attributes. -/
theorem timeseriesKey_perm {name : String} {attrs attrs' : Attributes V} (h : attrs.Perm attrs') :
    timeseriesKey R name attrs = timeseriesKey R name attrs' := by
  have hperm : (attrs.map fun kv => kv.1 ++ "=" ++ R.asString kv.2).insertionSort (· ≤ ·)
      |>.Perm ((attrs'.map fun kv => kv.1 ++ "=" ++ R.asString kv.2).insertionSort (· ≤ ·)) :=
    (List.perm_insertionSort _ _).trans ((h.map _).trans (List.perm_insertionSort _ _).symm)
  have heq := hperm.eq_of_sortedLE List.sortedLE_insertionSort List.sortedLE_insertionSort
  unfold timeseriesKey
  simp only [heq]

/-- The key of a series in the table. -/
def Series.key (s : Series V) : String :=
  Quot.liftOn s.attributes (timeseriesKey R s.metricName) fun _ _ h => timeseriesKey_perm R h

/-- The cumulative points of a metric, those without a value left out. -/
def sumPoints (resource : Attributes V) (metric : Metric V) : List (SumPoint V) :=
  match metric.data with
  | .sum .cumulative dps => dps.filterMap fun dp =>
      (numberValue dp).map (⟨resource, metric.name, dp.attributes, ·⟩)
  | _ => []

/-- The points of a metric that has a mapping. -/
def mappedPoints (metricMap : Dict String MetricMapping) (resource : Attributes V) (metric : Metric V) :
    List (SumPoint V) :=
  if (metricMap.get? metric.name).isSome then sumPoints resource metric else []

/-- The cumulative points of a payload, in the order in which they are visited. -/
def payloadPoints (metricMap : Dict String MetricMapping) (md : Metrics V) : List (SumPoint V) :=
  md.flatMap fun rm => rm.scopeMetrics.flatMap fun ms => ms.flatMap (mappedPoints metricMap rm.resource)

/-- `cumulativeDelta` for each point: what the calls return, by series, and the exporter. -/
def callEach (e : Exporter) : List (SumPoint V) → List (Series V × (Float64 × Bool)) × Exporter
  | [] => ([], e)
  | p :: rest =>
    let (result, e) := cumulativeDelta R e p.metricName p.attributes p.value
    let (results, e) := callEach e rest
    ((p.series, result) :: results, e)

variable {R} {e : Exporter} {p : SumPoint V} {ps qs : List (SumPoint V)}

theorem callEach_cons :
    callEach R e (p :: ps)
      = ((p.series, (cumulativeDelta R e p.metricName p.attributes p.value).1)
            :: (callEach R (cumulativeDelta R e p.metricName p.attributes p.value).2 ps).1,
          (callEach R (cumulativeDelta R e p.metricName p.attributes p.value).2 ps).2) := rfl

theorem callEach_append :
    callEach R e (ps ++ qs)
      = ((callEach R e ps).1 ++ (callEach R (callEach R e ps).2 qs).1,
        (callEach R (callEach R e ps).2 qs).2) := by
  induction ps generalizing e with
  | nil => rfl
  | cons p ps ih => rw [List.cons_append, callEach_cons, callEach_cons, ih, List.cons_append]

/-- The calls change nothing but the table. -/
theorem callEach_metricMap : (callEach R e ps).2.metricMap = e.metricMap ∧ (callEach R e ps).2.cfg
    = e.cfg := by
  induction ps generalizing e with
  | nil => exact ⟨rfl, rfl⟩
  | cons p ps ih => exact ih

/-- **The calls are a feed** of the table, under the keys of the series. -/
theorem callEach_eq_feed :
    (callEach R e ps).1
      = Keyed.feed (Series.key R) deltaFrom e.cumulativeSums.get?
        (ps.map fun p => (p.series, p.value)) := by
  induction ps generalizing e with
  | nil => rfl
  | cons p ps ih =>
    have htable : (cumulativeDelta R e p.metricName p.attributes p.value).2.cumulativeSums.get?
        = Function.update e.cumulativeSums.get? (p.series.key R) (some p.value) := by
      funext k
      show (e.cumulativeSums.set (timeseriesKey R p.metricName p.attributes) p.value).get? k = _
      rw [Dict.get?_set, Function.update_apply]
      rfl
    rw [callEach_cons, ih, htable]
    rfl

/-! ## Collecting calls

The exporter state after collecting is a fold of `cumulativeDelta` over the points of cumulative
sums, in the order of the loops; everything else of a payload leaves it. -/

/-- **A sum metric** calls `cumulativeDelta` for its points, and hands the deltas that are to be
emitted to `addNumber`. -/
theorem collectSumPoints (resource : Attributes V) {mapping : MetricMapping} {name : String}
    {dps : List (NumberDataPoint V)} {batch : EventBatch} :
    dps.foldl (collectSumPoint R mapping name .cumulative) (e, batch)
      = ((callEach R e (sumPoints resource ⟨name, .sum .cumulative dps⟩)).2,
          (((callEach R e (sumPoints resource ⟨name, .sum .cumulative dps⟩)).1.filter
            fun r => r.2.2).map fun r => r.2.1).foldl (addNumber R mapping) batch) := by
  induction dps generalizing e batch with
  | nil => rfl
  | cons dp dps ih =>
    rw [List.foldl_cons]
    cases hv : numberValue dp with
    | none =>
      have hpoints : sumPoints resource ⟨name, .sum .cumulative (dp :: dps)⟩
          = sumPoints resource ⟨name, .sum .cumulative dps⟩ := by
        simp [sumPoints, hv]
      have hpoint : collectSumPoint R mapping name .cumulative (e, batch) dp = (e, batch) := by
        simp [collectSumPoint, hv]
      rw [hpoints, hpoint, ih]
    | some v =>
      have hpoints : sumPoints resource ⟨name, .sum .cumulative (dp :: dps)⟩
          = ⟨resource, name, dp.attributes, v⟩ :: sumPoints resource ⟨name, .sum .cumulative dps⟩ := by
        simp [sumPoints, hv]
      have hpoint : collectSumPoint R mapping name .cumulative (e, batch) dp
          = ((cumulativeDelta R e name dp.attributes v).2,
              if (cumulativeDelta R e name dp.attributes v).1.2
                then addNumber R mapping batch (cumulativeDelta R e name dp.attributes v).1.1
                  else batch) := by
        simp [collectSumPoint, hv]
      rw [hpoints, hpoint, ih, callEach_cons]
      -- the delta of the first point is added before those of the rest, when it is emitted
      cases hemit : (cumulativeDelta R e name dp.attributes v).1.2 with
      | true => simp [hemit]
      | false => simp [hemit]

theorem collectSumPoint_exporter {mapping : MetricMapping} {name : String} {t : AggregationTemporality}
    {dps : List (NumberDataPoint V)} {batch : EventBatch} (ht : t ≠ .cumulative) :
    (dps.foldl (collectSumPoint R mapping name t) (e, batch)).1 = e := by
  induction dps generalizing batch with
  | nil => rfl
  | cons dp dps ih =>
    have hpoint : ∃ batch', collectSumPoint R mapping name t (e, batch) dp = (e, batch') := by
      unfold collectSumPoint
      cases numberValue dp with
      | none => exact ⟨_, rfl⟩
      | some v =>
        cases t with
        | cumulative => exact absurd rfl ht
        | delta => exact ⟨_, rfl⟩
        | unspecified => exact ⟨_, rfl⟩
    obtain ⟨batch', hpoint⟩ := hpoint
    rw [List.foldl_cons, hpoint, ih]

theorem collectMetric_exporter (resource : Attributes V) {metric : Metric V} {mapping : MetricMapping}
    {batch : EventBatch} :
    (collectMetric R e metric mapping batch).1 = (callEach R e (sumPoints resource metric)).2 := by
  obtain ⟨name, data⟩ := metric
  cases data with
  | sum t dps =>
    by_cases ht : t = .cumulative
    · subst ht
      show (dps.foldl (collectSumPoint R mapping name .cumulative) (e, batch)).1 = _
      rw [collectSumPoints resource]
    · have hnone : sumPoints resource ⟨name, .sum t dps⟩ = [] := by
        cases t with
        | cumulative => exact absurd rfl ht
        | delta => rfl
        | unspecified => rfl
      rw [hnone]
      exact collectSumPoint_exporter ht
  | gauge dps => rfl
  | histogram t dps => rfl
  | summary dps => rfl
  | other => rfl

theorem collectMapped_of_none {metric : Metric V} {batches : Dict String EventBatch}
    (h : e.metricMap.get? metric.name = none) : collectMapped R (e, batches) metric = (e, batches) := by
  simp [collectMapped, h]

theorem collectMapped_of_some {metric : Metric V} {batches : Dict String EventBatch}
    {mapping : MetricMapping}
    (h : e.metricMap.get? metric.name = some mapping) :
    collectMapped R (e, batches) metric
      = ((collectMetric R e metric mapping ((batches.get? mapping.stream).getD {})).1,
          batches.set mapping.stream
            (collectMetric R e metric mapping ((batches.get? mapping.stream).getD {})).2) := by
  simp [collectMapped, h]

theorem collectMapped_exporter {metric : Metric V} {batches : Dict String EventBatch}
    {resource : Attributes V} :
    (collectMapped R (e, batches) metric).1
      = (callEach R e (mappedPoints e.metricMap resource metric)).2 := by
  cases hmap : e.metricMap.get? metric.name with
  | none =>
    rw [collectMapped_of_none hmap, mappedPoints, hmap]
    rfl
  | some mapping =>
    rw [collectMapped_of_some hmap, mappedPoints, hmap]
    exact collectMetric_exporter resource

/-- Where each element of a list makes its calls, the fold over the list makes all of them. -/
theorem foldl_calls {α : Type}
    {f : Exporter × Dict String EventBatch → α → Exporter × Dict String EventBatch}
    {g : Dict String MetricMapping → α → List (SumPoint V)}
    (hf : ∀ acc a, (f acc a).1 = (callEach R acc.1 (g acc.1.metricMap a)).2) (l : List α)
    (acc : Exporter × Dict String EventBatch) :
    (l.foldl f acc).1 = (callEach R acc.1 (l.flatMap (g acc.1.metricMap))).2 := by
  induction l generalizing acc with
  | nil => rfl
  | cons a l ih =>
    rw [List.foldl_cons, ih, hf, List.flatMap_cons, callEach_append, callEach_metricMap.1]

/-- **Collecting a payload** calls `cumulativeDelta` for its points, and changes the exporter in no
other way. -/
theorem collect_exporter (md : Metrics V) :
    (collect R e md).1 = (callEach R e (payloadPoints e.metricMap md)).2 := by
  refine foldl_calls (g := fun metricMap rm =>
    rm.scopeMetrics.flatMap fun ms => ms.flatMap (mappedPoints metricMap rm.resource))
      (fun acc rm => ?_) md (e, ∅)
  refine foldl_calls (g := fun metricMap ms => ms.flatMap (mappedPoints metricMap rm.resource))
    (fun acc ms => ?_) rm.scopeMetrics acc
  exact foldl_calls (g := fun metricMap => mappedPoints metricMap rm.resource)
    (fun acc metric => collectMapped_exporter) ms acc

end Sketchlog.Otel
