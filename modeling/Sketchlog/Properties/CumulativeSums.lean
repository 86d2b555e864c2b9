import Sketchlog.Refine.ExporterCalls

/-!
# Cumulative sums telescope

What the exporter emits for a cumulative series is its growth since it was first seen, where no
other series has its key in the table. The key is made of the name of the metric and of the
attributes: it leaves out the resource, and it does not tell a separator from the same character in
an attribute. Two series with one key replace each other's values, and each change of hands is taken
for growth or for a reset.
-/

namespace Sketchlog.Otel

open Keyed

variable {V : Type} [DecidableEq V] {R : Runtime V}

/-! ## Statement

`emitted` sums what the exporter puts out for a series, `growth` what the series has grown by, a
reset counting from zero. -/

/-- The sum of the deltas that are emitted; there is none when one of them is not finite. -/
def total : List (Float64 × Bool) → Option ℚ
  | [] => some 0
  | (_, false) :: rest => total rest
  | (.fin x, true) :: rest => (total rest).map (x.val + ·)
  | (_, true) :: _ => none

/-- The growth of a series that had the value `previous`: a value after a decrease counts in full. -/
def growthFrom (previous : Binary64) : List Binary64 → ℚ
  | [] => 0
  | x :: rest => (if x.val < previous.val then x.val else x.val - previous.val) + growthFrom x rest

/-- The growth of a series from its first value on. -/
def growth : List Binary64 → ℚ
  | [] => 0
  | x :: rest => growthFrom x rest

/-- What the exports show of cumulative series, in order. -/
def observations (e : Exporter) (exports : List (Metrics V)) : List (Series V × Float64) :=
  (exports.flatMap (payloadPoints e.metricMap)).map fun p => (p.series, p.value)

/-- What `cumulativeDelta` returns in the course of a sequence of exports, by series. -/
def emitted (R : Runtime V) (e : Exporter) : List (Metrics V) → List (Series V × (Float64 × Bool))
  | [] => []
  | md :: rest => (callEach R e (payloadPoints e.metricMap md)).1 ++ emitted R (collect R e md).1 rest

/-- The difference of successive values is exact: a value after a decrease is not negative, and an
increase is a double. -/
def Measured (previous next : Binary64) : Prop :=
  (next.val < previous.val → 0 ≤ next.val)
    ∧ (previous.val ≤ next.val → IsBinary64 (next.val - previous.val))

/-! ## One series

If the key of a series is its own, every delta is the growth since the last observation. -/

/-- A delta of the exact difference is counted when it is positive, and otherwise there is nothing
to count. -/
theorem total_cons_of_nonneg {x : Binary64} {rest : List (Float64 × Bool)} {t : ℚ} (hx : 0 ≤ x.val)
    (hrest : total rest = some t) : total ((.fin x, Float64.zero.lt (.fin x)) :: rest)
      = some (x.val + t) := by
  rw [Float64.zero_lt_fin]
  rcases hx.lt_or_eq with hpos | hzero
  · rw [decide_eq_true hpos]
    show (total rest).map _ = _
    rw [hrest]
    rfl
  · rw [decide_eq_false (by rw [← hzero]; exact lt_irrefl 0)]
    show total rest = _
    rw [hrest, ← hzero, zero_add]

/-- **One step**: what a value adds to the total is what it adds to the growth. -/
theorem total_deltaFrom {v w : Binary64} {rest : List (Float64 × Bool)} {t : ℚ} (h : Measured v w)
    (hrest : total rest = some t) :
    total (deltaFrom (some (.fin v)) (.fin w) :: rest)
      = some ((if w.val < v.val then w.val else w.val - v.val) + t) := by
  by_cases hlt : w.val < v.val
  · have hdelta : deltaFrom (some (.fin v)) (.fin w) = (.fin w, Float64.zero.lt (.fin w)) := by
      simp [deltaFrom, hlt]
    rw [hdelta, if_pos hlt]
    exact total_cons_of_nonneg (h.1 hlt) hrest
  · have hle := not_lt.mp hlt
    have hdelta : deltaFrom (some (.fin v)) (.fin w)
        = (.fin ⟨w.val - v.val, h.2 hle⟩, Float64.zero.lt (.fin ⟨w.val - v.val, h.2 hle⟩)) := by
      have hsub : Float64.sub (.fin w) (.fin v) = .fin ⟨w.val - v.val, h.2 hle⟩ :=
        Float64.ofRat_of_isBinary64 (h.2 hle)
      simp [deltaFrom, hlt, hsub]
    rw [hdelta, if_neg hlt]
    exact total_cons_of_nonneg (x := ⟨w.val - v.val, h.2 hle⟩) (sub_nonneg.mpr hle) hrest

/-- **A series alone** emits its growth. -/
theorem total_alone {v : Binary64} {values : List Binary64} (h : (v :: values).IsChain Measured) :
    total (alone deltaFrom (some (.fin v)) (values.map .fin)) = some (growthFrom v values) := by
  induction values generalizing v with
  | nil => rfl
  | cons w values ih =>
    obtain ⟨hstep, hrest⟩ := List.isChain_cons_cons.mp h
    exact total_deltaFrom hstep (ih hrest)

theorem total_alone_none {values : List Binary64} (h : values.IsChain Measured) :
    total (alone deltaFrom none (values.map .fin)) = some (growth values) := by
  cases values with
  | nil => rfl
  | cons v values => exact total_alone h

/-! ## Every run of exports

The calls of one series, picked out of all calls, are calls on an exporter that sees that series
only. -/

omit [DecidableEq V] in
/-- The calls of a sequence of exports are the calls for all of its points. -/
theorem emitted_eq_callEach {e : Exporter} {exports : List (Metrics V)} :
    emitted R e exports = (callEach R e (exports.flatMap (payloadPoints e.metricMap))).1 := by
  induction exports generalizing e with
  | nil => rfl
  | cons md rest ih =>
    have hmap : (collect R e md).1.metricMap = e.metricMap := by
      rw [collect_exporter]
      exact callEach_metricMap.1
    rw [emitted, ih, hmap, List.flatMap_cons, callEach_append, collect_exporter]

omit [DecidableEq V] in
theorem cumulativeSums_new {cfg : Config} {e : Exporter} (h : newSketchLogExporter R cfg = .ok e) :
    e.cumulativeSums = ∅ := by
  unfold newSketchLogExporter at h
  split at h
  · cases h
  · cases h
    rfl

/-- **Cumulative sums telescope.** In every sequence of exports of a new exporter, the total that is
emitted for a series is its growth, if no other series of the exports has its key and its
differences are exact. -/
theorem cumulative_sums_telescope {cfg : Config} {e : Exporter}
    (hnew : newSketchLogExporter R cfg = .ok e)
    (exports : List (Metrics V)) (s : Series V) (values : List Binary64)
    (hvalues : ofSeries s (observations e exports) = values.map .fin)
    (hkey : ∀ x ∈ observations e exports, x.1.key R = s.key R → x.1 = s)
    (hmeasured : values.IsChain Measured) :
    total (ofSeries s (emitted R e exports)) = some (growth values) := by
  have hfeed : emitted R e exports
      = feed (Series.key R) deltaFrom e.cumulativeSums.get? (observations e exports) := by
    rw [emitted_eq_callEach, callEach_eq_feed]
    rfl
  rw [hfeed, feed_eq_alone hkey, hvalues, cumulativeSums_new hnew]
  exact total_alone_none hmeasured

/-! ## Two services under one metric

Two resources that differ in an attribute the key leaves out share one entry. -/

namespace TwoServices

def mapping : MetricMapping := ⟨"requests_total", "api.events", .event, "request", Float64.one⟩

def config : Config := { createDefaultConfig with metrics := [mapping] }

def exporter : Exporter where
  cfg := config
  metricMap := (∅ : Dict String MetricMapping).set "requests_total" mapping
  cumulativeSums := ∅

theorem new_exporter : newSketchLogExporter .plain config = .ok exporter := by
  have hvalid : config.validate .plain = .ok () := by
    simp [Config.validate, config, createDefaultConfig, Runtime.plain, validateMetrics, mapping]
  simp only [newSketchLogExporter, hvalid, exporter]
  rfl

/-- The counters of some services, in one payload. -/
def payload (counters : List (String × Binary64)) : Metrics String :=
  counters.map fun c =>
    ⟨[("service.name", c.1)], [[⟨"requests_total", .sum .cumulative [⟨[], .double (.fin c.2)⟩]⟩]]⟩

def service (name : String) : Series String := ⟨{("service.name", name)}, "requests_total", 0⟩

theorem payloadPoints_payload (counters : List (String × Binary64)) :
    (payloadPoints exporter.metricMap (payload counters)).map (fun p => (p.series, p.value))
      = counters.map fun c => (service c.1, .fin c.2) := by
  have hmap : (exporter.metricMap.get? "requests_total").isSome = true := by
    rw [exporter, Dict.get?_set_self]
    rfl
  induction counters with
  | nil => rfl
  | cons c counters ih =>
    show (mappedPoints exporter.metricMap _ _ ++ [] ++ [] ++ payloadPoints exporter.metricMap
      (payload counters)).map _ = _
    rw [List.append_nil, List.append_nil, List.map_append, ih, mappedPoints, if_pos hmap]
    rfl

theorem observations_payloads (exports : List (List (String × Binary64))) :
    observations exporter (exports.map payload) = exports.flatten.map fun c =>
      (service c.1, .fin c.2) := by
  unfold observations
  induction exports with
  | nil => rfl
  | cons counters rest ih =>
    rw [List.map_cons, List.flatMap_cons, List.map_append, ih, payloadPoints_payload, List.flatten_cons,
      List.map_append]

theorem service_injective {a b : String} : service a = service b ↔ a = b := by simp [service]

def count (n : ℤ) (h : |n| < 2 ^ 53 := by norm_num) : Binary64 := Binary64.ofInt n h

end TwoServices

open TwoServices in
/-- Requests of one service, with a restart: 100, 125 and 7 make 32. -/
theorem cumulative_sums_telescope_restart :
    total (ofSeries (service "web") (emitted .plain exporter
        ([[("web", count 100)], [("web", count 125)], [("web", count 7)]].map payload)))
      = some 32 := by
  have htelescope := cumulative_sums_telescope new_exporter
    ([[("web", count 100)], [("web", count 125)], [("web", count 7)]].map payload) (service "web")
    [count 100, count 125, count 7]
    (by rw [observations_payloads]; simp [ofSeries])
    (by rw [observations_payloads]; simp)
    (by
      have hincrease : Measured (count 100) (count 125) := by
        refine ⟨fun h => absurd h (by norm_num [count, Binary64.ofInt]), fun _ => ?_⟩
        have hdiff : (count 125).val - (count 100).val = (count 25).val := by
          norm_num [count, Binary64.ofInt]
        rw [hdiff]
        exact (count 25).isBinary64
      have hreset : Measured (count 125) (count 7) :=
        ⟨fun _ => by norm_num [count, Binary64.ofInt], fun h =>
          absurd h (by norm_num [count, Binary64.ofInt])⟩
      exact .cons_cons hincrease (.cons_cons hreset (.singleton _)))
  rw [htelescope]
  norm_num [growth, growthFrom, count, Binary64.ofInt]

open TwoServices in
/-- The counters of two services have one key. The one grows from 10 to 12, and 12 are emitted for
it: the counter of the other, 100, was in its place, so that 12 looks like the first value after a
reset. -/
theorem resources_share_one_key :
    newSketchLogExporter .plain config = .ok exporter
      ∧ ofSeries (service "web") (observations exporter
          ([[("web", count 10), ("db", count 100)], [("web", count 12), ("db", count 103)]].map
            payload))
        = [count 10, count 12].map .fin
      ∧ growth [count 10, count 12] = 2
      ∧ total (ofSeries (service "web") (emitted .plain exporter
          ([[("web", count 10), ("db", count 100)], [("web", count 12), ("db", count 103)]].map
            payload)))
        = some 12 := by
  refine ⟨new_exporter, ?_, by norm_num [growth, growthFrom, count, Binary64.ofInt], ?_⟩
  · rw [observations_payloads]
    simp [ofSeries, service_injective]
  · -- `db` overwrites what `web` left under the shared key, so the second reading of `web` is a reset
    have hkey : (service "db").key .plain = (service "web").key .plain := rfl
    have hcount : (count 12).val = 12 := by norm_num [count, Binary64.ofInt]
    have hfirst : deltaFrom none (.fin (count 10)) = (Float64.zero, false) := rfl
    have hreset : deltaFrom (some (.fin (count 100))) (.fin (count 12)) = (.fin (count 12), true) := by
      have hless : (count 12).val < (count 100).val := by norm_num [count, Binary64.ofInt]
      have hpos : (0 : ℚ) < (count 12).val := by norm_num [count, Binary64.ofInt]
      simp [deltaFrom, hless, hpos]
    have hobs := observations_payloads
      [[("web", count 10), ("db", count 100)], [("web", count 12), ("db", count 103)]]
    rw [emitted_eq_callEach, callEach_eq_feed]
    show total (ofSeries _ (feed _ _ _ (observations exporter _))) = _
    rw [hobs]
    simp [ofSeries, service_injective, feed, hkey, hfirst, hreset, total, exporter, hcount]

end Sketchlog.Otel
