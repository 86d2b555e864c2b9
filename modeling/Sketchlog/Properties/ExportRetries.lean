import Sketchlog.Lib.Runs
import Sketchlog.Refine.ExporterCalls
import Sketchlog.Refine.ExporterPosts

/-!
# Retries

When `consumeMetrics` fails, the collector calls it again with the same payload. Nothing is
remembered of the chunks that were taken in before the failure, so they are sent again; and the
table of cumulative sums was updated before anything was sent, so the deltas of the payload are
gone. A retried payload is delivered once if no attempt that failed was heard at all and the payload
has no delta to give.
-/

namespace Sketchlog.Otel

open Runs

variable {V : Type} {R : Runtime V}

/-! ## Statement

A payload is offered again until an attempt succeeds. It is `Settled` when collecting it again
changes nothing. -/

/-- A call of `consumeMetrics`: the order of its passes over maps, and what becomes of its requests. -/
structure Attempt where
  order : MapOrder
  replies : ℕ → Reply

/-- A payload on its way: the exporter, what the server has taken in, and whether a call has
succeeded. -/
structure Retrying where
  exporter : Exporter
  delivered : List (String × EventBatch) := []
  done : Bool := false

/-- The next call with the payload; there is none after a success, and none after a permanent error. -/
def attempt (R : Runtime V) (md : Metrics V) (s : Retrying) (a : Attempt) : Option Retrying :=
  if s.done then none
  else
    match consumeMetrics R a.order s.exporter md { replies := a.replies } with
    | (.ok (), e, t) => some ⟨e, s.delivered ++ t.applied, true⟩
    | (.error err, e, t) => if err.retryable then some ⟨e, s.delivered ++ t.applied, false⟩ else none

/-- `cumulativeDelta` has nothing to emit for a value. -/
def Quiet (previous : Option Float64) (current : Float64) : Prop :=
  (deltaFrom previous current).2 = false

/-- No cumulative point has a delta to give, and points with one key have one value. -/
structure Settled (R : Runtime V) (points : List (SumPoint V)) (e : Exporter) : Prop where
  quiet : ∀ p ∈ points, Quiet (e.cumulativeSums.get? (p.series.key R)) p.value
  agree : ∀ p ∈ points, ∀ q ∈ points, p.series.key R = q.series.key R → p.value = q.value

/-- An attempt of which the server has heard nothing, with a payload that has no delta to give. -/
def Harmless (R : Runtime V) (md : Metrics V) (s : Retrying) (a : Attempt) : Prop :=
  (a.replies 0).applied = false ∧ Settled R (payloadPoints s.exporter.metricMap md) s.exporter

/-! ## A settled payload gives the same batches again

Two collections, side by side: from exporters that have settled on the payload they give equal
batches. -/

/-- The same value again is no growth. -/
theorem quiet_self (v : Float64) : Quiet (some v) v := by
  unfold Quiet deltaFrom
  cases v with
  | nan => rfl
  | inf negative => cases negative <;> rfl
  | fin x =>
    have hzero : Float64.sub (.fin x) (.fin x) = Float64.ofRat 0 := by
      show Float64.ofRat (x.val - x.val) = _
      rw [sub_self]
    have hrat : Float64.ofRat 0 = .fin ⟨0, 0, 0, by norm_num, by norm_num, by norm_num, by norm_num⟩ :=
      Float64.ofRat_of_isBinary64 _
    simp [hzero, hrat]

variable {e e₁ e₂ : Exporter} {points ps : List (SumPoint V)} {resource : Attributes V}

/-- **The calls keep a settled exporter settled**, and emit nothing. -/
theorem callEach_settled (h : Settled R points e) (hps : ∀ p ∈ ps, p ∈ points) :
    Settled R points (callEach R e ps).2 ∧ ∀ r ∈ (callEach R e ps).1, r.2.2 = false := by
  induction ps generalizing e with
  | nil => exact ⟨h, fun r hr => absurd hr List.not_mem_nil⟩
  | cons p ps ih =>
    have hp : p ∈ points := hps p List.mem_cons_self
    have hnext : Settled R points (cumulativeDelta R e p.metricName p.attributes p.value).2 := by
      refine ⟨fun q hq => ?_, h.agree⟩
      show Quiet ((e.cumulativeSums.set (p.series.key R) p.value).get? (q.series.key R)) q.value
      rw [Dict.get?_set]
      split
      · next hkey =>
        rw [h.agree p hp q hq hkey.symm]
        exact quiet_self q.value
      · exact h.quiet q hq
    obtain ⟨hsettled, hquiet⟩ := ih hnext fun q hq => hps q (List.mem_cons_of_mem _ hq)
    refine ⟨hsettled, fun r hr => ?_⟩
    rw [callEach_cons] at hr
    rcases List.mem_cons.mp hr with rfl | hmem
    · exact h.quiet p hp
    · exact hquiet r hmem

/-- The points of a sum that is not cumulative are added whatever the table holds. -/
theorem collectSumPoint_batch {mapping : MetricMapping} {name : String} {t : AggregationTemporality}
    (ht : t ≠ .cumulative) (dps : List (NumberDataPoint V)) (batch : EventBatch) :
    (dps.foldl (collectSumPoint R mapping name t) (e₁, batch)).2
      = (dps.foldl (collectSumPoint R mapping name t) (e₂, batch)).2 := by
  induction dps generalizing batch with
  | nil => rfl
  | cons dp dps ih =>
    have hpoint : ∃ batch', ∀ e, collectSumPoint R mapping name t (e, batch) dp = (e, batch') := by
      unfold collectSumPoint
      cases numberValue dp with
      | none => exact ⟨batch, fun _ => rfl⟩
      | some v =>
        cases t with
        | cumulative => exact absurd rfl ht
        | delta => exact ⟨_, fun _ => rfl⟩
        | unspecified => exact ⟨batch, fun _ => rfl⟩
    obtain ⟨batch', hpoint⟩ := hpoint
    rw [List.foldl_cons, List.foldl_cons, hpoint, hpoint]
    exact ih batch'

/-- A metric whose points are quiet adds to a batch what does not depend on the table. -/
theorem collectMetric_batch {metric : Metric V} (mapping : MetricMapping) (batch : EventBatch)
    (hcfg : e₁.cfg = e₂.cfg) (h₁ : ∀ r ∈ (callEach R e₁ (sumPoints resource metric)).1, r.2.2 = false)
    (h₂ : ∀ r ∈ (callEach R e₂ (sumPoints resource metric)).1, r.2.2 = false) :
    (collectMetric R e₁ metric mapping batch).2 = (collectMetric R e₂ metric mapping batch).2 := by
  obtain ⟨name, data⟩ := metric
  -- only a cumulative sum depends on what the exporter remembers
  cases data with
  | sum t dps =>
    by_cases ht : t = .cumulative
    · subst ht
      -- settled readings emit nothing, so the batch stays as it is on both sides
      have hsilent : ∀ e, (∀ r ∈ (callEach R e (sumPoints resource ⟨name, .sum .cumulative dps⟩)).1,
        r.2.2 = false) →
          (dps.foldl (collectSumPoint R mapping name .cumulative) (e, batch)).2 = batch := by
        intro e hquiet
        have hnone : (callEach R e (sumPoints resource ⟨name, .sum .cumulative dps⟩)).1.filter
          (fun r => r.2.2) = [] := by
          apply List.filter_eq_nil_iff.mpr
          intro r hr
          rw [hquiet r hr]
          exact Bool.false_ne_true
        rw [collectSumPoints resource, hnone]
        rfl
      exact (hsilent e₁ h₁).trans (hsilent e₂ h₂).symm
    · exact collectSumPoint_batch ht dps batch
  | gauge dps => rfl
  | histogram t dps =>
    show dps.foldl _ batch = dps.foldl _ batch
    rw [hcfg]
  | summary dps => rfl
  | other => rfl

/-- Two collections of one payload that have come to the same batches. -/
structure Twin (R : Runtime V) (metricMap : Dict String MetricMapping) (points : List (SumPoint V))
    (a b : Exporter × Dict String EventBatch) : Prop where
  batches : a.2 = b.2
  cfg : a.1.cfg = b.1.cfg
  left : a.1.metricMap = metricMap
  right : b.1.metricMap = metricMap
  settledLeft : Settled R points a.1
  settledRight : Settled R points b.1

variable {metricMap : Dict String MetricMapping} {a b : Exporter × Dict String EventBatch}

/-- **One metric** keeps two collections together. -/
theorem Twin.collectMapped (h : Twin R metricMap points a b) (resource : Attributes V)
    {metric : Metric V}
    (hpoints : ∀ p ∈ mappedPoints metricMap resource metric, p ∈ points) :
    Twin R metricMap points (collectMapped R a metric) (collectMapped R b metric) := by
  obtain ⟨e₁, batches⟩ := a
  obtain ⟨e₂, batches'⟩ := b
  have hbatches : batches = batches' := h.batches
  subst hbatches
  have hleft : e₁.metricMap = metricMap := h.left
  have hright : e₂.metricMap = metricMap := h.right
  -- a metric without a mapping changes neither side
  cases hmap : metricMap.get? metric.name with
  | none =>
    rw [collectMapped_of_none (hleft ▸ hmap), collectMapped_of_none (hright ▸ hmap)]
    exact h
  | some mapping =>
    have hmem : ∀ p ∈ sumPoints resource metric, p ∈ points := by
      intro p hp
      apply hpoints
      rw [mappedPoints, hmap]
      exact hp
    -- both exporters have settled on these points, so both batches grow alike
    obtain ⟨hsettled₁, hquiet₁⟩ := callEach_settled h.settledLeft hmem
    obtain ⟨hsettled₂, hquiet₂⟩ := callEach_settled h.settledRight hmem
    have hbatch := collectMetric_batch mapping ((batches.get? mapping.stream).getD {}) h.cfg hquiet₁
      hquiet₂
    rw [collectMapped_of_some (hleft ▸ hmap), collectMapped_of_some (hright ▸ hmap)]
    constructor
    · exact congrArg (batches.set mapping.stream) hbatch
    · show (collectMetric R e₁ metric mapping _).1.cfg = (collectMetric R e₂ metric mapping _).1.cfg
      rw [collectMetric_exporter resource, collectMetric_exporter resource,
        callEach_metricMap.2, callEach_metricMap.2]
      exact h.cfg
    · show (collectMetric R e₁ metric mapping _).1.metricMap = metricMap
      rw [collectMetric_exporter resource, callEach_metricMap.1, hleft]
    · show (collectMetric R e₂ metric mapping _).1.metricMap = metricMap
      rw [collectMetric_exporter resource, callEach_metricMap.1, hright]
    · show Settled R points (collectMetric R e₁ metric mapping _).1
      rw [collectMetric_exporter resource]
      exact hsettled₁
    · show Settled R points (collectMetric R e₂ metric mapping _).1
      rw [collectMetric_exporter resource]
      exact hsettled₂

/-- What each element of a list keeps, the fold over the list keeps. -/
theorem Twin.foldl {α : Type}
    {f : Exporter × Dict String EventBatch → α → Exporter × Dict String EventBatch}
    {l : List α} (hf : ∀ x ∈ l, ∀ a b, Twin R metricMap points a b
      → Twin R metricMap points (f a x) (f b x))
    (h : Twin R metricMap points a b) : Twin R metricMap points (l.foldl f a) (l.foldl f b) := by
  induction l generalizing a b with
  | nil => exact h
  | cons x l ih =>
    exact ih (fun y hy => hf y (List.mem_cons_of_mem _ hy)) (hf x List.mem_cons_self a b h)

/-- **A settled payload gives the same batches again.** -/
theorem collect_settled {md : Metrics V} (h : Settled R (payloadPoints e.metricMap md) e) :
    (collect R (collect R e md).1 md).2 = (collect R e md).2
      ∧ Settled R (payloadPoints (collect R e md).1.metricMap md) (collect R e md).1 := by
  have hnext : Settled R (payloadPoints e.metricMap md) (collect R e md).1 := by
    rw [collect_exporter]
    exact (callEach_settled h fun p hp => hp).1
  have hmap : (collect R e md).1.metricMap = e.metricMap := by
    rw [collect_exporter]
    exact callEach_metricMap.1
  have hcfg : (collect R e md).1.cfg = e.cfg := by
    rw [collect_exporter]
    exact callEach_metricMap.2
  have htwin : Twin R e.metricMap (payloadPoints e.metricMap md) ((collect R e md).1, ∅) (e, ∅) :=
    ⟨rfl, hcfg, hmap, rfl, hnext, h⟩
  refine ⟨?_, hmap.symm ▸ hnext⟩
  -- the three loops, from the outside in; each point of a metric is a point of the payload
  refine (Twin.foldl (fun rm hrm a b hab => ?_) htwin).batches
  refine Twin.foldl (fun ms hms a b hab => ?_) hab
  refine Twin.foldl (fun metric hmetric a b hab => ?_) hab
  apply hab.collectMapped rm.resource
  intro p hp
  exact List.mem_flatMap.mpr
    ⟨rm, hrm, List.mem_flatMap.mpr ⟨ms, hms, List.mem_flatMap.mpr ⟨metric, hmetric, hp⟩⟩⟩

/-! ## Runs of attempts

An attempt that is not taken in delivers nothing, and the one that succeeds delivers every batch
once. -/

variable {md : Metrics V} {s s' : Retrying} {x : Attempt} {attempts : List Attempt}

/-- The pass of an attempt over the batches that it has collected. -/
def Attempt.flush (R : Runtime V) (md : Metrics V) (s : Retrying) (x : Attempt) :
    Except ExportError Unit × Transport :=
  flushBatches x.order (collect R s.exporter md).1.cfg.maxBatchItems (collect R s.exporter md).2
    { replies := x.replies }

theorem attempt_of_ok {t : Transport} (hdone : s.done = false) (hflush : x.flush R md s = (.ok (), t)) :
    attempt R md s x = some ⟨(collect R s.exporter md).1, s.delivered ++ t.applied, true⟩ := by
  unfold Attempt.flush at hflush
  simp [attempt, consumeMetrics, hdone, hflush]

theorem attempt_of_error {t : Transport} {err : ExportError} (hdone : s.done = false)
    (hflush : x.flush R md s = (.error err, t)) (herr : err.retryable = true) :
    attempt R md s x = some ⟨(collect R s.exporter md).1, s.delivered ++ t.applied, false⟩ := by
  unfold Attempt.flush at hflush
  simp [attempt, consumeMetrics, hdone, hflush, herr]

/-- **What an attempt can do**: it comes while the payload is on its way, it adds what the server
takes in, and it is the last one if its pass succeeds. -/
theorem attempt_cases (h : attempt R md s x = some s') :
    s.done = false
      ∧ s' = ⟨(collect R s.exporter md).1, s.delivered ++ (x.flush R md s).2.applied, s'.done⟩
      ∧ (s'.done = true → (x.flush R md s).1 = .ok ()) := by
  unfold attempt consumeMetrics at h
  -- after a success there is no further attempt
  by_cases hbefore : s.done = true
  · rw [if_pos hbefore] at h
    cases h
  rw [if_neg hbefore] at h
  refine ⟨Bool.eq_false_iff.mpr hbefore, ?_⟩
  unfold Attempt.flush
  cases hflush : flushBatches x.order (collect R s.exporter md).1.cfg.maxBatchItems
    (collect R s.exporter md).2
      { replies := x.replies } with
  | mk result t =>
    simp only [hflush] at h
    cases result with
    | ok _ =>
      cases h
      exact ⟨rfl, fun _ => rfl⟩
    | error err =>
      simp only at h
      split at h
      · cases h
        exact ⟨rfl, fun hdone => absurd hdone Bool.false_ne_true⟩
      · cases h

/-- The attempts that failed have delivered nothing, and the payload still gives its batches. -/
structure Pending (R : Runtime V) (md : Metrics V) (batches : Dict String EventBatch)
    (s : Retrying) : Prop where
  delivered : s.delivered = []
  batches : (collect R s.exporter md).2 = batches

/-- **A harmless attempt** leaves the payload as it was. -/
theorem Pending.attempt {batches : Dict String EventBatch} (h : Pending R md batches s)
    (hharmless : Harmless R md s x)
    (hstep : attempt R md s x = some s') : Pending R md batches s' := by
  obtain ⟨hunheard, hsettled⟩ := hharmless
  obtain ⟨_, hs', _⟩ := attempt_cases hstep
  have hnothing : (x.flush R md s).2.applied = [] := flushEach_unheard hunheard
  rw [hs', hnothing, h.delivered]
  exact ⟨rfl, (collect_settled hsettled).1.trans h.batches⟩

/-- **An attempt that succeeds** delivers the batches of the payload. -/
theorem Pending.exactlyOnce {batches : Dict String EventBatch} (h : Pending R md batches s)
    (hstep : Otel.attempt R md s x = some s') (hdone : s'.done = true) :
      ExactlyOnce s'.delivered batches := by
  obtain ⟨_, hs', hok⟩ := attempt_cases hstep
  have hflush : x.flush R md s = (.ok (), (x.flush R md s).2) := Prod.ext (hok hdone) rfl
  rw [hs', h.delivered, ← h.batches]
  exact exactlyOnce_of_flushBatches rfl hflush

/-- **Retries are safe** where the attempts that fail are harmless: for every exporter and every
payload, once an attempt succeeds, all that the payload had to give before the first attempt has
been delivered exactly once. -/
theorem retried_payload_delivered_once (R : Runtime V) (e : Exporter) (md : Metrics V)
    (failed : List Attempt)
    (last : Attempt) {s t : Retrying}
    (hfailed : Runs.run (Otel.attempt R md) { exporter := e } failed = some s)
    (hlast : Otel.attempt R md s last = some t) (hdone : t.done = true)
    (hmeets : Meets (Otel.attempt R md) (Harmless R md) { exporter := e } failed) :
    ExactlyOnce t.delivered (collect R e md).2 := by
  have hstart : Pending R md (collect R e md).2 { exporter := e } := ⟨rfl, rfl⟩
  have hpending := run_invariant (fun s a s' h hharmless hstep =>
    h.attempt hharmless hstep) hstart hmeets hfailed
  exact hpending.exactlyOnce hlast hdone

/-! ## A payload of one metric

A delta arrives once after a loss. A cumulative sum is lost, as its delta was taken in the first
attempt. -/

namespace Requests

def mapping : MetricMapping := ⟨"requests_total", "api.events", .event, "request", Float64.one⟩

/-- An exporter that has seen a counter of 100 requests. -/
def exporter : Exporter where
  cfg := { createDefaultConfig with metrics := [mapping] }
  metricMap := (∅ : Dict String MetricMapping).set "requests_total" mapping
  cumulativeSums := (∅ : Dict String Float64).set (timeseriesKey .plain "requests_total" [])
    (.fin (Binary64.ofInt 100 Binary64.abs_hundred_lt))

def payload (temporality : AggregationTemporality) (value : Binary64) : Metrics String :=
  [⟨[], [[⟨"requests_total", .sum temporality [⟨[], .double (.fin value)⟩]⟩]]⟩]

def batchOf (count : UInt64) : EventBatch := { events := (∅ : Dict String UInt64).set "request" count }

/-- Every request is lost. -/
def lost : Attempt := ⟨.insertion, fun _ => ⟨none, "", false, fun _ h => by cases h⟩⟩

/-- Every request is accepted. -/
def accepted : Attempt := ⟨.insertion, fun _ => ⟨some 202, "", true, fun _ _ _ _ => rfl⟩⟩

theorem collect_payload {e : Exporter} (h : e.metricMap.get? "requests_total" = some mapping)
    (temporality : AggregationTemporality) (value : Binary64) :
    collect .plain e (payload temporality value)
      = ((collectMetric .plain e ⟨"requests_total", .sum temporality [⟨[], .double (.fin value)⟩]⟩
        mapping {}).1,
          (∅ : Dict String EventBatch).set "api.events"
            (collectMetric .plain e ⟨"requests_total",
              .sum temporality [⟨[], .double (.fin value)⟩]⟩ mapping {}).2) :=
  collectMapped_of_some h

theorem addNumber_count {n : ℕ} {value : Binary64} (hvalue : value.val = n) (hpos : 0 < n)
    (hlt : n < 2 ^ 53) :
    addNumber .plain mapping {} (.fin value) = batchOf (UInt64.ofNat n) := by
  have hround : roundToUint64 .plain value.val = UInt64.ofNat n := by
    have hfloor : mathRound value.val = n := by
      rw [hvalue, mathRound, if_neg (not_lt.mpr (Nat.cast_nonneg n))]
      exact Int.floor_eq_iff.mpr ⟨by push_cast; linarith, by push_cast; linarith⟩
    simp only [roundToUint64, hfloor]
    rw [if_pos ⟨by omega, by omega⟩, Int.toNat_natCast]
  have hnot : ¬ value.val ≤ 0 := by
    rw [hvalue]
    exact not_le.mpr (by exact_mod_cast hpos)
  simp only [addNumber, mapping, if_neg hnot, hround, Dict.get?_empty]
  simp [batchOf]

theorem validateStreamPath_events : validateStreamPath "api.events" = .ok () := by
  have hpath : ¬ ("api.events" = "" ∨ "api.events".toList.head? = some '/'
    ∨ "api.events".toList.getLast? = some '/') := by
    decide +kernel
  have hsegments : (("api.events".toList.splitOn '/').find? fun segment =>
      segment = [] ∨ segment = ['.'] ∨ segment = ['.', '.']) = none := by
    decide +kernel
  rw [validateStreamPath, if_neg hpath, hsegments]

theorem splitBatch_count {count : UInt64} (hcount : count ≠ 0) :
    splitBatch .insertion (batchOf count) 1000 = [batchOf count] := by
  have hitems : (batchOf count).events.items = [("request", count)] := rfl
  have hevent : Splitter.addEvent 1000 {} ("request", count)
      = { current := batchOf count, currentItems := 1 } := if_neg hcount
  have hevents : (batchOf count).events.items.foldl (Splitter.addEvent 1000) {}
      = { current := batchOf count, currentItems := 1 } := by
    rw [hitems, List.foldl_cons, hevent, List.foldl_nil]
  show (Splitter.flush ((batchOf count).events.items.foldl (Splitter.addEvent 1000) {})).chunks = _
  rw [hevents]
  rfl

/-- A pass over one batch posts its chunk. -/
theorem flushBatches_count {count : UInt64} (hcount : count ≠ 0) (t : Transport) :
    flushBatches .insertion 1000 ((∅ : Dict String EventBatch).set "api.events" (batchOf count)) t
      = match (t.post "api.events" (batchOf count)).1.status with
        | none => (.error .transport, (t.post "api.events" (batchOf count)).2)
        | some code =>
          if code < 200 ∨ 300 ≤ code then
            (.error (.http code "api.events" (t.post "api.events" (batchOf count)).1.body
              (isPermanentHTTPStatus code)),
              (t.post "api.events" (batchOf count)).2)
          else (.ok (), (t.post "api.events" (batchOf count)).2) := by
  -- one count is one chunk, hence one post
  have hpost : postBatch .insertion 1000 "api.events" (batchOf count) t
      = postChunks "api.events" [batchOf count] t := by
    rw [← splitBatch_count hcount]
    rfl
  show flushEach .insertion 1000 [("api.events", batchOf count)] t = _
  rw [flushEach, hpost, postChunks, if_neg (by simp [EventBatch.marshals, batchOf]),
    validateStreamPath_events]
  simp only [postChunks]
  cases (t.post "api.events" (batchOf count)).1.status with
  | none => rfl
  | some code =>
    by_cases hcode : code < 200 ∨ 300 ≤ code
    · simp only [if_pos hcode]
    · simp only [if_neg hcode]
      rfl

/-- An attempt that collects one batch and is lost. -/
theorem flush_lost {s : Retrying} {md : Metrics String} {count : UInt64} (hcount : count ≠ 0)
    (hcollect : (collect .plain s.exporter md).1.cfg.maxBatchItems = 1000
      ∧ (collect .plain s.exporter md).2 = (∅ : Dict String EventBatch).set "api.events"
        (batchOf count)) :
    lost.flush .plain md s = (.error .transport, { replies := lost.replies, sent := 1 }) := by
  unfold Attempt.flush
  rw [hcollect.1, hcollect.2]
  exact flushBatches_count hcount { replies := lost.replies }

/-- An attempt that collects one batch and is accepted. -/
theorem flush_accepted {s : Retrying} {md : Metrics String} {count : UInt64} (hcount : count ≠ 0)
    (hcollect : (collect .plain s.exporter md).1.cfg.maxBatchItems = 1000
      ∧ (collect .plain s.exporter md).2
        = (∅ : Dict String EventBatch).set "api.events" (batchOf count)) :
    accepted.flush .plain md s
      = (.ok (), { replies := accepted.replies, sent := 1,
                   applied := [("api.events", batchOf count)] }) := by
  unfold Attempt.flush
  rw [hcollect.1, hcollect.2]
  exact flushBatches_count hcount { replies := accepted.replies }

/-- A delta of three requests. -/
def three : Metrics String := payload .delta (Binary64.ofInt 3 Binary64.abs_three_lt)

/-- A counter of 125 requests. -/
def counter : Metrics String := payload .cumulative (Binary64.ofInt 125 (by norm_num))

theorem collect_three : collect .plain exporter three
    = (exporter, (∅ : Dict String EventBatch).set "api.events" (batchOf 3)) := by
  have hadd : addNumber .plain mapping {} (.fin (Binary64.ofInt 3 Binary64.abs_three_lt)) = batchOf 3 :=
    addNumber_count (by norm_num [Binary64.ofInt]) (by norm_num) (by norm_num)
  rw [three, collect_payload Dict.get?_set_self, ← hadd]
  rfl

/-- The exporter after it has seen the counter. -/
def seen : Exporter :=
  { exporter with
    cumulativeSums := exporter.cumulativeSums.set (timeseriesKey .plain "requests_total" [])
      (.fin (Binary64.ofInt 125 (by norm_num))) }

/-- A cumulative point of a metric that is mapped. -/
theorem collect_counter {e : Exporter} (h : e.metricMap.get? "requests_total" = some mapping)
    {value : Binary64} :
    collect .plain e (payload .cumulative value)
      = ({ e with
            cumulativeSums := e.cumulativeSums.set (timeseriesKey .plain "requests_total" [])
              (.fin value) },
          (∅ : Dict String EventBatch).set "api.events"
            (if (deltaFrom (e.cumulativeSums.get? (timeseriesKey .plain "requests_total" []))
                (.fin value)).2 then
              addNumber .plain mapping {}
                (deltaFrom (e.cumulativeSums.get? (timeseriesKey .plain "requests_total" []))
                  (.fin value)).1
            else {})) := by
  rw [collect_payload h]
  rfl

theorem collect_growth : collect .plain exporter counter
    = (seen, (∅ : Dict String EventBatch).set "api.events" (batchOf 25)) := by
  have hadd : addNumber .plain mapping {} (.fin (Binary64.ofInt 25 (by norm_num))) = batchOf 25 :=
    addNumber_count (by norm_num [Binary64.ofInt]) (by norm_num) (by norm_num)
  have hsub : Float64.sub (.fin (Binary64.ofInt 125 (by norm_num)))
    (.fin (Binary64.ofInt 100 Binary64.abs_hundred_lt))
      = .fin (Binary64.ofInt 25 (by norm_num)) := by
    have hdiff : (Binary64.ofInt 125 (by norm_num)).val
      - (Binary64.ofInt 100 Binary64.abs_hundred_lt).val
        = (Binary64.ofInt 25 (by norm_num)).val := by norm_num [Binary64.ofInt]
    rw [Float64.fin_sub_fin, hdiff, Float64.ofRat_of_isBinary64 (Binary64.isBinary64 _)]
  have hdelta : deltaFrom (some (.fin (Binary64.ofInt 100 Binary64.abs_hundred_lt)))
    (.fin (Binary64.ofInt 125 (by norm_num)))
      = (.fin (Binary64.ofInt 25 (by norm_num)), true) := by
    norm_num [deltaFrom, hsub]
  have hget : exporter.cumulativeSums.get? (timeseriesKey .plain "requests_total" [])
      = some (.fin (Binary64.ofInt 100 Binary64.abs_hundred_lt)) := Dict.get?_set_self
  rw [counter, collect_counter Dict.get?_set_self, hget, hdelta, if_pos rfl, hadd]
  rfl

/-- Seen again, the counter gives nothing. -/
theorem collect_again : (collect .plain seen counter).2
    = (∅ : Dict String EventBatch).set "api.events" {} := by
  have hget : seen.cumulativeSums.get? (timeseriesKey .plain "requests_total" [])
      = some (.fin (Binary64.ofInt 125 (by norm_num))) := Dict.get?_set_self
  rw [counter, collect_counter Dict.get?_set_self, hget, quiet_self, if_neg Bool.false_ne_true]

end Requests

open Requests in
/-- A delta of three requests whose first request to the server is lost is delivered by the second. -/
theorem retried_payload_delivered_once_lost :
    ∃ s t, attempt .plain three { exporter } lost = some s ∧ attempt .plain three s accepted = some t
      ∧ t.done = true ∧ ExactlyOnce t.delivered (collect .plain exporter three).2 := by
  have hcollect : (collect .plain exporter three).1.cfg.maxBatchItems = 1000
      ∧ (collect .plain exporter three).2 = (∅ : Dict String EventBatch).set "api.events"
        (batchOf 3) := by
    rw [collect_three]
    exact ⟨rfl, rfl⟩
  have hlost := attempt_of_error rfl (flush_lost (s := { exporter }) (by decide) hcollect) rfl
  rw [collect_three] at hlost
  have haccepted := attempt_of_ok rfl (flush_accepted (s := { exporter }) (by decide) hcollect)
  have hsettled : Settled .plain (payloadPoints exporter.metricMap three) exporter := by
    have hnone : payloadPoints exporter.metricMap three = [] := by
      simp [payloadPoints, three, payload, mappedPoints, sumPoints]
    rw [hnone]
    exact ⟨fun p hp => absurd hp List.not_mem_nil, fun p hp => absurd hp List.not_mem_nil⟩
  refine ⟨_, _, hlost, haccepted, rfl, ?_⟩
  refine retried_payload_delivered_once .plain exporter three [lost] accepted
    (run_cons.mpr ⟨_, hlost, rfl⟩) haccepted
    rfl ⟨⟨rfl, hsettled⟩, fun _ _ => trivial⟩

open Requests in
/-- The counter of requests has grown from 100 to 125. The request that carries the 25 is lost; the
second attempt has nothing to send and succeeds. -/
theorem retried_delta_lost :
    ∃ s t, attempt .plain counter { exporter } lost = some s ∧ attempt .plain counter s accepted
      = some t
      ∧ t.done = true ∧ t.delivered = [] ∧ ¬ ExactlyOnce t.delivered
        (collect .plain exporter counter).2 := by
  have hcollect : (collect .plain exporter counter).1.cfg.maxBatchItems = 1000
      ∧ (collect .plain exporter counter).2 = (∅ : Dict String EventBatch).set "api.events"
        (batchOf 25) := by
    rw [collect_growth]
    exact ⟨rfl, rfl⟩
  have hlost := attempt_of_error rfl (flush_lost (s := { exporter }) (by decide) hcollect) rfl
  rw [collect_growth] at hlost
  have hflush : accepted.flush .plain counter { exporter := seen }
    = (.ok (), { replies := accepted.replies }) := by
    unfold Attempt.flush
    rw [collect_again]
    rfl
  refine ⟨_, _, hlost, attempt_of_ok rfl hflush, rfl, rfl, fun honce => ?_⟩
  -- 25 requests were to be delivered, and there are none
  have hevents := (honce "api.events").events "request"
  rw [collect_growth, Dict.get?_set_self] at hevents
  exact absurd hevents (by decide)

end Sketchlog.Otel
