import Sketchlog.Otel.Float64
import Sketchlog.Python.Diff
import Sketchlog.Python.Slo

/-!
# `canary.py`: `CanaryAnalyzer.analyze`

Two streams are compared by their percentiles, the distances of their distributions, their burn
rates and, on demand, the rate of an event. Each of these figures has a threshold for a warning and
one for a rollback: `_metric_verdict` places the figure among them, and `_bounded_score` says how far
it is from the one to the other.

All of it is computed with floats, which may be infinite or `nan`: the thresholds, the figures and
the scores.
-/

namespace Sketchlog.Canary

open Checked Otel

inductive CanaryVerdict where
  | safe
  | warning
  | rollbackRecommended
  deriving DecidableEq, Repr

/-- `order`. -/
def CanaryVerdict.order : CanaryVerdict → ℕ
  | safe => 0
  | warning => 1
  | rollbackRecommended => 2

/-! ## The configuration -/

structure CanaryThresholds where
  warningP99ShiftPercent : PyFloat
  rollbackP99ShiftPercent : PyFloat
  warningErrorRateIncreasePercent : PyFloat
  rollbackErrorRateIncreasePercent : PyFloat
  warningSloBurnRate : PyFloat
  rollbackSloBurnRate : PyFloat
  warningKsStatistic : PyFloat
  rollbackKsStatistic : PyFloat
  warningWassersteinRatio : PyFloat
  rollbackWassersteinRatio : PyFloat
  warningAnomalyScore : PyFloat
  rollbackAnomalyScore : PyFloat

structure CanaryAnalysisConfig where
  targetPercentile : PyFloat
  budgetPercent : PyFloat
  minLatencyCount : ℤ
  errorEventName : Option String
  thresholds : CanaryThresholds

/-- `x < y`. -/
def lt (x y : PyFloat) : Prop := Otel.Float64.lt x y = true

instance (x y : PyFloat) : Decidable (lt x y) := inferInstanceAs (Decidable (_ = true))

/-- The float of a decimal literal, by its exact value. -/
def literal (m : ℤ) (e : ℕ) (hm : |m| < 2 ^ 53) (he : e ≤ 1074) : PyFloat :=
  .fin ⟨m / 2 ^ e, m, -e, hm, by omega, by omega, by rw [zpow_neg, zpow_natCast]; rfl⟩

namespace CanaryThresholds

/-- `pairs`. -/
def pairs (self : CanaryThresholds) : List (String × PyFloat × PyFloat) :=
  [("p99_shift_percent", self.warningP99ShiftPercent, self.rollbackP99ShiftPercent),
    ("error_rate_increase_percent", self.warningErrorRateIncreasePercent,
      self.rollbackErrorRateIncreasePercent),
    ("slo_burn_rate", self.warningSloBurnRate, self.rollbackSloBurnRate),
    ("ks_statistic", self.warningKsStatistic, self.rollbackKsStatistic),
    ("wasserstein_ratio", self.warningWassersteinRatio, self.rollbackWassersteinRatio),
    ("anomaly_score", self.warningAnomalyScore, self.rollbackAnomalyScore)]

/-- One round of the loop of `__post_init__`. -/
def checkPair : String × PyFloat × PyFloat → Except PyError Unit
  | (name, warning, rollback) => do
    failIf (lt warning Otel.Float64.zero ∨ lt rollback Otel.Float64.zero)
      (.valueError ("Canary threshold " ++ name ++ " must be non-negative."))
    failIf (lt rollback warning)
      (.valueError ("Canary threshold " ++ name ++ " rollback value must be >= warning value."))

/-- `CanaryThresholds.__post_init__`. -/
def postInit (self : CanaryThresholds) : Except PyError Unit := self.pairs.forM checkPair

/-- `CanaryThresholds()`. -/
def default : CanaryThresholds where
  warningP99ShiftPercent := literal 10 0 (by norm_num) (by norm_num)
  rollbackP99ShiftPercent := literal 35 0 (by norm_num) (by norm_num)
  warningErrorRateIncreasePercent := literal 25 0 (by norm_num) (by norm_num)
  rollbackErrorRateIncreasePercent := literal 100 0 (by norm_num) (by norm_num)
  warningSloBurnRate := literal 1 0 Binary64.abs_one_lt (by norm_num)
  rollbackSloBurnRate := literal 4 0 (by norm_num) (by norm_num)
  warningKsStatistic := literal 1080863910568919 53 (by norm_num) (by norm_num)
  rollbackKsStatistic := literal 5404319552844595 54 (by norm_num) (by norm_num)
  warningWassersteinRatio := literal 3602879701896397 54 (by norm_num) (by norm_num)
  rollbackWassersteinRatio := literal 5404319552844595 53 (by norm_num) (by norm_num)
  warningAnomalyScore := literal 3602879701896397 54 (by norm_num) (by norm_num)
  rollbackAnomalyScore := literal 8106479329266893 54 (by norm_num) (by norm_num)

end CanaryThresholds

namespace CanaryAnalysisConfig

/-- `CanaryAnalysisConfig.__post_init__`. -/
def postInit (self : CanaryAnalysisConfig) : Except PyError Unit := do
  failIf (¬ (lt Otel.Float64.zero self.targetPercentile ∧ lt self.targetPercentile Otel.Float64.one))
    (.valueError "target_percentile must be in the range (0, 1).")
  failIf (lt self.budgetPercent Otel.Float64.zero ∨ Otel.Float64.isZero self.budgetPercent = true)
    (.valueError "budget_percent must be > 0.")
  failIf (self.minLatencyCount < 1) (.valueError "min_latency_count must be >= 1.")

/-- `CanaryAnalysisConfig()`. -/
def default : CanaryAnalysisConfig where
  targetPercentile := literal 8962163258467287 53 (by norm_num) (by norm_num)
  budgetPercent := literal 5764607523034235 60 (by norm_num) (by norm_num)
  minLatencyCount := 1
  errorEventName := none
  thresholds := .default

/-- A configuration that can be built: its thresholds have been checked, and then its own fields. -/
def Accepted (self : CanaryAnalysisConfig) : Prop :=
  self.thresholds.postInit = .ok () ∧ self.postInit = .ok ()

/-- `cfg.error_event_name`, as a condition. -/
def hasErrorEvent (self : CanaryAnalysisConfig) : Bool := self.errorEventName.any (· ≠ "")

end CanaryAnalysisConfig

/-! ## Figures

What the analysis reads from the two streams, in doubles throughout. -/

def percentChange (baseline candidate : Float64) : Float64 :=
  if baseline.isZero then if candidate.isZero then .zero else .ofRat 100
  else ((candidate.sub baseline).div (floatAbs baseline)).mul (.ofRat 100)

/-- A quotient of ints is the exact one, rounded. -/
def rate (count denominator : ℤ) : Float64 :=
  if denominator ≤ 0 then .zero else .ofRat (count / denominator)

/-- A percentile as a float. -/
def float : ERat → Float64
  | some (some v) => .ofRat v
  | some none => .inf false
  | none => .inf true

/-- `0.95`. -/
def p95 : Binary64 := ⟨4278419646001971 / 2 ^ 52, 4278419646001971, -52, by norm_num, by
    norm_num, by norm_num, by norm_num⟩

/-- `0.99`. -/
def p99 : Binary64 := ⟨4458563631096791 / 2 ^ 52, 4458563631096791, -52, by norm_num, by
    norm_num, by norm_num, by norm_num⟩

/-- The percentiles of one stream. -/
structure Latency where
  p50 : Float64
  p95 : Float64
  p99 : Float64

/-- The error events of one stream, and their rate. -/
structure Errors where
  count : ℤ
  rate : Float64

/-- What the result says of the two streams, and of the candidate against the baseline. -/
structure Figures where
  baselineCount : ℤ
  candidateCount : ℤ
  baseline : Latency
  candidate : Latency
  p50Shift : Float64
  p95Shift : Float64
  p99Shift : Float64
  ksStatistic : Float64
  wassersteinDistance : Float64
  wassersteinRatio : Float64
  anomalyScore : Float64
  targetLatency : Float64
  baselineBurnRate : Float64
  candidateBurnRate : Float64
  burnRateIncrease : Float64
  baselineErrors : Errors
  candidateErrors : Errors
  errorRateIncreasePercent : Float64

section Figures

variable (M : IndexMapping) (bucketValue : ℚ → ℤ → ℚ)

def percentileOf (stream : Facade.StreamLog) (q : Binary64) : Except PyError Float64 := do
  let v ← stream.percentile M (.fin q)
  .ok (float v)

def latencyOf (stream : Facade.StreamLog) : Except PyError Latency := do
  let p50 ← percentileOf M stream .half
  let p95 ← percentileOf M stream p95
  let p99 ← percentileOf M stream p99
  .ok ⟨p50, p95, p99⟩

/-- The error event of a stream, when one is named, and its rate among all that the stream counts. -/
def errorsOf (stream : Facade.StreamLog) (cfg : CanaryAnalysisConfig) : Except PyError Errors :=
  match cfg.errorEventName with
  | none => .ok ⟨0, .zero⟩
  | some name =>
    if name = "" then .ok ⟨0, .zero⟩
    else do
      let errorCount ← stream.eventCount (.str name)
      .ok ⟨errorCount, rate errorCount (max stream.totalEvents stream.latencyCount)⟩

/-- `float(slo["burn_rate"])`, of which both quotients are rounded. -/
def burnRateOf (report : Slo.Report) : Float64 :=
  Float64.div (.ofRat report.currentErrorRate) (.fin report.budgetPercent)

/-- The figures of `analyze`. `anomaly_score` is the statistic of the streams the other way round. -/
def figures (baselineStream candidateStream : Facade.StreamLog) (cfg : CanaryAnalysisConfig) :
    Except PyError Figures := do
  let baseline ← latencyOf M baselineStream
  let candidate ← latencyOf M candidateStream
  let cdf1 := Diff.getCdf .doubles bucketValue baselineStream
  let cdf2 := Diff.getCdf .doubles bucketValue candidateStream
  let wasserstein := Diff.wassersteinDistance .doubles cdf1 cdf2
  let baselineScale := floatMax (floatAbs baseline.p99) .one
  let baselineSlo ←
    Slo.evaluate M baselineStream baselineStream cfg.targetPercentile cfg.budgetPercent
  let candidateSlo ←
    Slo.evaluate M candidateStream baselineStream cfg.targetPercentile cfg.budgetPercent
  let baselineBurnRate := burnRateOf baselineSlo
  let candidateBurnRate := burnRateOf candidateSlo
  let baselineErrors ← errorsOf baselineStream cfg
  let candidateErrors ← errorsOf candidateStream cfg
  .ok
    { baselineCount := baselineStream.latencyCount
      candidateCount := candidateStream.latencyCount
      baseline := baseline
      candidate := candidate
      p50Shift := percentChange baseline.p50 candidate.p50
      p95Shift := percentChange baseline.p95 candidate.p95
      p99Shift := percentChange baseline.p99 candidate.p99
      ksStatistic := Diff.ksStatistic .doubles cdf1 cdf2
      wassersteinDistance := wasserstein
      wassersteinRatio := Float64.div wasserstein baselineScale
      anomalyScore := Diff.ksStatistic .doubles cdf2 cdf1
      targetLatency := float candidateSlo.targetLatency
      baselineBurnRate := baselineBurnRate
      candidateBurnRate := candidateBurnRate
      burnRateIncrease := floatMax .zero (candidateBurnRate.sub baselineBurnRate)
      baselineErrors := baselineErrors
      candidateErrors := candidateErrors
      errorRateIncreasePercent := percentChange baselineErrors.rate candidateErrors.rate }

end Figures

/-! ## Verdict and score -/

/-- `x <= y`. -/
def le (x y : Float64) : Prop := floatGe y x = true

instance (x y : Float64) : Decidable (le x y) := inferInstanceAs (Decidable (_ = true))

/-- `min(1.0, x)`, which is `1.0` for `nan`. -/
def atMostOne (x : Float64) : Float64 := if x.lt .one then x else .one

def boundedScore (value warning rollback : Float64) : Float64 :=
  if le rollback warning ∨ le value warning then .zero
  else atMostOne ((value.sub warning).div (rollback.sub warning))

def worstVerdict (current candidate : CanaryVerdict) : CanaryVerdict :=
  if candidate.order > current.order then candidate else current

def metricVerdict (value warning rollback : Float64) : CanaryVerdict :=
  if le rollback value then .rollbackRecommended
  else if le warning value then .warning
  else .safe

/-! ## `analyze`

Each figure is judged by two thresholds; the verdict is the worst of them. -/

/-- A text of `reasons`, by what it says. -/
inductive Reason where
  | p99Latency (shift : Float64)
  | ksStatistic (ks : Float64)
  | wassersteinRatio (ratio : Float64)
  | sloBurnRate (increase baseline candidate : Float64)
  | anomalyScore (score : Float64)
  | errorRate (increasePercent : Float64)
  | withinGuardrails

/-- A figure with its thresholds, and the reason it gives. -/
structure Metric where
  value : Float64
  warning : Float64
  rollback : Float64
  reason : Reason

namespace Metric

def verdict (self : Metric) : CanaryVerdict := metricVerdict self.value self.warning self.rollback

def score (self : Metric) : Float64 := boundedScore self.value self.warning self.rollback

end Metric

/-- The figures that are judged, in the order of the code. -/
def metrics (cfg : CanaryAnalysisConfig) (f : Figures) : List Metric :=
  let thresholds := cfg.thresholds
  [⟨f.p99Shift, thresholds.warningP99ShiftPercent, thresholds.rollbackP99ShiftPercent,
    .p99Latency f.p99Shift⟩,
    ⟨f.ksStatistic, thresholds.warningKsStatistic, thresholds.rollbackKsStatistic,
      .ksStatistic f.ksStatistic⟩,
    ⟨f.wassersteinRatio, thresholds.warningWassersteinRatio, thresholds.rollbackWassersteinRatio,
      .wassersteinRatio f.wassersteinRatio⟩,
    ⟨f.burnRateIncrease, thresholds.warningSloBurnRate, thresholds.rollbackSloBurnRate,
      .sloBurnRate f.burnRateIncrease f.baselineBurnRate f.candidateBurnRate⟩,
    ⟨f.anomalyScore, thresholds.warningAnomalyScore, thresholds.rollbackAnomalyScore,
      .anomalyScore f.anomalyScore⟩]
  ++ if cfg.hasErrorEvent then
    [⟨f.errorRateIncreasePercent, thresholds.warningErrorRateIncreasePercent,
      thresholds.rollbackErrorRateIncreasePercent, .errorRate f.errorRateIncreasePercent⟩]
  else []

/-- The judgement of one metric, added to `verdict` and `reasons`. -/
def judge (state : CanaryVerdict × List Reason) (m : Metric) : CanaryVerdict × List Reason :=
  if m.verdict ≠ .safe then (worstVerdict state.1 m.verdict, state.2 ++ [m.reason]) else state

/-- `max(confidence_inputs)`. -/
def confidence : List Metric → Float64
  | [] => .zero
  | m :: rest => rest.foldl (fun greatest m => floatMax greatest m.score) m.score

/-- What `analyze` returns. -/
structure Report where
  verdict : CanaryVerdict
  confidence : Float64
  reasons : List Reason
  figures : Figures
  cfg : CanaryAnalysisConfig

/-- `CanaryAnalyzer.analyze`. -/
def analyze (M : IndexMapping) (bucketValue : ℚ → ℤ → ℚ)
    (baselineStream candidateStream : Facade.StreamLog)
    (config : Option CanaryAnalysisConfig) : Except PyError Report := do
  let cfg := config.getD .default
  failIf (baselineStream.latencyCount < cfg.minLatencyCount)
    (.valueError "Baseline stream does not have enough latency data for canary analysis.")
  failIf (candidateStream.latencyCount < cfg.minLatencyCount)
    (.valueError "Candidate stream does not have enough latency data for canary analysis.")
  let f ← figures M bucketValue baselineStream candidateStream cfg
  let (verdict, reasons) := (metrics cfg f).foldl judge (.safe, [])
  .ok
    { verdict := verdict
      confidence := confidence (metrics cfg f)
      reasons := if reasons.isEmpty then [.withinGuardrails] else reasons
      figures := f
      cfg := cfg }

end Sketchlog.Canary
