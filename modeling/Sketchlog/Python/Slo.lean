import Sketchlog.Python.FacadeReads

/-!
# `slo.py`: `SmartSLOEngine.evaluate`

The target is a percentile of the historical log, and the error rate is the share of the current
latencies that `count_greater_than` counts for it. The two divisions are exact.
-/

namespace Sketchlog.Slo

open Checked

/-- The dictionary that `evaluate` returns. -/
structure Report where
  targetPercentile : Binary64
  targetLatency : ERat
  budgetPercent : Binary64
  currentEvents : ℤ
  currentErrors : ℤ
  currentErrorRate : ℚ
  burnRate : ℚ
  isAlerting : Bool

/-- `if not (0 < x < 1): raise ValueError(..)`; neither `nan` nor an infinity lies in the interval. -/
def inUnit (x : PyFloat) (msg : String) : Except PyError Binary64 :=
  match x with
  | .fin v => if 0 < v.val ∧ v.val < 1 then .ok v else .error (.valueError msg)
  | _ => .error (.valueError msg)

/-- `SmartSLOEngine.evaluate`. -/
def evaluate (M : IndexMapping) (currentStream historicalStream : Facade.StreamLog)
    (targetPercentile budgetPercent : PyFloat) : Except PyError Report := do
  let targetPercentile ← inUnit targetPercentile "target_percentile must be in (0, 1)"
  let budgetPercent ← inUnit budgetPercent "budget_percent must be in (0, 1)"
  let currentLatencyCount := currentStream.latencyCount
  failIf (historicalStream.latencyCount = 0)
    (.valueError "Baseline stream has no latency events to derive target.")
  let targetLatency ← historicalStream.percentile M (.fin targetPercentile)
  let currentErrors := currentStream.countGreaterThan M targetLatency
  let currentErrorRate : ℚ := if currentLatencyCount > 0 then currentErrors / currentLatencyCount else 0
  let burnRate := currentErrorRate / budgetPercent.val
  .ok
    { targetPercentile := targetPercentile
      targetLatency := targetLatency
      budgetPercent := budgetPercent
      currentEvents := currentLatencyCount
      currentErrors := currentErrors
      currentErrorRate := currentErrorRate
      burnRate := burnRate
      isAlerting := burnRate > 1 }

end Sketchlog.Slo
