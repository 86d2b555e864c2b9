import Sketchlog.Python.Windowed

/-!
# `facade.py`: what a `StreamLog` answers

The queries of a log, whichever backend holds it. A percentile is a number or an extremum of the
sketch; the C++ backend returns a double.
-/

namespace Sketchlog.Facade.StreamLog

variable (M : IndexMapping)

/-- `latency_count`. -/
def latencyCount (self : StreamLog) : ℤ :=
  match self.backend with
  | .python log => log.latency.count
  | .cpp log => log.latency.count

/-- `percentile`. -/
def percentile (self : StreamLog) (q : PyFloat) : Except PyError ERat :=
  match self.backend with
  | .python log => log.percentile M q
  | .cpp log => (log.percentile M q).map fun v => (v : ERat)

/-- `count_greater_than`, of a threshold that is not `nan`. -/
def countGreaterThan (self : StreamLog) (threshold : ERat) : ℤ :=
  match self.backend with
  | .python log => log.countGreaterThan M threshold
  | .cpp log => log.countGreaterThan M threshold

/-- `event_count`. -/
def eventCount (self : StreamLog) (eventName : EventKey) : Except PyError ℤ :=
  Sketchlog.StreamLog.facadeEventCount
    (match self.backend with
      | .python log => log.eventCount
      | .cpp log => log.eventCount)
    eventName

end Sketchlog.Facade.StreamLog
