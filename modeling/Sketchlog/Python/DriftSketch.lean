import Sketchlog.Alerting.Drift
import Sketchlog.Python.Canary

/-!
# `drift.py`: `DriftSketch`

Each dimension has two logs, one for the current window and one for the window before. The
dictionaries hold references: a rotation moves the reference of the current log to the other
dictionary, and a new log takes its place. Nothing rotates by itself. Every call checks the clock
for the dimensions it comes to, under the lock, so that a call is one step.

`clock i` is the `i`-th reading of `monotonic_ns`. The state of the detector of a dimension is kept
as the values it has been updated with.
-/

namespace Sketchlog

/-- `add_batch` of the facade. -/
def Facade.StreamLog.addBatch (M : IndexMapping) (values : List PyFloat) :
    EStateM PyError StreamLog Unit :=
  dispatch (Sketchlog.StreamLog.addBatch M values) (Cpp.StreamLog.addBatch M values)

/-- `DriftSketch`. A reference is a position in `logs`. -/
structure DriftSketch where
  logs : List Facade.StreamLog
  current : Dict String ℕ
  previous : Dict String ℕ
  windowStart : Dict String ℤ
  eventCounts : Dict String ℤ
  cusum : Dict String (List Otel.Float64)
  /-- How often the clock has been read. -/
  clockReads : ℕ

namespace DriftSketch

/-- `_window_ns` and `_sk_kwargs`. -/
structure Settings where
  windowNs : ℕ
  window_pos : 0 < windowNs
  skKwargs : Config

/-- `__init__`. -/
def new : DriftSketch := ⟨[], ∅, ∅, ∅, ∅, ∅, 0⟩

variable (clock : ℕ → ℤ) (M : IndexMapping) (cppAvailable : Bool) (settings : Settings)

def monotonicNs : EStateM PyError DriftSketch ℤ := do
  let self ← get
  set { self with clockReads := self.clockReads + 1 }
  pure (clock self.clockReads)

/-! ## Logs and references

The dimensions hold references to logs, since one log can be the current window of one reading and
the previous one of the next. -/

/-- `StreamLog(**self._sk_kwargs)`. -/
def newLog : EStateM PyError DriftSketch ℕ := do
  let log ← liftExcept (Facade.StreamLog.new cppAvailable
    { settings.skKwargs with deterministic := false })
  let self ← get
  set { self with logs := self.logs ++ [log] }
  pure self.logs.length

/-- `d[name]`. -/
def item {β : Type} (d : Dict String β) (name : String) : Except PyError β :=
  match d.get? name with
  | some v => .ok v
  | none => .error (.keyError ("'" ++ name ++ "'"))

/-- The log of a reference. No reference dangles. -/
def logAt (ref : ℕ) : EStateM PyError DriftSketch Facade.StreamLog := do
  let self ← get
  match self.logs[ref]? with
  | some log => pure log
  | none => throw (.runtimeError "dangling reference")

/-- A call on the log of a reference. -/
def onLog (ref : ℕ) (x : EStateM PyError Facade.StreamLog Unit) :
    EStateM PyError DriftSketch Unit := do
  let log ← logAt ref
  Imperative.zoom (fun _ => log) (fun log self => { self with logs := self.logs.set ref log }) x

def currentLog (name : String) : EStateM PyError DriftSketch Facade.StreamLog := do
  let self ← get
  logAt (← liftExcept (item self.current name))

def previousLog (name : String) : EStateM PyError DriftSketch Facade.StreamLog := do
  let self ← get
  logAt (← liftExcept (item self.previous name))

/-- `self._event_counts[name]`, which enters a new name. -/
def eventCount (name : String) : EStateM PyError DriftSketch ℤ := do
  let self ← get
  match self.eventCounts.get? name with
  | some n => pure n
  | none => do
    set { self with eventCounts := self.eventCounts.set name 0 }
    pure 0

/-- `self._event_counts[name] += n`. -/
def countEvents (name : String) (n : ℤ) : EStateM PyError DriftSketch Unit := do
  let count ← eventCount name
  modify fun self => { self with eventCounts := self.eventCounts.set name (count + n) }

/-! ## Windows

A dimension rotates when it is read or written: by one window, or by several, after which both
windows are empty. -/

/-- `_get_or_create`. -/
def getOrCreate (name : String) : EStateM PyError DriftSketch Unit := do
  let self ← get
  if (self.current.get? name).isNone then do
    let current ← newLog cppAvailable settings
    modify fun self => { self with current := self.current.set name current }
    let previous ← newLog cppAvailable settings
    modify fun self => { self with previous := self.previous.set name previous }
    let now ← monotonicNs clock
    modify fun self => { self with windowStart := self.windowStart.set name now }
  else pure ()

/-- `_update_cusum`. -/
def updateCusum (name : String) (value : Otel.Float64) : EStateM PyError DriftSketch Unit :=
  modify fun self =>
    { self with cusum := self.cusum.set name ((self.cusum.get? name).getD [] ++ [value]) }

/-- `self._update_cusum(name, self._current[name].p99())`. -/
def updateWithP99 (name : String) : EStateM PyError DriftSketch Unit := do
  let log ← currentLog name
  let value ← liftExcept (Canary.percentileOf M log Canary.p99)
  updateCusum name value

/-- `_maybe_rotate`. -/
def maybeRotate (name : String) : EStateM PyError DriftSketch Unit := do
  let nowNs ← monotonicNs clock
  let self ← get
  let start ← liftExcept (item self.windowStart name)
  let elapsedNs := nowNs - start
  if settings.windowNs ≤ elapsedNs then do
    let windowsElapsed := elapsedNs / settings.windowNs
    if 2 ≤ windowsElapsed then do
      updateWithP99 M name
      let backfillSteps := min (windowsElapsed - 1) 100
      (List.replicate backfillSteps.toNat Otel.Float64.zero).forM (updateCusum name)
      let empty ← newLog cppAvailable settings
      modify fun self => { self with previous := self.previous.set name empty }
    else do
      updateWithP99 M name
      let self ← get
      let frozen ← liftExcept (item self.current name)
      modify fun self => { self with previous := self.previous.set name frozen }
    let fresh ← newLog cppAvailable settings
    modify fun self => { self with current := self.current.set name fresh }
    modify fun self =>
      { self with windowStart :=
          self.windowStart.set name (start + windowsElapsed * settings.windowNs) }
  else pure ()

/-! ## Additions -/

/-- `add`. -/
def add (dimension : String) (value : PyFloat) : EStateM PyError DriftSketch Unit := do
  getOrCreate clock cppAvailable settings dimension
  maybeRotate clock M cppAvailable settings dimension
  let self ← get
  let sketch ← liftExcept (item self.current dimension)
  let countBefore := (← logAt sketch).totalEvents
  onLog sketch (Facade.StreamLog.add M (.latency value))
  if (← logAt sketch).totalEvents > countBefore then countEvents dimension 1 else pure ()

/-- `add_batch`, of the values as a list. -/
def addBatch (dimension : String) (values : List PyFloat) : EStateM PyError DriftSketch Unit := do
  getOrCreate clock cppAvailable settings dimension
  maybeRotate clock M cppAvailable settings dimension
  let self ← get
  let sketch ← liftExcept (item self.current dimension)
  let countBefore := (← logAt sketch).totalEvents
  onLog sketch (Facade.StreamLog.addBatch M values)
  countEvents dimension ((← logAt sketch).totalEvents - countBefore)

/-! ## Reports -/

open Alerts (Reading DriftResult roundTo)
open Otel

/-- A p99 is a number: that of an empty log is zero, and that of another one lies between its
extrema. -/
def numberOf : Float64 → Binary64
  | .fin x => x
  | _ => .ofInt 0 Binary64.abs_zero_lt

/-- What a report reads of the two windows of a dimension. -/
def reading (name : String) : EStateM PyError DriftSketch Reading := do
  let current ← currentLog name
  let previous ← previousLog name
  let currP99 ← liftExcept (Canary.percentileOf M current Canary.p99)
  let prevP99 ← liftExcept (Canary.percentileOf M previous Canary.p99)
  pure { currCount := current.totalEvents.toNat
         prevCount := previous.totalEvents.toNat
         currP99 := numberOf currP99
         prevP99 := numberOf prevP99 }

/-- `anomalies`, of which the report is the detector's. -/
def anomalies : EStateM PyError DriftSketch Unit := do
  let self ← get
  self.current.keys.forM (maybeRotate clock M cppAvailable settings)

/-- `drift`. -/
def drift (threshold : Float64) : EStateM PyError DriftSketch (List DriftResult) := do
  let self ← get
  let results ← self.current.keys.mapM fun name => do
    maybeRotate clock M cppAvailable settings name
    let reading ← reading M name
    pure (reading.result? threshold name)
  pure (results.reduceOption.mergeSort fun x y =>
    floatGe (floatAbs x.driftPct) (floatAbs y.driftPct))

/-- The directions of two dimensions. -/
inductive Joint where
  | up
  | down
  | mixed

/-- `CorrelationResult`. -/
structure Correlation where
  pair : String × String
  direction : Joint
  score : Float64
  aDriftPct : Float64
  bDriftPct : Float64

/-- One pair of the loop of `correlations`. -/
def correlation (a b : String × Float64) : Option Correlation :=
  let aUp := Float64.one.lt a.2
  let bUp := Float64.one.lt b.2
  let aChg := floatAbs (a.2.sub .one)
  let bChg := floatAbs (b.2.sub .one)
  if (aChg.add bChg).lt (.ofRat (1 / 100)) then none
  else
    let sim := Float64.one.sub ((floatAbs (aChg.sub bChg)).div (aChg.add bChg))
    let score := if aUp = bUp then sim else floatNeg sim
    if (Float64.ofRat (1 / 10)).lt (floatAbs score) then
      some { pair := (a.1, b.1)
             direction := if aUp = bUp then (if aUp then .up else .down) else .mixed
             score := roundTo 4 score
             aDriftPct := roundTo 2 ((a.2.sub .one).mul (.ofRat 100))
             bDriftPct := roundTo 2 ((b.2.sub .one).mul (.ofRat 100)) }
    else none

/-- The loops over the pairs. -/
def correlationPairs : List (String × Float64) → List Correlation
  | [] => []
  | a :: rest => rest.filterMap (correlation a) ++ correlationPairs rest

/-- `correlations`. -/
def correlations (minEvents : ℤ) : EStateM PyError DriftSketch (List Correlation) := do
  let self ← get
  let driftData ← self.current.keys.mapM fun name => do
    let events ← eventCount name
    if events < minEvents then pure none
    else do
      maybeRotate clock M cppAvailable settings name
      let reading ← reading M name
      if reading.currCount = 0 ∨ reading.prevCount = 0 then pure none
      else if 0 < reading.prevP99.val then pure (some (name, reading.ratio))
      else pure none
  let names := driftData.reduceOption.mergeSort fun a b => a.1 ≤ b.1
  pure ((correlationPairs names).mergeSort fun x y =>
    floatGe (floatAbs x.score) (floatAbs y.score))

/-- An entry of `summary`. -/
structure Metric where
  dimension : String
  events : ℤ
  currentP99 : Float64
  previousP99 : Float64

/-- `summary`: the entries and `total_events`. -/
def summary : EStateM PyError DriftSketch (List Metric × ℤ) := do
  let self ← get
  let dims ← (self.current.keys.mergeSort (· ≤ ·)).mapM fun name => do
    maybeRotate clock M cppAvailable settings name
    let events ← eventCount name
    let reading ← reading M name
    pure (⟨name, events, roundTo 4 (.fin reading.currP99),
      roundTo 4 (.fin reading.prevP99)⟩ : Metric)
  pure (dims, (dims.map (·.events)).sum)

end DriftSketch

end Sketchlog
