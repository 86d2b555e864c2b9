import Sketchlog.Python.DDSketch
import Sketchlog.Python.HyperLogLog
import Sketchlog.Python.CountMinSketch

/-!
# `facade.py`: `_PythonStreamLog`

Ingestion, merge and reset of the pure-Python log. `merge` reads both logs, builds the three merged
sketches in local variables and commits them at the end; its latency, uniques and events parts are
`mergeLatency`, `mergeUniques` and `mergeTable`.
-/

namespace Sketchlog

open Std Imperative Checked CountMap

/-- `_PythonStreamLog`. -/
@[ext]
structure StreamLog where
  latency : DDSketch
  events : CountMinSketch
  uniques : HyperLogLog
  total : ℤ
  deterministic : Bool
  deriving DecidableEq

/-- The constructor's arguments. -/
structure Config where
  relativeAccuracy : PyFloat
  hllPrecision : ℤ
  cmsWidth : ℤ
  cmsDepth : ℤ
  deterministic : Bool

namespace StreamLog

/-- `MAX_CMS_CELLS`. -/
def maxCmsCells : ℤ := 1000000

/-- `_PythonStreamLog.__init__`. -/
def new (cfg : Config) : Except PyError StreamLog := do
  failIf (cfg.cmsWidth ≤ 0 ∨ cfg.cmsDepth ≤ 0)
    (.valueError "CountMinSketch width and depth must be > 0")
  failIf (cfg.cmsWidth > maxCmsCells / cfg.cmsDepth)
    (.valueError s!"CountMinSketch dimensions exceed {maxCmsCells} cells")
  let latency ← DDSketch.new cfg.relativeAccuracy
  let events ← CountMinSketch.new cfg.cmsWidth cfg.cmsDepth
  let uniques ← HyperLogLog.new cfg.hllPrecision
  .ok ⟨latency, events, uniques, 0, cfg.deterministic⟩

/-- A call on `self._latency`. -/
def onLatency : EStateM PyError DDSketch Unit → EStateM PyError StreamLog Unit :=
  zoom latency fun l self => { self with latency := l }

/-- A call on `self._events`. -/
def onEvents : EStateM PyError CountMinSketch Unit → EStateM PyError StreamLog Unit :=
  zoom events fun e self => { self with events := e }

/-- A call on `self._uniques`. -/
def onUniques : EStateM PyError HyperLogLog Unit → EStateM PyError StreamLog Unit :=
  zoom uniques fun u self => { self with uniques := u }

/-- `add_latency`. -/
def addLatency (M : IndexMapping) (value : PyFloat) : EStateM PyError StreamLog Unit := do
  let self ← get
  raiseIf (value.isFinite ∧ self.total = maxUInt64)
    (.overflowError "StreamLog: total_events overflow")
  let countBefore := self.latency.count
  onLatency (DDSketch.add M value 1)
  modify fun self =>
    if self.latency.count > countBefore then { self with total := self.total + 1 } else self

/-- `add_batch`. -/
def addBatch (M : IndexMapping) (values : List PyFloat) : EStateM PyError StreamLog Unit := do
  let self ← get
  let validCount : ℤ := values.countP (·.isFinite)
  raiseIf (self.total > maxUInt64 - validCount)
    (.overflowError "StreamLog: total_events overflow")
  let countBefore := self.latency.count
  onLatency (DDSketch.addBatch M values)
  modify fun self => { self with total := self.total + (self.latency.count - countBefore) }

/-- An `int` key outside the unsigned 64-bit range. -/
def keyOutOfRange : EventKey → Prop
  | .int n => ¬ (0 ≤ n ∧ n ≤ mask64)
  | _ => False

instance : (name : EventKey) → Decidable (keyOutOfRange name)
  | .int _ => inferInstanceAs (Decidable (¬ _))
  | .bytes _ | .str _ => inferInstanceAs (Decidable False)

/-- `add_event`. -/
def addEvent (name : EventKey) (count : ℤ) : EStateM PyError StreamLog Unit := do
  raiseIf (count ≤ 0) (.valueError "Event count must be strictly positive")
  raiseIf (count > maxInt64) (.overflowError "Event count exceeds int64 capacity")
  raiseIf (keyOutOfRange name) (.valueError "Event integer key out of range for 64-bit unsigned")
  let self ← get
  raiseIf (self.total > maxUInt64 - count) (.overflowError "StreamLog: total_events overflow")
  onEvents (CountMinSketch.add name count)
  modify fun self => { self with total := self.total + count }

/-- `add_unique`. -/
def addUnique (item : UniqueItem) : EStateM PyError StreamLog Unit := do
  raiseIf (HyperLogLog.intOutOfRange item)
    (.valueError "Unique integer out of range for 64-bit unsigned")
  onUniques (HyperLogLog.add item)

/-- `reset`. -/
def reset : EStateM PyError StreamLog Unit := do
  onLatency DDSketch.reset
  onEvents CountMinSketch.reset
  onUniques HyperLogLog.reset
  modify fun self => { self with total := 0 }

/-! ## Merge

All checks come before the first write: the new bins and the new table are computed, and only
`commitMerge` stores them. -/

/-- The bin loop of `merge`. -/
def mergeBins (bins other : Bins) : Except PyError Bins :=
  other.toList.foldlM (fun acc p =>
    if acc.getD p.1 0 > (maxInt64 : ℤ) - p.2 then
      .error (.overflowError "DDSketch: bin count overflow")
    else .ok (bump acc p.1 p.2)) bins

/-- The DDSketch part of `merge`. -/
def mergeLatency (self other : DDSketch) : Except PyError DDSketch := do
  let newPositive ← mergeBins self.positive other.positive
  failIf (newPositive.size > DDSketch.maxBins)
    (.valueError "DDSketch occupied positive bucket count exceeds bounded capacity")
  let newNegative ← mergeBins self.negative other.negative
  failIf (newNegative.size > DDSketch.maxBins)
    (.valueError "DDSketch occupied negative bucket count exceeds bounded capacity")
  .ok
    { alpha := self.alpha
      positive := newPositive
      negative := newNegative
      zeroCount := self.zeroCount + other.zeroCount
      count := self.count + other.count
      min := if other.count > 0 then min self.min other.min else self.min
      max := if other.count > 0 then max self.max other.max else self.max }

/-- The HyperLogLog part of `merge`: register-wise max. -/
def mergeUniques (self other : HyperLogLog) : HyperLogLog :=
  { self with registers := self.registers.zipWith max other.registers }

/-- One row of the CountMinSketch part of `merge`. -/
def mergeRow (selfRow otherRow : List ℤ) : Except PyError (List ℤ) :=
  (selfRow.zip otherRow).mapM fun lr =>
    if lr.1 > (maxInt64 : ℤ) - lr.2 then
      .error (.overflowError "CountMinSketch: bucket counter overflow")
    else .ok (lr.1 + lr.2)

/-- The CountMinSketch part of `merge`: cell-wise addition. -/
def mergeTable (self other : List (List ℤ)) : Except PyError (List (List ℤ)) :=
  (self.zip other).mapM fun rows => mergeRow rows.1 rows.2

/-- The checks `merge` makes before it builds the merged sketches. -/
def checkMerge (self other : StreamLog) : EStateM PyError StreamLog Unit := do
  let alpha := self.latency.alpha
  let otherAlpha := other.latency.alpha
  raiseIf (alpha ≠ otherAlpha)
    (.valueError s!"Cannot merge: DDSketch alpha mismatch ({alpha} vs {otherAlpha})")
  let p := self.uniques.p
  let otherP := other.uniques.p
  raiseIf (p ≠ otherP) (.valueError s!"Cannot merge: HLL precision mismatch ({p} vs {otherP})")
  let width := self.events.width
  let depth := self.events.depth
  let otherWidth := other.events.width
  let otherDepth := other.events.depth
  raiseIf (width ≠ otherWidth ∨ depth ≠ otherDepth)
    (.valueError
      s!"Cannot merge: CMS dimensions mismatch ({width}x{depth} vs {otherWidth}x{otherDepth})")
  raiseIf (self.total > maxUInt64 - other.total)
    (.overflowError "StreamLog: total_events overflow")
  raiseIf (self.latency.count > maxUInt64 - other.latency.count)
    (.overflowError "DDSketch: total count overflow")
  raiseIf (self.latency.zeroCount > maxInt64 - other.latency.zeroCount)
    (.overflowError "DDSketch: zero count overflow")
  raiseIf (self.events.total > maxInt64 - other.events.total)
    (.overflowError "CountMinSketch: total_count overflow")

/-- The writes of `merge`. -/
def commitMerge (other : StreamLog) (newLatency : DDSketch) (newUniques : HyperLogLog)
    (newTable : List (List ℤ)) : EStateM PyError StreamLog Unit := do
  modify fun self => { self with latency := newLatency }
  modify fun self => { self with uniques := newUniques }
  modify fun self => { self with events := { self.events with table := newTable } }
  modify fun self =>
    { self with events := { self.events with total := self.events.total + other.events.total } }
  modify fun self => { self with total := self.total + other.total }

/-- `merge`. -/
def merge (other : StreamLog) : EStateM PyError StreamLog Unit := do
  let self ← get
  checkMerge self other
  let newLatency ← liftExcept (mergeLatency self.latency other.latency)
  let newUniques := mergeUniques self.uniques other.uniques
  let newTable ← liftExcept (mergeTable self.events.table other.events.table)
  commitMerge other newLatency newUniques newTable

/-! ## Reads -/

/-- `percentile`. -/
def percentile (M : IndexMapping) (self : StreamLog) (q : PyFloat) : Except PyError ERat :=
  self.latency.quantile M q

/-- `count_greater_than`. -/
def countGreaterThan (M : IndexMapping) (self : StreamLog) (threshold : ERat) : ℤ :=
  self.latency.countGreaterThan M threshold

/-- `event_count`. -/
def eventCount (self : StreamLog) (eventName : EventKey) : Except PyError ℤ :=
  self.events.estimate eventName

/-- `event_count` of the facade, over the `event_count` of its backend. -/
def facadeEventCount (backend : EventKey → Except PyError ℤ) (eventName : EventKey) :
    Except PyError ℤ := do
  failIf (keyOutOfRange eventName)
    (.valueError "Event integer key out of range for 64-bit unsigned")
  backend eventName

end StreamLog

end Sketchlog
