import Sketchlog.Cpp.DDSketch
import Sketchlog.Cpp.HyperLogLog
import Sketchlog.Cpp.CountMinSketch
import Sketchlog.Python.HyperLogLog

/-!
# `sketchlog.hpp`: `StreamLog`

Ingestion, merge, reset and the queries of the C++ log, as they are called from Python: a key or an
item is a string, bytes or an int, which the bindings hand to the overload of its type, and which
matches no overload when it is out of range.
-/

namespace Sketchlog.Cpp

open Imperative Checked

structure StreamLog where
  latency : DDSketch
  events : CountMinSketch
  uniques : HyperLogLog
  totalEvents : ℤ

namespace StreamLog

/-- The constructor. -/
def new (relativeAccuracy : PyFloat) (hllPrecision cmsWidth cmsDepth : ℤ) :
    Except PyError StreamLog := do
  let latency ← DDSketch.new relativeAccuracy
  let events ← CountMinSketch.new cmsWidth cmsDepth
  let uniques ← HyperLogLog.new hllPrecision
  .ok ⟨latency, events, uniques, 0⟩

/-- A call on `latency_`. -/
def onLatency : EStateM PyError DDSketch Unit → EStateM PyError StreamLog Unit :=
  zoom latency fun l self => { self with latency := l }

/-- A call on `events_`. -/
def onEvents : EStateM PyError CountMinSketch Unit → EStateM PyError StreamLog Unit :=
  zoom events fun e self => { self with events := e }

/-- A call on `uniques_`. -/
def onUniques : EStateM PyError HyperLogLog Unit → EStateM PyError StreamLog Unit :=
  zoom uniques fun u self => { self with uniques := u }

/-- `add_latency`. -/
def addLatency (M : IndexMapping) (value : PyFloat) : EStateM PyError StreamLog Unit :=
  if value.isFinite = false then onLatency (DDSketch.add M value)
  else do
    let self ← get
    raiseIf (u64 (maxUInt64 - self.totalEvents) < 1)
      (.overflowError "StreamLog: total_events overflow")
    onLatency (DDSketch.add M value)
    modify fun self => { self with totalEvents := u64 (self.totalEvents + 1) }

/-- `valid_count`. -/
def validCount (values : List PyFloat) : ℤ :=
  values.foldl (fun n value => if value.isFinite then u64 (n + 1) else n) 0

/-- `add_batch`. -/
def addBatch (M : IndexMapping) (values : List PyFloat) : EStateM PyError StreamLog Unit := do
  let self ← get
  raiseIf (u64 (maxUInt64 - self.totalEvents) < validCount values)
    (.overflowError "StreamLog: total_events overflow")
  onLatency (DDSketch.addBatch M values)
  modify fun self => { self with totalEvents := u64 (self.totalEvents + validCount values) }

/-- The body of both `add_event` overloads. -/
def addEventWith (add : EStateM PyError CountMinSketch Unit) (count : ℤ) :
    EStateM PyError StreamLog Unit := do
  raiseIf (count ≤ 0) (.valueError "Event count must be strictly positive")
  let self ← get
  raiseIf (u64 (maxUInt64 - self.totalEvents) < u64 count)
    (.overflowError "StreamLog: total_events overflow")
  onEvents add
  modify fun self => { self with totalEvents := u64 (self.totalEvents + u64 count) }

/-- `add_event`, from Python. -/
def addEvent (name : EventKey) (count : ℤ) : EStateM PyError StreamLog Unit := do
  raiseIf (¬ (-2 ^ 63 ≤ count ∧ count ≤ maxInt64)) (.typeError "incompatible function arguments")
  match name with
  | .str s => addEventWith (CountMinSketch.addBytes (utf8 s) count) count
  | .bytes b => addEventWith (CountMinSketch.addBytes b count) count
  | .int n => do
    raiseIf (¬ (0 ≤ n ∧ n ≤ mask64)) (.typeError "incompatible function arguments")
    addEventWith (CountMinSketch.add (UInt64.ofNat n.toNat) count) count

/-- `add_unique`, from Python. An id is hashed by the bytes of its little-endian representation. -/
def addUnique (item : EventKey) : EStateM PyError StreamLog Unit :=
  match item with
  | .str s => onUniques (HyperLogLog.add (utf8 s))
  | .bytes b => onUniques (HyperLogLog.add b)
  | .int n => do
    raiseIf (¬ (0 ≤ n ∧ n ≤ mask64)) (.typeError "incompatible function arguments")
    onUniques (HyperLogLog.add (Sketchlog.HyperLogLog.toBytes8 n.toNat))

/-- `reset`. -/
def reset : EStateM PyError StreamLog Unit := do
  onLatency DDSketch.reset
  onEvents CountMinSketch.reset
  onUniques HyperLogLog.reset
  modify fun self => { self with totalEvents := 0 }

/-- `merge`: the three parts are merged into copies, which are committed together. -/
def merge (other : StreamLog) : EStateM PyError StreamLog Unit := do
  let self ← get
  raiseIf (u64 (maxUInt64 - self.totalEvents) < other.totalEvents)
    (.overflowError "StreamLog: total_events overflow during merge")
  onCopy do
    onLatency (DDSketch.merge other.latency)
    onEvents (CountMinSketch.merge other.events)
    onUniques (HyperLogLog.merge other.uniques)
  modify fun self => { self with totalEvents := u64 (self.totalEvents + other.totalEvents) }

/-! ## Reads -/

/-- `percentile`. -/
def percentile (M : IndexMapping) (self : StreamLog) (q : PyFloat) : Except PyError ℚ :=
  self.latency.quantile M q

/-- `count_greater_than`. -/
def countGreaterThan (M : IndexMapping) (self : StreamLog) (threshold : ERat) : ℤ :=
  self.latency.countGreaterThan M threshold

/-- `event_count`, from Python. -/
def eventCount (self : StreamLog) (name : EventKey) : Except PyError ℤ :=
  match name with
  | .str s => pure (self.events.estimateBytes (utf8 s))
  | .bytes b => pure (self.events.estimateBytes b)
  | .int n =>
    if 0 ≤ n ∧ n ≤ mask64 then pure (self.events.estimate (UInt64.ofNat n.toNat))
    else throw (.typeError "incompatible function arguments")

end StreamLog

end Sketchlog.Cpp
