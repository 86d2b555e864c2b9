import Sketchlog.Lib.Dict
import Sketchlog.Otel.Float64

/-!
# `drift.py`: the drift report

`DriftSketch.drift` compares the p99 of the current window of a dimension with the p99 of the window
before. What it reads of a dimension, after `_maybe_rotate`, is a `Reading`; `self._current` is a
dictionary of them, in the order in which the dimensions were first added.
-/

namespace Sketchlog.Alerts

open Binary64 Otel

/-! ## Rounding and roots -/

/-- `round(x, digits)`: the nearest decimal with so many digits, ties to even. -/
def roundTo (digits : ℕ) : Float64 → Float64
  | .fin x => .ofRat (halfEven (x.val * 10 ^ digits) / 10 ^ digits)
  | x => x

/-- `math.sqrt`, of a number that is not negative. A double is a multiple of `4 ^ -1200`; where its
root in the unit `2 ^ -1200` is not whole, it lies strictly between two numbers of which neither is
halfway between two doubles. -/
def mathSqrt : Float64 → Float64
  | .fin x =>
    let n := ⌊x.val * 4 ^ 1200⌋.toNat
    let root := n.sqrt
    .ofRat (if root * root = n then root / 2 ^ 1200 else (2 * root + 1) / 2 ^ 1201)
  | x => x

/-! ## `drift`

A reading has the two percentiles of a dimension. The ratio, the change and the comparison with the
threshold are computed in doubles. -/

inductive Direction where
  | up
  | down
  | new
  deriving DecidableEq, Repr

/-- `total_events` and `p99()` of the two windows of a dimension. -/
structure Reading where
  currCount : ℕ
  prevCount : ℕ
  currP99 : Binary64
  prevP99 : Binary64

structure DriftResult where
  dimension : String
  currentP99 : Float64
  previousP99 : Float64
  currentSamples : ℕ
  previousSamples : ℕ
  driftRatio : Float64
  driftPct : Float64
  direction : Direction

namespace Reading

/-- `curr_p99 / prev_p99`. -/
def ratio (self : Reading) : Float64 := Float64.div (.fin self.currP99) (.fin self.prevP99)

/-- `abs(ratio - 1.0)`. -/
def change (self : Reading) : Float64 := floatAbs (self.ratio.sub .one)

/-- `(ratio - 1.0) * 100`. -/
def percent (self : Reading) : Float64 := (self.ratio.sub .one).mul (.ofRat 100)

/-- The entry of a dimension whose previous p99 is zero. -/
def newResult (self : Reading) (name : String) : DriftResult where
  dimension := name
  currentP99 := roundTo 4 (.fin self.currP99)
  previousP99 := .zero
  currentSamples := self.currCount
  previousSamples := self.prevCount
  driftRatio := .inf false
  driftPct := .inf false
  direction := .new

/-- The entry of a dimension that has changed. -/
def changedResult (self : Reading) (name : String) : DriftResult where
  dimension := name
  currentP99 := roundTo 4 (.fin self.currP99)
  previousP99 := roundTo 4 (.fin self.prevP99)
  currentSamples := self.currCount
  previousSamples := self.prevCount
  driftRatio := roundTo 4 self.ratio
  driftPct := roundTo 2 self.percent
  direction := if Float64.one.lt self.ratio then .up else .down

/-- One round of the loop of `drift`: the entry that it appends to the results. -/
def result? (self : Reading) (threshold : Float64) (name : String) : Option DriftResult :=
  if self.currCount = 0 ∨ self.prevCount = 0 then none
  else if self.prevP99.val = 0 ∧ self.currP99.val = 0 then none
  else if self.prevP99.val = 0 then some (self.newResult name)
  else if floatGe self.change threshold then some (self.changedResult name)
  else none

end Reading

/-- `drift(threshold)`. The sort by `abs(drift_pct)`, largest first, is stable. -/
def drift (current : Dict String Reading) (threshold : Float64) : List DriftResult :=
  (current.items.filterMap fun (name, reading) => reading.result? threshold name).mergeSort
    fun x y => floatGe (floatAbs x.driftPct) (floatAbs y.driftPct)

/-- `{d["dimension"]: d for d in drifts}`. -/
def driftMap (drifts : List DriftResult) : Dict String DriftResult :=
  drifts.foldl (fun entries d => entries.set d.dimension d) ∅

theorem Reading.dimension_of_result? {self : Reading} {threshold : Float64} {name : String}
    {d : DriftResult}
    (h : self.result? threshold name = some d) : d.dimension = name := by
  unfold result? at h
  split at h
  · cases h
  split at h
  · cases h
  split at h
  · cases h
    rfl
  split at h
  · cases h
    rfl
  · cases h

end Sketchlog.Alerts
