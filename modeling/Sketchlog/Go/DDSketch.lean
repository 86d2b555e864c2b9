import Sketchlog.Cpp.Basic
import Sketchlog.Lib.Checked
import Sketchlog.Spec.Buckets
import Sketchlog.Python.DDSketch

/-!
# `clients/go/sketch/ddsketch.go`

The quantile sketch of the Go client, over finite values. A `uint64` is an integer reduced modulo
`2^64` where the source computes it, and arithmetic on the rank is exact. `gamma` and `logGamma` are
functions of `alpha`: the index of a value is that of an `IndexMapping`, and the value of a bucket
is an argument. `sum` is left out, only `Sum` reads it.
-/

namespace Sketchlog.Go

open Std Checked Cpp

/-- `DDSketch`. -/
structure DDSketch where
  alpha : ℚ
  buckets : Bins
  zeroCount : ℤ
  count : ℤ
  minVal : ERat
  maxVal : ERat
  deriving DecidableEq

namespace DDSketch

/-- The sketch that `NewDDSketch` builds. -/
def empty (alpha : ℚ) : DDSketch where
  alpha := alpha
  buckets := ∅
  zeroCount := 0
  count := 0
  minVal := ⊤
  maxVal := ⊥

/-- `NewDDSketch`. -/
def new (alpha : ℚ) : Except String DDSketch := do
  failIf (alpha ≤ 0 ∨ alpha ≥ 1) "alpha must be in (0, 1)"
  .ok (empty alpha)

/-- `m[k] += c`; a missing key counts zero. -/
def bump (m : Bins) (k c : ℤ) : Bins := m.insert k (u64 (m.getD k 0 + c))

/-- `Add`. -/
def add (M : IndexMapping) (v : Binary64) (d : DDSketch) : DDSketch :=
  if v.val < 0 then d
  else
    let d := { d with count := u64 (d.count + 1) }
    let d := if (v.val : ERat) < d.minVal then { d with minVal := v.val } else d
    let d := if (v.val : ERat) > d.maxVal then { d with maxVal := v.val } else d
    if v.val = 0 then { d with zeroCount := u64 (d.zeroCount + 1) }
    else { d with buckets := bump d.buckets (M.key d.alpha v.val) 1 }

/-- `rank` as it is first computed, `uint64(math.Ceil(q * float64(d.count)))` or 1. -/
def rankOf (d : DDSketch) (q : ℚ) : ℤ :=
  let rank := u64 ⌈q * d.count⌉
  if rank = 0 then 1 else rank

/-- The loop over the sorted keys: the first at which the cumulative count reaches the rank. -/
def search : List (ℤ × ℤ) → ℤ → ℤ → Option ℤ
  | [], _, _ => none
  | (k, c) :: rest, rank, cum =>
    let cum := u64 (cum + c)
    if cum ≥ rank then some k else search rest rank cum

/-- The bucket that answers `Quantile`; there is none in an empty sketch, or when the loop ends
without one. -/
def selected (d : DDSketch) (q : ℚ) : Option Bucket :=
  if d.count = 0 then none
  else
    let rank := d.rankOf q
    if rank ≤ d.zeroCount then some .zero
    else (search d.buckets.toList (u64 (rank - d.zeroCount)) 0).map .positive

/-- What `Quantile` returns for a bucket; `value k` is `2 * math.Pow(d.gamma, float64(k)) / (d.gamma
+ 1)`. -/
def answer (value : ℤ → ERat) : Bucket → ERat
  | .positive k => value k
  | .zero | .negative _ => (0 : ℚ)  -- no bucket is negative

/-- `Quantile`. -/
def quantile (value : ℤ → ERat) (d : DDSketch) (q : ℚ) : Except String ERat := do
  failIf (q < 0 ∨ q > 1) "q must be in [0, 1]"
  failIf (d.count = 0) "sketch is empty"
  match d.selected q with
  | some b => .ok (answer value b)
  | none => .ok d.maxVal

/-- `for k, v := range other.buckets { d.buckets[k] += v }`, whose order does not matter to the sums. -/
def addBuckets (m other : Bins) : Bins :=
  other.toList.foldl (fun (acc : Bins) (p : ℤ × ℤ) => bump acc p.1 p.2) m

/-- `Merge`. -/
def merge (other d : DDSketch) : Except String DDSketch := do
  failIf (d.alpha ≠ other.alpha) "alpha mismatch"
  let d := { d with buckets := addBuckets d.buckets other.buckets }
  let d := { d with zeroCount := u64 (d.zeroCount + other.zeroCount) }
  let d := { d with count := u64 (d.count + other.count) }
  let d := if other.minVal < d.minVal then { d with minVal := other.minVal } else d
  let d := if other.maxVal > d.maxVal then { d with maxVal := other.maxVal } else d
  .ok d

end DDSketch

end Sketchlog.Go
