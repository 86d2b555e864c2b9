import Sketchlog.Lib.StepFunction
import Sketchlog.Otel.Float64
import Sketchlog.Python.FacadeReads

/-!
# `diff.py`: distances of two logs

`get_cdf` reads the buckets of a log, puts their values in order and accumulates the counts; the two
distances sweep over the values of two such lists with one pointer in each.

The code computes with floats. `Arithmetic` has the operations it uses, so that the same definitions
also say what it would compute exactly. The values of the buckets are kept exact, as they are only
compared and subtracted; `bucketValue` stands for the `bucket_value` of `get_cdf`, which computes
with `math.pow` by the accuracy and the index.
-/

namespace Sketchlog.Diff

open StepFunction

/-- The operations on numbers of which the code makes use. -/
structure Arithmetic (α : Type) where
  ofRat : ℚ → α
  add : α → α → α
  sub : α → α → α
  mul : α → α → α
  div : α → α → α
  abs : α → α
  lt : α → α → Bool

namespace Arithmetic

/-- Every result is exact. -/
def exact : Arithmetic ℚ := ⟨id, (· + ·), (· - ·), (· * ·), (· / ·), (|·|), fun x y => decide (x < y)⟩

/-- Every result is rounded to the nearest double. -/
def doubles : Arithmetic PyFloat where
  ofRat := Otel.Float64.ofRat
  add := Otel.Float64.add
  sub := Otel.Float64.sub
  mul := Otel.Float64.mul
  div := Otel.Float64.div
  abs := Otel.floatAbs
  lt := Otel.Float64.lt

@[simp] theorem exact_ofRat (x : ℚ) : exact.ofRat x = x := rfl

@[simp] theorem exact_add (x y : ℚ) : exact.add x y = x + y := rfl

@[simp] theorem exact_sub (x y : ℚ) : exact.sub x y = x - y := rfl

@[simp] theorem exact_mul (x y : ℚ) : exact.mul x y = x * y := rfl

@[simp] theorem exact_div (x y : ℚ) : exact.div x y = x / y := rfl

@[simp] theorem exact_abs (x : ℚ) : exact.abs x = |x| := rfl

@[simp] theorem exact_lt (x y : ℚ) : exact.lt x y = decide (x < y) := rfl

@[simp] theorem doubles_ofRat (x : ℚ) : doubles.ofRat x = Otel.Float64.ofRat x := by
  rw [doubles]

@[simp] theorem doubles_add (x y : PyFloat) : doubles.add x y = Otel.Float64.add x y := by
  rw [doubles]

@[simp] theorem doubles_sub (x y : PyFloat) : doubles.sub x y = Otel.Float64.sub x y := by
  rw [doubles]

@[simp] theorem doubles_div (x y : PyFloat) : doubles.div x y = Otel.Float64.div x y := by
  rw [doubles]

@[simp] theorem doubles_abs (x : PyFloat) : doubles.abs x = Otel.floatAbs x := by
  rw [doubles]

@[simp] theorem doubles_lt (x y : PyFloat) : doubles.lt x y = Otel.Float64.lt x y := by
  rw [doubles]

end Arithmetic

/-- What is read of `to_dict()['latency']`, with the bucket indexes as ints. -/
structure LatencyState where
  alpha : ℚ
  positive : List (ℤ × ℤ)
  negative : List (ℤ × ℤ)
  zeroCount : ℤ
  count : ℤ

def latencyState (stream : Facade.StreamLog) : LatencyState :=
  match stream.backend with
  | .python log =>
    ⟨log.latency.alpha, log.latency.positive.toList, log.latency.negative.toList,
      log.latency.zeroCount, log.latency.count⟩
  | .cpp log =>
    let lat := log.latency.getState
    ⟨log.latency.alpha.val, (lat.posIndices.zip lat.posBins).filter fun kc => kc.2 > 0,
      (lat.negIndices.zip lat.negBins).filter fun kc => kc.2 > 0, lat.zeroCount, lat.count⟩

/-- `points`, before they are sorted. -/
def points (bucketValue : ℚ → ℤ → ℚ) (state : LatencyState) : List (ℚ × ℤ) :=
  state.negative.map (fun kc => (-(bucketValue state.alpha kc.1), kc.2))
    ++ (if state.zeroCount > 0 then [(0, state.zeroCount)] else [])
    ++ state.positive.map fun kc => (bucketValue state.alpha kc.1, kc.2)

section Sweeps

variable {α : Type} (A : Arithmetic α)

/-- The loop that computes the CDF. -/
def accumulate (totalCount : ℤ) : α → List (ℚ × ℤ) → List (ℚ × α)
  | _, [] => []
  | cum, (val, count) :: rest =>
    let cum := A.add cum (A.ofRat count)
    (val, A.div cum (A.ofRat totalCount)) :: accumulate totalCount cum rest

/-- `get_cdf`. The sort by value is stable. -/
def getCdf (bucketValue : ℚ → ℤ → ℚ) (stream : Facade.StreamLog) : List (ℚ × α) :=
  let state := latencyState stream
  if state.count = 0 then []
  else accumulate A state.count (A.ofRat 0) <|
    (points bucketValue state).mergeSort fun x y => x.1 ≤ y.1

/-- `sorted(list(set(..)))`. -/
def allVals (cdf1 cdf2 : List (ℚ × α)) : List ℚ :=
  (cdf1.map Prod.fst ++ cdf2.map Prod.fst).toFinset.sort (· ≤ ·)

/-- The pointers `i` and `j`, by the points that are left, and `p1` and `p2`. -/
structure Pointers (α : Type) where
  left : List (ℚ × α) × α
  right : List (ℚ × α) × α

namespace Pointers

def start (cdf1 cdf2 : List (ℚ × α)) : Pointers α := ⟨(cdf1, A.ofRat 0), (cdf2, A.ofRat 0)⟩

/-- The two inner loops. -/
def advance (self : Pointers α) (v : ℚ) : Pointers α where
  left := StepFunction.advance v self.left.1 self.left.2
  right := StepFunction.advance v self.right.1 self.right.2

/-- `abs(p1 - p2)`. -/
def diff (self : Pointers α) : α := A.abs (A.sub self.left.2 self.right.2)

end Pointers

/-- The loop of `ks_statistic`. -/
def ksLoop (pointers : Pointers α) (maxDiff : α) : List ℚ → α
  | [] => maxDiff
  | v :: rest =>
    let pointers := pointers.advance v
    let diff := pointers.diff A
    ksLoop pointers (if A.lt maxDiff diff then diff else maxDiff) rest

/-- `ks_statistic`. -/
def ksStatistic (cdf1 cdf2 : List (ℚ × α)) : α :=
  if cdf1 = [] ∧ cdf2 = [] then A.ofRat 0
  else if cdf1 = [] ∨ cdf2 = [] then A.ofRat 1
  else ksLoop A (.start A cdf1 cdf2) (A.ofRat 0) (allVals cdf1 cdf2)

/-- The loop of `wasserstein_distance`. -/
def wassersteinLoop (pointers : Pointers α) (prevV : ℚ) (wDist : α) : List ℚ → α
  | [] => wDist
  | v :: rest =>
    let width := A.sub (A.ofRat v) (A.ofRat prevV)
    let wDist := A.add wDist (A.mul (pointers.diff A) width)
    wassersteinLoop (pointers.advance v) v wDist rest

/-- `wasserstein_distance`. -/
def wassersteinDistance (cdf1 cdf2 : List (ℚ × α)) : α :=
  match allVals cdf1 cdf2 with
  | [] => A.ofRat 0
  | v :: rest => wassersteinLoop A (.start A cdf1 cdf2) v (A.ofRat 0) (v :: rest)

end Sweeps

end Sketchlog.Diff
