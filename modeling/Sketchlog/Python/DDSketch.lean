import Sketchlog.Lib.Guarded
import Sketchlog.Lib.CountMap
import Sketchlog.Lib.OrderStatistics
import Sketchlog.Python.Basic

/-!
# `core/ddsketch.py`

The logarithmic quantile sketch of the pure-Python backend, method by method. A method that mutates
the sketch is an `EStateM PyError DDSketch Unit` whose statements come in the order of the source:
every write is a `modify` of its own, so that a check placed after a write would be seen.

`Dict[int, int]` is an `ExtTreeMap`, whose equality ignores insertion order as dict equality does;
nothing in the sources depends on the order in which a bin dictionary is iterated.
-/

namespace Sketchlog

open Std Imperative CountMap OrderStatistics

/-- `Dict[int, int]`: bucket index to count. -/
abbrev Bins := ExtTreeMap ℤ ℤ

/-- `DDSketch`. `_gamma`, `_log_gamma` and `_multiplier` are functions of `alpha` and live in
`IndexMapping`. -/
@[ext]
structure DDSketch where
  alpha : ℚ
  positive : Bins
  negative : Bins
  zeroCount : ℤ
  count : ℤ
  min : ERat
  max : ERat
  deriving DecidableEq

namespace DDSketch

/-- `DDSketch.MAX_BINS`. -/
def maxBins : ℕ := 1024

/-- The state a sketch of accuracy `alpha` starts from, and returns to on `reset`. -/
def empty (alpha : ℚ) : DDSketch where
  alpha := alpha
  positive := ∅
  negative := ∅
  zeroCount := 0
  count := 0
  min := ⊤
  max := ⊥

/-- `DDSketch.__init__`: no comparison with `nan` holds, and no infinity lies in the range. -/
def new (relativeAccuracy : PyFloat) : Except PyError DDSketch :=
  match relativeAccuracy with
  | .fin x =>
    if ¬ (oneMicro ≤ x.val ∧ x.val < 1) then
      .error (.valueError "relative_accuracy must be in [1e-6, 1.0)")
    else .ok (empty x.val)
  | _ => .error (.valueError "relative_accuracy must be in [1e-6, 1.0)")

/-- `_store_can_fit`. -/
def storeCanFit (store : Bins) (index : ℤ) : Prop :=
  index ∈ store ∨ store.size < maxBins

instance (store : Bins) (index : ℤ) : Decidable (storeCanFit store index) :=
  inferInstanceAs (Decidable (_ ∨ _))

/-- The checks `add` makes before its first write, for a finite `value`. -/
def checkAdd (M : IndexMapping) (self : DDSketch) (value : ℚ) (count : ℤ) :
    EStateM PyError DDSketch Unit := do
  raiseIf (count > maxInt64) (.overflowError "DDSketch: count exceeds int64 capacity")
  raiseIf (self.count > maxUInt64 - count) (.overflowError "DDSketch: total count overflow")
  if value ≠ 0 then do
    let absV := |value|
    let idx := M.key self.alpha absV
    let targetStore := if value > 0 then self.positive else self.negative
    raiseIf (¬ M.Accurate self.alpha absV)
      (.valueError "Value magnitude too small to satisfy relative accuracy")
    raiseIf (¬ storeCanFit targetStore idx)
      (.valueError "DDSketch occupied bucket count exceeds bounded store capacity")
    raiseIf (targetStore.getD idx 0 > maxInt64 - count)
      (.overflowError "DDSketch: bin count overflow")
  else
    raiseIf (self.zeroCount > maxInt64 - count) (.overflowError "DDSketch: zero count overflow")

/-- The writes of `add`, for a finite `value`. -/
def commitAdd (M : IndexMapping) (value : ℚ) (count : ℤ) : EStateM PyError DDSketch Unit := do
  modify fun self => { self with count := self.count + count }
  modify fun self => if (value : ERat) < self.min then { self with min := value } else self
  modify fun self => if (value : ERat) > self.max then { self with max := value } else self
  modify fun self =>
    if value > 0 then
      { self with positive := bump self.positive (M.key self.alpha value) count }
    else if value < 0 then
      { self with negative := bump self.negative (M.key self.alpha (-value)) count }
    else
      { self with zeroCount := self.zeroCount + count }

/-- `DDSketch.add`. -/
def add (M : IndexMapping) (value : PyFloat) (count : ℤ) : EStateM PyError DDSketch Unit :=
  match value with
  | .nan | .inf _ => pure ()  -- silently reject
  | .fin v =>
    if count ≤ 0 then pure ()
    else do
      let self ← get
      checkAdd M self v.val count
      commitAdd M v.val count

/-- The local variables of `add_batch`. -/
structure Batch where
  pos : Bins := ∅
  neg : Bins := ∅
  count : ℤ := 0
  min : ERat := ⊤
  max : ERat := ⊥
  zeroCount : ℤ := 0

/-- `tmp_count += 1` and the two extrema updates, made for every accumulated value. -/
def Batch.observe (tmp : Batch) (v : ℚ) : Batch :=
  { tmp with
    count := tmp.count + 1
    min := if (v : ERat) < tmp.min then v else tmp.min
    max := if (v : ERat) > tmp.max then v else tmp.max }

/-- One iteration of the accumulation loop of `add_batch`. -/
def batchStep (M : IndexMapping) (alpha : ℚ) (tmp : Batch) (value : PyFloat) :
    Except PyError Batch :=
  match value with
  | .nan | .inf _ => pure tmp
  | .fin v =>
    if v.val = 0 then
      pure { tmp.observe v.val with zeroCount := tmp.zeroCount + 1 }
    else if ¬ M.Accurate alpha |v.val| then
      throw (.valueError "Value magnitude too small to satisfy relative accuracy")
    else if v.val > 0 then
      pure { tmp.observe v.val with pos := bump tmp.pos (M.key alpha |v.val|) 1 }
    else
      pure { tmp.observe v.val with neg := bump tmp.neg (M.key alpha |v.val|) 1 }

/-- `set(store).union(tmp)`. -/
def combinedKeys (store tmp : Bins) : Finset ℤ := store.keys.toFinset ∪ tmp.keys.toFinset

/-- `any(store.get(idx, 0) > MAX_INT64 - count for idx, count in tmp.items())`. -/
def anyBinOverflows (store tmp : Bins) : Prop :=
  ∃ p ∈ tmp.toList, store.getD p.1 0 > maxInt64 - p.2

instance (store tmp : Bins) : Decidable (anyBinOverflows store tmp) :=
  inferInstanceAs (Decidable (∃ p ∈ tmp.toList, _))

/-- The writes of `add_batch`. -/
def writeBatch (tmp : Batch) : EStateM PyError DDSketch Unit := do
  modify fun self => { self with positive := addAll self.positive tmp.pos }
  modify fun self => { self with negative := addAll self.negative tmp.neg }
  modify fun self => { self with count := self.count + tmp.count }
  modify fun self => { self with zeroCount := self.zeroCount + tmp.zeroCount }
  modify fun self => if tmp.min < self.min then { self with min := tmp.min } else self
  modify fun self => if tmp.max > self.max then { self with max := tmp.max } else self

/-- `add_batch` after the accumulation loop. -/
def commitBatch (tmp : Batch) : EStateM PyError DDSketch Unit := do
  if tmp.count = 0 then pure ()
  else do
    let self ← get
    raiseIf ((combinedKeys self.positive tmp.pos).card > maxBins)
      (.valueError "DDSketch occupied bucket count exceeds bounded store capacity")
    raiseIf ((combinedKeys self.negative tmp.neg).card > maxBins)
      (.valueError "DDSketch occupied bucket count exceeds bounded store capacity")
    raiseIf (self.count > maxUInt64 - tmp.count) (.overflowError "DDSketch: total count overflow")
    raiseIf (self.zeroCount > maxInt64 - tmp.zeroCount)
      (.overflowError "DDSketch: zero count overflow")
    raiseIf (anyBinOverflows self.positive tmp.pos) (.overflowError "DDSketch: bin count overflow")
    raiseIf (anyBinOverflows self.negative tmp.neg) (.overflowError "DDSketch: bin count overflow")
    writeBatch tmp

/-- `DDSketch.add_batch`. -/
def addBatch (M : IndexMapping) (values : List PyFloat) : EStateM PyError DDSketch Unit := do
  let self ← get
  let tmp ← liftExcept (values.foldlM (batchStep M self.alpha) {})
  commitBatch tmp

/-- `DDSketch.quantile` at a finite `q`. -/
def quantileAt (M : IndexMapping) (self : DDSketch) (q : ℚ) : ERat :=
  if self.count = 0 then (0 : ℚ)
  else if q ≤ 0 then self.min
  else if q ≥ 1 then self.max
  else
    -- negative buckets by descending index, the zero bucket, positive buckets by ascending index
    match walk self.negative.toList.reverse (q * self.count) with
    | .inl idx => (-(M.bucketValue self.alpha idx) : ℚ)
    | .inr rank =>
      if rank - self.zeroCount ≤ 0 then (0 : ℚ)
      else
        match walk self.positive.toList (rank - self.zeroCount) with
        | .inl idx => (M.bucketValue self.alpha idx : ℚ)
        | .inr _ => self.max

/-- `DDSketch.quantile`. -/
def quantile (M : IndexMapping) (self : DDSketch) (q : PyFloat) : Except PyError ERat :=
  match q with
  | .nan | .inf _ => throw (.valueError "Quantile must be in [0, 1]")
  | .fin q => pure (quantileAt M self q.val)

/-- `sum(v for k, v in store.items() if p(k))`. -/
def sumWhere (store : Bins) (p : ℤ → Bool) : ℤ :=
  ((store.toList.filter fun kv => p kv.1).map Prod.snd).sum

/-- `DDSketch.count_greater_than` between the extrema. -/
def countAbove (M : IndexMapping) (self : DDSketch) (threshold : ℚ) : ℤ :=
  if threshold < 0 then
    sumWhere self.negative (· ≤ M.key self.alpha (-threshold)) + self.zeroCount
      + sumWhere self.positive fun _ => true
  else if threshold = 0 then sumWhere self.positive fun _ => true
  else sumWhere self.positive (M.key self.alpha threshold ≤ ·)

/-- `DDSketch.count_greater_than` at a threshold that is not `nan`. -/
def countGreaterThan (M : IndexMapping) (self : DDSketch) (threshold : ERat) : ℤ :=
  if self.count = 0 then 0
  else if threshold ≥ self.max then 0
  else if threshold < self.min then self.count
  else
    match threshold with
    | WithBot.some (WithTop.some t) => countAbove M self t
    | _ => 0  -- not reached: the extrema of a sketch that is not empty are finite

/-- `DDSketch.reset`. -/
def reset : EStateM PyError DDSketch Unit :=
  modify fun self => empty self.alpha

end DDSketch

end Sketchlog
