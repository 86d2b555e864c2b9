import Sketchlog.Lib.Checked
import Sketchlog.Cpp.Basic
import Sketchlog.Python.DDSketch

/-!
# `ddsketch.hpp`

The logarithmic quantile sketch of the C++ backend, statement by statement. `std::map<int, int64_t>`
is an `ExtTreeMap`, iterated in the order of its keys. `add_batch` and `merge` work on a copy that is
moved back at the end (`onCopy`); the store's own `add` writes before its last check.
-/

namespace Sketchlog.Cpp

open Std Imperative Checked OrderStatistics

/-! ## `DenseStore` -/

structure DenseStore where
  bins : Bins
  minIndex : ℤ
  maxIndex : ℤ
  empty : Bool
  deriving DecidableEq

namespace DenseStore

/-- A store as it is constructed, and left by `reset`. -/
def init : DenseStore := ⟨∅, 0, 0, true⟩

/-- `MAX_BINS`. -/
def maxBins : ℕ := 1024

/-- `can_add`. -/
def canAdd (self : DenseStore) (index count : ℤ) : Prop :=
  match self.bins[index]? with
  | none => True
  | some n => ¬ i64 (maxInt64 - n) < count

instance (self : DenseStore) (index count : ℤ) : Decidable (self.canAdd index count) := by
  unfold canAdd
  cases self.bins[index]? with
  | none => exact inferInstanceAs (Decidable True)
  | some n => exact inferInstanceAs (Decidable (¬ _))

/-- `can_fit`. -/
def canFit (self : DenseStore) (index : ℤ) : Prop :=
  index ∈ self.bins ∨ self.bins.size < maxBins

instance (self : DenseStore) (index : ℤ) : Decidable (self.canFit index) :=
  inferInstanceAs (Decidable (_ ∨ _))

/-- `DenseStore::add`. -/
def add (index count : ℤ) : EStateM PyError DenseStore Unit := do
  let self ← get
  raiseIf (¬ self.canFit index)
    (.valueError "DDSketch: occupied bucket count exceeds bounded sparse-store capacity")
  modify fun self =>
    if self.empty then { self with minIndex := index, maxIndex := index, empty := false } else self
  modify fun self => { self with bins := self.bins.insertIfNew index 0 }
  let self ← get
  raiseIf (i64 (maxInt64 - self.bins.getD index 0) < count)
    (.overflowError "DDSketch: bin count overflow")
  modify fun self => { self with bins := self.bins.insert index (i64 (self.bins.getD index 0 + count)) }
  modify fun self => if index < self.minIndex then { self with minIndex := index } else self
  modify fun self => if index > self.maxIndex then { self with maxIndex := index } else self

/-- `DenseStore::total`. -/
def total (self : DenseStore) : ℤ :=
  self.bins.toList.foldl (fun sum kc => u64 (sum + u64 kc.2)) 0

/-- `DenseStore::merge`. -/
def merge (other : DenseStore) : EStateM PyError DenseStore Unit :=
  if other.empty then pure () else other.bins.toList.forM fun kc => add kc.1 kc.2

end DenseStore

/-! ## `DDSketch`

The native sketch checks before it writes, or works on a copy; its counters are machine integers. -/

structure DDSketch where
  alpha : Binary64
  positive : DenseStore
  negative : DenseStore
  zeroCount : ℤ
  count : ℤ
  minValue : Binary64
  maxValue : Binary64

namespace DDSketch

/-- A sketch as it is constructed, and left by `reset`. -/
def empty (alpha : Binary64) : DDSketch where
  alpha := alpha
  positive := .init
  negative := .init
  zeroCount := 0
  count := 0
  minValue := zero
  maxValue := zero

/-- The constructor, with `validate_alpha`. -/
def new (relativeAccuracy : PyFloat) : Except PyError DDSketch :=
  match relativeAccuracy with
  | .fin x =>
    if x.val < oneMicro ∨ x.val ≥ 1 then
      .error (.valueError "DDSketch: relative_accuracy must be in [1e-6, 1.0)")
    else .ok (empty x)
  | _ => .error (.valueError "DDSketch: relative_accuracy must be in [1e-6, 1.0)")

/-- A call on `positive_`. -/
def onPositive : EStateM PyError DenseStore Unit → EStateM PyError DDSketch Unit :=
  zoom positive fun store self => { self with positive := store }

/-- A call on `negative_`. -/
def onNegative : EStateM PyError DenseStore Unit → EStateM PyError DDSketch Unit :=
  zoom negative fun store self => { self with negative := store }

/-- `if (!store.can_fit(idx)) throw ..; if (!store.can_add(idx, n)) throw ..;`. -/
def checkStore (store : DenseStore) (idx n : ℤ) : EStateM PyError DDSketch Unit := do
  raiseIf (¬ store.canFit idx)
    (.valueError "DDSketch: value range exceeds the bounded dense-store capacity")
  raiseIf (¬ store.canAdd idx n) (.overflowError "DDSketch: bin count overflow")

/-- The checks of `add(value, count)`, for a finite `value`. -/
def checkAdd (M : IndexMapping) (self : DDSketch) (value : ℚ) (count : ℤ) :
    EStateM PyError DDSketch Unit := do
  raiseIf (value ≠ 0 ∧ ¬ M.Accurate self.alpha.val |value|)
    (.valueError "DDSketch: value magnitude too small to satisfy relative accuracy")
  raiseIf (u64 (maxUInt64 - self.count) < count) (.overflowError "DDSketch: total count overflow")
  raiseIf (count > maxInt64) (.overflowError "DDSketch: count exceeds int64_t capacity")
  let n := i64 count
  if value > 0 then checkStore self.positive (M.key self.alpha.val value) n
  else if value < 0 then checkStore self.negative (M.key self.alpha.val (-value)) n
  else raiseIf (i64 (maxInt64 - self.zeroCount) < n) (.overflowError "DDSketch: zero count overflow")

/-- The writes of `add(value, count)`, for a finite `value`. -/
def commitAdd (M : IndexMapping) (alpha : ℚ) (value : Binary64) (count : ℤ) :
    EStateM PyError DDSketch Unit := do
  let n := i64 count
  modify fun self =>
    if self.count = 0 then { self with minValue := value, maxValue := value }
    else
      { self with
        minValue := if value.val < self.minValue.val then value else self.minValue
        maxValue := if value.val > self.maxValue.val then value else self.maxValue }
  modify fun self => { self with count := u64 (self.count + count) }
  if value.val > 0 then onPositive (DenseStore.add (M.key alpha value.val) n)
  else if value.val < 0 then onNegative (DenseStore.add (M.key alpha (-value.val)) n)
  else modify fun self => { self with zeroCount := i64 (self.zeroCount + n) }

/-- `add(value, count)`. -/
def addCount (M : IndexMapping) (value : PyFloat) (count : ℤ) : EStateM PyError DDSketch Unit :=
  match value with
  | .nan | .inf _ => pure ()  -- silently reject
  | .fin v =>
    if count = 0 then pure ()
    else do
      let self ← get
      checkAdd M self v.val count
      commitAdd M self.alpha.val v count

/-- `add(value)`. -/
def add (M : IndexMapping) (value : PyFloat) : EStateM PyError DDSketch Unit :=
  match value with
  | .nan | .inf _ => pure ()
  | .fin v => addCount M (.fin v) 1

/-- `add_batch`. -/
def addBatch (M : IndexMapping) (values : List PyFloat) : EStateM PyError DDSketch Unit :=
  onCopy (values.forM (add M))

/-- `merge` on the copy, once the configurations match and `other` is not empty; `selfCount` is the
receiver's own count. -/
def mergeInto (selfCount : ℤ) (other : DDSketch) : EStateM PyError DDSketch Unit := do
  let temp ← get
  raiseIf (u64 (maxUInt64 - temp.count) < other.count)
    (.overflowError "DDSketch: total count overflow")
  modify fun temp => { temp with count := u64 (temp.count + other.count) }
  let temp ← get
  raiseIf (i64 (maxInt64 - temp.zeroCount) < other.zeroCount)
    (.overflowError "DDSketch: zero count overflow")
  modify fun temp => { temp with zeroCount := i64 (temp.zeroCount + other.zeroCount) }
  modify fun temp =>
    if selfCount = 0 then { temp with minValue := other.minValue, maxValue := other.maxValue }
    else
      { temp with
        minValue := if other.minValue.val < temp.minValue.val then other.minValue else temp.minValue
        maxValue := if other.maxValue.val > temp.maxValue.val then other.maxValue else temp.maxValue }
  onPositive (DenseStore.merge other.positive)
  onNegative (DenseStore.merge other.negative)

/-- `merge`. -/
def merge (other : DDSketch) : EStateM PyError DDSketch Unit := do
  let self ← get
  raiseIf (self.alpha.val ≠ other.alpha.val)
    (.valueError "DDSketch::merge: relative_accuracy mismatch")
  if other.count = 0 then pure () else onCopy (mergeInto self.count other)

/-- `reset`. -/
def reset : EStateM PyError DDSketch Unit :=
  modify fun self => empty self.alpha

/-! ## Queries -/

/-- `quantile` at a finite `q`. -/
def quantileAt (M : IndexMapping) (self : DDSketch) (q : ℚ) : ℚ :=
  if self.count = 0 then 0
  else if q ≤ 0 then self.minValue.val
  else if q ≥ 1 then self.maxValue.val
  else
    -- negative buckets from the highest magnitude on, the zero bucket, positive buckets
    match walk (if self.negative.empty then [] else self.negative.bins.toList.reverse)
        (q * self.count) with
    | .inl idx => -(M.bucketValue self.alpha.val idx)
    | .inr rank =>
      if rank - self.zeroCount ≤ 0 then 0
      else
        match walk (if self.positive.empty then [] else self.positive.bins.toList)
            (rank - self.zeroCount) with
        | .inl idx => M.bucketValue self.alpha.val idx
        | .inr _ => self.maxValue.val

/-- `quantile`. -/
def quantile (M : IndexMapping) (self : DDSketch) (q : PyFloat) : Except PyError ℚ :=
  match q with
  | .nan | .inf _ => throw (.valueError "Quantile must be in [0, 1]")
  | .fin q => pure (quantileAt M self q.val)

/-- `count_gt += count` over the bins whose index satisfies `p`. -/
def addWhere (store : DenseStore) (p : ℤ → Bool) (countGt : ℤ) : ℤ :=
  if store.empty then countGt
  else store.bins.toList.foldl (fun sum kc => if p kc.1 then u64 (sum + u64 kc.2) else sum) countGt

/-- `count_gt += store.total()`. -/
def addTotal (store : DenseStore) (countGt : ℤ) : ℤ :=
  if store.empty then countGt else u64 (countGt + store.total)

/-- `count_greater_than` between the extrema. -/
def countAbove (M : IndexMapping) (self : DDSketch) (threshold : ℚ) : ℤ :=
  if threshold < 0 then
    addTotal self.positive
      (u64 (addWhere self.negative (· ≤ M.key self.alpha.val (-threshold)) 0 + u64 self.zeroCount))
  else if threshold = 0 then addTotal self.positive 0
  else addWhere self.positive (M.key self.alpha.val threshold ≤ ·) 0

/-- `count_greater_than` at a threshold that is not `nan`. -/
def countGreaterThan (M : IndexMapping) (self : DDSketch) (threshold : ERat) : ℤ :=
  if self.count = 0 then 0
  else if threshold ≥ (self.maxValue.val : ERat) then 0
  else if threshold < (self.minValue.val : ERat) then self.count
  else
    match threshold with
    | WithBot.some (WithTop.some t) => countAbove M self t
    | _ => 0  -- not reached: the extrema are finite

/-! ## State

What `set_state` validates and restores. Nothing is written before the last check has passed. -/

/-- `State`, without the unused offsets. -/
structure State where
  alpha : PyFloat
  zeroCount : ℤ
  count : ℤ
  minValue : PyFloat
  maxValue : PyFloat
  posIndices : List ℤ
  posBins : List ℤ
  posMinIndex : ℤ
  posMaxIndex : ℤ
  posEmpty : Bool
  negIndices : List ℤ
  negBins : List ℤ
  negMinIndex : ℤ
  negMaxIndex : ℤ
  negEmpty : Bool

/-- `get_state`. -/
def getState (self : DDSketch) : State where
  alpha := .fin self.alpha
  zeroCount := self.zeroCount
  count := self.count
  minValue := .fin self.minValue
  maxValue := .fin self.maxValue
  posIndices := self.positive.bins.toList.map Prod.fst
  posBins := self.positive.bins.toList.map Prod.snd
  posMinIndex := self.positive.minIndex
  posMaxIndex := self.positive.maxIndex
  posEmpty := self.positive.empty
  negIndices := self.negative.bins.toList.map Prod.fst
  negBins := self.negative.bins.toList.map Prod.snd
  negMinIndex := self.negative.minIndex
  negMaxIndex := self.negative.maxIndex
  negEmpty := self.negative.empty

/-- The literal `1e-9`, by the exact value of the double it denotes. -/
def oneNano : ℚ := 4835703278458517 / 2 ^ 82

/-- `std::abs(alpha_ - s.alpha) > 1e-9`. The difference of two accuracies that close together is
exact. -/
def alphaDiffers (alpha : Binary64) : PyFloat → Prop
  | .nan => False
  | .inf _ => True
  | .fin x => |alpha.val - x.val| > oneNano

instance (alpha : Binary64) : (a : PyFloat) → Decidable (alphaDiffers alpha a)
  | .nan => inferInstanceAs (Decidable False)
  | .inf _ => inferInstanceAs (Decidable True)
  | .fin _ => inferInstanceAs (Decidable (_ > _))

/-- One iteration of the loop of `validate_store`: the previous index, and the total so far. -/
def validateBin (acc : Option ℤ × ℤ) (bin : ℤ × ℤ) : Except PyError (Option ℤ × ℤ) := do
  failIf (∃ prev ∈ acc.1, prev ≥ bin.1)
    (.valueError "DDSketch restored indexes must be strictly increasing")
  failIf (bin.2 ≤ 0) (.valueError "DDSketch restored bin counts must be positive")
  failIf (u64 (maxUInt64 - acc.2) < u64 bin.2) (.valueError "DDSketch bin totals overflow")
  .ok (some bin.1, u64 (acc.2 + u64 bin.2))

/-- `validate_store`. -/
def validateStore (indices bins : List ℤ) (minIdx maxIdx : ℤ) (empty : Bool) :
    Except PyError ℤ :=
  if empty then do
    failIf (bins ≠ [] ∨ indices ≠ []) (.valueError "Empty DDSketch store must not contain bins")
    .ok 0
  else do
    failIf (bins = [] ∨ bins.length ≠ indices.length ∨ bins.length > DenseStore.maxBins)
      (.valueError "DDSketch store has an invalid bounded size")
    failIf (minIdx > maxIdx) (.valueError "Cannot restore state with min_index > max_index")
    failIf (indices.head? ≠ some minIdx ∨ indices.getLast? ≠ some maxIdx)
      (.valueError "DDSketch min/max indexes must reference positive bins")
    let (_, total) ← (indices.zip bins).foldlM validateBin (none, 0)
    .ok total

/-- The checks of `set_state`. -/
def checkState (self : DDSketch) (s : State) : Except PyError (Binary64 × Binary64) := do
  failIf (alphaDiffers self.alpha s.alpha)
    (.valueError "Cannot restore state with mismatched alpha")
  failIf (s.zeroCount < 0) (.valueError "Cannot restore state with negative zero_count")
  let posTotal ← validateStore s.posIndices s.posBins s.posMinIndex s.posMaxIndex s.posEmpty
  let negTotal ← validateStore s.negIndices s.negBins s.negMinIndex s.negMaxIndex s.negEmpty
  let restoredTotal := u64 s.zeroCount
  failIf (u64 (maxUInt64 - restoredTotal) < posTotal
      ∨ u64 (u64 (maxUInt64 - restoredTotal) - posTotal) < negTotal)
    (.valueError "DDSketch restored count overflows")
  let restoredTotal := u64 (restoredTotal + u64 (posTotal + negTotal))
  failIf (restoredTotal ≠ s.count) (.valueError "DDSketch restored bins do not sum to count")
  match s.minValue, s.maxValue with
  | .fin lo, .fin hi =>
    failIf (s.count > 0 ∧ lo.val > hi.val) (.valueError "DDSketch restored extrema are invalid")
    failIf (s.count = 0 ∧ (s.posEmpty = false ∨ s.negEmpty = false ∨ s.zeroCount ≠ 0))
      (.valueError "Empty DDSketch has non-empty restored state")
    .ok (lo, hi)
  | _, _ => .error (.valueError "DDSketch restored extrema are invalid")

/-- `bins.clear(); for (..) bins.emplace(indices[i], bins[i]);`. -/
def restoreBins (indices bins : List ℤ) : Bins :=
  (indices.zip bins).foldl (fun m kc => m.insertIfNew kc.1 kc.2) ∅

/-- The writes of `set_state`. -/
def commitState (s : State) (minValue maxValue : Binary64) : EStateM PyError DDSketch Unit := do
  modify fun self => { self with zeroCount := s.zeroCount }
  modify fun self => { self with count := s.count }
  modify fun self => { self with minValue := minValue }
  modify fun self => { self with maxValue := maxValue }
  modify fun self =>
    { self with positive :=
        ⟨restoreBins s.posIndices s.posBins, s.posMinIndex, s.posMaxIndex, s.posEmpty⟩ }
  modify fun self =>
    { self with negative :=
        ⟨restoreBins s.negIndices s.negBins, s.negMinIndex, s.negMaxIndex, s.negEmpty⟩ }

/-- `set_state`. -/
def setState (s : State) : EStateM PyError DDSketch Unit := do
  let self ← get
  let (minValue, maxValue) ← liftExcept (checkState self s)
  commitState s minValue maxValue

end DDSketch

end Sketchlog.Cpp
