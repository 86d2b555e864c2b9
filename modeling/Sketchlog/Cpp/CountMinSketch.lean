import Sketchlog.Cpp.HyperLogLog

/-!
# `countmin.hpp`

The frequency sketch of the C++ backend. The table is one flat vector of `depth * width` counters,
row after row; the seeds of the rows are a function of `depth`.
-/

namespace Sketchlog.Cpp

open Imperative Checked

structure CountMinSketch where
  width : ℕ
  depth : ℕ
  totalCount : ℤ
  table : List ℤ
  deriving DecidableEq

namespace CountMinSketch

/-- A sketch as it is constructed. -/
def empty (width depth : ℕ) : CountMinSketch := ⟨width, depth, 0, List.replicate (width * depth) 0⟩

/-- The constructor; an argument that is no `size_t` matches no overload. -/
def new (width depth : ℤ) : Except PyError CountMinSketch := do
  failIf (¬ (0 ≤ width ∧ width ≤ maxUInt64 ∧ 0 ≤ depth ∧ depth ≤ maxUInt64))
    (.typeError "incompatible constructor arguments")
  failIf (width = 0 ∨ depth = 0) (.valueError "CountMinSketch: width and depth must be > 0")
  failIf (width > maxUInt64 / depth) (.valueError "CountMinSketch: width * depth overflows size_t")
  .ok (empty width.toNat depth.toNat)

/-- The output of `splitmix64`, from the state already advanced. -/
def splitmixOutput (state : UInt64) : UInt64 :=
  let z := state
  let z := (z ^^^ (z >>> 30)) * 0xbf58476d1ce4e5b9
  let z := (z ^^^ (z >>> 27)) * 0x94d049bb133111eb
  z ^^^ (z >>> 31)

/-- `depth` seeds from a `splitmix64` state. -/
def seedsFrom : ℕ → UInt64 → List UInt64
  | 0, _ => []
  | depth + 1, state =>
    let state := state + 0x9e3779b97f4a7c15
    splitmixOutput state :: seedsFrom depth state

/-- `hash_seeds_`. -/
def seeds (depth : ℕ) : List UInt64 := seedsFrom depth 42

/-- `murmur_finalizer`. -/
def murmurFinalizer (h : UInt64) : UInt64 := HyperLogLog.murmur3Fmix64 h

/-- `row * width_ + col`, for every row. -/
def indices (self : CountMinSketch) (key : UInt64) : List ℕ :=
  (List.range self.depth).zipWith
    (fun row seed => row * self.width + (murmurFinalizer (key ^^^ seed)).toNat % self.width)
    (seeds self.depth)

/-- `add(key, count)`. -/
def add (key : UInt64) (count : ℤ) : EStateM PyError CountMinSketch Unit := do
  raiseIf (count ≤ 0) (.valueError "Event count must be strictly positive")
  let self ← get
  raiseIf (i64 (maxInt64 - self.totalCount) < count)
    (.overflowError "CountMinSketch: total_count overflow")
  let idx := self.indices key
  raiseIf (∃ i ∈ idx, i64 (maxInt64 - self.table.getD i 0) < count)
    (.overflowError "CountMinSketch: bucket counter overflow")
  modify fun self =>
    { self with table := idx.foldl (fun t i => t.modify i fun cell => i64 (cell + count)) self.table }
  modify fun self => { self with totalCount := i64 (self.totalCount + count) }

/-- `add(data, len, count)`. -/
def addBytes (data : List UInt8) (count : ℤ) : EStateM PyError CountMinSketch Unit :=
  add (HyperLogLog.fnv1a data) count

/-- `estimate(key)`. -/
def estimate (self : CountMinSketch) (key : UInt64) : ℤ :=
  (self.indices key).foldl (fun minVal i => min minVal (self.table.getD i 0)) maxInt64

/-- `estimate(data, len)`. -/
def estimateBytes (self : CountMinSketch) (data : List UInt8) : ℤ :=
  self.estimate (HyperLogLog.fnv1a data)

/-- `merge`. -/
def merge (other : CountMinSketch) : EStateM PyError CountMinSketch Unit := do
  let self ← get
  raiseIf (self.width ≠ other.width ∨ self.depth ≠ other.depth)
    (.valueError "CountMinSketch::merge: width and depth must match")
  raiseIf (i64 (maxInt64 - self.totalCount) < other.totalCount)
    (.overflowError "CountMinSketch: total_count overflow during merge")
  raiseIf (∃ cells ∈ self.table.zip other.table, i64 (maxInt64 - cells.1) < cells.2)
    (.overflowError "CountMinSketch: bucket counter overflow during merge")
  modify fun self =>
    { self with table := self.table.zipWith (fun cell otherCell => i64 (cell + otherCell)) other.table }
  modify fun self => { self with totalCount := i64 (self.totalCount + other.totalCount) }

/-- `reset`. -/
def reset : EStateM PyError CountMinSketch Unit := do
  modify fun self => { self with table := self.table.map fun _ => 0 }
  modify fun self => { self with totalCount := 0 }

/-! ## State -/

structure State where
  width : ℕ
  depth : ℕ
  totalCount : ℤ
  table : List ℤ

/-- `get_state`. -/
def getState (self : CountMinSketch) : State := ⟨self.width, self.depth, self.totalCount, self.table⟩

/-- One cell of the check of a row. -/
def validateCell (rowTotal count : ℤ) : Except PyError ℤ := do
  failIf (count < 0) (.valueError "Cannot restore state with negative counts in CMS table")
  failIf (i64 (maxInt64 - rowTotal) < count)
    (.valueError "Cannot restore state with overflowing CMS row")
  .ok (i64 (rowTotal + count))

/-- The check of one row. -/
def validateRow (self : CountMinSketch) (s : State) (row : ℕ) : Except PyError Unit := do
  let rowTotal ← ((List.range self.width).map fun col => s.table.getD (row * self.width + col) 0).foldlM
    validateCell 0
  failIf (rowTotal ≠ s.totalCount)
    (.valueError "Cannot restore state whose CMS row sums differ from total_count")

/-- The checks of `set_state`. -/
def checkState (self : CountMinSketch) (s : State) : Except PyError Unit := do
  failIf (s.width ≠ self.width ∨ s.depth ≠ self.depth)
    (.valueError "Cannot restore state into CountMinSketch with different dimensions")
  failIf (s.table.length ≠ self.table.length)
    (.valueError "Cannot restore state: table size mismatch")
  failIf (s.totalCount < 0) (.valueError "Cannot restore state with negative total_count")
  (List.range self.depth).forM (validateRow self s)

/-- `set_state`. -/
def setState (s : State) : EStateM PyError CountMinSketch Unit := do
  let self ← get
  liftExcept (checkState self s)
  modify fun self => { self with totalCount := s.totalCount }
  modify fun self => { self with table := s.table }

end CountMinSketch

end Sketchlog.Cpp
