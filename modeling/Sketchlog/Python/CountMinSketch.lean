import Sketchlog.Python.HyperLogLog

/-!
# `core/cms.py`

The frequency sketch of the pure-Python backend. `_table` is a list of `depth` rows of `width`
cells; the seeds of the rows are a function of `depth`.
-/

namespace Sketchlog

open Imperative Checked

/-- `CountMinSketch`. -/
@[ext]
structure CountMinSketch where
  width : ℕ
  depth : ℕ
  table : List (List ℤ)
  total : ℤ
  deriving DecidableEq

namespace CountMinSketch

/-- `[[0] * width for _ in range(depth)]`, nothing counted. -/
def empty (width depth : ℕ) : CountMinSketch :=
  ⟨width, depth, List.replicate depth (List.replicate width 0), 0⟩

/-- `CountMinSketch.__init__`. -/
def new (width depth : ℤ) : Except PyError CountMinSketch := do
  failIf (width ≤ 0) (.valueError s!"CountMinSketch width must be > 0, got {width}")
  failIf (depth ≤ 0) (.valueError s!"CountMinSketch depth must be > 0, got {depth}")
  .ok (empty width.toNat depth.toNat)

/-- One splitmix64 output, from the state already advanced. -/
def splitmixOutput (state : ℕ) : ℕ :=
  let z := state
  let z := ((z ^^^ (z >>> 30)) * 0xbf58476d1ce4e5b9) &&& mask64
  let z := ((z ^^^ (z >>> 27)) * 0x94d049bb133111eb) &&& mask64
  z ^^^ (z >>> 31)

/-- `depth` seeds from a splitmix64 state. -/
def seedsFrom : ℕ → ℕ → List ℕ
  | 0, _ => []
  | depth + 1, state =>
    let state := (state + 0x9e3779b97f4a7c15) &&& mask64
    splitmixOutput state :: seedsFrom depth state

/-- `_seeds`. -/
def seeds (depth : ℕ) : List ℕ := seedsFrom depth 42

/-- `_hash`. -/
def hash (key : ℤ) (seed : ℕ) : ℕ :=
  let h := (Int.land (Int.xor key seed) mask64).toNat
  let h := h ^^^ (h >>> 33)
  let h := (h * 0xff51afd7ed558ccd) &&& mask64
  let h := h ^^^ (h >>> 33)
  let h := (h * 0xc4ceb9fe1a85ec53) &&& mask64
  h ^^^ (h >>> 33)

/-- `item` itself when it is an `int`, else `_key_from_bytes(item)`. -/
def keyOf : EventKey → ℤ
  | .int n => n
  | .bytes b => HyperLogLog.fnv1a b
  | .str s => HyperLogLog.fnv1a (utf8 s)

/-- `[self._hash(key, self._seeds[i]) % self._width for i in range(self._depth)]`. -/
def columns (self : CountMinSketch) (key : ℤ) : List ℕ :=
  (seeds self.depth).map fun seed => hash key seed % self.width

/-- `self._table[i][col] += count`. -/
def addToRow (count : ℤ) (row : List ℤ) (col : ℕ) : List ℤ := row.modify col (· + count)

/-- `CountMinSketch.add`. -/
def add (item : EventKey) (count : ℤ) : EStateM PyError CountMinSketch Unit := do
  raiseIf (count ≤ 0) (.valueError "Event count must be strictly positive")
  raiseIf (count > maxInt64) (.overflowError "Event count exceeds int64 capacity")
  let self ← get
  raiseIf (self.total > maxInt64 - count)
    (.overflowError "CountMinSketch: total_count overflow")
  let columns := self.columns (keyOf item)
  raiseIf (∃ rc ∈ self.table.zip columns, rc.1.getD rc.2 0 > maxInt64 - count)
    (.overflowError "CountMinSketch: bucket counter overflow")
  modify fun self => { self with table := self.table.zipWith (addToRow count) columns }
  modify fun self => { self with total := self.total + count }

/-- `CountMinSketch.estimate`: the running minimum starts at `float('inf')`. -/
def estimate (self : CountMinSketch) (item : EventKey) : Except PyError ℤ :=
  match (self.table.zip (self.columns (keyOf item))).foldl
      (fun result rc => min result ((rc.1.getD rc.2 0 : ℤ) : WithTop ℤ)) ⊤ with
  | ⊤ => throw (.overflowError "cannot convert float infinity to integer")
  | (n : ℤ) => pure n

/-- `CountMinSketch.reset`. -/
def reset : EStateM PyError CountMinSketch Unit :=
  modify fun self => empty self.width self.depth

end CountMinSketch

end Sketchlog
