import Sketchlog.Lib.Checked

/-!
# `clients/go/sketch/countminsketch.go`

The frequency sketch of the Go client. The cells and the total are `uint64` and wrap; `width` and
`depth` are `uint32` of at most `2^20`, kept as the numbers they hold. `NewCountMinSketch` computes
the two from its accuracy with the functions of `math`, and is `NewCountMinSketchFromDimensions`
from there on.
-/

namespace Sketchlog.Go

open Checked

/-- `CountMinSketch`. -/
structure CountMinSketch where
  width : ℕ
  depth : ℕ
  matrix : List (List UInt64)
  total : UInt64
  deriving DecidableEq

namespace CountMinSketch

/-- `maxCMSDimension`. -/
def maxCMSDimension : ℕ := 1 <<< 20

/-- A sketch of given dimensions in which nothing is counted. -/
def empty (width depth : ℕ) : CountMinSketch :=
  ⟨width, depth, List.replicate depth (List.replicate width 0), 0⟩

/-- `NewCountMinSketchFromDimensions`, which makes its second check twice. -/
def new (width depth : ℕ) : Except String CountMinSketch := do
  failIf (width = 0 ∨ depth = 0) "width and depth must be > 0"
  failIf (width > maxCMSDimension ∨ depth > maxCMSDimension) "dimensions exceed maximum allowed limit"
  failIf (width > maxCMSDimension ∨ depth > maxCMSDimension) "dimensions exceed maximum allowed limit"
  .ok (empty width depth)

/-- `fnv.New32a`, after `data` was written to it. -/
def fnv32a (data : List UInt8) : UInt32 :=
  data.foldl (fun h b => (h ^^^ b.toUInt32) * 16777619) 2166136261

/-- `[]byte{byte(i), byte(i >> 8), byte(i >> 16), byte(i >> 24)}`. -/
def rowBytes (i : ℕ) : List UInt8 :=
  [UInt8.ofNat i, UInt8.ofNat (i >>> 8), UInt8.ofNat (i >>> 16), UInt8.ofNat (i >>> 24)]

/-- `hashes`. -/
def hashes (data : List UInt8) (c : CountMinSketch) : List ℕ :=
  (List.range c.depth).map fun i => (fnv32a (rowBytes i ++ data)).toNat % c.width

/-- `c.matrix[i][col] += delta`, where `row` is `c.matrix[i]`. -/
def addToRow (delta : UInt64) (row : List UInt64) (col : ℕ) : List UInt64 := row.modify col (· + delta)

/-- `Add`. -/
def add (item : List UInt8) (delta : UInt64) (c : CountMinSketch) : CountMinSketch :=
  { c with
    total := c.total + delta
    matrix := c.matrix.zipWith (addToRow delta) (c.hashes item) }

/-- `if v < min { min = v }`, where `v` is the cell in the column `rc.2` of the row `rc.1`. -/
def lower (min : UInt64) (rc : List UInt64 × ℕ) : UInt64 :=
  let v := rc.1.getD rc.2 0
  if v < min then v else min

/-- `Count`, which starts from `math.MaxUint64`. -/
def count (item : List UInt8) (c : CountMinSketch) : UInt64 :=
  (c.matrix.zip (c.hashes item)).foldl lower 0xffffffffffffffff

/-- `Merge`. -/
def merge (other c : CountMinSketch) : Except String CountMinSketch := do
  failIf (c.width ≠ other.width ∨ c.depth ≠ other.depth) "dimension mismatch"
  .ok
    { c with
      total := c.total + other.total
      matrix := c.matrix.zipWith (List.zipWith (· + ·)) other.matrix }

end CountMinSketch

end Sketchlog.Go
