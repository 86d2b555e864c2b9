import Sketchlog.Cpp.HyperLogLog

/-!
# `clients/go/sketch/hyperloglog.go`

The cardinality sketch of the Go client. A register is a `uint8`, kept as the number it holds and
reduced modulo `2^8` where the source converts; `hash/fnv` is the loop that the C++ sketch writes
out.
-/

namespace Sketchlog.Go

open Checked

/-- `HyperLogLog`; `m` is `1 << p`, and `alpha` is used by `Count` only. -/
structure HyperLogLog where
  p : ℕ
  registers : List ℕ
  deriving DecidableEq

namespace HyperLogLog

/-- `NewHyperLogLog`, of a `uint8`. -/
def new (p : ℕ) : Except String HyperLogLog := do
  failIf (p < 4 ∨ p > 18) "precision p must be in [4, 18]"
  .ok ⟨p, List.replicate (1 <<< p) 0⟩

/-- `mix64`. -/
def mix64 (x : UInt64) : UInt64 :=
  let x := x ^^^ (x >>> 33)
  let x := x * 0xff51afd7ed558ccd
  let x := x ^^^ (x >>> 33)
  let x := x * 0xc4ceb9fe1a85ec53
  x ^^^ (x >>> 33)

/-- `hash`. -/
def hash (data : List UInt8) : UInt64 := mix64 (Cpp.HyperLogLog.fnv1a data)

/-- `bits.LeadingZeros64`. -/
def leadingZeros64 (x : UInt64) : ℕ := 64 - x.toNat.size

/-- `x >> (64 - uint(h.p))`. -/
def indexOf (p : ℕ) (x : UInt64) : ℕ := (x >>> UInt64.ofNat (64 - p)).toNat

/-- `uint8(bits.LeadingZeros64(w)) + 1`. -/
def rankOf (p : ℕ) (x : UInt64) : ℕ := (leadingZeros64 (x <<< UInt64.ofNat p) % 2 ^ 8 + 1) % 2 ^ 8

/-- `Add`. -/
def add (data : List UInt8) (h : HyperLogLog) : HyperLogLog :=
  let x := hash data
  if rankOf h.p x > h.registers.getD (indexOf h.p x) 0 then
    { h with registers := h.registers.set (indexOf h.p x) (rankOf h.p x) }
  else h

/-- `h.registers[i] = v` where that is larger. -/
def raiseRegister (other : List ℕ) (registers : List ℕ) (i : ℕ) : List ℕ :=
  if other.getD i 0 > registers.getD i 0 then registers.set i (other.getD i 0) else registers

/-- `Merge`. -/
def merge (other h : HyperLogLog) : Except String HyperLogLog := do
  failIf (h.p ≠ other.p) "cannot merge HyperLogLog sketches with different precision"
  .ok { h with
    registers := (List.range other.registers.length).foldl (raiseRegister other.registers)
      h.registers }

end HyperLogLog

end Sketchlog.Go
