import Sketchlog.Lib.Guarded
import Sketchlog.Lib.Checked
import Sketchlog.Cpp.Basic

/-!
# `hyperloglog.hpp`

The cardinality sketch of the C++ backend. Hashes are `uint64_t`; a register is a `uint8_t`, kept as
the number it holds and reduced modulo `2^8` where the source casts.
-/

namespace Sketchlog.Cpp

open Imperative Checked

/-- `HyperLogLog`; `m_` is `1 << p_`. -/
structure HyperLogLog where
  p : ℕ
  registers : List ℕ
  deriving DecidableEq

namespace HyperLogLog

/-- A sketch as it is constructed, and left by `reset`. -/
def empty (p : ℕ) : HyperLogLog := ⟨p, List.replicate (1 <<< p) 0⟩

/-- The constructor, with `validate_precision`; an argument that is no `uint8_t` matches no
overload. -/
def new (precision : ℤ) : Except PyError HyperLogLog := do
  failIf (¬ (0 ≤ precision ∧ precision < 2 ^ 8)) (.typeError "incompatible constructor arguments")
  failIf (precision < 4 ∨ precision > 18)
    (.valueError "HyperLogLog: precision must be in [4, 18]")
  .ok (empty precision.toNat)

/-- `murmur3_fmix64`. -/
def murmur3Fmix64 (h : UInt64) : UInt64 :=
  let h := h ^^^ (h >>> 33)
  let h := h * 0xff51afd7ed558ccd
  let h := h ^^^ (h >>> 33)
  let h := h * 0xc4ceb9fe1a85ec53
  h ^^^ (h >>> 33)

/-- The FNV-1a loop shared by `HyperLogLog::hash_bytes` and `CountMinSketch::fnv1a`. -/
def fnv1a (data : List UInt8) : UInt64 :=
  data.foldl (fun h b => (h ^^^ b.toUInt64) * 1099511628211) 14695981039346656037

/-- `hash_bytes`. -/
def hashBytes (data : List UInt8) : UInt64 := murmur3Fmix64 (fnv1a data)

/-- `clz64`. -/
def clz64 (x : UInt64) : ℕ := if x = 0 then 64 else 63 - x.toNat.log2

/-- The register of a hash. -/
def indexOf (p : ℕ) (hash : UInt64) : ℕ := (hash >>> UInt64.ofNat (64 - p)).toNat % 2 ^ 32

/-- The rank of a hash within its register. -/
def rankOf (p : ℕ) (hash : UInt64) : ℕ :=
  let w := hash <<< UInt64.ofNat p
  if w = 0 then (64 - p + 1) % 2 ^ 8 else (clz64 w + 1) % 2 ^ 8

/-- `add(hash)`. -/
def addHash (hash : UInt64) : EStateM PyError HyperLogLog Unit :=
  modify fun self =>
    if rankOf self.p hash > self.registers.getD (indexOf self.p hash) 0 then
      { self with registers := self.registers.set (indexOf self.p hash) (rankOf self.p hash) }
    else self

/-- `add(data, len)`. -/
def add (data : List UInt8) : EStateM PyError HyperLogLog Unit := addHash (hashBytes data)

/-- `registers_[i] = other.registers_[i]` where that is larger. -/
def raiseRegister (other : List ℕ) (registers : List ℕ) (i : ℕ) : List ℕ :=
  if other.getD i 0 > registers.getD i 0 then registers.set i (other.getD i 0) else registers

/-- `merge`. -/
def merge (other : HyperLogLog) : EStateM PyError HyperLogLog Unit := do
  let self ← get
  raiseIf (self.p ≠ other.p) (.valueError "HyperLogLog::merge: precision mismatch")
  modify fun self =>
    { self with registers :=
        (List.range (1 <<< self.p)).foldl (raiseRegister other.registers) self.registers }

/-- `reset`. -/
def reset : EStateM PyError HyperLogLog Unit :=
  modify fun self => { self with registers := self.registers.map fun _ => 0 }

/-! ## State -/

structure State where
  precision : ℕ
  registers : List ℕ

/-- `get_state`. -/
def getState (self : HyperLogLog) : State := ⟨self.p, self.registers⟩

/-- `set_state`. -/
def setState (s : State) : EStateM PyError HyperLogLog Unit := do
  let self ← get
  raiseIf (s.precision ≠ self.p) (.valueError "Cannot restore state with mismatched precision")
  raiseIf (s.registers.length ≠ self.registers.length)
    (.valueError "Cannot restore state with mismatched register count")
  let maxVal := (64 - self.p + 1) % 2 ^ 8
  raiseIf (∃ val ∈ s.registers, val > maxVal)
    (.valueError "Cannot restore state with invalid register values")
  modify fun self => { self with registers := s.registers }

end HyperLogLog

end Sketchlog.Cpp
