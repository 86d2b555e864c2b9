import Sketchlog.Lib.Guarded
import Sketchlog.Lib.Checked
import Sketchlog.Python.Basic

/-!
# `core/hll.py`

The cardinality sketch of the pure-Python backend. Hashes are Python integers kept below `2^64` by
`& 0xFFFFFFFFFFFFFFFF`; they are naturals here, masked where the source masks them.
-/

namespace Sketchlog

open Imperative Checked

/-- `HyperLogLog`. `_m` is `1 << p`; `_alpha` is used by `estimate` only. -/
@[ext]
structure HyperLogLog where
  p : ℕ
  registers : List ℕ
  deriving DecidableEq

namespace HyperLogLog

/-- `bytearray(self._m)`. -/
def empty (p : ℕ) : HyperLogLog := ⟨p, List.replicate (1 <<< p) 0⟩

/-- `HyperLogLog.__init__`. -/
def new (precision : ℤ) : Except PyError HyperLogLog := do
  failIf (¬ (4 ≤ precision ∧ precision ≤ 18)) (.valueError "precision must be in [4, 18]")
  .ok (empty precision.toNat)

/-- `_murmur_finalizer`. -/
def murmurFinalizer (h : ℕ) : ℕ :=
  let h := h &&& mask64
  let h := h ^^^ (h >>> 33)
  let h := (h * 0xff51afd7ed558ccd) &&& mask64
  let h := h ^^^ (h >>> 33)
  let h := (h * 0xc4ceb9fe1a85ec53) &&& mask64
  h ^^^ (h >>> 33)

/-- The FNV-1a loop shared by `HyperLogLog._hash_bytes` and `CountMinSketch._key_from_bytes`. -/
def fnv1a (data : List UInt8) : ℕ :=
  data.foldl (fun h b => ((h ^^^ b.toNat) * 0x100000001b3) &&& mask64) 0xcbf29ce484222325

/-- `_hash_bytes`. -/
def hashBytes (data : List UInt8) : ℕ := murmurFinalizer (fnv1a data)

/-- `_rho`. -/
def rho (w p : ℕ) : ℕ := if w = 0 then 64 - p + 1 else 64 - w.size + 1

/-- `value.to_bytes(8, byteorder='little', signed=False)`. -/
def toBytes8 (n : ℕ) : List UInt8 :=
  (List.range 8).map fun i => UInt8.ofNat ((n >>> (8 * i)) &&& 0xFF)

/-- The bytes `add` hashes. -/
def itemBytes : UniqueItem → List UInt8
  | .key (.int n) => toBytes8 n.toNat
  | .key (.bytes b) => b
  | .key (.str s) => utf8 s
  | .other shown => utf8 shown

/-- An `int` outside the unsigned 64-bit range. -/
def intOutOfRange : UniqueItem → Prop
  | .key (.int n) => n < 0 ∨ n > mask64
  | _ => False

instance : (item : UniqueItem) → Decidable (intOutOfRange item)
  | .key (.int _) => inferInstanceAs (Decidable (_ ∨ _))
  | .key (.bytes _) | .key (.str _) | .other _ => inferInstanceAs (Decidable False)

/-- The register a hash falls into. -/
def indexOf (p h : ℕ) : ℕ := h >>> (64 - p)

/-- The rank of a hash within its register. -/
def rankOf (p h : ℕ) : ℕ := rho ((h <<< p) &&& mask64) p

/-- `HyperLogLog.add`. -/
def add (value : UniqueItem) : EStateM PyError HyperLogLog Unit := do
  raiseIf (intOutOfRange value)
    (.valueError "HyperLogLog integer out of range for 64-bit unsigned")
  let h := hashBytes (itemBytes value)
  modify fun self =>
    if rankOf self.p h > self.registers.getD (indexOf self.p h) 0 then
      { self with registers :=
          self.registers.set (indexOf self.p h) (min (rankOf self.p h) 255) }
    else self

/-- `HyperLogLog.reset`. -/
def reset : EStateM PyError HyperLogLog Unit :=
  modify fun self => empty self.p

end HyperLogLog

end Sketchlog
