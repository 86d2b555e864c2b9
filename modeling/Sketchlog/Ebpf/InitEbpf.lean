import Mathlib.Analysis.SpecialFunctions.Pow.Real
import Sketchlog.Ebpf.Kernel
import Sketchlog.Python.Basic

/-!
# `_init_ebpf` of `ebpf/collector.py`

The boundaries that userspace loads into the kernel, and the value that `_poll_loop` adds for a
bucket, in exact arithmetic: logarithms and powers are those of the reals, and a boundary is the
whole part of a power of `gamma`.
-/

namespace Sketchlog.Ebpf

noncomputable section

/-- `gamma`, also computed in `_poll_loop`. -/
def gamma (alpha : ℝ) : ℝ := (1 + alpha) / (1 - alpha)

/-- `multiplier`. -/
def multiplier (alpha : ℝ) : ℝ := 1 / Real.log (gamma alpha)

/-- `math.ceil(math.log(ns) * multiplier)`. -/
def indexOf (alpha : ℝ) (ns : ℤ) : ℤ := ⌈Real.log ns * multiplier alpha⌉

/-- `num_buckets`. -/
def numBuckets (alpha : ℝ) (minNs maxNs : ℤ) : ℤ :=
  min (indexOf alpha maxNs - indexOf alpha minNs + 1) 2048

/-- `int(math.exp(actual_bucket_idx / multiplier))`. -/
def boundVal (alpha : ℝ) (actualBucketIdx : ℤ) : ℕ := ⌊Real.exp (actualBucketIdx / multiplier alpha)⌋₊

/-- The maps that are loaded, and `_mapping`. -/
structure Loaded where
  maps : Maps ℕ 0
  mapping : List ℤ

/-- `_init_ebpf`; no counter is read or written here. -/
def initEbpf (alpha : ℝ) (minNs maxNs : ℤ) : Except PyError Loaded :=
  if minNs ≤ 0 ∨ maxNs ≤ 0 ∨ maxNs ≤ minNs then
    .error (.valueError s!"Invalid min_ns ({minNs}) and max_ns ({maxNs})")
  else
    let minIdx := indexOf alpha minNs
    let num := (numBuckets alpha minNs maxNs).toNat
    .ok
      { maps :=
          { bucketBoundaries := fun i => if i.val < num then boundVal alpha (minIdx + i.val) else 0
            bucketCounts := fun _ _ => 0
            numBuckets := UInt32.ofNat num }
        mapping := (List.range num).map fun i : ℕ => minIdx + i }

/-- The value that `_poll_loop` adds for a bucket. -/
def pollValue (alpha : ℝ) (actualBucketIdx : ℤ) : ℝ :=
  2 / (1 + gamma alpha) * gamma alpha ^ actualBucketIdx

/-- What the loop adds for a latency that the kernel has counted. -/
def Loaded.addedFor (self : Loaded) (alpha : ℝ) (latencyNs : ℕ) : Option ℝ :=
  (self.mapping[(chosen self.maps.bucketBoundaries latencyNs self.maps.numBuckets).toNat]?).map
    (pollValue alpha)

end

end Sketchlog.Ebpf
