import Mathlib.Data.UInt
import Mathlib.Logic.Function.Basic

/-!
# `record_latency` of `ebpf/bpf_code.c`

The function over the maps that it looks into, with its indexes in `u32`. Boundaries are only
compared, and their type is left open: it is `u64` in the kernel.
-/

namespace Sketchlog.Ebpf

/-- `MAX_BUCKETS`. -/
def maxBuckets : ℕ := 2048

/-- The maps of the kernel; `config_map` has one entry, and `bucket_counts` a counter for each CPU. -/
structure Maps (V : Type) (cpus : ℕ) where
  bucketBoundaries : Fin maxBuckets → V
  bucketCounts : Fin maxBuckets → Fin cpus → UInt64
  numBuckets : UInt32

/-- `lookup` in an array of `MAX_BUCKETS` entries; `NULL` past its end. -/
def lookup {A : Type} (table : Fin maxBuckets → A) (key : UInt32) : Option A :=
  if h : key.toNat < maxBuckets then some (table ⟨key.toNat, h⟩) else none

/-- `low + ((high - low) >> 1)`. -/
def middle (low high : UInt32) : UInt32 := low + ((high - low) >>> 1)

section Record

variable {V : Type} [LT V] [DecidableLT V] {cpus : ℕ}

/-- The loop with `k` iterations to go: the last `low`. -/
def probe (boundaries : Fin maxBuckets → V) (latencyNs : V) : ℕ → UInt32 → UInt32 → UInt32
  | 0, low, _ => low
  | k + 1, low, high =>
    if low > high then low
    else
      let mid := middle low high
      match lookup boundaries mid with
      | none => low
      | some bound =>
        if latencyNs < bound then
          if mid = 0 then low else probe boundaries latencyNs k low (mid - 1)
        else probe boundaries latencyNs k (mid + 1) high

/-- The bucket that is looked up at the end, of `total` buckets. -/
def chosen (boundaries : Fin maxBuckets → V) (latencyNs : V) (total : UInt32) : UInt32 :=
  let low := probe boundaries latencyNs 11 0 (total - 1)
  if low ≥ total then total - 1 else low

/-- It is one of them. -/
theorem chosen_lt (boundaries : Fin maxBuckets → V) (latencyNs : V) {total : UInt32}
    (h : 0 < total.toNat) : (chosen boundaries latencyNs total).toNat < total.toNat := by
  unfold chosen
  dsimp only
  split
  · have hlt := total.toNat_lt
    have hone : (1 : UInt32).toNat = 1 := rfl
    rw [UInt32.toNat_sub]
    omega
  · next hlow => exact UInt32.lt_iff_toNat_lt.mp (UInt32.not_le.mp hlow)

namespace Maps

/-- `(*count)++`, on the CPU that runs. -/
def increment (self : Maps V cpus) (i : Fin maxBuckets) (cpu : Fin cpus) : Maps V cpus :=
  { self with
    bucketCounts := Function.update self.bucketCounts i
      (Function.update (self.bucketCounts i) cpu (self.bucketCounts i cpu + 1)) }

/-- `record_latency`. -/
def recordLatency (self : Maps V cpus) (latencyNs : V) (cpu : Fin cpus) : Maps V cpus :=
  if self.numBuckets = 0 ∨ self.numBuckets.toNat > maxBuckets then self
  else
    let low := chosen self.bucketBoundaries latencyNs self.numBuckets
    if h : low.toNat < maxBuckets then self.increment ⟨low.toNat, h⟩ cpu else self

end Maps

/-- The index expressions of the loop, each computed in the integers from the `u32` it reads. -/
def indexArithmetic (boundaries : Fin maxBuckets → V) (latencyNs : V) : ℕ → UInt32 → UInt32 → List ℤ
  | 0, _, _ => []
  | k + 1, low, high =>
    if low > high then []
    else
      let mid := middle low high
      ((high.toNat : ℤ) - low.toNat) :: (low.toNat + ((high - low) >>> 1).toNat) ::
        match lookup boundaries mid with
        | none => []
        | some bound =>
          if latencyNs < bound then
            if mid = 0 then []
            else ((mid.toNat : ℤ) - 1) :: indexArithmetic boundaries latencyNs k low (mid - 1)
          else (mid.toNat + 1) :: indexArithmetic boundaries latencyNs k (mid + 1) high

end Record

end Sketchlog.Ebpf
