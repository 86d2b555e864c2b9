import Mathlib.Algebra.BigOperators.Fin
import Sketchlog.Ebpf.Kernel

/-!
# `ebpf/bpf_code.c` and `ebpf/collector.py`

The kernel counts latencies in buckets, with a counter for each CPU; `_poll_loop` brings the counts
into a log. The two run beside each other: a step is one increment in the kernel, or one statement
of the loop that reads or writes what is shared. The log is known by the samples that it has taken
of each bucket's value, and `add_batch` may raise, which ends the thread.
-/

namespace Sketchlog.Ebpf

/-- The boundaries that userspace has loaded, one for each of `_mapping`. -/
structure Boundaries (n : ℕ) where
  bound : Fin n → UInt64
  size_pos : 0 < n
  size_le : n ≤ maxBuckets

variable {n cpus : ℕ}

/-- The map that holds them. -/
def Boundaries.table (boundaries : Boundaries n) (i : Fin maxBuckets) : UInt64 :=
  if h : i.val < n then boundaries.bound ⟨i.val, h⟩ else 0

theorem Boundaries.toNat_size (boundaries : Boundaries n) : (UInt32.ofNat n).toNat = n := by
  have hle := boundaries.size_le
  unfold maxBuckets at hle
  rw [UInt32.toNat_ofNat']
  omega

/-- The bucket of a latency. -/
def bucketOf (boundaries : Boundaries n) (latencyNs : UInt64) : Fin n :=
  ⟨(chosen boundaries.table latencyNs (UInt32.ofNat n)).toNat, by
    have hpos := boundaries.size_pos
    have hsize := boundaries.toNat_size
    have hlt := chosen_lt boundaries.table latencyNs (hsize.symm ▸ hpos)
    omega⟩

/-- Where `_poll_loop` is. -/
inductive Poll (n : ℕ) where
  /-- `wait`. -/
  | waiting
  /-- Before the bucket is read. -/
  | reading (i : Fin n)
  /-- `total_count` was read, and `done` samples of it are added. -/
  | adding (i : Fin n) (totalCount done : ℕ)
  /-- `add_batch` has raised. -/
  | ended (i : Fin n) (totalCount done : ℕ)
  deriving DecidableEq

/-- The kernel's counters, the loop and the log. -/
structure Collector (n cpus : ℕ) where
  /-- `bucket_counts`. -/
  counts : Fin n → Fin cpus → UInt64
  poll : Poll n
  /-- How many samples of a bucket's value were added to the log. -/
  added : Fin n → ℕ
  /-- How often a bucket was incremented. -/
  increments : Fin n → ℕ

namespace Collector

/-- A new collector. -/
def new : Collector n cpus := ⟨fun _ _ => 0, .waiting, fun _ => 0, fun _ => 0⟩

/-- `sum(v.value ...)`. -/
def totalCount (self : Collector n cpus) (i : Fin n) : ℕ := ∑ c, (self.counts i c).toNat

/-- The bucket after `i`, or the end of the pass. -/
def next (i : Fin n) : Poll n := if h : i.val + 1 < n then .reading ⟨i.val + 1, h⟩ else .waiting

/-- The size of the next batch: `batch_size`, and the rest at the end. -/
def batchSize (totalCount done : ℕ) : ℕ :=
  let batch := min totalCount 1000
  if done + batch ≤ totalCount then batch else totalCount - done

inductive Action (cpus : ℕ) where
  /-- `record_latency` on a CPU. -/
  | record (cpu : Fin cpus) (latencyNs : UInt64)
  /-- The next statement of the loop. -/
  | poll
  /-- The next statement of the loop raises, in `add_batch`. -/
  | raise

/-- `(*count)++`. -/
def increment (self : Collector n cpus) (i : Fin n) (cpu : Fin cpus) : Collector n cpus :=
  { self with
    counts := Function.update self.counts i
      (Function.update (self.counts i) cpu (self.counts i cpu + 1))
    increments := Function.update self.increments i (self.increments i + 1) }

/-- The next statement of `_poll_loop`. -/
def pollStep (self : Collector n cpus) : Option (Collector n cpus) :=
  match self.poll with
  | .waiting => if h : 0 < n then some { self with poll := .reading ⟨0, h⟩ } else some self
  | .reading i =>
    if self.totalCount i > 0 then some { self with poll := .adding i (self.totalCount i) 0 }
    else some { self with poll := next i }
  | .adding i totalCount done =>
    if done < totalCount then
      some { self with
        added := Function.update self.added i (self.added i + batchSize totalCount done)
        poll := .adding i totalCount (done + batchSize totalCount done) }
    else
      -- the counters are zeroed
      some { self with counts := Function.update self.counts i fun _ => 0, poll := next i }
  | .ended _ _ _ => none

def step (boundaries : Boundaries n) (self : Collector n cpus) : Action cpus → Option (Collector n cpus)
  | .record cpu latencyNs => some (self.increment (bucketOf boundaries latencyNs) cpu)
  | .poll => self.pollStep
  | .raise =>
    match self.poll with
    | .adding i totalCount done =>
      if done < totalCount then some { self with poll := .ended i totalCount done } else none
    | _ => none

end Collector

end Sketchlog.Ebpf
