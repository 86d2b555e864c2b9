import Mathlib.Data.Fintype.Fin
import Sketchlog.Ebpf.Kernel

/-!
# The bucket search of the kernel

Eleven halvings bring an interval of fewer than `2^11` buckets down to none. With all 2048 buckets
one is left, the last: only an interval that still ends at the last bucket can be one too long
(`Open`), and there the clamp answers as a further probe would (`probe_spec`). No index expression
leaves `u32` on the way (`indexArithmetic_mem`).
-/

namespace Sketchlog.Ebpf

theorem toNat_add_one {a : UInt32} (h : a.toNat + 1 < 2 ^ 32) : (a + 1).toNat = a.toNat + 1 := by
  have h1 : (1 : UInt32).toNat = 1 := rfl
  rw [UInt32.toNat_add, h1, Nat.mod_eq_of_lt h]

theorem toNat_sub_one {a : UInt32} (h : a.toNat ≠ 0) : (a - 1).toNat = a.toNat - 1 := by
  refine UInt32.toNat_sub_of_le a 1 (UInt32.le_iff_toNat_le.mpr ?_)
  show 1 ≤ a.toNat
  omega

section Loop

variable {V : Type} [LT V] [DecidableLT V] {boundaries : Fin maxBuckets → V} {latencyNs : V}
    {total target : ℕ}

/-- The first `target` of the `total` boundaries are at most the latency, and no other is. -/
structure Separates (boundaries : Fin maxBuckets → V) (latencyNs : V) (total target : ℕ) : Prop where
  total_pos : 0 < total
  total_le : total ≤ maxBuckets
  target_le : target ≤ total
  above_iff : ∀ j : Fin maxBuckets, j.val < total → (latencyNs < boundaries j ↔ target ≤ j.val)

/-- The answer lies between `low` and `high`, which `k` probes separate, or all but the last bucket. -/
structure Open (total target k : ℕ) (low high : UInt32) : Prop where
  high_lt : high.toNat < total
  low_le : low.toNat ≤ high.toNat + 1
  low_le_target : low.toNat ≤ target
  target_le_high : target ≤ high.toNat + 1
  size : high.toNat + 1 - low.toNat < 2 ^ k ∨ high.toNat + 1 - low.toNat = 2 ^ k ∧ high.toNat + 1
    = total

/-- The middle of an interval lies in it. -/
theorem middle_toNat {low high : UInt32} (h : low.toNat ≤ high.toNat) :
    (high - low).toNat = high.toNat - low.toNat
      ∧ ((high - low) >>> 1).toNat = (high.toNat - low.toNat) / 2
      ∧ (middle low high).toNat = low.toNat + (high.toNat - low.toNat) / 2 := by
  have hsub : (high - low).toNat = high.toNat - low.toNat :=
    UInt32.toNat_sub_of_le high low (UInt32.le_iff_toNat_le.mpr h)
  have hhalf : ((high - low) >>> 1).toNat = (high.toNat - low.toNat) / 2 := by
    rw [UInt32.toNat_shiftRight, hsub]
    exact Nat.shiftRight_eq_div_pow _ 1
  have hlt := high.toNat_lt
  refine ⟨hsub, hhalf, ?_⟩
  rw [middle, UInt32.toNat_add, hhalf]
  omega

theorem Open.below {k : ℕ} {low high mid : UInt32} (h : Open total target (k + 1) low high)
    (hle : low.toNat ≤ high.toNat) (hmid : mid.toNat = low.toNat + (high.toNat - low.toNat) / 2)
    (hne : mid.toNat ≠ 0) (htarget : target ≤ mid.toNat) : Open total target k low (mid - 1) := by
  have hone := toNat_sub_one hne
  have hhigh := h.high_lt
  have htl := h.low_le_target
  have hsize := h.size
  rw [pow_succ] at hsize
  -- the lower half is the shorter one: it has no bucket left over
  refine ⟨by omega, by omega, htl, by omega, .inl ?_⟩
  omega

theorem Open.above {k : ℕ} {low high mid : UInt32} (h : Open total target (k + 1) low high)
    (htotal : total ≤ maxBuckets)
    (hle : low.toNat ≤ high.toNat) (hmid : mid.toNat = low.toNat + (high.toNat - low.toNat) / 2)
    (htarget : mid.toNat < target) : Open total target k (mid + 1) high := by
  have hhigh := h.high_lt
  unfold maxBuckets at htotal
  have hone := toNat_add_one (a := mid) (by omega)
  have htl := h.target_le_high
  have hsize := h.size
  rw [pow_succ] at hsize
  refine ⟨hhigh, by omega, by omega, htl, ?_⟩
  rcases hsize with hlt | ⟨heq, hlast⟩
  · exact .inl (by omega)
  · exact .inr ⟨by omega, hlast⟩

/-- The loop ends at the target, or at the last bucket when the target is past it. -/
theorem probe_spec (h : Separates boundaries latencyNs total target) (k : ℕ) {low high : UInt32}
    (ho : Open total target k low high) :
    (probe boundaries latencyNs k low high).toNat = target
      ∨ (probe boundaries latencyNs k low high).toNat = total - 1 ∧ total - 1 ≤ target := by
  induction k generalizing low high with
  | zero =>
    obtain ⟨hhigh, hlow, htlow, hthigh, hsize⟩ := ho
    show low.toNat = target ∨ low.toNat = total - 1 ∧ total - 1 ≤ target
    omega
  | succ k ih =>
    have hhigh := ho.high_lt
    have hlow := ho.low_le_target
    have hthigh := ho.target_le_high
    have hle' := ho.low_le
    have htotal := h.total_le
    rw [probe]
    by_cases hempty : low > high
    · have hlt := UInt32.lt_iff_toNat_lt.mp hempty
      rw [if_pos hempty]
      exact .inl (by omega)
    have hle : low.toNat ≤ high.toNat := not_lt.mp fun hlt => hempty (UInt32.lt_iff_toNat_lt.mpr hlt)
    obtain ⟨-, -, hmid⟩ := middle_toNat hle
    have hmidlt : (middle low high).toNat < maxBuckets := by omega
    have hlookup : lookup boundaries (middle low high)
      = some (boundaries ⟨(middle low high).toNat, hmidlt⟩) :=
      dif_pos hmidlt
    have habove := h.above_iff ⟨(middle low high).toNat, hmidlt⟩
      (by show (middle low high).toNat < total; omega)
    rw [if_neg hempty]
    simp only [hlookup]
    by_cases hcmp : latencyNs < boundaries ⟨(middle low high).toNat, hmidlt⟩
    · have htarget : target ≤ (middle low high).toNat := habove.mp hcmp
      rw [if_pos hcmp]
      by_cases hzero : middle low high = 0
      · -- nothing is below the first boundary
        have hmid0 : (middle low high).toNat = 0 := by rw [hzero]; rfl
        rw [if_pos hzero]
        exact .inl (by omega)
      · have hne : (middle low high).toNat ≠ 0 := fun h0 => hzero (UInt32.toNat_inj.mp h0)
        rw [if_neg hzero]
        exact ih (ho.below hle hmid hne htarget)
    · have htarget : (middle low high).toNat < target := not_le.mp (mt habove.mpr hcmp)
      rw [if_neg hcmp]
      exact ih (ho.above htotal hle hmid htarget)

/-- No index expression wraps around. -/
theorem indexArithmetic_mem (htotal : total ≤ maxBuckets) (k : ℕ) {low high : UInt32}
    (hhigh : high.toNat < total)
    (hlow : low.toNat ≤ total) : ∀ x ∈ indexArithmetic boundaries latencyNs k low high,
      0 ≤ x ∧ x < 2 ^ 32 := by
  unfold maxBuckets at htotal
  -- on the steps of the binary search; `middle` lies between the two ends
  induction k generalizing low high with
  | zero => exact fun x hx => absurd hx List.not_mem_nil
  | succ k ih =>
    rw [indexArithmetic]
    by_cases hempty : low > high
    · -- the ends have met, and no further number is computed
      rw [if_pos hempty]
      exact fun x hx => absurd hx List.not_mem_nil
    have hle : low.toNat ≤ high.toNat := not_lt.mp fun hlt => hempty (UInt32.lt_iff_toNat_lt.mpr hlt)
    obtain ⟨-, hhalf, hmid⟩ := middle_toNat hle
    have hlookup : lookup boundaries (middle low high) = some (boundaries ⟨(middle low high).toNat, by
        unfold maxBuckets
        omega⟩) := dif_pos (by unfold maxBuckets; omega)
    have hone := toNat_add_one (a := middle low high) (by omega)
    -- `middle` and the successor its sum needs are in range, then the end that moves
    rw [if_neg hempty]
    simp only [hlookup]
    refine List.forall_mem_cons.mpr ⟨by omega, List.forall_mem_cons.mpr ⟨by omega, ?_⟩⟩
    -- the upper end moves below `middle`, unless that is zero; otherwise the lower end above it
    split
    · split
      · exact fun x hx => absurd hx List.not_mem_nil
      · next hzero =>
        have hne : (middle low high).toNat ≠ 0 := fun h0 => hzero (UInt32.toNat_inj.mp h0)
        have hpred := toNat_sub_one hne
        exact List.forall_mem_cons.mpr ⟨by omega, ih (by omega) hlow⟩
    · exact List.forall_mem_cons.mpr ⟨by omega, ih hhigh (by omega)⟩

/-- The bucket of a latency is the target, or the last one when the target is past it. -/
theorem chosen_toNat {numBuckets : UInt32}
    (h : Separates boundaries latencyNs numBuckets.toNat target) :
    (chosen boundaries latencyNs numBuckets).toNat = min target (numBuckets.toNat - 1) := by
  have hpos := h.total_pos
  have htarget := h.target_le
  have hsize := h.total_le
  unfold maxBuckets at hsize
  have hlast := toNat_sub_one (a := numBuckets) (by omega)
  have hzero : (0 : UInt32).toNat = 0 := rfl
  have hopen : Open numBuckets.toNat target 11 0 (numBuckets - 1) :=
    ⟨by omega, by omega, by omega, by omega, by omega⟩
  have hprobe := probe_spec h 11 hopen
  rw [chosen]
  by_cases hclamp : probe boundaries latencyNs 11 0 (numBuckets - 1) ≥ numBuckets
  · have hge := UInt32.le_iff_toNat_le.mp hclamp
    rw [if_pos hclamp, hlast]
    omega
  · have hlt : (probe boundaries latencyNs 11 0 (numBuckets - 1)).toNat < numBuckets.toNat :=
      not_le.mp fun hge => hclamp (UInt32.le_iff_toNat_le.mpr hge)
    rw [if_neg hclamp]
    omega

end Loop

/-- How many of the first `total` boundaries are at most the latency. -/
def boundariesUpTo (boundaries : Fin maxBuckets → UInt64) (latencyNs : UInt64) (total : ℕ) : ℕ :=
  (Finset.univ.filter fun j : Fin maxBuckets => j.val < total ∧ boundaries j ≤ latencyNs).card

/-- A property that is inherited downwards holds below some index. -/
theorem exists_threshold {p : ℕ → Prop} (total : ℕ) (hp : ∀ i j, i ≤ j → j < total → p j → p i) :
    ∃ t ≤ total, ∀ j < total, (p j ↔ j < t) := by
  induction total with
  | zero => exact ⟨0, le_rfl, fun j hj => absurd hj (Nat.not_lt_zero j)⟩
  | succ n ih =>
    obtain ⟨t, ht, hsep⟩ := ih fun i j hij hj => hp i j hij (by omega)
    by_cases hn : p n
    · exact ⟨n + 1, le_rfl, fun j hj => ⟨fun _ => hj, fun _ => hp j n (by omega) (by omega) hn⟩⟩
    · refine ⟨t, by omega, fun j hj => ?_⟩
      by_cases hjn : j < n
      · exact hsep j hjn
      · obtain rfl : j = n := by omega
        exact ⟨fun h => absurd h hn, fun h => absurd h (by omega)⟩

/-- In a non-decreasing array, the boundaries that are at most the latency come first. -/
theorem separates_boundariesUpTo {boundaries : Fin maxBuckets → UInt64} (latencyNs : UInt64) {total : ℕ}
    (hpos : 0 < total) (hle : total ≤ maxBuckets)
    (hsorted : ∀ i j : Fin maxBuckets, i ≤ j → j.val < total → boundaries i ≤ boundaries j) :
    Separates boundaries latencyNs total (boundariesUpTo boundaries latencyNs total) := by
  obtain ⟨t, ht, hsep⟩ := exists_threshold (p := fun j =>
    ∃ hj : j < maxBuckets, boundaries ⟨j, hj⟩ ≤ latencyNs)
    total fun i j hij hj ⟨hjlt, hbound⟩ =>
      ⟨by omega, UInt64.le_trans (hsorted ⟨i, by omega⟩ ⟨j, hjlt⟩ hij hj) hbound⟩
  have hsep (j : Fin maxBuckets) (hj : j.val < total) : boundaries j ≤ latencyNs ↔ j.val < t := by
    rw [← hsep j.val hj]
    exact ⟨fun h => ⟨j.isLt, h⟩, fun ⟨_, h⟩ => h⟩
  have hfilter : (Finset.univ.filter fun j : Fin maxBuckets => j.val < total ∧ boundaries j ≤ latencyNs)
      = Finset.univ.filter fun j : Fin maxBuckets => j.val < t := by
    refine Finset.filter_congr fun j _ => ⟨fun h => (hsep j h.1).mp h.2, fun h => ?_⟩
    have hj : j.val < total := by omega
    exact ⟨hj, (hsep j hj).mpr h⟩
  have hcount : boundariesUpTo boundaries latencyNs total = t := by
    rw [boundariesUpTo, hfilter, Fin.card_filter_val_lt]
    omega
  rw [hcount]
  refine ⟨hpos, hle, ht, fun j hj => ?_⟩
  rw [← UInt64.not_le, hsep j hj, not_lt]

/-- **The search is right within its eleven probes.** For every number of buckets, every
non-decreasing array of boundaries and every latency, one counter grows by one: that of the bucket
with as many boundaries below it as are at most the latency, or of the last bucket. No index
expression wraps around. -/
theorem recordLatency_increments {cpus : ℕ} (self : Maps UInt64 cpus) (hpos : 1 ≤ self.numBuckets.toNat)
    (hle : self.numBuckets.toNat ≤ 2048)
    (hsorted : ∀ i j : Fin maxBuckets, i ≤ j → j.val < self.numBuckets.toNat →
      self.bucketBoundaries i ≤ self.bucketBoundaries j)
    (latencyNs : UInt64) (cpu : Fin cpus) :
    (∃ i : Fin maxBuckets,
        i.val = min (boundariesUpTo self.bucketBoundaries latencyNs self.numBuckets.toNat)
          (self.numBuckets.toNat - 1)
        ∧ self.recordLatency latencyNs cpu = self.increment i cpu)
      ∧ (0 : ℤ) ≤ self.numBuckets.toNat - 1
      ∧ ∀ x ∈ indexArithmetic self.bucketBoundaries latencyNs 11 0 (self.numBuckets - 1),
        0 ≤ x ∧ x < 2 ^ 32 := by
  -- the search ends at the last boundary not above the latency, or at the last bucket
  have hchosen := chosen_toNat (separates_boundariesUpTo latencyNs hpos hle hsorted)
  have hlt : (chosen self.bucketBoundaries latencyNs self.numBuckets).toNat < maxBuckets := by
    rw [hchosen]
    unfold maxBuckets
    omega
  -- the guard of the program lets these sizes pass
  have hguard : ¬ (self.numBuckets = 0 ∨ self.numBuckets.toNat > maxBuckets) := by
    rintro (h | h)
    · rw [h] at hpos
      exact absurd hpos (by decide)
    · unfold maxBuckets at h
      omega
  have hlast := toNat_sub_one (a := self.numBuckets) (by omega)
  refine ⟨⟨⟨_, hlt⟩, hchosen, ?_⟩, by omega, ?_⟩
  · rw [Maps.recordLatency, if_neg hguard]
    exact dif_pos hlt
  · exact indexArithmetic_mem hle 11 (by omega) (Nat.zero_le _)

/-- Of the boundaries 10, 20, 30 and so on, with all 2048 buckets in use, two are at most 25. -/
theorem recordLatency_increments_full :
    let maps : Maps UInt64 1 := ⟨fun i => UInt64.ofNat (10 * (i.val + 1)), fun _ _ => 0, 2048⟩
    ∃ i : Fin maxBuckets, i.val = min (boundariesUpTo maps.bucketBoundaries 25 2048) 2047
      ∧ maps.recordLatency 25 0 = maps.increment i 0 := by
  intro maps
  refine (recordLatency_increments maps (by decide) (by decide) (fun i j hij _ => ?_) 25 0).1
  have hi := i.isLt
  have hj := j.isLt
  have hle : i.val ≤ j.val := hij
  unfold maxBuckets at hi hj
  rw [UInt64.le_iff_toNat_le, UInt64.toNat_ofNat', UInt64.toNat_ofNat', Nat.mod_eq_of_lt (by omega),
    Nat.mod_eq_of_lt (by omega)]
  omega

end Sketchlog.Ebpf
