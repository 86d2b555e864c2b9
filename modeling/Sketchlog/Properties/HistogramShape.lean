import Sketchlog.Otel.Exporter

/-!
# The shape of a histogram that is down-sampled

`expandHistogram` gives every bucket its share of the samples, at least one, as long as there are
samples left. A share is rounded by itself, and what the shares before it have used up is not there
for a later bucket: the tail may be lost with three buckets and three samples (`tail_lost`).

`samplesOf` is the number of samples that the run of `expandHistogram` adds for some of the buckets,
and `Reaches` the condition for a bucket to be come to: the shares before it leave a sample, and
their sum stays in an `int`. What is reached has samples (`counted_pos`), within the limit
(`counted_le`). In the other direction a sum that leaves the `int` is one that has gone over the
limit (`reaches_of_counted`).
-/

namespace Sketchlog.Otel

open Binary64

variable {V : Type} (R : Runtime V)

/-! ## An `int`

A sum of two numbers between `0` and `2 ^ 63` either is in the range, or wraps to a negative number. -/

theorem int64_of_range {n : ℤ} (h0 : -2 ^ 63 ≤ n) (h1 : n < 2 ^ 63) : int64 n = n := by
  unfold int64
  exact Int.bmod_eq_of_le_mul_two (by omega) (by omega)

theorem int64_neg {n : ℤ} (h0 : 2 ^ 63 ≤ n) (h1 : n < 2 ^ 64) : int64 n < 0 := by
  have hwrap : int64 n = n - 2 ^ 64 := calc
    int64 n = (n - 2 ^ 64 + ((2 ^ 64 : ℕ) : ℤ)).bmod (2 ^ 64) := by
      rw [int64]
      push_cast
      rw [Int.sub_add_cancel]
    _ = int64 (n - 2 ^ 64) := Int.add_bmod_right _ _
    _ = n - 2 ^ 64 := int64_of_range (by omega) (by omega)
  omega

theorem int64_range (n : ℤ) : -2 ^ 63 ≤ int64 n ∧ int64 n < 2 ^ 63 := by
  have hle := Int.le_bmod (x := n) (m := 2 ^ 64) (by norm_num)
  have hlt := Int.bmod_lt (x := n) (m := 2 ^ 64) (by norm_num)
  unfold int64
  push_cast at hle hlt ⊢
  omega

/-! ## What a bucket is granted

The samples of a bucket before the cap are its share, or one for a share of none; the cap cuts them
down to what is left. -/

/-- The samples that a bucket is to have: its share, or one. -/
def samplesFor (c count : UInt64) (maxSamples : ℤ) : ℤ :=
  if bucketShare R c count maxSamples = 0 then 1 else bucketShare R c count maxSamples

/-- `maxSamples`, with its default. -/
def sampleLimit (maxSamples : ℤ) : ℤ := if maxSamples ≤ 0 then 1000 else maxSamples

theorem bucketShare_range (c count : UInt64) (maxSamples : ℤ) :
    -2 ^ 63 ≤ bucketShare R c count maxSamples ∧ bucketShare R c count maxSamples < 2 ^ 63 := by
  unfold bucketShare
  dsimp only
  split
  · split
    · next hrange => exact hrange
    · exact int64_range _
  · exact int64_range _

theorem samplesFor_range (c count : UInt64) (maxSamples : ℤ) :
    -2 ^ 63 ≤ samplesFor R c count maxSamples ∧ samplesFor R c count maxSamples < 2 ^ 63 := by
  have hshare := bucketShare_range R c count maxSamples
  unfold samplesFor
  split <;> omega

/-- The samples that are granted to a bucket when `emitted` samples are out. -/
def granted (count : UInt64) (maxSamples emitted : ℤ) (c : UInt64) : ℤ :=
  if maxSamples < int64 (emitted + samplesFor R c count maxSamples) then int64 (maxSamples - emitted)
  else samplesFor R c count maxSamples

section Granted

variable {R} {count c : UInt64} {maxSamples emitted : ℤ}

/-- As long as the sum stays in the `int`, the cap works. -/
theorem granted_eq_min (hemitted : 0 ≤ emitted) (hroom : emitted ≤ maxSamples)
    (hmax : maxSamples < 2 ^ 63) (hfits : emitted + samplesFor R c count maxSamples < 2 ^ 63) :
    granted R count maxSamples emitted c
      = min (samplesFor R c count maxSamples) (maxSamples - emitted) := by
  have hrange := samplesFor_range R c count maxSamples
  unfold granted
  rw [int64_of_range (by omega) hfits, int64_of_range (n := maxSamples - emitted) (by omega) (by omega)]
  split <;> omega

/-- A sum that leaves the `int` is not capped: it is negative then. -/
theorem granted_of_overflow (hroom : emitted ≤ maxSamples) (hmax : maxSamples < 2 ^ 63)
    (hemitted : 0 ≤ emitted) (hover : 2 ^ 63 ≤ emitted + samplesFor R c count maxSamples) :
    granted R count maxSamples emitted c = samplesFor R c count maxSamples := by
  have hrange := samplesFor_range R c count maxSamples
  have hneg := int64_neg hover (by omega)
  exact if_neg (by omega)

end Granted

/-! ## Counting samples

`tally p` is `emitHistogramBucket` with a callback that counts, for the buckets in `p`; so
`samplesOf` is a run of `expandHistogram` in which the samples of these buckets are counted. -/

/-- The calls of `addNumber` for the buckets in `p`. -/
def tally (p : ℕ → Bool) (bucket count : ℕ) (bounds : List Float64) (n : ℕ) : ℕ :=
  if p bucket then emitHistogramBucket (fun n _ => n + 1) bucket count bounds n else n

/-- The samples that `expandHistogram` adds for the buckets in `p`. -/
def samplesOf (dp : HistogramDataPoint) (maxSamples : ℤ) (p : ℕ → Bool) : ℕ :=
  expandHistogram R (fun n _ => n + 1) (tally p) dp maxSamples 0

/-- A bucket counts when it is in `p` and has a representative. -/
def Counts (p : ℕ → Bool) (bounds : List Float64) (i : ℕ) : Prop :=
  p i = true ∧ (histogramRepresentative i bounds).isSome = true

instance (p : ℕ → Bool) (bounds : List Float64) (i : ℕ) : Decidable (Counts p bounds i) :=
  inferInstanceAs (Decidable (_ ∧ _))

/-- A call adds as many samples as it says, or none. -/
theorem emitHistogramBucket_count (bucket count : ℕ) (bounds : List Float64) (n : ℕ) :
    emitHistogramBucket (fun n _ => n + 1) bucket count bounds n
      = n + if (histogramRepresentative bucket bounds).isSome then count else 0 := by
  have hiterate : ∀ k : ℕ, (fun m : ℕ => m + 1)^[k] n = n + k := by
    intro k
    induction k with
    | zero => rfl
    | succ k ih => rw [Function.iterate_succ_apply', ih, Nat.add_assoc]
  unfold emitHistogramBucket
  by_cases hzero : count = 0
  · rw [if_pos hzero, hzero]
    split <;> rfl
  · rw [if_neg hzero]
    cases histogramRepresentative bucket bounds with
    | none => rfl
    | some representative => exact hiterate count

theorem tally_eq (p : ℕ → Bool) (bucket count : ℕ) (bounds : List Float64) (n : ℕ) :
    tally p bucket count bounds n = n + if Counts p bounds bucket then count else 0 := by
  unfold tally
  by_cases hp : p bucket = true
  · rw [if_pos hp, emitHistogramBucket_count]
    by_cases hrep : (histogramRepresentative bucket bounds).isSome = true
    · rw [if_pos hrep, if_pos ⟨hp, hrep⟩]
    · rw [if_neg hrep, if_neg fun h => hrep h.2]
  · rw [if_neg hp, if_neg fun h => hp h.1, Nat.add_zero]

section Counted

variable (p : ℕ → Bool) (count : UInt64) (maxSamples : ℤ) (bounds : List Float64)

/-- The samples that the loop counts from `emitted` on. -/
def counted (emitted : ℤ) (buckets : List (UInt64 × ℕ)) : ℕ :=
  downSample R (tally p) count maxSamples bounds emitted buckets 0

/-- One turn of the loop, with the cap under its name. -/
theorem downSample_cons {β : Type} (emit : ℕ → ℕ → List Float64 → β → β) (emitted : ℤ) (c : UInt64)
    (i : ℕ) (rest : List (UInt64 × ℕ)) (b : β) :
    downSample R emit count maxSamples bounds emitted ((c, i) :: rest) b
      = if c = 0 then downSample R emit count maxSamples bounds emitted rest b
        else if granted R count maxSamples emitted c ≤ 0 then b
        else downSample R emit count maxSamples bounds
          (int64 (emitted + granted R count maxSamples emitted c))
          rest (emit i (granted R count maxSamples emitted c).toNat bounds b) := rfl

theorem downSample_tally (emitted : ℤ) (buckets : List (UInt64 × ℕ)) (n : ℕ) :
    downSample R (tally p) count maxSamples bounds emitted buckets n
      = n + counted R p count maxSamples bounds emitted buckets := by
  unfold counted
  induction buckets generalizing emitted n with
  | nil => rfl
  | cons bucket rest ih =>
    obtain ⟨c, i⟩ := bucket
    rw [downSample_cons, downSample_cons]
    by_cases hzero : c = 0
    · rw [if_pos hzero, if_pos hzero]
      exact ih emitted n
    · rw [if_neg hzero, if_neg hzero]
      split
      · rfl
      · rw [ih, ih _ (tally _ _ _ _ 0), tally_eq, tally_eq]
        omega

theorem counted_cons (emitted : ℤ) (c : UInt64) (i : ℕ) (rest : List (UInt64 × ℕ)) :
    counted R p count maxSamples bounds emitted ((c, i) :: rest)
      = if c = 0 then counted R p count maxSamples bounds emitted rest
        else if granted R count maxSamples emitted c ≤ 0 then 0
        else (if Counts p bounds i then (granted R count maxSamples emitted c).toNat else 0)
          + counted R p count maxSamples bounds
            (int64 (emitted + granted R count maxSamples emitted c)) rest := by
  rw [counted, downSample_cons]
  split
  · rfl
  · split
    · rfl
    · rw [downSample_tally, tally_eq, Nat.zero_add]

/-- Nothing is counted where no bucket counts. -/
theorem counted_eq_zero {buckets : List (UInt64 × ℕ)} (hnone : ∀ b ∈ buckets, ¬ Counts p bounds b.2)
    (emitted : ℤ) : counted R p count maxSamples bounds emitted buckets = 0 := by
  induction buckets generalizing emitted with
  | nil => rfl
  | cons bucket rest ih =>
    obtain ⟨c, i⟩ := bucket
    obtain ⟨hfirst, hrest⟩ := List.forall_mem_cons.mp hnone
    rw [counted_cons, ih hrest, ih hrest, if_neg hfirst]
    split
    · rfl
    · split <;> rfl

end Counted

/-! ## The buckets that are reached

A bucket is reached when the samples that the buckets before it are to have, all positive, sum to
less than the limit. The sum with its own samples is still to be one of the `int`. -/

/-- The samples that the non-empty ones of these buckets are to have. -/
def samplesBefore (count : UInt64) (maxSamples : ℤ) (buckets : List UInt64) : ℤ :=
  ((buckets.filter fun c => c ≠ 0).map fun c => samplesFor R c count maxSamples).sum

/-- A bucket is reached behind the buckets `before`, when `emitted` samples are out already. -/
structure Reaches (count : UInt64) (maxSamples emitted : ℤ) (before : List UInt64) (c : UInt64) :
    Prop where
  left : emitted + samplesBefore R count maxSamples before < maxSamples
  fits : emitted + samplesBefore R count maxSamples before + samplesFor R c count maxSamples < 2 ^ 63
  positive : ∀ c' ∈ before ++ [c], c' ≠ 0 → 0 < samplesFor R c' count maxSamples

section Reaches

variable {R} {count c : UInt64} {maxSamples emitted : ℤ} {bounds : List Float64}

theorem samplesBefore_nil : samplesBefore R count maxSamples [] = 0 := rfl

theorem samplesBefore_cons (c : UInt64) (buckets : List UInt64) :
    samplesBefore R count maxSamples (c :: buckets)
      = (if c = 0 then 0 else samplesFor R c count maxSamples) + samplesBefore R count maxSamples
        buckets := by
  unfold samplesBefore
  by_cases hzero : c = 0
  · rw [List.filter_cons_of_neg (by simpa using hzero), if_pos hzero, zero_add]
  · rw [List.filter_cons_of_pos (by simpa using hzero), if_neg hzero, List.map_cons, List.sum_cons]

theorem samplesBefore_append (before after : List UInt64) :
    samplesBefore R count maxSamples (before ++ after)
      = samplesBefore R count maxSamples before + samplesBefore R count maxSamples after := by
  unfold samplesBefore
  rw [List.filter_append, List.map_append, List.sum_append]

theorem samplesBefore_nonneg {buckets : List UInt64}
    (h : ∀ c ∈ buckets, c ≠ 0 → 0 < samplesFor R c count maxSamples) :
    0 ≤ samplesBefore R count maxSamples buckets := by
  refine List.sum_nonneg fun x hx => ?_
  obtain ⟨c, hc, rfl⟩ := List.mem_map.mp hx
  obtain ⟨hmem, hne⟩ := List.mem_filter.mp hc
  exact (h c hmem (by simpa using hne)).le

/-- A bucket that is empty changes nothing for those behind it. -/
theorem reaches_cons_zero {before : List UInt64} :
    Reaches R count maxSamples emitted (0 :: before) c
      ↔ Reaches R count maxSamples emitted before c := by
  have hsum : samplesBefore R count maxSamples (0 :: before)
    = samplesBefore R count maxSamples before := by
    rw [samplesBefore_cons, if_pos rfl, zero_add]
  constructor
  · rintro ⟨hleft, hfits, hpositive⟩
    rw [hsum] at hleft hfits
    exact ⟨hleft, hfits, (List.forall_mem_cons.mp hpositive).2⟩
  · rintro ⟨hleft, hfits, hpositive⟩
    rw [← hsum] at hleft hfits
    exact ⟨hleft, hfits, List.forall_mem_cons.mpr ⟨fun hne => absurd rfl hne, hpositive⟩⟩

/-- Behind a bucket that is not empty, its samples are out as well. -/
theorem reaches_cons {c₀ : UInt64} {before : List UInt64} (hne : c₀ ≠ 0) :
    Reaches R count maxSamples emitted (c₀ :: before) c
      ↔ 0 < samplesFor R c₀ count maxSamples
        ∧ Reaches R count maxSamples (emitted + samplesFor R c₀ count maxSamples) before c := by
  have hsum : emitted + samplesBefore R count maxSamples (c₀ :: before)
      = emitted + samplesFor R c₀ count maxSamples + samplesBefore R count maxSamples before := by
    rw [samplesBefore_cons, if_neg hne, Int.add_assoc]
  constructor
  · rintro ⟨hleft, hfits, hpositive⟩
    rw [hsum] at hleft hfits
    obtain ⟨hfirst, hrest⟩ := List.forall_mem_cons.mp hpositive
    exact ⟨hfirst hne, hleft, hfits, hrest⟩
  · rintro ⟨hfirst, hleft, hfits, hrest⟩
    exact ⟨by rwa [hsum], by rwa [hsum], List.forall_mem_cons.mpr ⟨fun _ => hfirst, hrest⟩⟩

/-- A bucket that is reached is come to with less than the limit. -/
theorem Reaches.emitted_lt {before : List UInt64} (h : Reaches R count maxSamples emitted before c) :
    emitted < maxSamples := by
  have hsum := samplesBefore_nonneg fun c' hc' => h.positive c' (List.mem_append_left _ hc')
  have hleft := h.left
  omega

/-! ## One direction: what is reached has samples, within the limit

By induction on the buckets before the one in question: each grants its share, and the cap is not
reached. -/

variable {p : ℕ → Bool}

/-- A bucket that counts has samples where it is reached: so far everything has been granted. -/
theorem counted_pos (hint : maxSamples < 2 ^ 63) {pre : List (UInt64 × ℕ)} {i : ℕ}
    (rest : List (UInt64 × ℕ)) (hc : c ≠ 0) (hi : Counts p bounds i) (hemitted : 0 ≤ emitted)
    (h : Reaches R count maxSamples emitted (pre.map Prod.fst) c) :
    0 < counted R p count maxSamples bounds emitted (pre ++ (c, i) :: rest) := by
  -- on the buckets before the one in question; each grants what its share asks for
  induction pre generalizing emitted with
  | nil =>
    have hlt := h.emitted_lt
    -- its own share is positive and there is room below the cap
    have hpos := h.positive c (List.mem_append_right _ List.mem_cons_self) hc
    have hfits : emitted + samplesFor R c count maxSamples < 2 ^ 63 := by
      simpa [samplesBefore_nil] using h.fits
    have hgranted := granted_eq_min hemitted hlt.le hint hfits
    rw [List.nil_append, counted_cons, if_neg hc, if_neg (by omega), if_pos hi]
    omega
  | cons bucket pre ih =>
    obtain ⟨c₀, j⟩ := bucket
    rw [List.cons_append, counted_cons]
    -- an empty bucket is passed over
    by_cases hzero : c₀ = 0
    · subst hzero
      rw [if_pos rfl]
      exact ih hemitted (reaches_cons_zero.mp h)
    · obtain ⟨hfirst, hrest⟩ := (reaches_cons hzero).mp h
      have hlt := hrest.emitted_lt
      -- the cap is not reached yet, so the share is granted in full
      have hgranted : granted R count maxSamples emitted c₀ = samplesFor R c₀ count maxSamples := by
        rw [granted_eq_min hemitted (by omega) hint (by omega)]
        omega
      rw [if_neg hzero, hgranted, if_neg (not_le.mpr hfirst), int64_of_range (by omega) (by omega)]
      exact Nat.add_pos_right _ (ih (by omega) hrest)

/-- The samples stay within the limit when every bucket that counts is reached. -/
theorem counted_le (hint : maxSamples < 2 ^ 63) {buckets : List (UInt64 × ℕ)}
    (hordered : buckets.Pairwise fun a b => Counts p bounds b.2 → Counts p bounds a.2)
    (hemitted : 0 ≤ emitted) (hroom : emitted ≤ maxSamples)
    (h : ∀ pre c i rest, buckets = pre ++ (c, i) :: rest → c ≠ 0 → Counts p bounds i →
      Reaches R count maxSamples emitted (pre.map Prod.fst) c) :
    emitted + counted R p count maxSamples bounds emitted buckets ≤ maxSamples := by
  induction buckets generalizing emitted with
  | nil =>
    show emitted + ((0 : ℕ) : ℤ) ≤ maxSamples
    simpa using hroom
  | cons bucket rest ih =>
    obtain ⟨c₀, j⟩ := bucket
    obtain ⟨hfirst, hordered'⟩ := List.pairwise_cons.mp hordered
    rw [counted_cons]
    by_cases hzero : c₀ = 0
    · subst hzero
      rw [if_pos rfl]
      refine ih hordered' hemitted hroom fun pre c i after heq hc hi => ?_
      exact reaches_cons_zero.mp (h ((0, j) :: pre) c i after (by rw [heq, List.cons_append]) hc hi)
    · rw [if_neg hzero]
      by_cases hj : Counts p bounds j
      · have hreach := h [] c₀ j rest rfl hzero hj
        have hpos := hreach.positive c₀ List.mem_cons_self hzero
        have hfits : emitted + samplesFor R c₀ count maxSamples < 2 ^ 63 := by
          simpa [samplesBefore_nil] using hreach.fits
        have hgranted := granted_eq_min hemitted hroom hint hfits
        have hlt := hreach.emitted_lt
        rw [if_neg (by omega), if_pos hj, int64_of_range (by omega) (by omega), Nat.cast_add,
          Int.toNat_of_nonneg (by omega)]
        -- after a cap there is no room for a bucket behind, so none of them counts
        have hafter : 0 ≤ emitted + granted R count maxSamples emitted c₀ := by omega
        have hrest := ih hordered' hafter (by omega)
          fun pre c i after heq hc hi => by
            have hbehind := h ((c₀, j) :: pre) c i after (by rw [heq, List.cons_append]) hc hi
            obtain ⟨-, hbehind⟩ := (reaches_cons hzero).mp hbehind
            have hroom' := hbehind.emitted_lt
            rwa [show granted R count maxSamples emitted c₀ = samplesFor R c₀ count maxSamples by omega]
        omega
      · -- a bucket without a representative: neither has any behind it
        have hnone : ∀ b ∈ rest, ¬ Counts p bounds b.2 := fun b hb hcounts => hj (hfirst b hb hcounts)
        rw [if_neg hj, counted_eq_zero R p count maxSamples bounds hnone]
        split <;> simpa using hroom

/-! ## The other direction: within the limit, what has samples is reached

A bucket with samples was not cut off, so the shares before it sum to less than the cap. -/

/-- A bucket that has samples is reached, as long as the samples in all stay within the limit: a sum
that leaves the `int` would be granted, and be over the limit. -/
theorem reaches_of_counted (hint : maxSamples < 2 ^ 63) {pre : List (UInt64 × ℕ)} {i : ℕ}
    {rest : List (UInt64 × ℕ)} (hc : c ≠ 0) (hpre : i ∉ pre.map Prod.snd)
    (hall : ∀ b ∈ pre ++ [(c, i)], Counts p bounds b.2) (hemitted : 0 ≤ emitted)
    (hroom : emitted ≤ maxSamples)
    (hsum : emitted + counted R p count maxSamples bounds emitted (pre ++ (c, i) :: rest) ≤ maxSamples)
    (hpos : 0 < counted R (fun j => j = i) count maxSamples bounds emitted (pre ++ (c, i) :: rest)) :
    Reaches R count maxSamples emitted (pre.map Prod.fst) c := by
  -- what a bucket is granted is at most what is left, so its sum has not left the `int`
  have hcap : ∀ {c₀ : UInt64} {e : ℤ} {n : ℕ}, 0 ≤ e → e ≤ maxSamples
    → 0 < granted R count maxSamples e c₀ →
      e + ((granted R count maxSamples e c₀).toNat + n : ℕ) ≤ maxSamples →
        e + samplesFor R c₀ count maxSamples < 2 ^ 63
        ∧ granted R count maxSamples e c₀ = min (samplesFor R c₀ count maxSamples)
          (maxSamples - e) := by
    intro c₀ e n he hroom hgranted hle
    have hfits : e + samplesFor R c₀ count maxSamples < 2 ^ 63 := by
      by_contra hover
      have hsame := granted_of_overflow hroom hint he (not_lt.mp hover)
      omega
    exact ⟨hfits, granted_eq_min he hroom hint hfits⟩
  induction pre generalizing emitted with
  | nil =>
    have hi := hall (c, i) List.mem_cons_self
    rw [List.nil_append, counted_cons, if_neg hc] at hsum hpos
    by_cases hnone : granted R count maxSamples emitted c ≤ 0
    · rw [if_pos hnone] at hpos
      exact absurd hpos (lt_irrefl 0)
    · rw [if_neg hnone, if_pos hi] at hsum
      obtain ⟨hfits, hgranted⟩ := hcap hemitted hroom (not_le.mp hnone) hsum
      refine ⟨?_, ?_, ?_⟩
      · rw [List.map_nil, samplesBefore_nil]
        omega
      · rwa [List.map_nil, samplesBefore_nil, add_zero]
      · intro c' hc' _
        rw [List.mem_singleton.mp hc']
        omega
  | cons bucket pre ih =>
    obtain ⟨c₀, j⟩ := bucket
    have hij : j ≠ i := fun heq => hpre (heq ▸ List.mem_cons_self)
    have hpre' : i ∉ pre.map Prod.snd := fun hmem => hpre (List.mem_cons_of_mem _ hmem)
    obtain ⟨hj, hall'⟩ := List.forall_mem_cons.mp hall
    rw [List.cons_append, counted_cons] at hsum hpos
    by_cases hzero : c₀ = 0
    · subst hzero
      rw [if_pos rfl] at hsum hpos
      exact reaches_cons_zero.mpr (ih hpre' hall' hemitted hroom hsum hpos)
    · rw [if_neg hzero] at hsum hpos
      by_cases hnone : granted R count maxSamples emitted c₀ ≤ 0
      · rw [if_pos hnone] at hpos
        exact absurd hpos (lt_irrefl 0)
      · have hother : ¬ Counts (fun j => decide (j = i)) bounds j :=
          fun h => hij (of_decide_eq_true h.1)
        rw [if_neg hnone, if_pos hj] at hsum
        rw [if_neg hnone, if_neg hother, Nat.zero_add] at hpos
        obtain ⟨hfits, hgranted⟩ := hcap hemitted hroom (not_le.mp hnone) hsum
        rw [int64_of_range (by omega) (by omega)] at hsum hpos
        have hrest := ih hpre' hall' (by omega) (by omega) (by omega) hpos
        -- another bucket is reached behind it, so it was not cut down
        have hlt := hrest.emitted_lt
        have huncut : granted R count maxSamples emitted c₀ = samplesFor R c₀ count maxSamples := by
          omega
        rw [huncut] at hrest
        exact (reaches_cons hzero).mpr ⟨by omega, hrest⟩

end Reaches

/-! ## The shape

A bucket that is reached has those before it reached: the shape is kept when the tail, the last one
that has a representative, is reached. -/

/-- The non-empty bucket `i`, with the count `c`, has a representative. -/
structure Sampled (dp : HistogramDataPoint) (i : ℕ) (c : UInt64) : Prop where
  count : dp.bucketCounts[i]? = some c
  nonempty : c ≠ 0
  represented : (histogramRepresentative i dp.explicitBounds).isSome = true

/-- The tail: the last non-empty bucket that has a representative. -/
structure Tail (dp : HistogramDataPoint) (i : ℕ) (c : UInt64) : Prop extends Sampled dp i c where
  last : ∀ j c', Sampled dp j c' → j ≤ i

theorem histogramRepresentative_isSome (i : ℕ) (bounds : List Float64) :
    (histogramRepresentative i bounds).isSome = true ↔ bounds.length ≠ 0 ∧ i ≤ bounds.length := by
  unfold histogramRepresentative
  dsimp only
  by_cases hempty : bounds.length = 0
  · rw [if_pos hempty]
    simp [hempty]
  · rw [if_neg hempty]
    by_cases hfirst : i = 0
    · rw [if_pos hfirst]
      simp [hempty, hfirst]
    · rw [if_neg hfirst]
      by_cases hinner : i < bounds.length
      · rw [if_pos hinner]
        simp [hempty, hinner.le]
      · rw [if_neg hinner]
        by_cases hlast : i = bounds.length
        · rw [if_pos hlast]
          simp [hempty, hlast]
        · rw [if_neg hlast]
          simp
          omega

variable {R} {dp : HistogramDataPoint} {maxSamples : ℤ}

/-- The bucket `i` among the others, with its index. -/
theorem zipIdx_split {buckets : List UInt64} {i : ℕ} {c : UInt64} (hget : buckets[i]? = some c) :
    buckets.zipIdx = (buckets.take i).zipIdx ++ (c, i) :: (buckets.drop (i + 1)).zipIdx (i + 1) := by
  obtain ⟨hlt, hval⟩ := List.getElem?_eq_some_iff.mp hget
  conv_lhs => rw [← List.take_append_drop i buckets, List.drop_eq_getElem_cons hlt, hval]
  rw [List.zipIdx_append, List.zipIdx_cons, List.length_take, Nat.min_eq_left hlt.le, Nat.zero_add]

/-- The buckets before a place of the list are the first ones of the data point. -/
theorem eq_take_of_zipIdx {buckets : List UInt64} {pre rest : List (UInt64 × ℕ)} {c : UInt64} {i : ℕ}
    (heq : buckets.zipIdx = pre ++ (c, i) :: rest) :
    buckets[i]? = some c ∧ pre.map Prod.fst = buckets.take i := by
  have hindex : pre.length = i := by
    have hsnd := congrArg (List.map Prod.snd) heq
    rw [List.zipIdx_map_snd, List.map_append, List.map_cons] at hsnd
    have hat := congrArg (fun l => l[pre.length]?) hsnd
    rw [List.getElem?_append_right (by simp)] at hat
    have hlength : pre.length < buckets.length := by
      have := congrArg List.length heq
      simp at this
      omega
    simpa [hlength] using hat
  have hfst : buckets = pre.map Prod.fst ++ c :: rest.map Prod.fst := by
    have := congrArg (List.map Prod.fst) heq
    rwa [List.zipIdx_map_fst, List.map_append, List.map_cons] at this
  rw [hfst, ← hindex]
  exact ⟨by simp, by simp⟩

/-- `expandHistogram` is its loop when the count is over the limit. -/
theorem expandHistogram_eq_downSample {β : Type} (add : β → Float64 → β)
    (emit : ℕ → ℕ → List Float64 → β → β) (hcount : sampleLimit maxSamples < (dp.count.toNat : ℤ))
    (hbuckets : dp.bucketCounts ≠ []) (b : β) :
    expandHistogram R add emit dp maxSamples b
      = downSample R emit dp.count (sampleLimit maxSamples) dp.explicitBounds 0
        dp.bucketCounts.zipIdx b := by
  have hne : dp.count ≠ 0 := by
    intro hzero
    rw [hzero, sampleLimit] at hcount
    have h0 : ((0 : UInt64).toNat : ℤ) = 0 := rfl
    split at hcount <;> omega
  rw [expandHistogram, if_neg hne]
  show (if dp.bucketCounts = [] then _ else if (dp.count.toNat : ℤ) ≤ sampleLimit maxSamples then _
    else _) = _
  rw [if_neg hbuckets, if_neg (not_le.mpr hcount)]
  rfl

theorem samplesOf_eq_counted (hcount : sampleLimit maxSamples < (dp.count.toNat : ℤ))
    (hbuckets : dp.bucketCounts ≠ []) (p : ℕ → Bool) :
    samplesOf R dp maxSamples p = counted R p dp.count (sampleLimit maxSamples) dp.explicitBounds 0
      dp.bucketCounts.zipIdx :=
  expandHistogram_eq_downSample _ _ hcount hbuckets 0

/-- Counting all buckets is counting the calls of `addNumber`. -/
theorem samplesOf_true (R : Runtime V) (dp : HistogramDataPoint) (maxSamples : ℤ) :
    samplesOf R dp maxSamples (fun _ => true)
      = expandHistogram R (fun n _ => n + 1) (emitHistogramBucket fun n _ => n + 1)
          dp maxSamples 0 := rfl

/-- Where the tail is reached, so is every bucket before it. -/
theorem reaches_of_tail (hint : sampleLimit maxSamples < 2 ^ 63) {t i : ℕ} {ct c : UInt64}
    (htail : Tail dp t ct)
    (h : Reaches R dp.count (sampleLimit maxSamples) 0 (dp.bucketCounts.take t) ct)
    (hi : Sampled dp i c) :
    Reaches R dp.count (sampleLimit maxSamples) 0 (dp.bucketCounts.take i) c := by
  -- the bucket is the tail itself, or stands before it
  rcases (htail.last i c hi).eq_or_lt with rfl | hlt
  · obtain rfl := Option.some.inj (hi.count.symm.trans htail.count)
    exact h
  · -- then the walk to the tail passes it on the way
    have htake : dp.bucketCounts.take t
        = dp.bucketCounts.take i ++ [c] ++ ((dp.bucketCounts.take t).drop (i + 1)) := by
      have hsucc : dp.bucketCounts.take i ++ [c] = (dp.bucketCounts.take t).take (i + 1) := by
        rw [List.take_take, Nat.min_eq_left hlt, List.take_add_one, hi.count]
        rfl
      rw [hsucc, List.take_append_drop]
    have hpositive := h.positive
    rw [htake] at hpositive
    have hfirst : ∀ c' ∈ dp.bucketCounts.take i ++ [c], c' ≠ 0 →
        0 < samplesFor R c' dp.count (sampleLimit maxSamples) :=
      fun c' hc' => hpositive c' (List.mem_append_left _ (List.mem_append_left _ hc'))
    have hrest : 0 ≤ samplesBefore R dp.count (sampleLimit maxSamples)
      ((dp.bucketCounts.take t).drop (i + 1)) :=
      samplesBefore_nonneg fun c' hc' =>
        hpositive c' (List.mem_append_left _ (List.mem_append_right _ hc'))
    have hpos := hfirst c (List.mem_append_right _ List.mem_cons_self) hi.nonempty
    have hleft := h.left
    rw [htake, samplesBefore_append, samplesBefore_append, samplesBefore_cons, samplesBefore_nil,
      if_neg hi.nonempty] at hleft
    exact ⟨by omega, by omega, hfirst⟩

/-- A bucket is sampled, or there is a tail. -/
theorem exists_tail {i : ℕ} {c : UInt64} (hi : Sampled dp i c) : ∃ t ct, Tail dp t ct := by
  classical
  have hbound : ∀ j c', Sampled dp j c' → j ≤ dp.bucketCounts.length := fun j c' hj =>
    (List.getElem?_eq_some_iff.mp hj.count).1.le
  obtain ⟨ct, ht⟩ := Nat.findGreatest_spec (P := fun j => ∃ c', Sampled dp j c') (hbound i c hi) ⟨c, hi⟩
  exact ⟨_, ct, ht, fun j c' hj => Nat.le_findGreatest (hbound j c' hj) ⟨c', hj⟩⟩

/-- The buckets with a representative are the first ones. -/
theorem counts_iff {p : ℕ → Bool} {bounds : List Float64} {i : ℕ} :
    Counts p bounds i ↔ p i = true ∧ bounds.length ≠ 0 ∧ i ≤ bounds.length := by
  rw [Counts, histogramRepresentative_isSome]

theorem counts_ordered (bounds : List Float64) (buckets : List UInt64) :
    buckets.zipIdx.Pairwise fun a b =>
      Counts (fun _ => true) bounds b.2 → Counts (fun _ => true) bounds a.2 := by
  -- the indices go up, and a representative is a matter of an upper bound
  have hsorted : (buckets.zipIdx.map Prod.snd).Pairwise (· < ·) := by
    rw [List.zipIdx_map_snd]
    exact List.pairwise_lt_range'
  refine (List.pairwise_map.mp hsorted).imp fun {a b} hab hb => ?_
  obtain ⟨-, hne, hle⟩ := counts_iff.mp hb
  exact counts_iff.mpr ⟨rfl, hne, by omega⟩

/-- Without buckets a point gives at most its mean. -/
theorem samplesOf_true_le_one (hbuckets : dp.bucketCounts = []) :
    samplesOf R dp maxSamples (fun _ => true) ≤ 1 := by
  rw [samplesOf_true, expandHistogram]
  dsimp only
  rw [if_pos hbuckets]
  split
  · exact Nat.zero_le 1
  · cases dp.sum with
    | none => exact Nat.zero_le 1
    | some total => exact le_rfl

/-- **What has samples is reached**, when all samples are within the limit. -/
theorem Sampled.reaches {i : ℕ} {c : UInt64} (hi : Sampled dp i c)
    (hint : sampleLimit maxSamples < 2 ^ 63) (hlimit : 0 ≤ sampleLimit maxSamples)
    (hcount : sampleLimit maxSamples < (dp.count.toNat : ℤ))
    (hsum : (samplesOf R dp maxSamples (fun _ => true) : ℤ) ≤ sampleLimit maxSamples)
    (hpos : 0 < samplesOf R dp maxSamples fun j => j = i) :
    Reaches R dp.count (sampleLimit maxSamples) 0 (dp.bucketCounts.take i) c := by
  have hlt := (List.getElem?_eq_some_iff.mp hi.count).1
  have hbuckets : dp.bucketCounts ≠ [] := List.ne_nil_of_length_pos (Nat.zero_lt_of_lt hlt)
  rw [samplesOf_eq_counted hcount hbuckets, zipIdx_split hi.count] at hsum hpos
  have hindex : ((dp.bucketCounts.take i).zipIdx).map Prod.snd = List.range' 0 i := by
    rw [List.zipIdx_map_snd, List.length_take, Nat.min_eq_left hlt.le]
  -- with this bucket those before it have representatives
  obtain ⟨hne, hle⟩ := (histogramRepresentative_isSome _ _).mp hi.represented
  have hall : ∀ b ∈ (dp.bucketCounts.take i).zipIdx ++ [(c, i)],
      Counts (fun _ => true) dp.explicitBounds b.2 := by
    intro b hb
    refine counts_iff.mpr ⟨rfl, hne, ?_⟩
    rcases List.mem_append.mp hb with hb | hb
    · have hmem := List.mem_map_of_mem (f := Prod.snd) hb
      rw [hindex, List.mem_range'_1] at hmem
      omega
    · rw [List.mem_singleton.mp hb]
      exact hle
  have hreach := reaches_of_counted hint hi.nonempty (by rw [hindex]; simp) hall le_rfl hlimit
    (by rwa [zero_add]) hpos
  rwa [List.zipIdx_map_fst] at hreach

/-- **What is reached has samples**, and all samples are within the limit when every bucket with a
representative is reached. -/
theorem samples_of_reaches (hint : sampleLimit maxSamples < 2 ^ 63)
    (hlimit : 0 ≤ sampleLimit maxSamples) (hcount : sampleLimit maxSamples < (dp.count.toNat : ℤ))
    (hbuckets : dp.bucketCounts ≠ [])
    (hreach : ∀ i c, Sampled dp i c →
      Reaches R dp.count (sampleLimit maxSamples) 0 (dp.bucketCounts.take i) c) :
    (samplesOf R dp maxSamples (fun _ => true) : ℤ) ≤ sampleLimit maxSamples
      ∧ ∀ i c, Sampled dp i c → 0 < samplesOf R dp maxSamples fun j => j = i := by
  constructor
  · rw [samplesOf_eq_counted hcount hbuckets]
    have hsum := counted_le hint (counts_ordered dp.explicitBounds dp.bucketCounts) le_rfl hlimit
      fun pre c i rest heq hc hi => by
        obtain ⟨hget, hpre⟩ := eq_take_of_zipIdx heq
        rw [hpre]
        exact hreach i c ⟨hget, hc, hi.2⟩
    rwa [zero_add] at hsum
  · intro i c hi
    rw [samplesOf_eq_counted hcount hbuckets, zipIdx_split hi.count]
    refine counted_pos hint _ hi.nonempty ⟨decide_eq_true rfl, hi.represented⟩ le_rfl ?_
    rw [List.zipIdx_map_fst]
    exact hreach i c hi

/-- **When the shape is kept.** For a histogram whose count is over the limit, the samples are within
the limit and every non-empty bucket that has a representative gets one, if and only if the last such
bucket is reached. -/
theorem shape_kept_iff (R : Runtime V) (dp : HistogramDataPoint) (maxSamples : ℤ)
    (hint : maxSamples < 2 ^ 63)
    (hcount : sampleLimit maxSamples < (dp.count.toNat : ℤ)) :
    (((expandHistogram R (fun (n : ℕ) _ => n + 1) (emitHistogramBucket fun n _ => n + 1)
          dp maxSamples 0 : ℕ) : ℤ) ≤ sampleLimit maxSamples
        ∧ ∀ i c, Sampled dp i c → 0 < samplesOf R dp maxSamples fun j => j = i)
      ↔ ∀ i c, Tail dp i c →
        Reaches R dp.count (sampleLimit maxSamples) 0 (dp.bucketCounts.take i) c := by
  have hlimit : 1 ≤ sampleLimit maxSamples ∧ sampleLimit maxSamples < 2 ^ 63 := by
    unfold sampleLimit
    split <;> omega
  rw [← samplesOf_true]
  by_cases hbuckets : dp.bucketCounts = []
  · -- there is no bucket to reach
    have hnone : ∀ i c, ¬ Sampled dp i c := fun i c h => by simpa [hbuckets] using h.count
    have hone : samplesOf R dp maxSamples (fun _ => true) ≤ 1 := samplesOf_true_le_one hbuckets
    exact iff_of_true ⟨by omega, fun i c hi => absurd hi (hnone i c)⟩ fun i c hi =>
      absurd hi.toSampled (hnone i c)
  constructor
  · rintro ⟨hsum, hall⟩ i c hi
    exact hi.toSampled.reaches hlimit.2 (by omega) hcount hsum (hall i c hi.toSampled)
  · intro htails
    refine samples_of_reaches hlimit.2 (by omega) hcount hbuckets fun i c hi => ?_
    obtain ⟨t, ct, ht⟩ := exists_tail hi
    exact reaches_of_tail hlimit.2 ht (htails t ct ht) hi

/-! ## The tail is lost

Of the three samples for the counts 2, 1 and 1 the first two buckets get all: one and a half is rounded
to two, and three quarters to one. -/

/-- A share that is computed exactly. -/
theorem bucketShare_of_exact (c count : UInt64) (limit : ℤ) (q : ℚ) (hc : c.toNat < 2 ^ 53)
    (hcount : count.toNat < 2 ^ 53) (hpos : count.toNat ≠ 0) (hlimit : |limit| < 2 ^ 53)
    (hq : q = (c.toNat : ℚ) / count.toNat) (hratio : IsBinary64 q) (hshare : IsBinary64 (q * limit))
    (hrange : -2 ^ 63 ≤ mathRound (q * limit) ∧ mathRound (q * limit) < 2 ^ 63) :
    bucketShare R c count limit = mathRound (q * limit) := by
  have hsmall {n : ℕ} (hn : n < 2 ^ 53) : |(n : ℤ)| < 2 ^ 53 := by
    rw [Nat.abs_cast]
    exact_mod_cast hn
  have hcast {n : ℕ} (hn : n < 2 ^ 53) : Float64.ofRat (n : ℚ) = .fin (.ofInt n (hsmall hn)) :=
    Float64.ofRat_intCast n (hsmall hn)
  have hne : (Binary64.ofInt count.toNat (hsmall hcount)).val ≠ 0 := by
    rw [Float64.val_ofInt]
    exact_mod_cast hpos
  unfold bucketShare
  rw [hcast hc, hcast hcount, Float64.fin_div_fin _ hne, Float64.val_ofInt, Float64.val_ofInt,
    Float64.ofRat_intCast limit hlimit, Int.cast_natCast, Int.cast_natCast, ← hq,
      Float64.ofRat_of_isBinary64 hratio,
    Float64.fin_mul_fin, Float64.val_ofInt, Float64.ofRat_of_isBinary64 hshare]
  exact if_pos hrange

/-- Counts of 2, 1 and 1 in three buckets, of which the last is the tail. -/
def tailPoint : HistogramDataPoint where
  count := 4
  sum := none
  bucketCounts := [2, 1, 1]
  explicitBounds := [.one, .fin (.ofInt 2 (by norm_num))]

theorem samplesFor_tailPoint :
    samplesFor Runtime.plain 2 4 3 = 2 ∧ samplesFor Runtime.plain 1 4 3 = 1 := by
  have hhalf : bucketShare Runtime.plain 2 4 3 = 2 := by
    have h := bucketShare_of_exact (R := Runtime.plain) 2 4 3 (1 / 2) (by decide) (by decide)
      (by decide)
      (by norm_num) (show (1 : ℚ) / 2 = ((2 : ℕ) : ℚ) / (4 : ℕ) by norm_num) ⟨1, -1, by norm_num⟩
      ⟨3, -1, by norm_num⟩ (by norm_num [mathRound])
    rw [h]
    norm_num [mathRound]
  have hquarter : bucketShare Runtime.plain 1 4 3 = 1 := by
    have h := bucketShare_of_exact (R := Runtime.plain) 1 4 3 (1 / 4) (by decide) (by decide)
      (by decide)
      (by norm_num) (show (1 : ℚ) / 4 = ((1 : ℕ) : ℚ) / (4 : ℕ) by norm_num) ⟨1, -2, by norm_num⟩
      ⟨3, -2, by norm_num⟩ (by norm_num [mathRound])
    rw [h]
    norm_num [mathRound]
  rw [samplesFor, hhalf, samplesFor, hquarter]
  exact ⟨rfl, rfl⟩

theorem tailPoint_tail : Tail tailPoint 2 1 where
  count := rfl
  nonempty := by decide
  represented := rfl
  last := fun j c' hj => by
    have hlt : j < 3 := (List.getElem?_eq_some_iff.mp hj.count).1
    omega

/-- Three samples go to the first two buckets, rounded up to two and one, and the tail gets none. -/
theorem tail_lost :
    sampleLimit 3 < (tailPoint.count.toNat : ℤ)
      ∧ ((tailPoint.bucketCounts.filter fun c => c ≠ 0).length : ℤ) ≤ sampleLimit 3
      ∧ Tail tailPoint 2 1 ∧ samplesOf Runtime.plain tailPoint 3 (fun j => j = 2) = 0 := by
  refine ⟨by decide, by decide, tailPoint_tail, ?_⟩
  obtain ⟨htwo, hone⟩ := samplesFor_tailPoint
  have hgranted : granted Runtime.plain 4 3 0 2 = 2 := by
    rw [granted, htwo]
    rfl
  have hgranted' : granted Runtime.plain 4 3 2 1 = 1 := by
    rw [granted, hone]
    rfl
  have hgranted'' : granted Runtime.plain 4 3 3 1 = 0 := by
    rw [granted, hone]
    rfl
  rw [samplesOf_eq_counted (by decide) (by decide)]
  show counted Runtime.plain (fun j => j = 2) 4 3 tailPoint.explicitBounds 0
    [(2, 0), (1, 1), (1, 2)] = 0
  rw [counted_cons, if_neg (by decide), hgranted, if_neg (by decide), if_neg (by simp [Counts]),
    show int64 (0 + 2) = 2 from rfl]
  rw [counted_cons, if_neg (by decide), hgranted', if_neg (by decide), if_neg (by simp [Counts]),
    show int64 (2 + 1) = 3 from rfl]
  rw [counted_cons, if_neg (by decide), hgranted'', if_pos (by decide)]

/-- The count of 4 is over the limit of 3, and the tail is not reached. -/
theorem shape_kept_iff_tailPoint :
    (((expandHistogram Runtime.plain (fun (n : ℕ) _ => n + 1) (emitHistogramBucket fun n _ => n + 1)
          tailPoint 3 0 : ℕ) : ℤ) ≤ sampleLimit 3
        ∧ ∀ i c, Sampled tailPoint i c → 0 < samplesOf Runtime.plain tailPoint 3 fun j => j = i)
      ↔ ∀ i c, Tail tailPoint i c →
        Reaches Runtime.plain tailPoint.count (sampleLimit 3) 0 (tailPoint.bucketCounts.take i) c :=
  shape_kept_iff Runtime.plain tailPoint 3 (by norm_num) (by decide)

end Sketchlog.Otel
