import Sketchlog.Go.DDSketch
import Sketchlog.Lib.History
import Sketchlog.Properties.Percentile

/-!
# The quantiles of the Go and the Python client

Go rounds the rank up and compares it with cumulative counts; Python subtracts counts from the rank
as it is and stops when nothing is left. A count is whole, so it reaches the rank exactly when it
reaches the rank rounded up (`search_eq_walk`). Both sketches hold the tally of the values they were
given, however these were added and merged, so that they stop at one bucket
(`same_bucket_selected`).
-/

namespace Sketchlog.Go.DDSketch

open Imperative CountMap OrderStatistics Checked Cpp

/-! ## What a sketch holds

Go counts in words, which do not wrap as long as the total does not. So a sketch holds the tally of
its values. -/

/-- The sketch holds the tally `t`. -/
structure Holds (alpha : ℚ) (d : DDSketch) (t : Tally) : Prop where
  alpha_eq : d.alpha = alpha
  buckets : Tallies d.buckets t.positive
  zeroCount : d.zeroCount = t.zeroCount
  count : d.count = t.count

variable {M : IndexMapping} {alpha : ℚ} {d o d' : DDSketch} {s t : Tally}

theorem holds_empty (alpha : ℚ) : Holds alpha (empty alpha) 0 :=
  ⟨rfl, tallies_empty, rfl, by simp [empty]⟩

theorem u64_natCast {n : ℕ} (h : n ≤ maxUInt64) : u64 (n : ℤ) = n :=
  u64_eq (by omega) (by exact_mod_cast h)

/-- A counter that stays below `2^64` does not wrap around. -/
theorem bump_eq {m : Bins} {f : ℤ →₀ ℕ} (h : Tallies m f) (k : ℤ) {c : ℕ} (hc : f k + c ≤ maxUInt64) :
    bump m k c = CountMap.bump m k c := by
  have hsum : u64 (m.getD k 0 + c) = m.getD k 0 + c := by
    rw [h.getD_eq k, ← Nat.cast_add]
    exact u64_natCast hc
  rw [bump, CountMap.bump, hsum]

theorem addBuckets_eq {m n : Bins} {f g : ℤ →₀ ℕ} (hm : Tallies m f) (hn : Tallies n g)
    (h : (f + g).degree ≤ maxUInt64) : addBuckets m n = CountMap.addAll m n := by
  have hloop : ∀ (l : List (ℤ × ℤ)) {m : Bins} {f : ℤ →₀ ℕ}, Tallies m f → (∀ p ∈ l, 0 < p.2) →
      (f + (l.map fun p => Finsupp.single p.1 p.2.toNat).sum).degree ≤ maxUInt64 →
      l.foldl (fun (acc : Bins) (p : ℤ × ℤ) => bump acc p.1 p.2) m
        = l.foldl (fun acc p => CountMap.bump acc p.1 p.2) m := by
    intro l
    induction l with
    | nil => exact fun _ _ _ => rfl
    | cons p l ih =>
      intro m f hm hpos hle
      have hp := hpos p List.mem_cons_self
      have hcast : ((p.2.toNat : ℕ) : ℤ) = p.2 := Int.toNat_of_nonneg hp.le
      rw [List.map_cons, List.sum_cons, ← add_assoc] at hle
      -- the counter of the key is part of the sum that stays below the limit
      have hkey : f p.1 + p.2.toNat ≤ maxUInt64 := by
        have hcount := Finsupp.le_degree p.1 (f + Finsupp.single p.1 p.2.toNat)
        rw [Finsupp.add_apply, Finsupp.single_eq_same] at hcount
        rw [map_add] at hle
        omega
      have hbump := bump_eq hm p.1 hkey
      have hstep := hm.bump p.1 (c := p.2.toNat) (by omega)
      rw [hcast] at hbump hstep
      rw [List.foldl_cons, List.foldl_cons, hbump]
      exact ih hstep (fun q hq => hpos q (List.mem_cons_of_mem p hq)) hle
  refine hloop n.toList hm (fun p hp => hn.toList_pos hp) ?_
  rwa [hn.sum_single]

/-- What `Add` writes besides the extrema. -/
theorem add_fields {v : Binary64} (hv : 0 ≤ v.val) :
    (add M v d).alpha = d.alpha ∧ (add M v d).count = u64 (d.count + 1)
      ∧ (add M v d).zeroCount = (if v.val = 0 then u64 (d.zeroCount + 1) else d.zeroCount)
      ∧ (add M v d).buckets = (if v.val = 0 then d.buckets
        else bump d.buckets (M.key d.alpha v.val) 1) := by
  rw [add, if_neg (not_lt.mpr hv)]
  by_cases h0 : v.val = 0
  · simp only [if_pos h0]
    split <;> split <;> exact ⟨rfl, rfl, rfl, rfl⟩
  · simp only [if_neg h0]
    split <;> split <;> exact ⟨rfl, rfl, rfl, rfl⟩

/-- What `Merge` writes besides the extrema. -/
theorem merge_fields (hm : merge o d = .ok d') :
    d'.alpha = d.alpha ∧ d'.buckets = addBuckets d.buckets o.buckets
      ∧ d'.zeroCount = u64 (d.zeroCount + o.zeroCount) ∧ d'.count = u64 (d.count + o.count) := by
  obtain ⟨_, -, hwrites⟩ := bind_eq_ok.mp hm
  rw [← Except.ok.inj hwrites]
  split <;> split <;> exact ⟨rfl, rfl, rfl, rfl⟩

theorem Holds.add (h : Holds alpha d t) {v : Binary64} (hv : 0 ≤ v.val)
    (hfit : (t + Tally.single M alpha v.val).count ≤ maxUInt64) :
    Holds alpha (DDSketch.add M v d) (t + Tally.single M alpha v.val) := by
  rw [Tally.count_add, Tally.count_single] at hfit
  have hcount : u64 (d.count + 1) = ((t.count + 1 : ℕ) : ℤ) := by
    rw [h.count]
    exact u64_natCast hfit
  obtain ⟨halpha, hc, hz, hb⟩ := add_fields (M := M) (d := d) hv
  refine ⟨halpha.trans h.alpha_eq, ?_, ?_, ?_⟩
  · -- the bucket of the value is bumped by one, unless the value is zero
    rw [hb]
    by_cases h0 : v.val = 0
    · rw [if_pos h0, h0]
      simpa [(Tally.single_zero M alpha).1] using h.buckets
    · have hpos : 0 < v.val := lt_of_le_of_ne hv (Ne.symm h0)
      -- no counter is above the total, so none of them wraps
      have hdegree : t.positive (M.key alpha v.val) ≤ t.positive.degree := Finsupp.le_degree _ _
      have hroom : t.positive (M.key alpha v.val) + 1 ≤ maxUInt64 := by
        rw [Tally.count] at hfit
        omega
      have hbump := bump_eq h.buckets (M.key alpha v.val) (c := 1) hroom
      rw [Nat.cast_one] at hbump
      rw [if_neg h0, h.alpha_eq, hbump, Tally.add_positive, (Tally.single_of_pos M alpha hpos).1]
      exact_mod_cast h.buckets.bump (M.key alpha v.val) (c := 1) one_pos
  · -- likewise for the counter of zeros
    rw [hz, h.zeroCount]
    by_cases h0 : v.val = 0
    · have hroom : t.zeroCount + 1 ≤ maxUInt64 := by
        rw [Tally.count] at hfit
        omega
      rw [if_pos h0, Tally.add_zeroCount, h0, (Tally.single_zero M alpha).2.2]
      exact u64_natCast hroom
    · have hpos : 0 < v.val := lt_of_le_of_ne hv (Ne.symm h0)
      rw [if_neg h0, Tally.add_zeroCount, (Tally.single_of_pos M alpha hpos).2.2, add_zero]
  · rw [hc, hcount, Tally.count_add, Tally.count_single]

theorem Holds.merge (h : Holds alpha d s) (ho : Holds alpha o t) (hm : DDSketch.merge o d = .ok d')
    (hfit : (s + t).count ≤ maxUInt64) : Holds alpha d' (s + t) := by
  have hcounts : s.zeroCount + t.zeroCount ≤ maxUInt64 ∧ (s.positive + t.positive).degree
    ≤ maxUInt64 := by
    rw [Tally.count, Tally.add_zeroCount, Tally.add_positive] at hfit
    omega
  have hzero : u64 (d.zeroCount + o.zeroCount) = ((s.zeroCount + t.zeroCount : ℕ) : ℤ) := by
    rw [h.zeroCount, ho.zeroCount, ← Nat.cast_add]
    exact u64_natCast hcounts.1
  have hcount : u64 (d.count + o.count) = ((s + t).count : ℤ) := by
    rw [h.count, ho.count, ← Nat.cast_add, ← Tally.count_add]
    exact u64_natCast hfit
  have hbuckets : Tallies (addBuckets d.buckets o.buckets) (s.positive + t.positive) := by
    rw [addBuckets_eq h.buckets ho.buckets hcounts.2]
    exact h.buckets.addAll ho.buckets
  obtain ⟨halpha, hb, hz, hc⟩ := merge_fields hm
  refine ⟨halpha.trans h.alpha_eq, ?_, ?_, ?_⟩
  · rw [hb]
    exact hbuckets
  · rw [hz, hzero, Tally.add_zeroCount]
  · rw [hc, hcount]

/-! ## Histories -/

/-- `Built M alpha d h`: adding the non-negative values `h`, and merging sketches so built, has left
`d`. -/
def Built (M : IndexMapping) (alpha : ℚ) : DDSketch → List Binary64 → Prop :=
  History.Built (empty alpha) (fun d v d' => 0 ≤ v.val ∧ d' = add M v d)
    fun d o d' => merge o d = .ok d'

/-- A sketch holds the values of its history, as long as these can be counted. -/
theorem Built.holds {h : List Binary64} (hb : Built M alpha d h) :
    (∀ v ∈ h, 0 ≤ v.val)
      ∧ ((h.map fun v => Tally.single M alpha v.val).sum.count ≤ maxUInt64
        → Holds alpha d (h.map fun v => Tally.single M alpha v.val).sum) := by
  refine History.Built.sum (R := fun d t => t.count ≤ maxUInt64 → Holds alpha d t)
    (P := fun v => 0 ≤ v.val) (fun v => Tally.single M alpha v.val) (fun _ =>
      holds_empty alpha) ?_ ?_ hb
  · rintro d t v d' ih ⟨hv, rfl⟩
    refine ⟨hv, fun hfit => (ih ?_).add hv hfit⟩
    rw [Tally.count_add] at hfit
    omega
  · intro d o d' s t ih ih' hm hfit
    have hparts := hfit
    rw [Tally.count_add] at hparts
    exact (ih (by omega)).merge (ih' (by omega)) hm hfit

/-! ## The two ways to find a rank

Go compares cumulated counts with the rank rounded up, the other backends subtract counts from the
rank. Both stop in the same bucket. -/

/-- The cumulative counts reach the rank rounded up where the walk has used up the rank. -/
theorem search_eq_walk (x : ℚ) (l : List (ℤ × ℤ)) (hl : ∀ p ∈ l, 0 < p.2) {cum : ℤ} (hcum : 0 ≤ cum)
    (hfit : cum + (l.map Prod.snd).sum ≤ maxUInt64) :
    search l ⌈x⌉ cum = (walk l (x - cum)).getLeft? := by
  -- the cumulated count goes up as the remaining rank goes down
  induction l generalizing cum with
  | nil => rfl
  | cons p l ih =>
    obtain ⟨k, c⟩ := p
    have hc : 0 < c := hl (k, c) List.mem_cons_self
    have hrest : ∀ p ∈ l, 0 < p.2 := fun p hp => hl p (List.mem_cons_of_mem _ hp)
    have hsum : 0 ≤ (l.map Prod.snd).sum := by
      refine List.sum_nonneg fun y hy => ?_
      obtain ⟨p, hp, rfl⟩ := List.mem_map.mp hy
      exact (hrest p hp).le
    rw [List.map_cons, List.sum_cons] at hfit
    -- the total is within 64 bits, so the sum does not wrap
    have hwrap : u64 (cum + c) = cum + c := u64_eq (by omega) (by omega)
    -- the search compares with the rank rounded up, the walk with the rank itself
    have hreach : cum + c ≥ ⌈x⌉ ↔ x - cum - c ≤ 0 := by
      rw [ge_iff_le, Int.ceil_le]
      push_cast
      constructor
      · intro h
        linarith
      · intro h
        linarith
    rw [search, walk, hwrap]
    by_cases hstop : x - cum - c ≤ 0
    · rw [if_pos hstop, if_pos (hreach.mpr hstop)]
      rfl
    · rw [if_neg hstop, if_neg (mt hreach.mp hstop), ih hrest (by omega) (by omega)]
      push_cast
      rw [sub_add_eq_sub_sub]

end Sketchlog.Go.DDSketch

namespace Sketchlog

open Checked CountMap OrderStatistics Cpp Bucket

/-- The bucket at which the walk of the Python `quantile` stops; there is none in an empty sketch. -/
def DDSketch.selected (self : DDSketch) (q : ℚ) : Option Bucket :=
  if self.count = 0 then none else (walk self.buckets (q * self.count)).getLeft?

namespace Go.DDSketch

variable {M : IndexMapping} {alpha q : ℚ} {d : DDSketch} {sk : Sketchlog.DDSketch} {t : Tally}

/-- Two sketches that hold one tally, without negative values, select one bucket. -/
theorem selected_eq (hd : Holds alpha d t) (hsk : sk.Represents t) (hneg : t.negative = 0)
    (hfit : t.count ≤ maxUInt64) (h0 : 0 < q) (h1 : q < 1) : d.selected q = sk.selected q := by
  have hnegative : sk.negative = ∅ := hsk.negative.eq_empty_iff.mpr hneg
  have hpositive : d.buckets = sk.positive := hd.buckets.map_eq hsk.positive
  have hcount : d.count = sk.count := hd.count.trans hsk.count.symm
  have hzero : d.zeroCount = sk.zeroCount := hd.zeroCount.trans hsk.zeroCount.symm
  unfold selected Sketchlog.DDSketch.selected
  rw [hcount]
  by_cases hempty : sk.count = 0
  · rw [if_pos hempty, if_pos hempty]
  rw [if_neg hempty, if_neg hempty]
  -- the rank is positive and at most the count, so that it does not wrap around
  have hn : (0 : ℚ) < sk.count := by
    have hpos : 0 < sk.count := by
      have := hsk.count
      omega
    exact_mod_cast hpos
  have hx : 0 < q * sk.count := by positivity
  have hceil : 0 < ⌈q * (sk.count : ℚ)⌉ := Int.ceil_pos.mpr hx
  have hle : ⌈q * (sk.count : ℚ)⌉ ≤ sk.count := Int.ceil_le.mpr (by nlinarith)
  have hmax : sk.count ≤ maxUInt64 := by
    rw [hsk.count]
    exact_mod_cast hfit
  have hrank : d.rankOf q = ⌈q * (sk.count : ℚ)⌉ := by
    rw [rankOf, hcount, u64_eq hceil.le (by omega)]
    exact if_neg hceil.ne'
  have hwalk : walk sk.buckets (q * sk.count)
      = if q * sk.count - sk.zeroCount ≤ 0 then .inl .zero
        else (walk sk.positive.toList (q * sk.count - sk.zeroCount)).map .positive id := by
    rw [Sketchlog.DDSketch.buckets, hnegative]
    show (if _ then _ else _) = _
    rw [walk_map]
  have hreach : ⌈q * (sk.count : ℚ)⌉ ≤ sk.zeroCount ↔ q * sk.count - sk.zeroCount ≤ 0 := by
    rw [Int.ceil_le, sub_nonpos]
  show (if d.rankOf q ≤ d.zeroCount then _ else _) = _
  rw [hrank, hzero, hwalk]
  by_cases hstop : q * sk.count - sk.zeroCount ≤ 0
  · rw [if_pos (hreach.mpr hstop), if_pos hstop]
    rfl
  · have hpast := mt hreach.mp hstop
    have hz : 0 ≤ sk.zeroCount := by
      rw [hsk.zeroCount]
      omega
    have hdiff : u64 (⌈q * (sk.count : ℚ)⌉ - sk.zeroCount) = ⌈q * (sk.count : ℚ) - sk.zeroCount⌉ := by
      rw [Int.ceil_sub_intCast]
      exact u64_eq (by omega) (by omega)
    have hcover : (0 : ℤ) + (sk.positive.toList.map Prod.snd).sum ≤ maxUInt64 := by
      rw [hsk.positive.sum_values, zero_add]
      rw [Tally.count] at hfit
      have : (t.positive.sum fun _ c => c) = t.positive.degree := rfl
      omega
    rw [if_neg hpast, if_neg hstop, hdiff, hpositive,
      search_eq_walk _ _ (fun p hp => hsk.positive.toList_pos hp) le_rfl hcover, Int.cast_zero,
        sub_zero]
    cases walk sk.positive.toList (q * sk.count - sk.zeroCount) <;> rfl

/-- Values that are not negative fill no negative bucket. -/
theorem negative_sum_single {h : List Binary64} (hpos : ∀ v ∈ h, 0 ≤ v.val) :
    (h.map fun v => Tally.single M alpha v.val).sum.negative = 0 := by
  induction h with
  | nil => rfl
  | cons v h ih =>
    have hv : ¬ v.val < 0 := not_lt.mpr (hpos v List.mem_cons_self)
    have hsingle : (Tally.single M alpha v.val).negative = 0 := if_neg hv
    rw [List.map_cons, List.sum_cons, Tally.add_negative, hsingle,
      ih fun w hw => hpos w (List.mem_cons_of_mem v hw), add_zero]

/-- **The two clients select one bucket.** A Go and a Python sketch that were given the same
non-negative values, each by adds and merges of its own, select the same bucket for every `q`
between 0 and 1: none while they are empty, and otherwise the zero bucket or one index, from which
both take the answer. -/
theorem same_bucket_selected {h : List Binary64} {vs : Multiset ℚ} (hd : Built M alpha d h)
    (hsk : Sketchlog.DDSketch.Built M alpha sk vs) (hvs : (h.map Binary64.val : Multiset ℚ) = vs)
    (h0 : 0 < q) (h1 : q < 1)
    (value : ℤ → ERat) :
    d.selected q = sk.selected q
      ∧ (vs ≠ 0 → ∃ b, d.selected q = some b ∧ (b = .zero ∨ ∃ k, b = .positive k)
        ∧ d.quantile value q = .ok (answer value b)
        ∧ sk.quantileAt M q = ((Sketchlog.DDSketch.representative M alpha b : ℚ) : ERat)) := by
  obtain ⟨hpos, hholds⟩ := hd.holds
  have hpy := hsk.holds
  have htally : Sketchlog.DDSketch.tallyOf M alpha vs = (h.map fun v =>
    Tally.single M alpha v.val).sum := by
    rw [← hvs, Sketchlog.DDSketch.tallyOf, Multiset.map_coe, Multiset.sum_coe, List.map_map]
    rfl
  have hrep := hpy.represents
  have hfit := hpy.fits.count_le
  rw [htally] at hrep hfit
  have heq := selected_eq (hholds hfit) hrep (negative_sum_single hpos) hfit h0 h1
  refine ⟨heq, fun hne => ?_⟩
  have hcard : 0 < vs.card := Multiset.card_pos.mpr hne
  have hcount : sk.count = vs.card := by
    rw [hpy.represents.count, Sketchlog.DDSketch.count_tallyOf]
  have hcount0 : sk.count ≠ 0 := by omega
  -- the counts cover the rank, so that the walk stops at a bucket
  have hrank : 0 < q * (vs.card : ℚ) := by
    have : (0 : ℚ) < vs.card := by exact_mod_cast hcard
    positivity
  obtain ⟨b, hwalk, -, -⟩ := walk_eq_inl sk.buckets (Sketchlog.DDSketch.buckets_sorted sk) hrank
    (Sketchlog.DDSketch.rank_le_sum_buckets hpy h1)
  have hcast : (sk.count : ℚ) = vs.card := by
    rw [hcount]
    rfl
  rw [← hcast] at hwalk
  have hselected : d.selected q = some b := by
    rw [heq, Sketchlog.DDSketch.selected, if_neg hcount0, hwalk]
    rfl
  have hgo : d.count ≠ 0 := by
    rw [(hholds hfit).count, ← hrep.count]
    exact hcount0
  refine ⟨b, hselected, ?_, ?_, ?_⟩
  · -- what Go selects is the zero bucket or the key that its loop found
    rw [selected, if_neg hgo] at hselected
    by_cases hz : d.rankOf q ≤ d.zeroCount
    · rw [if_pos hz] at hselected
      exact .inl (Option.some.inj hselected).symm
    · rw [if_neg hz] at hselected
      obtain ⟨k, -, hk⟩ := Option.map_eq_some_iff.mp hselected
      exact .inr ⟨k, hk.symm⟩
  · have hrange : ¬ (q < 0 ∨ q > 1) := by
      rintro (h | h)
      · exact absurd h0 (not_lt.mpr h.le)
      · exact absurd h1 (not_lt.mpr h.le)
    rw [quantile, failIf, failIf, if_neg hrange, if_neg hgo, hselected]
    rfl
  · rw [Sketchlog.DDSketch.quantileAt_eq_walk M sk hcount0 h0 h1, hwalk, hpy.alpha_eq]

/-! ## Four values, in two sketches that are merged -/

def three : Binary64 := .ofInt 3 (by decide)

def eight : Binary64 := .ofInt 8 (by decide)

/-- The sketches of 3 and 0, and of 1 and 8. -/
def firstTwo : DDSketch :=
  add .binary (.ofInt 0 Binary64.abs_zero_lt) (add .binary three (empty (1 / 2)))

def lastTwo : DDSketch :=
  add .binary eight (add .binary (.ofInt 1 Binary64.abs_one_lt) (empty (1 / 2)))

/-- The first, when the second has been merged into it. -/
def allFour : DDSketch where
  alpha := 1 / 2
  buckets := addBuckets firstTwo.buckets lastTwo.buckets
  zeroCount := 1
  count := 4
  minVal := (0 : ℚ)
  maxVal := (8 : ℚ)

theorem built_allFour : Built .binary (1 / 2) allFour
    [three, .ofInt 0 Binary64.abs_zero_lt, .ofInt 1 Binary64.abs_one_lt, eight] := by
  have hfirst : Built .binary (1 / 2) firstTwo [three, .ofInt 0 Binary64.abs_zero_lt] :=
    .add (.add .start ⟨by decide, rfl⟩) ⟨by decide, rfl⟩
  have hlast : Built .binary (1 / 2) lastTwo [.ofInt 1 Binary64.abs_one_lt, eight] :=
    .add (.add .start ⟨by decide, rfl⟩) ⟨by decide, rfl⟩
  have hmerge : merge lastTwo firstTwo = .ok allFour := by decide +kernel
  exact .merge hfirst hlast hmerge

/-- The Python sketch that was given the four values at once. -/
theorem exists_built_four :
    ∃ sk, Sketchlog.DDSketch.Built .binary (1 / 2) sk ([3, 0, 1, 8] : List ℚ) := by
  have hfinite : Sketchlog.DDSketch.finiteValues [.fin three, .fin (.ofInt 0 Binary64.abs_zero_lt),
      .fin (.ofInt 1 Binary64.abs_one_lt), .fin eight] = [3, 0, 1, 8] := by
    simp [Sketchlog.DDSketch.finiteValues, three, eight, Binary64.ofInt]
  exact Sketchlog.DDSketch.exists_built_binary hfinite (by decide +kernel) (by decide)

/-- At `3/4` both take the third of the four values, 3, whose bucket has the index 2. -/
theorem same_bucket_selected_four : ∃ sk : Sketchlog.DDSketch,
    Sketchlog.DDSketch.Built .binary (1 / 2) sk ([3, 0, 1, 8] : List ℚ)
      ∧ allFour.selected (3 / 4) = some (.positive 2) ∧ sk.selected (3 / 4) = some (.positive 2)
      ∧ allFour.quantile (fun k => ((2 ^ k : ℚ) : ERat)) (3 / 4) = .ok ((4 : ℚ) : ERat)
      ∧ sk.quantileAt .binary (3 / 4) = ((4 : ℚ) : ERat) := by
  obtain ⟨sk, hsk⟩ := exists_built_four
  have hvs : ((([three, .ofInt 0 Binary64.abs_zero_lt, .ofInt 1 Binary64.abs_one_lt, eight] :
      List Binary64).map Binary64.val : List ℚ) : Multiset ℚ) = ([3, 0, 1, 8] : List ℚ) := by
    simp [three, eight, Binary64.ofInt]
  obtain ⟨hsame, hanswer⟩ := same_bucket_selected built_allFour hsk hvs (q := 3 / 4) (by norm_num)
    (by norm_num) fun k => ((2 ^ k : ℚ) : ERat)
  have hselected : allFour.selected (3 / 4) = some (.positive 2) := by decide +kernel
  obtain ⟨b, hb, -, hgo, hpython⟩ := hanswer (by simp)
  obtain rfl : b = .positive 2 := Option.some.inj (hb.symm.trans hselected)
  refine ⟨sk, hsk, hselected, hsame ▸ hselected, ?_, ?_⟩
  · rw [hgo]
    decide +kernel
  · rw [hpython]
    decide +kernel

end Go.DDSketch

end Sketchlog
