import Sketchlog.Python.Basic

/-!
# What a log contains

The abstract state of a log, independent of how a backend stores it: the counted latencies, the
counted events and the register maxima, each a commutative monoid in which ingesting is adding.

* **`Tally`** — the content of a quantile sketch: how many values fell into each bucket of either
  sign, how many were zero, and the extrema;
* **`EventCounts`** — the content of a Count-Min table, every row of which sums to the total;
* **`RegisterMax`** — the content of a HyperLogLog, register-wise maxima;
* **`Contents`** — the three together, for logs of one `Shape` (configuration).

`Fits` states the limits of the storage: 1024 bins per sign, 63-bit bins, zero count and event
total, 64-bit count and total. Parts of what fits also fit (`Contents.Fits.of_add`). Both backends
are proved to implement addition in this monoid restricted to what fits.
-/

namespace Sketchlog

/-! ## Latencies

A `Tally` is what a quantile sketch stands for: a counter for each bucket of either sign, the zeros,
and the two extrema. Tallies are added like multisets, with an empty tally as the neutral element. -/

@[ext]
structure Tally where
  positive : ℤ →₀ ℕ
  negative : ℤ →₀ ℕ
  zeroCount : ℕ
  min : ERat
  max : ERat
  empty_extrema : positive = 0 → negative = 0 → zeroCount = 0 → min = ⊤ ∧ max = ⊥

namespace Tally

noncomputable instance : Zero Tally := ⟨⟨0, 0, 0, ⊤, ⊥, fun _ _ _ => ⟨rfl, rfl⟩⟩⟩

noncomputable instance : Add Tally where
  add s t :=
    { positive := s.positive + t.positive
      negative := s.negative + t.negative
      zeroCount := s.zeroCount + t.zeroCount
      min := Min.min s.min t.min
      max := Max.max s.max t.max
      empty_extrema := by
        intro hp hn hz
        obtain ⟨hp₁, hp₂⟩ := add_eq_zero.mp hp
        obtain ⟨hn₁, hn₂⟩ := add_eq_zero.mp hn
        obtain ⟨hmin₁, hmax₁⟩ := s.empty_extrema hp₁ hn₁ (by omega)
        obtain ⟨hmin₂, hmax₂⟩ := t.empty_extrema hp₂ hn₂ (by omega)
        simp [hmin₁, hmax₁, hmin₂, hmax₂] }

@[simp] theorem zero_positive : (0 : Tally).positive = 0 := rfl
@[simp] theorem zero_negative : (0 : Tally).negative = 0 := rfl
@[simp] theorem zero_zeroCount : (0 : Tally).zeroCount = 0 := rfl
@[simp] theorem zero_min : (0 : Tally).min = ⊤ := rfl
@[simp] theorem zero_max : (0 : Tally).max = ⊥ := rfl

variable (s t : Tally)

@[simp] theorem add_positive : (s + t).positive = s.positive + t.positive := rfl
@[simp] theorem add_negative : (s + t).negative = s.negative + t.negative := rfl
@[simp] theorem add_zeroCount : (s + t).zeroCount = s.zeroCount + t.zeroCount := rfl
@[simp] theorem add_min : (s + t).min = Min.min s.min t.min := rfl
@[simp] theorem add_max : (s + t).max = Max.max s.max t.max := rfl

noncomputable instance : AddCommMonoid Tally where
  add_assoc s t u := by ext1 <;> simp [add_assoc, min_assoc, max_assoc]
  zero_add t := by ext1 <;> simp
  add_zero t := by ext1 <;> simp
  add_comm s t := by ext1 <;> simp [add_comm, min_comm, max_comm]
  nsmul := nsmulRec

/-- How many values were counted. -/
noncomputable def count : ℕ := t.zeroCount + t.positive.degree + t.negative.degree

@[simp] theorem count_zero : (0 : Tally).count = 0 := by simp [count]

@[simp] theorem count_add : (s + t).count = s.count + t.count := by
  simp only [count, add_zeroCount, add_positive, add_negative, map_add]
  omega

theorem count_eq_zero_iff : t.count = 0 ↔ t.positive = 0 ∧ t.negative = 0 ∧ t.zeroCount = 0 := by
  unfold count
  rw [Nat.add_eq_zero_iff, Nat.add_eq_zero_iff, Finsupp.degree_eq_zero_iff,
    Finsupp.degree_eq_zero_iff]
  tauto

theorem extrema_of_count_eq_zero (h : t.count = 0) : t.min = ⊤ ∧ t.max = ⊥ := by
  obtain ⟨hp, hn, hz⟩ := t.count_eq_zero_iff.mp h
  exact t.empty_extrema hp hn hz

/-- One copy of the value `v`. -/
noncomputable def single (M : IndexMapping) (alpha v : ℚ) : Tally where
  positive := if 0 < v then Finsupp.single (M.key alpha v) 1 else 0
  negative := if v < 0 then Finsupp.single (M.key alpha (-v)) 1 else 0
  zeroCount := if v = 0 then 1 else 0
  min := (v : ℚ)
  max := (v : ℚ)
  empty_extrema := by
    intro hp hn hz
    rcases lt_trichotomy v 0 with hv | hv | hv
    · simp [hv] at hn
    · simp [hv] at hz
    · simp [hv] at hp

variable (M : IndexMapping) (alpha : ℚ) {v : ℚ}

theorem single_of_pos (hv : 0 < v) : (single M alpha v).positive = Finsupp.single (M.key alpha v) 1
    ∧ (single M alpha v).negative = 0 ∧ (single M alpha v).zeroCount = 0 := by
  simp [single, hv, hv.ne', lt_asymm hv]

theorem single_of_neg (hv : v < 0) : (single M alpha v).positive = 0
    ∧ (single M alpha v).negative = Finsupp.single (M.key alpha (-v)) 1
    ∧ (single M alpha v).zeroCount = 0 := by
  simp [single, hv, hv.ne, lt_asymm hv]

theorem single_zero : (single M alpha 0).positive = 0 ∧ (single M alpha 0).negative = 0
    ∧ (single M alpha 0).zeroCount = 1 := by
  simp [single]

@[simp] theorem single_min : (single M alpha v).min = (v : ℚ) := rfl

@[simp] theorem single_max : (single M alpha v).max = (v : ℚ) := rfl

@[simp] theorem count_single : (single M alpha v).count = 1 := by
  rcases lt_trichotomy v 0 with hv | rfl | hv
  · obtain ⟨hp, hn, hz⟩ := single_of_neg M alpha hv
    simp [count, hp, hn, hz]
  · obtain ⟨hp, hn, hz⟩ := single_zero M alpha
    simp [count, hp, hn, hz]
  · obtain ⟨hp, hn, hz⟩ := single_of_pos M alpha hv
    simp [count, hp, hn, hz]

@[simp] theorem nsmul_positive (c : ℕ) : (c • t).positive = c • t.positive := by
  induction c with
  | zero => simp
  | succ c ih => rw [succ_nsmul, add_positive, ih, succ_nsmul]

@[simp] theorem nsmul_negative (c : ℕ) : (c • t).negative = c • t.negative := by
  induction c with
  | zero => simp
  | succ c ih => rw [succ_nsmul, add_negative, ih, succ_nsmul]

@[simp] theorem nsmul_zeroCount (c : ℕ) : (c • t).zeroCount = c * t.zeroCount := by
  induction c with
  | zero => simp
  | succ c ih => rw [succ_nsmul, add_zeroCount, ih, Nat.succ_mul]

@[simp] theorem nsmul_count (c : ℕ) : (c • t).count = c * t.count := by
  induction c with
  | zero => simp
  | succ c ih => rw [succ_nsmul, count_add, ih, Nat.succ_mul]

theorem nsmul_min {c : ℕ} (hc : 0 < c) : (c • t).min = t.min := by
  induction c, hc using Nat.le_induction with
  | base => rw [one_nsmul]
  | succ c _ ih => rw [succ_nsmul, add_min, ih, min_self]

theorem nsmul_max {c : ℕ} (hc : 0 < c) : (c • t).max = t.max := by
  induction c, hc using Nat.le_induction with
  | base => rw [one_nsmul]
  | succ c _ ih => rw [succ_nsmul, add_max, ih, max_self]

/-- The limits of a quantile sketch. -/
structure Fits : Prop where
  positive_card : t.positive.support.card ≤ 1024
  negative_card : t.negative.support.card ≤ 1024
  positive_le : ∀ k, t.positive k ≤ maxInt64
  negative_le : ∀ k, t.negative k ≤ maxInt64
  zeroCount_le : t.zeroCount ≤ maxInt64
  count_le : t.count ≤ maxUInt64

theorem fits_zero : (0 : Tally).Fits := by
  constructor <;> simp

/-- So few values fit an empty sketch, whatever they are. -/
theorem fits_of_count_le {t : Tally} (h : t.count ≤ 1024) : t.Fits := by
  have hbin : ∀ f : ℤ →₀ ℕ, f.degree ≤ 1024 → f.support.card ≤ 1024 ∧ ∀ k, f k ≤ maxInt64 := by
    intro f hf
    have hle : ∀ k, f k ≤ 1024 := fun k => (Finsupp.le_degree k f).trans hf
    have hcard : f.support.card ≤ f.degree := by
      rw [Finsupp.degree_apply, Finset.card_eq_sum_ones]
      exact Finset.sum_le_sum fun k hk => Nat.one_le_iff_ne_zero.mpr (Finsupp.mem_support_iff.mp hk)
    exact ⟨by omega, fun k => (hle k).trans (by norm_num [maxInt64])⟩
  have hparts : t.zeroCount + t.positive.degree + t.negative.degree ≤ 1024 := h
  exact
    { positive_card := (hbin _ (by omega)).1
      negative_card := (hbin _ (by omega)).1
      positive_le := (hbin _ (by omega)).2
      negative_le := (hbin _ (by omega)).2
      zeroCount_le := le_trans (b := 1024) (by omega) (by norm_num [maxInt64])
      count_le := h.trans (by norm_num [maxUInt64]) }

theorem fits_single : (single M alpha v).Fits :=
  fits_of_count_le (by rw [count_single]; norm_num)

variable {s t}

theorem card_support_le_add (f g : ℤ →₀ ℕ) : f.support.card ≤ (f + g).support.card := by
  refine Finset.card_le_card fun k hk => ?_
  rw [Finsupp.mem_support_iff] at hk ⊢
  rw [Finsupp.add_apply]
  omega

theorem Fits.of_add (h : (s + t).Fits) : s.Fits where
  positive_card := (card_support_le_add _ _).trans h.positive_card
  negative_card := (card_support_le_add _ _).trans h.negative_card
  positive_le k := le_trans (by simp) (h.positive_le k)
  negative_le k := le_trans (by simp) (h.negative_le k)
  zeroCount_le := le_trans (by simp) h.zeroCount_le
  count_le := le_trans (by simp) h.count_le

end Tally

/-! ## Events

The table of a count-min sketch, with the total that each of its rows sums to. -/

@[ext]
structure EventCounts (width depth : ℕ) where
  table : Fin depth → Fin width → ℕ
  total : ℕ
  row_sum : ∀ r, ∑ j, table r j = total

namespace EventCounts

variable {width depth : ℕ}

instance : Zero (EventCounts width depth) := ⟨⟨0, 0, by simp⟩⟩

instance : Add (EventCounts width depth) where
  add a b := ⟨a.table + b.table, a.total + b.total, fun r => by
    simp [Finset.sum_add_distrib, a.row_sum, b.row_sum]⟩

@[simp] theorem zero_table : (0 : EventCounts width depth).table = 0 := rfl
@[simp] theorem zero_total : (0 : EventCounts width depth).total = 0 := rfl

variable (a b : EventCounts width depth)

@[simp] theorem add_table : (a + b).table = a.table + b.table := rfl
@[simp] theorem add_total : (a + b).total = a.total + b.total := rfl

instance : AddCommMonoid (EventCounts width depth) where
  add_assoc a b c := by ext1 <;> simp [add_assoc]
  zero_add a := by ext1 <;> simp
  add_zero a := by ext1 <;> simp
  add_comm a b := by ext1 <;> simp [add_comm]
  nsmul := nsmulRec

/-- A cell is at most the total: it is one summand of its row. -/
theorem table_le_total (r : Fin depth) (j : Fin width) : a.table r j ≤ a.total := by
  rw [← a.row_sum r]
  exact Finset.single_le_sum (f := a.table r) (fun _ _ => Nat.zero_le _) (Finset.mem_univ j)

/-- `count` occurrences of a key that falls into column `col r` of row `r`. -/
def single (col : Fin depth → Fin width) (count : ℕ) : EventCounts width depth where
  table r j := if j = col r then count else 0
  total := count
  row_sum r := by simp

@[simp] theorem single_total (col : Fin depth → Fin width) (count : ℕ) :
    (single col count).total = count := rfl

/-- The least of the cells of a key that falls into column `col r` of row `r`. -/
def estimate (hd : 0 < depth) (col : Fin depth → Fin width) : ℕ :=
  Finset.univ.inf' ⟨⟨0, hd⟩, Finset.mem_univ _⟩ fun r => a.table r (col r)

end EventCounts

/-! ## Uniques

A register per index, each holding a maximum of ranks; the sum of two families is their maximum. -/

@[ext]
structure RegisterMax (p : ℕ) where
  register : Fin (2 ^ p) → ℕ
  register_le : ∀ i, register i ≤ 64 - p + 1

namespace RegisterMax

variable {p : ℕ}

instance : Zero (RegisterMax p) := ⟨⟨fun _ => 0, fun _ => Nat.zero_le _⟩⟩

instance : Add (RegisterMax p) where
  add a b := ⟨fun i => max (a.register i) (b.register i), fun i =>
    max_le (a.register_le i) (b.register_le i)⟩

@[simp] theorem zero_register (i : Fin (2 ^ p)) : (0 : RegisterMax p).register i = 0 := rfl

variable (a b : RegisterMax p)

@[simp] theorem add_register (i : Fin (2 ^ p)) :
    (a + b).register i = max (a.register i) (b.register i) := rfl

instance : AddCommMonoid (RegisterMax p) where
  add_assoc a b c := by ext i; simp [max_assoc]
  zero_add a := by ext i; simp
  add_zero a := by ext i; simp
  add_comm a b := by ext i; simp [max_comm]
  nsmul := nsmulRec

/-- One item of rank `rank` in register `index`. -/
def single (index : Fin (2 ^ p)) (rank : ℕ) (h : rank ≤ 64 - p + 1) : RegisterMax p where
  register i := if i = index then rank else 0
  register_le i := by split <;> omega

end RegisterMax

/-! ## Logs

The three parts together, over a `Shape` that fixes the dimensions. `Fits` collects every limit that
the code checks before it adds or merges, and it is inherited by the parts of a sum. -/

/-- An accepted configuration. -/
@[ext]
structure Shape where
  alpha : ℚ
  p : ℕ
  width : ℕ
  depth : ℕ
  alpha_isBinary64 : IsBinary64 alpha
  alpha_ge : oneMicro ≤ alpha
  alpha_lt : alpha < 1
  p_ge : 4 ≤ p
  p_le : p ≤ 18
  width_pos : 0 < width
  depth_pos : 0 < depth

/-- The limit the Python log puts on the Count-Min cells; the C++ log has none. -/
def Shape.Bounded (S : Shape) : Prop := S.width ≤ 1000000 / S.depth

@[ext]
structure Contents (S : Shape) where
  latency : Tally
  events : EventCounts S.width S.depth
  uniques : RegisterMax S.p

namespace Contents

variable {S : Shape}

noncomputable instance : Zero (Contents S) := ⟨⟨0, 0, 0⟩⟩

noncomputable instance : Add (Contents S) where
  add a b := ⟨a.latency + b.latency, a.events + b.events, a.uniques + b.uniques⟩

@[simp] theorem zero_latency : (0 : Contents S).latency = 0 := rfl
@[simp] theorem zero_events : (0 : Contents S).events = 0 := rfl
@[simp] theorem zero_uniques : (0 : Contents S).uniques = 0 := rfl

variable (a b : Contents S)

@[simp] theorem add_latency : (a + b).latency = a.latency + b.latency := rfl
@[simp] theorem add_events : (a + b).events = a.events + b.events := rfl
@[simp] theorem add_uniques : (a + b).uniques = a.uniques + b.uniques := rfl

noncomputable instance : AddCommMonoid (Contents S) where
  add_assoc a b c := by ext1 <;> simp [add_assoc]
  zero_add a := by ext1 <;> simp
  add_zero a := by ext1 <;> simp
  add_comm a b := by ext1 <;> simp [add_comm]
  nsmul := nsmulRec

/-- Latencies and events counted. -/
noncomputable def total : ℕ := a.latency.count + a.events.total

@[simp] theorem total_zero : (0 : Contents S).total = 0 := by simp [total]

@[simp] theorem total_add : (a + b).total = a.total + b.total := by
  simp only [total, add_latency, add_events, Tally.count_add, EventCounts.add_total]
  omega

/-- The limits of a log. -/
structure Fits : Prop where
  latency : a.latency.Fits
  events_le : a.events.total ≤ maxInt64
  total_le : a.total ≤ maxUInt64

theorem fits_zero : (0 : Contents S).Fits := ⟨Tally.fits_zero, by simp, by simp⟩

variable {a b}

theorem Fits.of_add (h : (a + b).Fits) : a.Fits where
  latency := Tally.Fits.of_add h.latency
  events_le := le_trans (by simp) h.events_le
  total_le := le_trans (by simp) h.total_le

end Contents

end Sketchlog
