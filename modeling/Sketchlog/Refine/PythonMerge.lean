import Sketchlog.Python.StreamLog
import Sketchlog.Refine.PythonDDSketch
import Sketchlog.Refine.PythonHyperLogLog
import Sketchlog.Refine.PythonCountMinSketch

/-!
# The three parts of the Python `merge`

Each part of `_PythonStreamLog.merge` is addition of what the other sketch holds: bucket-wise
addition of tallies, register-wise maxima, cell-wise addition of tables. The latency part completes
exactly when the bins of the sum fit; the cell check of the events part cannot fail once the totals
have been checked.
-/

namespace Sketchlog

open Imperative Checked CountMap

namespace StreamLog

/-- What the bin loops of `merge` check. -/
structure BinsFit (t : Tally) : Prop where
  positive_card : t.positive.support.card ≤ 1024
  negative_card : t.negative.support.card ≤ 1024
  positive_le : ∀ k, t.positive k ≤ maxInt64
  negative_le : ∀ k, t.negative k ≤ maxInt64

theorem mergeBins_outcome {m n : Bins} {f g : ℤ →₀ ℕ} (hm : Tallies m f) (hn : Tallies n g)
    (hf : ∀ k, f k ≤ maxInt64) :
    ((∀ k, (f + g) k ≤ maxInt64) ∧ mergeBins m n = .ok (addAll m n))
      ∨ (¬ (∀ k, (f + g) k ≤ maxInt64)
        ∧ mergeBins m n = .error (.overflowError "DDSketch: bin count overflow")) :=
  hm.addAll_within hn hf rfl

/-- The sketch the latency part builds when it completes. -/
def latencySum (self other : DDSketch) : DDSketch where
  alpha := self.alpha
  positive := addAll self.positive other.positive
  negative := addAll self.negative other.negative
  zeroCount := self.zeroCount + other.zeroCount
  count := self.count + other.count
  min := if other.count > 0 then min self.min other.min else self.min
  max := if other.count > 0 then max self.max other.max else self.max

theorem represents_latencySum {a b : DDSketch} {s t : Tally} (ha : a.Represents s)
    (hb : b.Represents t) : (latencySum a b).Represents (s + t) := by
  -- an empty `other` has neutral extrema, so its branch is the same minimum and maximum
  have hextrema : ¬ b.count > 0 → t.min = ⊤ ∧ t.max = ⊥ := by
    intro hc
    have hc0 : t.count = 0 := by
      have := hb.count
      omega
    exact t.extrema_of_count_eq_zero hc0
  exact
    { positive := ha.positive.addAll hb.positive
      negative := ha.negative.addAll hb.negative
      zeroCount := by simp [latencySum, ha.zeroCount, hb.zeroCount]
      count := by simp [latencySum, ha.count, hb.count]
      min := by
        show (if b.count > 0 then min a.min b.min else a.min) = min s.min t.min
        split
        · rw [ha.min, hb.min]
        · next hc => rw [(hextrema hc).1, ha.min, min_eq_left (by exact le_top)]
      max := by
        show (if b.count > 0 then max a.max b.max else a.max) = max s.max t.max
        split
        · rw [ha.max, hb.max]
        · next hc => rw [(hextrema hc).2, ha.max, max_eq_left bot_le] }

/-- The latency part adds the tallies, or raises when the bins of the sum do not fit. -/
theorem mergeLatency_outcome {a b : DDSketch} {s t : Tally} (ha : a.Represents s)
    (hb : b.Represents t) (hs : s.Fits) :
    (BinsFit (s + t) ∧ ∃ m, mergeLatency a b = .ok m ∧ m.alpha = a.alpha ∧ m.Represents (s + t))
      ∨ (¬ BinsFit (s + t) ∧ ∃ e, mergeLatency a b = .error e) := by
  unfold mergeLatency
  -- the merge can raise at four places: a bin, then the size, of the positive store, then of the
  -- negative
  rcases mergeBins_outcome ha.positive hb.positive hs.positive_le with ⟨hpos, hp⟩ | ⟨hpos, hp⟩
  case inr =>
    rw [hp]
    exact .inr ⟨fun h => hpos h.positive_le, _, rfl⟩
  have hpsize := (ha.positive.addAll hb.positive).size_eq
  by_cases hpcard : (s + t).positive.support.card ≤ 1024
  case neg =>
    rw [hp]
    refine .inr ⟨fun h => hpcard h.positive_card,
      .valueError "DDSketch occupied positive bucket count exceeds bounded capacity", ?_⟩
    have hbig : (addAll a.positive b.positive).size > DDSketch.maxBins := by
      rw [hpsize]
      exact not_le.mp hpcard
    simp [bind, Except.bind, failIf, hbig]
  have hpfit : ¬ (addAll a.positive b.positive).size > DDSketch.maxBins := by
    rw [hpsize]
    exact not_lt.mpr hpcard
  rcases mergeBins_outcome ha.negative hb.negative hs.negative_le with ⟨hneg, hn⟩ | ⟨hneg, hn⟩
  case inr =>
    rw [hp, hn]
    refine .inr ⟨fun h => hneg h.negative_le, .overflowError "DDSketch: bin count overflow", ?_⟩
    simp [bind, Except.bind, failIf, hpfit]
  have hnsize := (ha.negative.addAll hb.negative).size_eq
  by_cases hncard : (s + t).negative.support.card ≤ 1024
  case neg =>
    rw [hp, hn]
    refine .inr ⟨fun h => hncard h.negative_card,
      .valueError "DDSketch occupied negative bucket count exceeds bounded capacity", ?_⟩
    have hbig : (addAll a.negative b.negative).size > DDSketch.maxBins := by
      rw [hnsize]
      exact not_le.mp hncard
    simp [bind, Except.bind, failIf, hpfit, hbig]
  have hnfit : ¬ (addAll a.negative b.negative).size > DDSketch.maxBins := by
    rw [hnsize]
    exact not_lt.mpr hncard
  rw [hp, hn]
  refine .inl ⟨⟨hpcard, hncard, hpos, hneg⟩, latencySum a b, ?_, rfl, represents_latencySum ha hb⟩
  simp only [bind, Except.bind, failIf, hpfit, hnfit, if_false]
  rfl

theorem mergeUniques_ofRegisters {p : ℕ} (a b : RegisterMax p) :
    mergeUniques (.ofRegisters a) (.ofRegisters b) = .ofRegisters (a + b) := by
  show (⟨p, (List.ofFn a.register).zipWith max (List.ofFn b.register)⟩ : HyperLogLog)
    = ⟨p, List.ofFn (a + b).register⟩
  rw [List.zipWith_ofFn]
  rfl

/-! ## Events

The rows are added cell by cell, and the result is the table of the sum. -/

theorem mergeRow_eq (left right : List ℤ) :
    mergeRow left right = if ∃ lr ∈ left.zip right, lr.1 > (maxInt64 : ℤ) - lr.2
      then .error (.overflowError "CountMinSketch: bucket counter overflow")
      else .ok (left.zipWith (· + ·) right) := by
  have h := List.mapM_ite (fun lr : ℤ × ℤ => lr.1 > (maxInt64 : ℤ) - lr.2) (fun lr => lr.1 + lr.2)
    (PyError.overflowError "CountMinSketch: bucket counter overflow") (left.zip right)
  rw [show (left.zip right).map (fun lr => lr.1 + lr.2) = left.zipWith (· + ·) right from
    List.map_uncurry_zip_eq_zipWith] at h
  exact h

theorem mergeTable_eq (left right : List (List ℤ)) :
    mergeTable left right
      = if ∃ rows ∈ left.zip right, ∃ lr ∈ rows.1.zip rows.2, lr.1 > (maxInt64 : ℤ) - lr.2
        then .error (.overflowError "CountMinSketch: bucket counter overflow")
        else .ok (left.zipWith (List.zipWith (· + ·)) right) := by
  unfold mergeTable
  simp only [mergeRow_eq]
  have h := List.mapM_ite
    (fun rows : List ℤ × List ℤ => ∃ lr ∈ rows.1.zip rows.2, lr.1 > (maxInt64 : ℤ) - lr.2)
    (fun rows => rows.1.zipWith (· + ·) rows.2)
    (PyError.overflowError "CountMinSketch: bucket counter overflow") (left.zip right)
  rw [show (left.zip right).map (fun rows => rows.1.zipWith (· + ·) rows.2)
    = left.zipWith (List.zipWith (· + ·)) right from List.map_uncurry_zip_eq_zipWith] at h
  exact h

/-- The events part adds the tables: when the totals fit, no cell passes the limit. -/
theorem mergeTable_ofCounts {width depth : ℕ} (a b : EventCounts width depth)
    (hfit : a.total + b.total ≤ maxInt64) :
    mergeTable (CountMinSketch.ofCounts a).table (CountMinSketch.ofCounts b).table
      = .ok (CountMinSketch.ofCounts (a + b)).table := by
  have htable : ∀ e : EventCounts width depth, (CountMinSketch.ofCounts e).table
      = List.ofFn fun r => List.ofFn fun j => (e.table r j : ℤ) := fun _ => rfl
  rw [mergeTable_eq, if_neg, htable a, htable b, htable (a + b), List.zipWith_ofFn]
  · congr 2
    funext r
    rw [List.zipWith_ofFn]
    simp
  · rintro ⟨rows, hrows, lr, hlr, hover⟩
    rw [htable a, htable b, List.zip_ofFn, List.mem_ofFn] at hrows
    obtain ⟨r, rfl⟩ := hrows
    simp only at hlr
    rw [List.zip_ofFn, List.mem_ofFn] at hlr
    obtain ⟨j, rfl⟩ := hlr
    have hcell : (a + b).table r j ≤ (a + b).total := (a + b).table_le_total r j
    simp only [EventCounts.add_table, Pi.add_apply, EventCounts.add_total] at hcell
    simp only at hover
    omega

end StreamLog

end Sketchlog
