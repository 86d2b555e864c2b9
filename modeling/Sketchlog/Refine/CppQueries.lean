import Sketchlog.Refine.CppStreamLog

/-!
# The queries of the two backends agree

On logs with the same contents `quantile`, `count_greater_than` and `event_count` return the same
answers: the C++ walks and sums run over the same bins in the same order, and a sum of some of the bins
stays below the count, so none wraps.
-/

namespace Sketchlog.Cpp

open Imperative CountMap OrderStatistics

namespace DDSketch

variable {M : IndexMapping} {sk : DDSketch} {t : Tally}

theorem toList_of_empty {store : DenseStore} (h : store = .ofBins store.bins) :
    (if store.empty then [] else store.bins.toList) = store.bins.toList := by
  have hempty : store.empty = store.bins.isEmpty := congrArg DenseStore.empty h
  by_cases hb : store.empty = true
  · have hbins : store.bins = ∅ := by simpa [hempty] using hb
    rw [if_pos hb, hbins]
    simp
  · rw [if_neg hb]

theorem reverse_of_empty {store : DenseStore} (h : store = .ofBins store.bins) :
    (if store.empty then [] else store.bins.toList.reverse) = store.bins.toList.reverse := by
  have hlist := congrArg List.reverse (toList_of_empty h)
  rwa [apply_ite List.reverse, List.reverse_nil] at hlist

/-- `quantile` at a finite argument. -/
theorem quantileAt_toPython_of_stores (hpositive : sk.positive = .ofBins sk.positive.bins)
    (hnegative : sk.negative = .ofBins sk.negative.bins) (q : ℚ) :
    ((sk.quantileAt M q : ℚ) : ERat) = sk.toPython.quantileAt M q := by
  have hneg := reverse_of_empty hnegative
  have hpos := toList_of_empty hpositive
  have hmin : sk.count ≠ 0 → sk.toPython.min = (sk.minValue.val : ERat) := fun h0 => if_neg h0
  have hmax : sk.count ≠ 0 → sk.toPython.max = (sk.maxValue.val : ERat) := fun h0 => if_neg h0
  unfold quantileAt Sketchlog.DDSketch.quantileAt
  rw [hneg, hpos, show sk.toPython.count = sk.count from rfl,
    show sk.toPython.negative = sk.negative.bins from rfl,
    show sk.toPython.positive = sk.positive.bins from rfl,
    show sk.toPython.zeroCount = sk.zeroCount from rfl,
    show sk.toPython.alpha = sk.alpha.val from rfl]
  by_cases h0 : sk.count = 0
  · rw [if_pos h0, if_pos h0]
  rw [if_neg h0, if_neg h0, hmin h0, hmax h0]
  by_cases hlo : q ≤ 0
  · rw [if_pos hlo, if_pos hlo]
  rw [if_neg hlo, if_neg hlo]
  by_cases hhi : q ≥ 1
  · rw [if_pos hhi, if_pos hhi]
  rw [if_neg hhi, if_neg hhi]
  -- the two walks stop at the same bucket, or leave the same rank
  cases walk sk.negative.bins.toList.reverse (q * sk.count) with
  | inl idx => rfl
  | inr rank =>
    by_cases hz : rank - sk.zeroCount ≤ 0
    · simp only [if_pos hz]
    · simp only [if_neg hz]
      cases walk sk.positive.bins.toList (rank - sk.zeroCount) with
      | inl idx => rfl
      | inr _ => rfl

theorem quantileAt_toPython (h : sk.Represents t) (q : ℚ) :
    ((sk.quantileAt M q : ℚ) : ERat) = sk.toPython.quantileAt M q :=
  quantileAt_toPython_of_stores h.positive h.negative q

/-- A conditional sum of positive counts that stays within 64 bits. -/
theorem foldl_addWhere (l : List (ℤ × ℤ)) (p : ℤ → Bool) (acc : ℤ) (hpos : ∀ kc ∈ l, 0 < kc.2)
    (hacc : 0 ≤ acc) (hsum : acc + (l.map Prod.snd).sum ≤ maxUInt64) :
    l.foldl (fun sum kc => if p kc.1 then u64 (sum + u64 kc.2) else sum) acc
      = acc + ((l.filter fun kc => p kc.1).map Prod.snd).sum := by
  induction l generalizing acc with
  | nil => simp
  | cons kc l ih =>
    rw [List.map_cons, List.sum_cons] at hsum
    have hkc : 0 < kc.2 := hpos kc List.mem_cons_self
    have hrest : 0 ≤ (l.map Prod.snd).sum := by
      refine List.sum_nonneg fun n hn => ?_
      obtain ⟨e, he, rfl⟩ := List.mem_map.mp hn
      exact (hpos e (List.mem_cons_of_mem kc he)).le
    have hpos' := fun e he => hpos e (List.mem_cons_of_mem kc he)
    rw [List.foldl_cons]
    by_cases hp : p kc.1 = true
    · have hcount : u64 kc.2 = kc.2 := u64_eq hkc.le (by omega)
      have hnext : u64 (acc + kc.2) = acc + kc.2 := u64_eq (by omega) (by omega)
      rw [if_pos hp, hcount, hnext, ih _ hpos' (by omega) (by omega), List.filter_cons, if_pos hp,
        List.map_cons, List.sum_cons]
      omega
    · rw [if_neg hp, ih _ hpos' hacc (by omega), List.filter_cons, if_neg hp]

variable {b : Bins} {f : ℤ →₀ ℕ}

theorem addWhere_eq {store : DenseStore} (hstore : store = .ofBins store.bins)
    (h : Tallies store.bins f) (p : ℤ → Bool) (acc : ℤ) (hacc : 0 ≤ acc)
    (hsum : acc + f.degree ≤ maxUInt64) :
    addWhere store p acc = acc + Sketchlog.DDSketch.sumWhere store.bins p := by
  have hvalues : (store.bins.toList.map Prod.snd).sum = f.degree := h.sum_values
  have hlist := toList_of_empty hstore
  have hfold := foldl_addWhere store.bins.toList p acc (fun kc hkc => h.toList_pos hkc) hacc
    (by rw [hvalues]; exact hsum)
  unfold addWhere
  by_cases hempty : store.empty = true
  · rw [if_pos hempty] at hlist ⊢
    rw [← hlist] at hfold
    rw [Sketchlog.DDSketch.sumWhere, ← hlist]
    exact hfold
  · rw [if_neg hempty]
    exact hfold

theorem sumWhere_true (h : Tallies b f) : Sketchlog.DDSketch.sumWhere b (fun _ => true) = f.degree := by
  have hall : b.toList.filter (fun _ => true) = b.toList := List.filter_eq_self.mpr fun _ _ => rfl
  rw [Sketchlog.DDSketch.sumWhere, hall]
  exact h.sum_values

theorem total_eq {store : DenseStore} (h : Tallies store.bins f) (hsum : f.degree ≤ maxUInt64) :
    store.total = f.degree := by
  have hvalues : (store.bins.toList.map Prod.snd).sum = f.degree := h.sum_values
  have hfold := foldl_addWhere store.bins.toList (fun _ => true) 0 (fun kc hkc => h.toList_pos hkc)
    le_rfl (by rw [hvalues]; omega)
  have hwhere := sumWhere_true h
  rw [Sketchlog.DDSketch.sumWhere] at hwhere
  rw [hwhere, zero_add] at hfold
  exact hfold

theorem addTotal_eq {store : DenseStore} (hstore : store = .ofBins store.bins)
    (h : Tallies store.bins f) {acc : ℤ} (hacc : 0 ≤ acc) (hsum : acc + f.degree ≤ maxUInt64) :
    addTotal store acc = acc + Sketchlog.DDSketch.sumWhere store.bins fun _ => true := by
  have htotal := total_eq h (by omega)
  rw [sumWhere_true h]
  unfold addTotal
  by_cases hempty : store.empty = true
  · have hbins : store.bins.isEmpty = true := (congrArg DenseStore.empty hstore).symm.trans hempty
    rw [if_pos hempty, h.isEmpty_iff.mp hbins]
    simp
  · rw [if_neg hempty, htotal, u64_eq (by omega) hsum]

/-- A conditional sum is at most the sum. -/
theorem sumWhere_le (h : Tallies b f) (p : ℤ → Bool) :
    0 ≤ Sketchlog.DDSketch.sumWhere b p ∧ Sketchlog.DDSketch.sumWhere b p ≤ f.degree := by
  have hvalues : (b.toList.map Prod.snd).sum = f.degree := h.sum_values
  have hpos : ∀ kc ∈ b.toList, 0 ≤ kc.2 := fun kc hkc => (h.toList_pos hkc).le
  rw [← hvalues, Sketchlog.DDSketch.sumWhere]
  generalize b.toList = l at hpos
  induction l with
  | nil => simp
  | cons kc l ih =>
    have hkc : 0 ≤ kc.2 := hpos kc List.mem_cons_self
    obtain ⟨hlo, hhi⟩ := ih fun e he => hpos e (List.mem_cons_of_mem kc he)
    rw [List.map_cons, List.sum_cons]
    by_cases hp : p kc.1 = true
    · rw [List.filter_cons, if_pos hp, List.map_cons, List.sum_cons]
      omega
    · rw [List.filter_cons, if_neg hp]
      omega

theorem countAbove_toPython (h : sk.Represents t) (hf : t.Fits) (threshold : ℚ) :
    sk.countAbove M threshold = sk.toPython.countAbove M threshold := by
  have hcount : t.zeroCount + t.positive.degree + t.negative.degree ≤ maxUInt64 := hf.count_le
  have hzero : sk.zeroCount = t.zeroCount := h.contents.zeroCount
  have hnegative : Tallies sk.negative.bins t.negative := h.contents.negative
  have hpositive : Tallies sk.positive.bins t.positive := h.contents.positive
  have hneg := addWhere_eq h.negative hnegative (· ≤ M.key sk.alpha.val (-threshold)) 0 le_rfl
    (by omega)
  obtain ⟨hlo, hhi⟩ := sumWhere_le hnegative (· ≤ M.key sk.alpha.val (-threshold))
  have hu64 : u64 sk.zeroCount = sk.zeroCount := u64_eq (by omega) (by omega)
  unfold countAbove Sketchlog.DDSketch.countAbove
  rw [show sk.toPython.negative = sk.negative.bins from rfl,
    show sk.toPython.positive = sk.positive.bins from rfl,
    show sk.toPython.zeroCount = sk.zeroCount from rfl,
    show sk.toPython.alpha = sk.alpha.val from rfl]
  by_cases hlt : threshold < 0
  · rw [if_pos hlt, if_pos hlt, hneg, zero_add, hu64, u64_eq (by omega) (by omega)]
    exact addTotal_eq h.positive hpositive (by omega) (by omega)
  rw [if_neg hlt, if_neg hlt]
  by_cases heq : threshold = 0
  · rw [if_pos heq, if_pos heq, addTotal_eq h.positive hpositive le_rfl (by omega), zero_add]
  · rw [if_neg heq, if_neg heq, addWhere_eq h.positive hpositive _ 0 le_rfl (by omega), zero_add]

/-- `count_greater_than`. -/
theorem countGreaterThan_toPython (h : sk.Represents t) (hf : t.Fits) (threshold : ERat) :
    sk.countGreaterThan M threshold = sk.toPython.countGreaterThan M threshold := by
  have habove := countAbove_toPython (M := M) h hf
  have hmin : sk.count ≠ 0 → sk.toPython.min = (sk.minValue.val : ERat) := fun h0 => if_neg h0
  have hmax : sk.count ≠ 0 → sk.toPython.max = (sk.maxValue.val : ERat) := fun h0 => if_neg h0
  unfold countGreaterThan Sketchlog.DDSketch.countGreaterThan
  rw [show sk.toPython.count = sk.count from rfl]
  by_cases h0 : sk.count = 0
  · rw [if_pos h0, if_pos h0]
  rw [if_neg h0, if_neg h0, hmin h0, hmax h0]
  split_ifs
  · rfl
  · rfl
  · match threshold with
    | none => rfl
    | some none => rfl
    | some (some t) => exact habove t

end DDSketch

/-- `event_count` of a key in range. -/
theorem StreamLog.eventCount_eq {log : StreamLog} {S : Shape} {c : Contents S} (h : log.Represents c)
    (hf : c.Fits) {name : EventKey} (hname : ¬ Sketchlog.StreamLog.keyOutOfRange name) :
    log.eventCount name = .ok (c.events.estimate S.depth_pos (Ingest.columns S name)) := by
  have hcolumn : CountMinSketch.column S.width S.depth S.width_pos (keyOf name)
      = Ingest.columns S name := by
    rw [Ingest.columns, ← keyOf_toNat hname]
    rfl
  have hestimate : log.events.estimate (keyOf name)
      = c.events.estimate S.depth_pos (Ingest.columns S name) := by
    rw [h.events, CountMinSketch.estimate_ofCounts S.width_pos S.depth_pos c.events hf.events_le,
      hcolumn]
  cases name with
  | str s => exact congrArg Except.ok hestimate
  | bytes b => exact congrArg Except.ok hestimate
  | int n =>
    have hrange : 0 ≤ n ∧ n ≤ mask64 := not_not.mp hname
    exact (if_pos hrange).trans (congrArg Except.ok hestimate)

end Sketchlog.Cpp
