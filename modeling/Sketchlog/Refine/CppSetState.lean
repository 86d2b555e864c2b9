import Sketchlog.Cpp.Document
import Sketchlog.Refine.CppStreamLog

/-!
# What `set_state` accepts

The checks of the three `set_state` functions come before their writes, so a rejected state leaves
the sketch as it was (`setState_atomic`). A state that describes contents within the limits is
accepted, and restores them: the bins are those of a map with positive counts, in the order of their
indexes (`validateStore_toList`, `restoreBins_toList`), the registers are ranks, and the rows of the
table sum to its total.
-/

namespace Sketchlog.Cpp

open Imperative Checked CountMap

/-! ## Stores

The keys of a store are written in ascending order, so the first and the last are its extreme keys.
Validation passes for every store that fits, and restoring inserts the bins one by one. -/

/-- The loop of `validate_store` over increasing indexes with positive counts. -/
theorem foldlM_validateBin (l : List (ℤ × ℤ)) (prev : Option ℤ) (acc : ℤ)
    (hsorted : (l.map Prod.fst).Pairwise (· < ·)) (hprev : ∀ p ∈ prev, ∀ kc ∈ l, p < kc.1)
    (hpos : ∀ kc ∈ l, 0 < kc.2) (hacc : 0 ≤ acc) (hsum : acc + (l.map Prod.snd).sum ≤ maxUInt64) :
    ∃ last, l.foldlM DDSketch.validateBin (prev, acc) = .ok (last, acc + (l.map Prod.snd).sum) := by
  induction l generalizing prev acc with
  | nil => exact ⟨prev, by simp [pure, Except.pure]⟩
  | cons kc l ih =>
    rw [List.map_cons, List.pairwise_cons] at hsorted
    rw [List.map_cons, List.sum_cons] at hsum ⊢
    have hkc : 0 < kc.2 := hpos kc List.mem_cons_self
    have hrest : 0 ≤ (l.map Prod.snd).sum := by
      refine List.sum_nonneg fun n hn => ?_
      obtain ⟨e, he, rfl⟩ := List.mem_map.mp hn
      exact (hpos e (List.mem_cons_of_mem kc he)).le
    have hcount : u64 kc.2 = kc.2 := u64_eq hkc.le (by omega)
    have hroom : u64 (maxUInt64 - acc) = maxUInt64 - acc := u64_eq (by omega) (by omega)
    have hnext : u64 (acc + kc.2) = acc + kc.2 := u64_eq (by omega) (by omega)
    have hstep : DDSketch.validateBin (prev, acc) kc = .ok (some kc.1, acc + kc.2) := by
      simp only [DDSketch.validateBin, bind_eq_ok, failIf_eq_ok, exists_unit, hcount, hroom, hnext]
      refine ⟨?_, by omega, by omega, trivial⟩
      rintro ⟨p, hp, hge⟩
      have := hprev p hp kc List.mem_cons_self
      omega
    -- the next index is larger than this one
    have hprev' : ∀ p ∈ some kc.1, ∀ e ∈ l, p < e.1 := by
      intro p hp e he
      cases hp
      exact hsorted.1 e.1 (List.mem_map.mpr ⟨e, he, rfl⟩)
    obtain ⟨last, hlast⟩ := ih (some kc.1) (acc + kc.2) hsorted.2 hprev'
      (fun e he => hpos e (List.mem_cons_of_mem kc he)) (by omega) (by omega)
    refine ⟨last, ?_⟩
    rw [List.foldlM_cons, hstep]
    show l.foldlM DDSketch.validateBin (some kc.1, acc + kc.2) = _
    rw [hlast]
    congr 2
    omega

theorem zip_fst_snd (l : List (ℤ × ℤ)) : (l.map Prod.fst).zip (l.map Prod.snd) = l := by
  rw [List.zip_map']
  simp

theorem keys_sorted (b : Bins) : (b.toList.map Prod.fst).Pairwise (· < ·) := by
  rw [Std.ExtTreeMap.map_fst_toList_eq_keys]
  exact Std.ExtTreeMap.ordered_keys.imp fun h => Std.compare_eq_lt.mp h

theorem minKey?_eq_head? (b : Bins) : b.minKey? = (b.toList.map Prod.fst).head? := by
  rw [Std.ExtTreeMap.map_fst_toList_eq_keys]
  exact Std.ExtTreeMap.minKey?_eq_head?_keys

theorem maxKey?_eq_getLast? (b : Bins) : b.maxKey? = (b.toList.map Prod.fst).getLast? := by
  rw [Std.ExtTreeMap.map_fst_toList_eq_keys]
  exact Std.ExtTreeMap.maxKey?_eq_getLast?_keys

/-- `validate_store` accepts the entries of a map of positive counts, and returns their sum. -/
theorem validateStore_toList {b : Bins} {f : ℤ →₀ ℕ} (h : Tallies b f)
    (hcard : f.support.card ≤ 1024) (hdegree : f.degree ≤ maxUInt64) :
    DDSketch.validateStore (b.toList.map Prod.fst) (b.toList.map Prod.snd) (b.minKey?.getD 0)
      (b.maxKey?.getD 0) b.isEmpty = .ok (f.degree : ℤ) := by
  have hsum : (b.toList.map Prod.snd).sum = f.degree := h.sum_values
  cases hb : b.isEmpty with
  | true =>
    have hempty : b = ∅ := by simpa using hb
    have hzero : f = 0 := h.isEmpty_iff.mp hb
    subst hempty
    -- an empty store passes by its own branch
    simp [DDSketch.validateStore, bind_eq_ok, hzero]
  -- otherwise the first and last keys are the extreme ones, as the keys are sorted
  | false =>
    have hne : b.toList ≠ [] := by
      intro hnil
      rw [Std.ExtTreeMap.toList_eq_nil_iff] at hnil
      simp [hnil] at hb
    obtain ⟨lo, hlo⟩ : ∃ lo, b.minKey? = some lo := by
      refine Option.isSome_iff_exists.mp ?_
      rw [Std.ExtTreeMap.isSome_minKey?_eq_not_isEmpty, hb]
      rfl
    obtain ⟨hi, hhi⟩ : ∃ hi, b.maxKey? = some hi := by
      refine Option.isSome_iff_exists.mp ?_
      rw [Std.ExtTreeMap.isSome_maxKey?_eq_not_isEmpty, hb]
      rfl
    have hle : lo ≤ hi := (h.minKey?_eq_some_iff.mp hlo).2 (h.maxKey?_eq_some_iff.mp hhi).1
    have hlen : b.toList.length ≤ 1024 := by
      rw [Std.ExtTreeMap.length_toList, h.size_eq]
      exact hcard
    obtain ⟨last, hfold⟩ := foldlM_validateBin b.toList none 0 (keys_sorted b) (by simp)
      (fun kc hkc => h.toList_pos hkc) le_rfl (by rw [hsum]; omega)
    simp only [DDSketch.validateStore, bind_eq_ok, failIf_eq_ok, exists_unit, Bool.false_eq_true,
      if_false, zip_fst_snd, hfold, ← minKey?_eq_head?, ← maxKey?_eq_getLast?, hlo, hhi,
      Option.getD_some]
    refine ⟨?_, by omega, by simp, _, rfl, ?_⟩
    · rintro (hnil | hlen' | hbig)
      · exact hne (List.map_eq_nil_iff.mp hnil)
      · simp at hlen'
      · rw [List.length_map, DenseStore.maxBins] at hbig
        omega
    · rw [hsum, zero_add]

theorem insertIfNew_eq_insert {b : Bins} {k : ℤ} (hk : k ∉ b) (v : ℤ) :
    b.insertIfNew k v = b.insert k v := by
  refine Std.ExtTreeMap.ext_getElem? fun j => ?_
  rw [Std.ExtTreeMap.getElem?_insertIfNew, Std.ExtTreeMap.getElem?_insert]
  by_cases hj : k = j
  · subst hj
    simp [hk]
  · simp [hj]

/-- Over distinct indexes that are not there yet, `emplace` is an assignment. -/
theorem foldl_insertIfNew (l : List (ℤ × ℤ)) (b : Bins) (hnodup : (l.map Prod.fst).Nodup)
    (hnew : ∀ kc ∈ l, kc.1 ∉ b) :
    l.foldl (fun m kc => m.insertIfNew kc.1 kc.2) b = l.foldl (fun m kc => m.insert kc.1 kc.2) b := by
  induction l generalizing b with
  | nil => rfl
  | cons kc l ih =>
    rw [List.map_cons, List.nodup_cons] at hnodup
    rw [List.foldl_cons, List.foldl_cons, insertIfNew_eq_insert (hnew kc List.mem_cons_self)]
    apply ih _ hnodup.2
    intro e he
    rw [Std.ExtTreeMap.mem_insert]
    rintro (heq | hmem)
    · have hkey : kc.1 = e.1 := by simpa using heq
      exact hnodup.1 (List.mem_map.mpr ⟨e, he, hkey.symm⟩)
    · exact hnew e (List.mem_cons_of_mem kc he) hmem

theorem restoreBins_toList (b : Bins) :
    DDSketch.restoreBins (b.toList.map Prod.fst) (b.toList.map Prod.snd) = b := by
  have hnodup : (b.toList.map Prod.fst).Nodup := (keys_sorted b).imp fun h => h.ne
  rw [DDSketch.restoreBins, zip_fst_snd, foldl_insertIfNew _ _ hnodup (by simp)]
  exact foldl_insert_toList b

/-! ## `DDSketch`

The state of a coherent tally that fits passes every check, and setting it gives back its sketch. -/

namespace DDSketch

/-- The state of a sketch with the given contents. -/
def stateOf (alpha lo hi : Binary64) (l : Sketchlog.DDSketch) : State where
  alpha := .fin alpha
  zeroCount := l.zeroCount
  count := l.count
  minValue := .fin lo
  maxValue := .fin hi
  posIndices := l.positive.toList.map Prod.fst
  posBins := l.positive.toList.map Prod.snd
  posMinIndex := l.positive.minKey?.getD 0
  posMaxIndex := l.positive.maxKey?.getD 0
  posEmpty := l.positive.isEmpty
  negIndices := l.negative.toList.map Prod.fst
  negBins := l.negative.toList.map Prod.snd
  negMinIndex := l.negative.minKey?.getD 0
  negMaxIndex := l.negative.maxKey?.getD 0
  negEmpty := l.negative.isEmpty

theorem checkState_stateOf (sk : DDSketch) {l : Sketchlog.DDSketch} {t : Tally} (h : l.Represents t)
    (hf : t.Fits) {lo hi : Binary64} (hle : lo.val ≤ hi.val) :
    checkState sk (stateOf sk.alpha lo hi l) = .ok (lo, hi) := by
  have hcount : l.count = t.zeroCount + t.positive.degree + t.negative.degree := by
    rw [h.count, Tally.count]
    push_cast
    rfl
  have hzero : l.zeroCount = t.zeroCount := h.zeroCount
  -- both stores pass, and no sum of the three counters wraps
  have hcle : t.zeroCount + t.positive.degree + t.negative.degree ≤ maxUInt64 := hf.count_le
  have hpos := validateStore_toList h.positive hf.positive_card (by omega)
  have hneg := validateStore_toList h.negative hf.negative_card (by omega)
  have hz : u64 (stateOf sk.alpha lo hi l).zeroCount = t.zeroCount := by
    show u64 l.zeroCount = _
    rw [hzero]
    exact u64_eq (by omega) (by omega)
  have hroom : u64 (maxUInt64 - (t.zeroCount : ℤ)) = maxUInt64 - t.zeroCount :=
    u64_eq (by omega) (by omega)
  have hroom' : u64 (maxUInt64 - (t.zeroCount : ℤ) - t.positive.degree)
      = maxUInt64 - t.zeroCount - t.positive.degree := u64_eq (by omega) (by omega)
  have hbins : u64 ((t.positive.degree : ℤ) + t.negative.degree)
      = t.positive.degree + t.negative.degree := u64_eq (by omega) (by omega)
  have htotal : u64 ((t.zeroCount : ℤ) + (t.positive.degree + t.negative.degree))
      = t.zeroCount + (t.positive.degree + t.negative.degree) := u64_eq (by omega) (by omega)
  have halpha : ¬ alphaDiffers sk.alpha (stateOf sk.alpha lo hi l).alpha := by
    show ¬ |sk.alpha.val - sk.alpha.val| > oneNano
    rw [sub_self, abs_zero, not_lt]
    norm_num [oneNano]
  unfold checkState
  simp only [bind_eq_ok, failIf_eq_ok, exists_unit, hz, hroom]
  refine ⟨halpha, ?_, _, hpos, _, hneg, ?_, ?_, ?_⟩
  · show ¬ l.zeroCount < 0
    omega
  · rw [hroom']
    omega
  · rw [hbins, htotal]
    show ¬ _ ≠ l.count
    omega
  · show (do failIf (l.count > 0 ∧ lo.val > hi.val) _
             failIf (l.count = 0 ∧ (l.positive.isEmpty = false ∨ l.negative.isEmpty = false
               ∨ l.zeroCount ≠ 0)) _
             .ok (lo, hi)) = Except.ok (lo, hi)
    simp only [bind_eq_ok, failIf_eq_ok, exists_unit]
    refine ⟨fun hn => not_lt.mpr hle hn.2, ?_, trivial⟩
    -- with no count there is no bin, so the last check passes
    rintro ⟨h0, hne⟩
    have hp0 : t.positive = 0 := (Finsupp.degree_eq_zero_iff _).mp (by omega)
    have hn0 : t.negative = 0 := (Finsupp.degree_eq_zero_iff _).mp (by omega)
    have hp : l.positive.isEmpty = true := h.positive.isEmpty_iff.mpr hp0
    have hn : l.negative.isEmpty = true := h.negative.isEmpty_iff.mpr hn0
    rw [hp, hn] at hne
    simp only [Bool.true_eq_false, false_or] at hne
    omega

/-- `set_state` restores the contents its state describes. -/
theorem run_setState_stateOf (sk : DDSketch) {l : Sketchlog.DDSketch} {t : Tally} (h : l.Represents t)
    (hf : t.Fits) {lo hi : Binary64} (hle : lo.val ≤ hi.val) :
    (setState (stateOf sk.alpha lo hi l)).run sk
      = .ok () ⟨sk.alpha, .ofBins l.positive, .ofBins l.negative, l.zeroCount, l.count, lo, hi⟩ := by
  have hcheck := checkState_stateOf sk h hf hle
  have hp := restoreBins_toList l.positive
  have hn := restoreBins_toList l.negative
  simp only [setState, EStateM.run_bind, EStateM.run_get, hcheck, run_liftExcept_ok, commitState,
    EStateM.run_modify]
  simp only [stateOf, hp, hn]
  rfl

/-- A state that is rejected leaves the sketch as it was. -/
theorem setState_atomic (s : State) : Atomic (setState s) := by
  intro sk e t h
  simp only [setState, EStateM.run_bind, EStateM.run_get] at h
  cases hc : checkState sk s with
  | error e' =>
    simp only [hc, run_liftExcept_error] at h
    cases h
    rfl
  | ok r =>
    simp only [hc, run_liftExcept_ok, commitState, EStateM.run_bind, EStateM.run_modify] at h
    cases h

end DDSketch

/-! ## `HyperLogLog` -/

namespace HyperLogLog

/-- `set_state` restores registers that are ranks. -/
theorem run_setState_ofRegisters {p : ℕ} (hp : p ≤ 18) (a b : RegisterMax p) :
    (setState ⟨p, List.ofFn b.register⟩).run (ofRegisters a) = .ok () (ofRegisters b) := by
  have hrank : ¬ ∃ val ∈ List.ofFn b.register, val > (64 - p + 1) % 2 ^ 8 := by
    rintro ⟨val, hval, hgt⟩
    obtain ⟨i, rfl⟩ := List.mem_ofFn.mp hval
    have hle := b.register_le i
    omega
  have hlen : ¬ (List.ofFn b.register).length ≠ (ofRegisters a).registers.length := by
    simp [ofRegisters]
  have hprec : ¬ p ≠ (ofRegisters a).p := fun hne => hne rfl
  have hmax : ¬ ∃ val ∈ List.ofFn b.register, val > (64 - (ofRegisters a).p + 1) % 2 ^ 8 := hrank
  simp only [setState, EStateM.run_bind, EStateM.run_get, run_raiseIf, if_neg hprec, if_neg hlen,
    if_neg hmax, EStateM.run_modify]
  rfl

theorem setState_atomic (s : State) : Atomic (setState s) := by
  refine atomic_of_guarded (P := fun self => ¬ s.precision ≠ self.p
    ∧ ¬ s.registers.length ≠ self.registers.length
    ∧ ¬ (∃ val ∈ s.registers, val > (64 - self.p + 1) % 2 ^ 8) ∧ True) (R := fun _ _ => True) ?_
  intro self
  exact Guarded.get_bind (Guarded.raiseIf_bind fun _ => Guarded.raiseIf_bind fun _ =>
    Guarded.raiseIf_bind fun _ => Guarded.of_ok rfl trivial)

end HyperLogLog

/-! ## `CountMinSketch` -/

namespace CountMinSketch

variable {width depth : ℕ}

theorem foldlM_validateCell (l : List ℤ) (acc : ℤ) (hpos : ∀ n ∈ l, 0 ≤ n) (hacc : 0 ≤ acc)
    (hsum : acc + l.sum ≤ maxInt64) : l.foldlM validateCell acc = .ok (acc + l.sum) := by
  induction l generalizing acc with
  | nil => simp [pure, Except.pure]
  | cons n l ih =>
    rw [List.sum_cons] at hsum ⊢
    have hn : 0 ≤ n := hpos n List.mem_cons_self
    have hrest : 0 ≤ l.sum := List.sum_nonneg fun m hm => hpos m (List.mem_cons_of_mem n hm)
    have hroom : i64 (maxInt64 - acc) = maxInt64 - acc := i64_eq (by omega) (by omega)
    have hnext : i64 (acc + n) = acc + n := i64_eq (by omega) (by omega)
    have hstep : validateCell acc n = .ok (acc + n) := by
      simp only [validateCell, bind_eq_ok, failIf_eq_ok, exists_unit, hroom, hnext]
      exact ⟨by omega, by omega, trivial⟩
    rw [List.foldlM_cons, hstep]
    show l.foldlM validateCell (acc + n) = _
    rw [ih (acc + n) (fun m hm => hpos m (List.mem_cons_of_mem n hm)) (by omega) (by omega)]
    congr 1
    omega

/-- Row `r` of the flat table. -/
theorem row_ofCounts (b : EventCounts width depth) (r : Fin depth) :
    (List.range width).map (fun col => (ofCounts b).table.getD (r * width + col) 0)
      = List.ofFn fun j => (b.table r j : ℤ) := by
  refine List.ext_getElem (by simp) fun i hi hi' => ?_
  have hi'' : i < width := by simpa using hi
  rw [List.getElem_map, List.getElem_range, List.getElem_ofFn]
  exact getD_cell b r ⟨i, hi''⟩

theorem forM_validateRow (a b : EventCounts width depth) (hb : b.total ≤ maxInt64) :
    (List.range depth).forM (validateRow (ofCounts a) (ofCounts b).getState) = .ok () := by
  -- every row passes: its cells are not negative and sum to the total
  have hrow : ∀ r ∈ List.range depth,
      validateRow (ofCounts a) (ofCounts b).getState r = .ok () := by
    intro r hr
    have hcells := row_ofCounts b ⟨r, List.mem_range.mp hr⟩
    have hsum : (List.ofFn fun j => (b.table ⟨r, List.mem_range.mp hr⟩ j : ℤ)).sum = b.total := by
      rw [List.sum_ofFn_natCast, b.row_sum]
    have hfold := foldlM_validateCell
      (List.ofFn fun j => (b.table ⟨r, List.mem_range.mp hr⟩ j : ℤ)) 0 (by
        intro n hn
        obtain ⟨j, rfl⟩ := List.mem_ofFn.mp hn
        exact Int.natCast_nonneg _) le_rfl (by rw [hsum]; omega)
    simp only [validateRow, bind_eq_ok, failIf_eq_ok]
    refine ⟨b.total, ?_, fun hne => hne rfl⟩
    show ((List.range width).map fun col => (ofCounts b).table.getD (r * width + col) 0).foldlM
      validateCell 0 = _
    rw [hcells, hfold, hsum, zero_add]
  -- and the loop over the rows passes when each of them does
  generalize List.range depth = rows at hrow
  induction rows with
  | nil => rfl
  | cons r rows ih =>
    show (validateRow (ofCounts a) (ofCounts b).getState r >>= fun _ => rows.forM _) = _
    rw [hrow r List.mem_cons_self]
    exact ih fun r' hr' => hrow r' (List.mem_cons_of_mem r hr')

/-- `set_state` restores a table whose rows sum to its total. -/
theorem run_setState_ofCounts (a b : EventCounts width depth) (hb : b.total ≤ maxInt64) :
    (setState (ofCounts b).getState).run (ofCounts a) = .ok () (ofCounts b) := by
  have hcheck : checkState (ofCounts a) (ofCounts b).getState = .ok () := by
    simp only [checkState, bind_eq_ok, failIf_eq_ok, exists_unit]
    refine ⟨fun hne => hne.elim (fun h => h rfl) fun h => h rfl, ?_, ?_, forM_validateRow a b hb⟩
    · simp [getState, ofCounts]
    · simp [getState, ofCounts]
  simp only [setState, EStateM.run_bind, EStateM.run_get, hcheck, run_liftExcept_ok,
    EStateM.run_modify]
  rfl

theorem setState_atomic (s : State) : Atomic (setState s) := by
  intro sk e t h
  simp only [setState, EStateM.run_bind, EStateM.run_get] at h
  cases hc : checkState sk s with
  | error e' =>
    simp only [hc, run_liftExcept_error] at h
    cases h
    rfl
  | ok r =>
    simp only [hc, run_liftExcept_ok, EStateM.run_modify] at h
    cases h

end CountMinSketch

end Sketchlog.Cpp
