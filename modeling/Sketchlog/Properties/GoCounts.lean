import Sketchlog.Go.CountMinSketch
import Sketchlog.Properties.CountMin

/-!
# Count-Min in Go counts modulo `2^64`

The Go sketch has no check on its counters: they wrap. So it holds the counts of its history, each
reduced modulo `2^64` (`ofCounts`), and `Add` and `Merge` are additions without a guard. What it
answers is the least, over the rows, of the reduced cells of a key. While the ideal total is below
`2^64` nothing has wrapped, and the bounds of the other two backends hold; above it the estimate may
fall below the count.
-/

namespace Sketchlog

open History

namespace Go.CountMinSketch

variable {width depth : ℕ}

/-- The sketch that holds the counts `a`, modulo `2^64`. -/
def ofCounts (a : EventCounts width depth) : CountMinSketch :=
  ⟨width, depth, List.ofFn fun r => List.ofFn fun j => UInt64.ofNat (a.table r j), UInt64.ofNat a.total⟩

theorem ofCounts_zero : ofCounts (0 : EventCounts width depth) = empty width depth := by
  have htable : (0 : EventCounts width depth).table = fun _ _ => 0 := rfl
  rw [ofCounts, empty, htable]
  simp [List.ofFn_const]

/-- The column of an item in row `r`. -/
def column (width depth : ℕ) (hw : 0 < width) (item : List UInt8) (r : Fin depth) : Fin width :=
  ⟨(fnv32a (rowBytes r ++ item)).toNat % width, Nat.mod_lt _ hw⟩

theorem hashes_ofCounts (hw : 0 < width) (a : EventCounts width depth) (item : List UInt8) :
    (ofCounts a).hashes item = List.ofFn fun r => (column width depth hw item r : ℕ) := by
  refine List.ext_getElem (by simp [hashes, ofCounts]) fun i hi hi' => ?_
  rw [List.getElem_ofFn]
  simp [hashes, ofCounts, column]

/-! ## `Add` and `Merge` -/

theorem add_ofCounts (hw : 0 < width) (a : EventCounts width depth) (item : List UInt8)
    (delta : UInt64) :
    add item delta (ofCounts a)
      = ofCounts (a + EventCounts.single (column width depth hw item) delta.toNat) := by
  have htable : (ofCounts a).matrix.zipWith (addToRow delta) ((ofCounts a).hashes item)
      = (ofCounts (a + EventCounts.single (column width depth hw item) delta.toNat)).matrix := by
    rw [hashes_ofCounts hw a item]
    show List.zipWith (addToRow delta) (List.ofFn fun r => List.ofFn fun j =>
      UInt64.ofNat (a.table r j)) _ = _
    rw [List.zipWith_ofFn]
    show _ = List.ofFn fun r => List.ofFn fun j =>
      UInt64.ofNat (a.table r j + if j = column width depth hw item r then delta.toNat else 0)
    congr 1
    -- each row changes in its own column
    funext r
    rw [addToRow, List.modify_ofFn]
    congr 1
    funext j
    split <;> simp
  have htotal : (ofCounts a).total + delta
      = (ofCounts (a + EventCounts.single (column width depth hw item) delta.toNat)).total := by
    simp [ofCounts]
  show (⟨width, depth, _, _⟩ : CountMinSketch) = ⟨width, depth, _, _⟩
  rw [htable, htotal]
  rfl

theorem merge_ofCounts (a b : EventCounts width depth) :
    merge (ofCounts b) (ofCounts a) = .ok (ofCounts (a + b)) := by
  have htable : (ofCounts a).matrix.zipWith (List.zipWith (· + ·)) (ofCounts b).matrix
    = (ofCounts (a + b)).matrix := by
    simp [ofCounts, List.zipWith_ofFn]
  have htotal : (ofCounts a).total + (ofCounts b).total = (ofCounts (a + b)).total := by simp [ofCounts]
  have hdims : ¬ (width ≠ width ∨ depth ≠ depth) := by simp
  show (Checked.failIf (width ≠ width ∨ depth ≠ depth) _ >>= fun _ =>
    Except.ok (⟨width, depth, _, _⟩ : CountMinSketch)) = _
  rw [Checked.failIf, if_neg hdims, htable, htotal]
  rfl

/-! ## `Count` -/

theorem toNat_lower (m : UInt64) (rc : List UInt64 × ℕ) :
    (lower m rc).toNat = min m.toNat (rc.1.getD rc.2 0).toNat := by
  unfold lower
  by_cases h : rc.1.getD rc.2 0 < m
  · rw [if_pos h, min_eq_right (UInt64.lt_iff_toNat_lt.mp h).le]
  · rw [if_neg h, min_eq_left (not_lt.mp (mt UInt64.lt_iff_toNat_lt.mpr h))]

/-- The answer is a running minimum of the cells. -/
theorem toNat_count (s : CountMinSketch) (item : List UInt8) :
    (s.count item).toNat = (s.matrix.zip (s.hashes item)).foldl
      (fun m rc => min m (rc.1.getD rc.2 0).toNat) (2 ^ 64 - 1) := by
  have hhom : (s.matrix.zip (s.hashes item)).foldl (fun m rc => min m (rc.1.getD rc.2 0).toNat)
      (0xffffffffffffffff : UInt64).toNat = (s.count item).toNat :=
    List.foldl_hom UInt64.toNat fun m rc => (toNat_lower m rc).symm
  exact hhom.symm

theorem toNat_count_ofCounts (hw : 0 < width) (hd : 0 < depth) (a : EventCounts width depth)
    (item : List UInt8) :
    ((ofCounts a).count item).toNat = Finset.univ.inf' ⟨⟨0, hd⟩, Finset.mem_univ _⟩ fun r =>
      a.table r (column width depth hw item r) % 2 ^ 64 := by
  have hne : (Finset.univ : Finset (Fin depth)).Nonempty := ⟨⟨0, hd⟩, Finset.mem_univ _⟩
  have hcell : ∀ r j, ((List.ofFn fun j => UInt64.ofNat (a.table r j)).getD (j : Fin width) 0).toNat
      = a.table r j % 2 ^ 64 := by
    intro r j
    rw [List.getD_ofFn (fun j => UInt64.ofNat (a.table r j)), UInt64.toNat_ofNat']
  have hzip : (ofCounts a).matrix.zip ((ofCounts a).hashes item)
      = List.ofFn fun r => (List.ofFn fun j =>
        UInt64.ofNat (a.table r j), (column width depth hw item r : ℕ)) := by
    rw [hashes_ofCounts hw a item]
    exact List.zip_ofFn _ _
  have hle : ∀ c, c ≤ ((ofCounts a).count item).toNat
      ↔ c ≤ 2 ^ 64 - 1 ∧ ∀ r, c ≤ a.table r (column width depth hw item r) % 2 ^ 64 := by
    intro c
    rw [toNat_count, hzip, List.le_foldl_min_iff]
    simp only [List.forall_mem_ofFn_iff, hcell]
  refine le_antisymm ?_ ?_
  · exact Finset.le_inf' hne _ fun r _ => ((hle _).mp le_rfl).2 r
  · have hinf := fun r => Finset.inf'_le (fun r => a.table r (column width depth hw item r) % 2 ^ 64)
      (Finset.mem_univ r)
    -- a reduced cell is no more than what the loop starts from
    refine (hle _).mpr ⟨(hinf ⟨0, hd⟩).trans ?_, hinf⟩
    have := Nat.mod_lt (a.table ⟨0, hd⟩ (column width depth hw item ⟨0, hd⟩)) (Nat.two_pow_pos 64)
    omega

/-! ## Histories -/

/-- The sketches built by `Add` and `Merge`, with the items and deltas added. -/
def History (width depth : ℕ) : CountMinSketch → List (List UInt8 × UInt64) → Prop :=
  Built (empty width depth) (fun s e s' => add e.1 e.2 s = s') fun s o s' => merge o s = .ok s'

/-- What was added, as integers. -/
def counted (h : List (List UInt8 × UInt64)) : List (List UInt8 × ℤ) :=
  h.map fun e => (e.1, (e.2.toNat : ℤ))

theorem counted_nonneg (h : List (List UInt8 × UInt64)) : ∀ e ∈ counted h, 0 ≤ e.2 := by
  intro e he
  obtain ⟨x, -, rfl⟩ := List.mem_map.mp he
  exact Int.natCast_nonneg _

/-- A sketch holds the counts of its history. -/
theorem History.eq (hw : 0 < width) {s : CountMinSketch} {h : List (List UInt8 × UInt64)}
    (hb : History width depth s h) :
    s = ofCounts (EventCounts.ofHistory (column width depth hw) (counted h)) := by
  have hsum := Built.sum (R := fun s a => s = ofCounts a) (P := fun _ : List UInt8 × UInt64 => True)
    (fun e => EventCounts.single (column width depth hw e.1) e.2.toNat) ofCounts_zero.symm ?_ ?_ hb
  · rw [hsum.2, EventCounts.ofHistory, counted, List.map_map]
    congr 2
  · rintro _ a e s' rfl rfl
    exact ⟨trivial, add_ofCounts hw a e.1 e.2⟩
  · rintro _ _ s' a b rfl rfl hm
    rw [merge_ofCounts] at hm
    exact (Except.ok.inj hm).symm

/-! ## What is answered

Modulo `2 ^ 64` in general, and exactly while the total stays below it. -/

section Answers

variable (hw : 0 < width) (hd : 0 < depth) (h : List (List UInt8 × UInt64))

/-- The counts of a history. -/
def countsOf : EventCounts width depth := EventCounts.ofHistory (column width depth hw) (counted h)

theorem total_countsOf (depth : ℕ) : ((countsOf hw h : EventCounts width depth).total : ℤ)
    = weight (fun _ => True) (counted h) :=
  EventCounts.total_ofHistory _ (counted_nonneg h)

theorem toNat_total_ofCounts (a : EventCounts width depth) :
    (ofCounts a).total.toNat = a.total % 2 ^ 64 :=
  UInt64.toNat_ofNat'

/-- The answer is the least of the reduced weights. -/
theorem toNat_count_countsOf (item : List UInt8) :
    (((ofCounts (countsOf hw h : EventCounts width depth)).count item).toNat : ℤ)
      = Finset.univ.inf' ⟨⟨0, hd⟩, Finset.mem_univ _⟩ fun r =>
        weight (fun k => column width depth hw k r = column width depth hw item r) (counted h) % 2
          ^ 64 := by
  have hne : (Finset.univ : Finset (Fin depth)).Nonempty := ⟨⟨0, hd⟩, Finset.mem_univ _⟩
  rw [toNat_count_ofCounts hw hd, Finset.apply_inf'_eq_inf'_comp hne (Nat.cast : ℕ → ℤ) fun x y =>
    Nat.cast_min x y]
  refine Finset.inf'_congr hne rfl fun r _ => ?_
  have hcell := EventCounts.table_ofHistory (column width depth hw) (counted_nonneg h) r
    (column width depth hw item r)
  rw [← hcell]
  exact Int.natCast_mod _ _

/-- Below `2^64` no cell has wrapped. -/
theorem toNat_count_of_lt {a : EventCounts width depth} (ha : a.total < 2 ^ 64) (item : List UInt8) :
    ((ofCounts a).count item).toNat = a.estimate hd (column width depth hw item) := by
  rw [toNat_count_ofCounts hw hd, EventCounts.estimate]
  refine Finset.inf'_congr _ rfl fun r _ => ?_
  exact Nat.mod_eq_of_lt ((a.table_le_total r _).trans_lt ha)

end Answers

end Go.CountMinSketch

/-- **Count-Min in Go.** In every sketch built by `Add` and `Merge`, the total and the answer for
every item are those of the history modulo `2^64`, cell by cell; so while the history counts less
than `2^64`, the answer is at least the count of the item and at most the total, as in the other
backends. -/
theorem go_count_min_modular {width depth : ℕ} (hw : 0 < width) (hd : 0 < depth) {s : Go.CountMinSketch}
    {h : List (List UInt8 × UInt64)} (hb : Go.CountMinSketch.History width depth s h) :
    (s.total.toNat : ℤ) = weight (fun _ => True) (Go.CountMinSketch.counted h) % 2 ^ 64
      ∧ (∀ item, ((s.count item).toNat : ℤ) = Finset.univ.inf' ⟨⟨0, hd⟩, Finset.mem_univ _⟩ fun r =>
          weight (fun k => Go.CountMinSketch.column width depth hw k r
            = Go.CountMinSketch.column width depth hw item r)
            (Go.CountMinSketch.counted h) % 2 ^ 64)
      ∧ (weight (fun _ => True) (Go.CountMinSketch.counted h) < 2 ^ 64 → ∀ item,
          Estimates hd (Go.CountMinSketch.column width depth hw) (Go.CountMinSketch.counted h)
            s.total.toNat
            (s.count item).toNat item) := by
  obtain rfl := hb.eq hw
  have htotal := Go.CountMinSketch.total_countsOf hw h depth
  -- the total is a sum modulo `2 ^ 64`, and so is each cell
  refine ⟨?_, Go.CountMinSketch.toNat_count_countsOf hw hd h, fun hlt item => ?_⟩
  · rw [← htotal]
    exact congrArg Nat.cast (Go.CountMinSketch.toNat_total_ofCounts _)
  · -- below `2 ^ 64` nothing wraps
    have hfit : (Go.CountMinSketch.countsOf hw h : EventCounts width depth).total < 2 ^ 64 := by
      rw [← htotal] at hlt
      exact_mod_cast hlt
    have hest := EventCounts.estimates hd (Go.CountMinSketch.column width depth hw)
      (Go.CountMinSketch.counted_nonneg h) item
    show Estimates _ _ _ (((Go.CountMinSketch.ofCounts
      (Go.CountMinSketch.countsOf hw h)).total.toNat : ℕ) : ℤ)
      (((Go.CountMinSketch.ofCounts (Go.CountMinSketch.countsOf hw h)).count item).toNat : ℤ) _
    rw [Go.CountMinSketch.toNat_count_of_lt hw hd hfit, Go.CountMinSketch.toNat_total_ofCounts,
      Nat.mod_eq_of_lt hfit]
    exact hest

/-- An item added twice, in two cells: the total wraps, and so does the answer. -/
theorem go_count_min_modular_wrapped :
    ∃ s, Go.CountMinSketch.History 2 1 s [([7], 0xffffffffffffffff), ([7], 3)] ∧ (s.count [7]).toNat = 2
      ∧ (s.total.toNat : ℤ) = (2 ^ 64 + 2) % 2 ^ 64 := by
  have hbuilt : Go.CountMinSketch.History 2 1
      (Go.CountMinSketch.add [7] 3 (Go.CountMinSketch.add [7] 0xffffffffffffffff (.empty 2 1)))
      (([] ++ [([7], 0xffffffffffffffff)]) ++ [([7], 3)]) := Built.add (Built.add Built.start rfl) rfl
  exact ⟨_, hbuilt, by decide, (go_count_min_modular (by decide) (by decide) hbuilt).1⟩

end Sketchlog
