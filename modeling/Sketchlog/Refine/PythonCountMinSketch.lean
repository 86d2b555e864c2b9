import Sketchlog.Lib.Tabulate
import Sketchlog.Python.CountMinSketch
import Sketchlog.Spec.Contents

/-!
# The Python `CountMinSketch` implements `EventCounts`

Every row of the table sums to the total, so a cell never passes the total: once the total check of
`add` has passed, the check on the cells cannot fail (`cells_fit`), and `add` is accepted exactly
when the count is positive and the new total fits (`add_guarded`).
-/

namespace Sketchlog

open Imperative

namespace CountMinSketch

variable {width depth : ℕ}

/-- The sketch that holds the counts `a`. -/
def ofCounts (a : EventCounts width depth) : CountMinSketch :=
  ⟨width, depth, List.ofFn fun r => List.ofFn fun j => (a.table r j : ℤ), a.total⟩

theorem ofCounts_injective {a b : EventCounts width depth} (h : ofCounts a = ofCounts b) :
    a = b := by
  have htotal : (a.total : ℤ) = b.total := congrArg total h
  have htable : (fun r => List.ofFn fun j => (a.table r j : ℤ))
      = fun r => List.ofFn fun j => (b.table r j : ℤ) :=
    List.ofFn_injective (congrArg table h)
  refine EventCounts.ext (funext fun r => funext fun j => ?_) (by exact_mod_cast htotal)
  have hrow : (fun j => (a.table r j : ℤ)) = fun j => (b.table r j : ℤ) :=
    List.ofFn_injective (congrFun htable r)
  exact_mod_cast congrFun hrow j

theorem ofCounts_zero : ofCounts (0 : EventCounts width depth) = empty width depth := by
  have htable : (0 : EventCounts width depth).table = fun _ _ => 0 := rfl
  rw [ofCounts, empty, htable]
  simp [List.ofFn_const]

/-! ## Columns -/

theorem length_seedsFrom (depth state : ℕ) : (seedsFrom depth state).length = depth := by
  induction depth generalizing state with
  | zero => rfl
  | succ depth ih => exact congrArg (· + 1) (ih _)

theorem length_seeds (depth : ℕ) : (seeds depth).length = depth := length_seedsFrom depth 42

/-- The column of `key` in row `r`. -/
def column (width depth : ℕ) (hw : 0 < width) (key : ℤ) (r : Fin depth) : Fin width :=
  ⟨hash key ((seeds depth).get (r.cast (length_seeds depth).symm)) % width, Nat.mod_lt _ hw⟩

theorem columns_eq_ofFn (hw : 0 < width) (a : EventCounts width depth) (key : ℤ) :
    (ofCounts a).columns key = List.ofFn fun r => (column width depth hw key r : ℕ) := by
  refine List.ext_getElem (by simp [columns, ofCounts, length_seeds]) fun i hi hi' => ?_
  rw [List.getElem_ofFn]
  simp [columns, ofCounts, column]

/-! ## `add`

One cell in every row is raised. No cell check can fail once the total has passed its own, as no
cell exceeds the total. -/

theorem getD_row (a : EventCounts width depth) (r : Fin depth) (j : Fin width) :
    (List.ofFn fun j => (a.table r j : ℤ)).getD j 0 = a.table r j :=
  List.getD_ofFn (fun j => (a.table r j : ℤ)) j 0

/-- The cell check cannot fail once the total check has passed: a cell is at most the total. -/
theorem cells_fit (hw : 0 < width) (a : EventCounts width depth) (key : ℤ) {count : ℤ}
    (htotal : ¬ (ofCounts a).total > maxInt64 - count) :
    ¬ ∃ rc ∈ (ofCounts a).table.zip ((ofCounts a).columns key),
      rc.1.getD rc.2 0 > maxInt64 - count := by
  rintro ⟨rc, hmem, hover⟩
  rw [columns_eq_ofFn hw a key] at hmem
  rw [show (ofCounts a).table = List.ofFn fun r => List.ofFn fun j => (a.table r j : ℤ) from rfl,
    List.zip_ofFn, List.mem_ofFn] at hmem
  obtain ⟨r, rfl⟩ := hmem
  simp only [getD_row] at hover
  have hcell : a.table r (column width depth hw key r) ≤ a.total := a.table_le_total r _
  have htot : ¬ (a.total : ℤ) > maxInt64 - count := htotal
  omega

/-- The sketch after the two writes of `add`. -/
def written (self : CountMinSketch) (key count : ℤ) : CountMinSketch :=
  { self with
    table := self.table.zipWith (addToRow count) (self.columns key)
    total := self.total + count }

theorem written_ofCounts (hw : 0 < width) (a : EventCounts width depth) (key : ℤ) (count : ℕ) :
    written (ofCounts a) key count
      = ofCounts (a + EventCounts.single (column width depth hw key) count) := by
  have htable : (ofCounts a).table.zipWith (addToRow count) ((ofCounts a).columns key)
      = List.ofFn fun r => List.ofFn fun j =>
          (((a + EventCounts.single (column width depth hw key) count).table r j : ℕ) : ℤ) := by
    rw [columns_eq_ofFn hw a key]
    rw [show (ofCounts a).table = List.ofFn fun r => List.ofFn fun j => (a.table r j : ℤ) from rfl,
      List.zipWith_ofFn]
    congr 1
    funext r
    rw [addToRow, List.modify_ofFn]
    congr 1
    funext j
    show _ = ((a.table r j + if j = column width depth hw key r then count else 0 : ℕ) : ℤ)
    split <;> simp
  unfold written
  rw [htable]
  simp [ofCounts]

theorem run_add_of_pos (self : CountMinSketch) (item : EventKey) {count : ℤ} (hpos : ¬ count ≤ 0)
    (hle : ¬ count > maxInt64) (htotal : ¬ self.total > maxInt64 - count)
    (hcells : ¬ ∃ rc ∈ self.table.zip (self.columns (keyOf item)),
      rc.1.getD rc.2 0 > maxInt64 - count) :
    (add item count).run self = .ok () (self.written (keyOf item) count) := by
  simp only [add, EStateM.run_bind, run_raiseIf, hpos, hle, htotal, hcells, if_false,
    EStateM.run_get, EStateM.run_modify, written]

/-- **`add` is guarded addition of `count` occurrences of the key.** -/
theorem add_guarded (hw : 0 < width) (a : EventCounts width depth) (item : EventKey) (count : ℤ) :
    Guarded (add item count) (ofCounts a) (0 < count ∧ a.total + count ≤ maxInt64)
      (· = ofCounts (a + EventCounts.single (column width depth hw (keyOf item)) count.toNat)) := by
  have hwrite : ∀ c : ℤ, 0 < c → written (ofCounts a) (keyOf item) c
      = ofCounts (a + EventCounts.single (column width depth hw (keyOf item)) c.toNat) := by
    intro c hc
    have h := written_ofCounts hw a (keyOf item) c.toNat
    rwa [Int.toNat_of_nonneg hc.le] at h
  by_cases hP : 0 < count ∧ a.total + count ≤ maxInt64
  · have htotal : ¬ (ofCounts a).total > maxInt64 - count := by
      show ¬ (a.total : ℤ) > maxInt64 - count
      omega
    exact .accept hP _ (run_add_of_pos (ofCounts a) item (by omega) (by omega) htotal
      (cells_fit hw a (keyOf item) htotal)) (hwrite count hP.1)
  · -- one of the first three checks raises, before any write
    unfold add
    refine (Guarded.raiseIf_bind fun hpos => Guarded.raiseIf_bind fun hle => Guarded.get_bind
      (Guarded.raiseIf_bind (P := False) fun htotal => ?_)).imp ?_ fun _ _ h => h
    · have htot : ¬ (a.total : ℤ) > maxInt64 - count := htotal
      exact absurd ⟨by omega, by omega⟩ hP
    · simp [hP]

/-! ## `estimate` -/

theorem estimate_ofCounts (hw : 0 < width) (hd : 0 < depth) (a : EventCounts width depth)
    (item : EventKey) :
    (ofCounts a).estimate item = .ok (a.estimate hd (column width depth hw (keyOf item))) := by
  have hne : (Finset.univ : Finset (Fin depth)).Nonempty := ⟨⟨0, hd⟩, Finset.mem_univ _⟩
  have hfold : ((ofCounts a).table.zip ((ofCounts a).columns (keyOf item))).foldl
      (fun result rc => min result ((rc.1.getD rc.2 0 : ℤ) : WithTop ℤ)) ⊤
      = ((a.estimate hd (column width depth hw (keyOf item)) : ℤ) : WithTop ℤ) := by
    rw [columns_eq_ofFn hw a (keyOf item)]
    rw [show (ofCounts a).table = List.ofFn fun r => List.ofFn fun j => (a.table r j : ℤ) from rfl,
      List.zip_ofFn, List.foldl_min_ofFn, min_eq_right le_top]
    simp only [getD_row]
    rw [EventCounts.estimate, Finset.apply_inf'_eq_inf'_comp hne (Nat.cast : ℕ → ℤ)
      fun x y => Nat.cast_min x y, Finset.coe_inf']
    rfl
  unfold estimate
  rw [hfold]
  rfl

end CountMinSketch

end Sketchlog
