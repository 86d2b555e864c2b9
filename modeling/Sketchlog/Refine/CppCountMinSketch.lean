import Sketchlog.Cpp.CountMinSketch
import Sketchlog.Refine.CppHyperLogLog
import Sketchlog.Refine.PythonCountMinSketch

/-!
# The C++ `CountMinSketch` implements `EventCounts`

The flat table holds row `r`, column `j` at `r * width + j`. The seeds and the hash of a key are those
of the Python sketch, so the columns are; within the limits no counter wraps, and `add` and `merge`
are the same guarded additions as in Python.
-/

namespace Sketchlog.Cpp

open Imperative

namespace CountMinSketch

variable {width depth : ℕ}

/-! ## The flat table

The cell of row `r` and column `c` stands at `r * width + c`. `divNat` and `modNat` take the place
apart again. -/

def ofCounts (a : EventCounts width depth) : CountMinSketch :=
  ⟨width, depth, a.total, List.ofFn fun k : Fin (depth * width) => (a.table k.divNat k.modNat : ℤ)⟩

/-- The place of a cell. -/
def cell (r : Fin depth) (j : Fin width) : Fin (depth * width) :=
  ⟨r * width + j, by
    have hr := r.isLt
    have hj := j.isLt
    nlinarith⟩

@[simp] theorem cell_divNat (r : Fin depth) (j : Fin width) : (cell r j).divNat = r := by
  refine Fin.ext ?_
  show (r * width + j) / width = r
  rw [mul_comm, Nat.mul_add_div (by have := j.isLt; omega), Nat.div_eq_of_lt j.isLt, add_zero]

@[simp] theorem cell_modNat (r : Fin depth) (j : Fin width) : (cell r j).modNat = j := by
  refine Fin.ext ?_
  show (r * width + j) % width = j
  rw [mul_comm, Nat.mul_add_mod, Nat.mod_eq_of_lt j.isLt]

theorem cell_divNat_modNat (k : Fin (depth * width)) : cell k.divNat k.modNat = k := by
  refine Fin.ext ?_
  show (k / width) * width + k % width = k
  rw [mul_comm]
  exact Nat.div_add_mod k width

theorem ofCounts_injective {a b : EventCounts width depth} (h : ofCounts a = ofCounts b) : a = b := by
  refine EventCounts.ext ?_ ?_
  · have htable := List.ofFn_injective (congrArg table h)
    funext r j
    have hcell := congrFun htable (cell r j)
    simp only [cell_divNat, cell_modNat] at hcell
    exact_mod_cast hcell
  · have htotal : (a.total : ℤ) = b.total := congrArg totalCount h
    exact_mod_cast htotal

theorem ofCounts_zero : ofCounts (0 : EventCounts width depth) = empty width depth := by
  have hconst : (fun k : Fin (depth * width) =>
      (((0 : EventCounts width depth).table k.divNat k.modNat : ℕ) : ℤ)) = fun _ => 0 := by
    funext k
    simp
  rw [ofCounts, empty, hconst, List.ofFn_const, mul_comm]
  rfl

theorem getD_cell (a : EventCounts width depth) (r : Fin depth) (j : Fin width) :
    (ofCounts a).table.getD (cell r j) 0 = a.table r j := by
  have h := List.getD_ofFn (fun k : Fin (depth * width) => (a.table k.divNat k.modNat : ℤ)) (cell r j) 0
  rw [cell_divNat, cell_modNat] at h
  exact h

/-! ## Columns

The seeds and the hash are the Python ones on words, so a key has the same columns in both backends. -/

theorem splitmixOutput_toNat (state : UInt64) :
    (splitmixOutput state).toNat = Sketchlog.CountMinSketch.splitmixOutput state.toNat := by
  have h30 : (30 : UInt64).toNat % 64 = 30 := rfl
  have h27 : (27 : UInt64).toNat % 64 = 27 := rfl
  have h31 : (31 : UInt64).toNat % 64 = 31 := rfl
  have hm1 : (0xbf58476d1ce4e5b9 : UInt64).toNat = 0xbf58476d1ce4e5b9 := rfl
  have hm2 : (0x94d049bb133111eb : UInt64).toNat = 0x94d049bb133111eb := rfl
  simp only [splitmixOutput, Sketchlog.CountMinSketch.splitmixOutput, UInt64.toNat_xor,
    UInt64.toNat_shiftRight, UInt64.toNat_mul, Sketchlog.HyperLogLog.and_mask64, h30, h27, h31, hm1,
      hm2]

theorem map_toNat_seedsFrom (depth : ℕ) (state : UInt64) :
    (seedsFrom depth state).map UInt64.toNat
      = Sketchlog.CountMinSketch.seedsFrom depth state.toNat := by
  induction depth generalizing state with
  | zero => rfl
  | succ depth ih =>
    have hinc : (0x9e3779b97f4a7c15 : UInt64).toNat = 0x9e3779b97f4a7c15 := rfl
    have hstate : (state + 0x9e3779b97f4a7c15).toNat
      = (state.toNat + 0x9e3779b97f4a7c15) &&& mask64 := by
      rw [UInt64.toNat_add, hinc, Sketchlog.HyperLogLog.and_mask64]
    show (splitmixOutput (state + 0x9e3779b97f4a7c15)).toNat
        :: (seedsFrom depth (state + 0x9e3779b97f4a7c15)).map UInt64.toNat = _
    rw [splitmixOutput_toNat, ih, hstate]
    rfl

theorem map_toNat_seeds (depth : ℕ) :
    (seeds depth).map UInt64.toNat = Sketchlog.CountMinSketch.seeds depth :=
  map_toNat_seedsFrom depth 42

theorem hash_eq (key seed : UInt64) :
    Sketchlog.CountMinSketch.hash (key.toNat : ℤ) seed.toNat
      = (murmurFinalizer (key ^^^ seed)).toNat := by
  rw [murmurFinalizer, HyperLogLog.murmur3Fmix64_toNat, UInt64.toNat_xor]
  rfl

/-- The column of a key in a row, which is that of the Python sketch. -/
def column (width depth : ℕ) (hw : 0 < width) (key : UInt64) : Fin depth → Fin width :=
  Sketchlog.CountMinSketch.column width depth hw key.toNat

theorem length_seeds (depth : ℕ) : (seeds depth).length = depth := by
  rw [← List.length_map (f := UInt64.toNat), map_toNat_seeds, Sketchlog.CountMinSketch.length_seeds]

theorem column_val (hw : 0 < width) (key : UInt64) {i : ℕ} (hi : i < depth)
    (hi' : i < (seeds depth).length) :
    (column width depth hw key ⟨i, hi⟩ : ℕ) = (murmurFinalizer (key ^^^ (seeds depth)[i])).toNat %
      width := by
  have hseed : (Sketchlog.CountMinSketch.seeds depth).get
      ((⟨i, hi⟩ : Fin depth).cast (Sketchlog.CountMinSketch.length_seeds depth).symm)
      = (seeds depth)[i].toNat := by
    simp only [List.get_eq_getElem, ← map_toNat_seeds, List.getElem_map]
    rfl
  show Sketchlog.CountMinSketch.hash _ _ % width = _
  rw [hseed, hash_eq]

theorem indices_eq (hw : 0 < width) (a : EventCounts width depth) (key : UInt64) :
    (ofCounts a).indices key
      = (List.ofFn fun r => cell r (column width depth hw key r)).map Fin.val := by
  refine List.ext_getElem (by simp [indices, ofCounts, length_seeds]) fun i hi hi' => ?_
  have hdepth : i < depth := by simpa using hi'
  rw [List.getElem_map, List.getElem_ofFn]
  show _ = i * width + (column width depth hw key ⟨i, hdepth⟩ : ℕ)
  rw [column_val hw key hdepth (by rwa [length_seeds])]
  simp [indices, ofCounts]

theorem mem_indices_iff (hw : 0 < width) (a : EventCounts width depth) (key : UInt64) (p : ℤ → Prop) :
    (∃ i ∈ (ofCounts a).indices key, p ((ofCounts a).table.getD i 0))
      ↔ ∃ r, p (a.table r (column width depth hw key r)) := by
  rw [indices_eq hw]
  constructor
  · rintro ⟨i, hi, hp⟩
    obtain ⟨k, hk, rfl⟩ := List.mem_map.mp hi
    obtain ⟨r, rfl⟩ := List.mem_ofFn.mp hk
    rw [getD_cell] at hp
    exact ⟨r, hp⟩
  · rintro ⟨r, hp⟩
    refine ⟨_, List.mem_map_of_mem (List.mem_ofFn.mpr ⟨r, rfl⟩), ?_⟩
    rwa [getD_cell]

/-! ## `add`

The cells of one key lie in different rows. The check on each cell never fails after that on the
total. -/

/-- The cell writes of `add`. -/
theorem writeCells_eq (hw : 0 < width) (a : EventCounts width depth) (key : UInt64) {count : ℕ}
    (hfit : a.total + count ≤ maxInt64) :
    ((ofCounts a).indices key).foldl (fun t i => t.modify i fun c => i64 (c + count)) (ofCounts a).table
      = (ofCounts (a + EventCounts.single (column width depth hw key) count)).table := by
  -- the cells of one key lie in different rows, so each is raised once
  have hnodup : (List.ofFn fun r => cell r (column width depth hw key r)).Nodup := by
    refine List.nodup_ofFn.mpr fun r r' h => ?_
    have hdiv := congrArg Fin.divNat h
    simpa using hdiv
  rw [indices_eq hw]
  have hfold := List.foldl_modify_ofFn
    (fun k : Fin (depth * width) => (a.table k.divNat k.modNat : ℤ)) (fun c => i64 (c + count)) _ hnodup
  refine hfold.trans ?_
  show _ = List.ofFn fun k : Fin (depth * width) =>
    (((a + EventCounts.single (column width depth hw key) count).table k.divNat k.modNat : ℕ) : ℤ)
  congr 1
  funext k
  -- the cell `k` is one of them exactly if its column is the key's in its row
  have hmem : k ∈ (List.ofFn fun r => cell r (column width depth hw key r))
      ↔ k.modNat = column width depth hw key k.divNat := by
    rw [List.mem_ofFn]
    constructor
    · rintro ⟨r, rfl⟩
      simp
    · intro h
      refine ⟨k.divNat, ?_⟩
      rw [← h, cell_divNat_modNat]
  have hle : a.table k.divNat k.modNat ≤ a.total := a.table_le_total _ _
  show _ = ((a.table k.divNat k.modNat
    + (if k.modNat = column width depth hw key k.divNat then count else 0) : ℕ) : ℤ)
  by_cases hk : k.modNat = column width depth hw key k.divNat
  · rw [if_pos (hmem.mpr hk), if_pos hk, i64_eq (by omega) (by omega)]
    push_cast
    rfl
  · rw [if_neg (mt hmem.mp hk), if_neg hk, add_zero]

/-- **`add` is guarded addition of `count` occurrences of the key.** -/
theorem add_guarded (hw : 0 < width) (a : EventCounts width depth) (ha : a.total ≤ maxInt64)
    (key : UInt64) (count : ℤ) :
    Guarded (add key count) (ofCounts a) (0 < count ∧ a.total + count ≤ maxInt64)
      (· = ofCounts (a + EventCounts.single (column width depth hw key) count.toNat)) := by
  have htotal : i64 (maxInt64 - (ofCounts a).totalCount) = maxInt64 - a.total :=
    i64_eq (by show (0 : ℤ) ≤ maxInt64 - a.total; omega) (by show maxInt64 - (a.total : ℤ) ≤ _; omega)
  unfold add
  refine (Guarded.raiseIf_bind fun hpos => Guarded.get_bind (Guarded.raiseIf_bind
    (P := True) fun hle => ?_)).imp ?_ fun _ _ hR => hR
  · -- a cell is at most the total, so the check on the cells passes
    rw [htotal] at hle
    have hcells : ¬ ∃ i ∈ (ofCounts a).indices key,
        i64 (maxInt64 - (ofCounts a).table.getD i 0) < count := by
      rw [mem_indices_iff hw a key fun c => i64 (maxInt64 - c) < count]
      rintro ⟨r, hr⟩
      have hcell := a.table_le_total r (column width depth hw key r)
      rw [i64_eq (by omega) (by omega)] at hr
      omega
    have hcount : ((count.toNat : ℕ) : ℤ) = count := Int.toNat_of_nonneg (by omega)
    have hfit : a.total + count.toNat ≤ maxInt64 := by omega
    have hwrite := writeCells_eq hw a key hfit
    rw [hcount] at hwrite
    have hsum : i64 ((a.total : ℤ) + count) = a.total + count := i64_eq (by omega) (by omega)
    refine .accept trivial (ofCounts (a + EventCounts.single (column width depth hw key) count.toNat))
      ?_ rfl
    simp only [EStateM.run_bind, run_raiseIf, hcells, if_false, EStateM.run_modify]
    rw [hwrite]
    show EStateM.Result.ok () (⟨width, depth, i64 (a.total + count), _⟩ : CountMinSketch) = _
    rw [hsum]
    show _ = EStateM.Result.ok () (⟨width, depth, ((a.total + count.toNat : ℕ) : ℤ), _⟩ :
      CountMinSketch)
    push_cast
    rw [hcount]
    rfl
  · rw [htotal]
    simp only [and_true]
    constructor
    · rintro ⟨hpos, hle⟩
      omega
    · rintro ⟨hpos, hle⟩
      omega

/-! ## `merge`, `reset` and `estimate`

Cell by cell, as in the Python sketch, with sums that do not wrap. -/

/-- **`merge` is guarded addition of the other sketch's counts.** -/
theorem merge_guarded (a b : EventCounts width depth) (ha : a.total ≤ maxInt64) :
    Guarded (merge (ofCounts b)) (ofCounts a) (a.total + b.total ≤ maxInt64)
      (· = ofCounts (a + b)) := by
  have htotal : i64 (maxInt64 - (ofCounts a).totalCount) = maxInt64 - a.total :=
    i64_eq (by show (0 : ℤ) ≤ maxInt64 - a.total; omega) (by show maxInt64 - (a.total : ℤ) ≤ _; omega)
  have hdims : ¬ ((ofCounts a).width ≠ (ofCounts b).width ∨ (ofCounts a).depth
    ≠ (ofCounts b).depth) := by
    rintro (h | h)
    · exact h rfl
    · exact h rfl
  unfold merge
  refine (Guarded.get_bind (Guarded.raiseIf_bind fun _ => Guarded.raiseIf_bind
    -- no cell can pass the limit once the totals do not: the check on the cells never fails
    (P := True) fun hle => ?_)).imp ?_ fun _ _ hR => hR
  · have hother : (ofCounts b).totalCount = b.total := rfl
    rw [htotal, hother] at hle
    have hcell : ∀ k : Fin (depth * width), a.table k.divNat k.modNat + b.table k.divNat k.modNat
        ≤ maxInt64 := by
      intro k
      have h1 := a.table_le_total k.divNat k.modNat
      have h2 := b.table_le_total k.divNat k.modNat
      omega
    have hcells : ¬ ∃ cells ∈ (ofCounts a).table.zip (ofCounts b).table,
        i64 (maxInt64 - cells.1) < cells.2 := by
      rintro ⟨cells, hmem, hover⟩
      rw [ofCounts, ofCounts, List.zip_ofFn, List.mem_ofFn] at hmem
      obtain ⟨k, rfl⟩ := hmem
      have := hcell k
      simp only at hover
      rw [i64_eq (by omega) (by omega)] at hover
      omega
    have htable : (ofCounts a).table.zipWith (fun c c' => i64 (c + c')) (ofCounts b).table
        = (ofCounts (a + b)).table := by
      rw [ofCounts, ofCounts, ofCounts, List.zipWith_ofFn]
      refine congrArg List.ofFn (funext fun k => ?_)
      have hk := hcell k
      rw [i64_eq (by omega) (by omega)]
      show ((a.table k.divNat k.modNat : ℕ) : ℤ) + (b.table k.divNat k.modNat : ℕ)
        = ((a.table k.divNat k.modNat + b.table k.divNat k.modNat : ℕ) : ℤ)
      push_cast
      rfl
    -- in range, the wrapping sums are the plain ones
    have hsum : i64 ((a.total : ℤ) + b.total) = a.total + b.total := i64_eq (by omega) (by omega)
    refine .accept trivial (ofCounts (a + b)) ?_ rfl
    simp only [EStateM.run_bind, run_raiseIf, hcells, if_false, EStateM.run_modify]
    rw [htable]
    show EStateM.Result.ok () (⟨width, depth, i64 (a.total + b.total), _⟩ : CountMinSketch) = _
    rw [hsum]
    show _ = EStateM.Result.ok () (⟨width, depth, ((a.total + b.total : ℕ) : ℤ), _⟩ : CountMinSketch)
    push_cast
    rfl
  · have hother : (ofCounts b).totalCount = b.total := rfl
    rw [htotal, hother]
    -- the only check that decides is the one on the totals
    constructor
    · rintro ⟨-, hle, -⟩
      omega
    · intro hle
      exact ⟨hdims, by omega, trivial⟩

theorem run_reset (a : EventCounts width depth) :
    reset.run (ofCounts a) = .ok () (ofCounts (0 : EventCounts width depth)) := by
  simp only [reset, EStateM.run_bind, EStateM.run_modify]
  show EStateM.Result.ok () (⟨width, depth, 0, (List.ofFn _).map _⟩ : CountMinSketch) = _
  rw [List.map_ofFn]
  rfl

/-- The running minimum of `estimate` starts at a value no cell exceeds. -/
theorem estimate_ofCounts (hw : 0 < width) (hd : 0 < depth) (a : EventCounts width depth)
    (ha : a.total ≤ maxInt64) (key : UInt64) :
    (ofCounts a).estimate key = a.estimate hd (column width depth hw key) := by
  have hne : (Finset.univ : Finset (Fin depth)).Nonempty := ⟨⟨0, hd⟩, Finset.mem_univ _⟩
  have hle : ∀ r, a.estimate hd (column width depth hw key) ≤ a.table r (column width depth hw key r) :=
    fun r => Finset.inf'_le (fun r => a.table r (column width depth hw key r)) (Finset.mem_univ r)
  have hbound := List.le_foldl_min_iff (κ := ℤ) (g := fun i => (ofCounts a).table.getD i 0)
    (l := (ofCounts a).indices key) (x := maxInt64)
  unfold estimate
  refine le_antisymm ?_ ?_
  · -- some row attains the minimum
    obtain ⟨r, -, hr⟩ := Finset.exists_mem_eq_inf' hne fun r => a.table r (column width depth hw key r)
    have hcell := ((hbound _).mp le_rfl).2 (cell r (column width depth hw key r)) (by
      rw [indices_eq hw]
      exact List.mem_map_of_mem (List.mem_ofFn.mpr ⟨r, rfl⟩))
    rw [getD_cell] at hcell
    rw [EventCounts.estimate, hr]
    exact hcell
  · refine (hbound _).mpr ⟨?_, fun i hi => ?_⟩
    · have h := (hle ⟨0, hd⟩).trans (a.table_le_total _ _)
      omega
    · rw [indices_eq hw] at hi
      obtain ⟨k, hk, rfl⟩ := List.mem_map.mp hi
      obtain ⟨r, rfl⟩ := List.mem_ofFn.mp hk
      rw [getD_cell]
      exact_mod_cast hle r

end CountMinSketch

end Sketchlog.Cpp
