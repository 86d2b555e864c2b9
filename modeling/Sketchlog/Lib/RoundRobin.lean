import Mathlib

/-!
# Circular scans

A scan of a list goes on where the last one has stopped, around the end of the list, and each scan
takes at least one element. As many scans as the list has elements then take every element
(`exists_scan`), wherever the first one has started.
-/

namespace RoundRobin

open Finset

/-- Windows that follow one another cover every position; the position is in one of as many windows
at most. -/
theorem exists_window {width : ℕ → ℕ} (h : ∀ i, 1 ≤ width i) (p : ℕ) :
    ∃ i ≤ p, ∃ j < width i, ∑ k ∈ range i, width k + j = p := by
  induction p with
  | zero => exact ⟨0, le_rfl, 0, h 0, by simp⟩
  | succ p ih =>
    obtain ⟨i, hi, j, hj, hsum⟩ := ih
    by_cases hnext : j + 1 < width i
    · exact ⟨i, by omega, j + 1, hnext, by omega⟩
    · -- the window ends here, so the next one starts at the position
      refine ⟨i + 1, by omega, 0, h (i + 1), ?_⟩
      rw [sum_range_succ]
      omega

/-- Where the scans start. -/
theorem start_mod {n : ℕ} {start width : ℕ → ℕ} (h : ∀ i, start (i + 1) = (start i + width i) % n)
    (i : ℕ) :
    start i % n = (start 0 + ∑ k ∈ range i, width k) % n := by
  induction i with
  | zero => simp
  | succ i ih =>
    rw [h i, Nat.mod_mod, sum_range_succ, ← Nat.add_assoc, Nat.add_mod, ih, ← Nat.add_mod]

/-- **Every element is taken.** -/
theorem exists_scan {α : Type*} (items : List α) (start : ℕ → ℕ) {width : ℕ → ℕ}
    (hwidth : ∀ i, 1 ≤ width i)
    (hstart : ∀ i, start (i + 1) = (start i + width i) % items.length) {x : α} (hx : x ∈ items) :
    ∃ i < items.length, x ∈ (items.rotate (start i)).take (width i) := by
  obtain ⟨q, hq, rfl⟩ := List.getElem_of_mem hx
  have hpos : 0 < items.length := by omega
  -- how far the element is from where the first scan starts
  have hfirst := Nat.mod_lt (start 0) hpos
  obtain ⟨i, hi, j, hj, hsum⟩ :=
    exists_window hwidth ((q + items.length - start 0 % items.length) % items.length)
  have hp := Nat.mod_lt (q + items.length - start 0 % items.length) hpos
  have hindex : (j + start i) % items.length = q := by
    calc (j + start i) % items.length = (j + start i % items.length) % items.length := by simp
      _ = (j + (start 0 + ∑ k ∈ range i, width k) % items.length) % items.length := by
        rw [start_mod hstart]
      _ = (start 0 + (∑ k ∈ range i, width k + j)) % items.length := by
        rw [Nat.add_mod_mod]
        congr 1
        omega
      _ = (start 0 % items.length + (q + items.length - start 0 % items.length)) % items.length := by
        rw [hsum, Nat.add_mod_mod, Nat.mod_add_mod]
      _ = (q + items.length) % items.length := by
        congr 1
        omega
      _ = q := by rw [Nat.add_mod_right, Nat.mod_eq_of_lt hq]
  have hlt : j < (items.rotate (start i)).length := by
    rw [List.length_rotate]
    omega
  have hget : (items.rotate (start i))[j] = items[q] := by
    rw [List.getElem_rotate]
    simp only [hindex]
  refine ⟨i, by omega, List.mem_iff_getElem.mpr ⟨j, ?_, ?_⟩⟩
  · rw [List.length_take]
    omega
  · rw [List.getElem_take, hget]

end RoundRobin
