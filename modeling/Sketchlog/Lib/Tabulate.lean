import Mathlib

/-!
# Lists that tabulate a function

Fixed-size arrays are lists `List.ofFn f` of a function on `Fin n`. A write to one cell, a cell-wise
combination of two arrays, and a cell-wise operation that may raise are again of this form, so that
a loop over an array is a statement about every index.
-/

namespace List

variable {α β γ ε : Type} {n : ℕ}

theorem exists_eq_ofFn {l : List α} (h : l.length = n) : ∃ f : Fin n → α, l = ofFn f := by
  subst h
  exact ⟨l.get, (ofFn_get l).symm⟩

theorem getD_ofFn (f : Fin n → α) (i : Fin n) (d : α) : (ofFn f).getD i d = f i := by
  rw [getD_eq_getElem?_getD, List.getElem?_ofFn, dif_pos i.isLt]
  rfl

theorem set_ofFn (f : Fin n → α) (i : Fin n) (a : α) :
    (ofFn f).set i a = ofFn (Function.update f i a) := by
  refine ext_getElem (by simp) fun j hj hj' => ?_
  have hj'' : j < n := by simpa using hj'
  rw [getElem_set, List.getElem_ofFn, List.getElem_ofFn, Function.update_apply]
  have hiff : (i : ℕ) = j ↔ (⟨j, hj''⟩ : Fin n) = i := by rw [Fin.ext_iff, eq_comm]
  exact if_congr hiff rfl rfl

theorem modify_ofFn (f : Fin n → α) (i : Fin n) (g : α → α) :
    (ofFn f).modify i g = ofFn fun j => if j = i then g (f j) else f j := by
  refine ext_getElem (by simp) fun j hj hj' => ?_
  have hj'' : j < n := by simpa using hj'
  rw [getElem_modify, List.getElem_ofFn, List.getElem_ofFn]
  have hiff : (i : ℕ) = j ↔ (⟨j, hj''⟩ : Fin n) = i := by rw [Fin.ext_iff, eq_comm]
  exact if_congr hiff rfl rfl

/-- Writes to distinct cells, one after another. -/
theorem foldl_modify_ofFn (f : Fin n → α) (g : α → α) (cells : List (Fin n)) (hcells : cells.Nodup) :
    (cells.map Fin.val).foldl (fun t i => t.modify i g) (ofFn f)
      = ofFn fun k => if k ∈ cells then g (f k) else f k := by
  induction cells generalizing f with
  | nil => simp
  | cons c cells ih =>
    obtain ⟨hc, hrest⟩ := nodup_cons.mp hcells
    rw [map_cons, foldl_cons, modify_ofFn, ih _ hrest]
    congr 1
    funext k
    by_cases hk : k = c
    · subst hk
      simp [hc]
    · simp [hk]

theorem zipWith_ofFn (h : α → β → γ) (f : Fin n → α) (g : Fin n → β) :
    zipWith h (ofFn f) (ofFn g) = ofFn fun i => h (f i) (g i) := by
  refine ext_getElem (by simp) fun j hj hj' => ?_
  rw [getElem_zipWith, List.getElem_ofFn, List.getElem_ofFn, List.getElem_ofFn]

theorem zip_ofFn (f : Fin n → α) (g : Fin n → β) :
    zip (ofFn f) (ofFn g) = ofFn fun i => (f i, g i) :=
  zipWith_ofFn Prod.mk f g

/-- A loop over an array that raises the same error at every cell it rejects. -/
theorem mapM_ite (p : α → Prop) [DecidablePred p] (g : α → β) (e : ε) (l : List α) :
    l.mapM (fun a => if p a then Except.error e else Except.ok (g a))
      = if ∃ a ∈ l, p a then .error e else .ok (l.map g) := by
  induction l with
  | nil => simp [pure, Except.pure]
  | cons a l ih =>
    rw [mapM_cons, ih]
    simp only [exists_mem_cons_iff]
    by_cases ha : p a
    · rw [if_pos ha, if_pos (Or.inl ha)]
      rfl
    · rw [if_neg ha]
      by_cases hl : ∃ b ∈ l, p b
      · rw [if_pos hl, if_pos (Or.inr hl)]
        rfl
      · rw [if_neg hl, if_neg (not_or.mpr ⟨ha, hl⟩)]
        rfl

/-- A running minimum over an array, from the start value `x`. -/
theorem foldl_min_ofFn {κ : Type} [LinearOrder κ] [OrderTop κ] (x : κ) (g : α → κ)
    (f : Fin n → α) :
    (ofFn f).foldl (fun result a => min result (g a)) x
      = min x (Finset.univ.inf fun i => g (f i)) := by
  induction n generalizing x with
  | zero => simp
  | succ n ih =>
    rw [ofFn_succ, foldl_cons, ih, Fin.univ_succ, Finset.inf_cons, Finset.inf_map, min_assoc]
    rfl

/-- The lower bounds of a running minimum. -/
theorem le_foldl_min_iff {κ : Type} [LinearOrder κ] (c x : κ) (g : α → κ) (l : List α) :
    c ≤ l.foldl (fun result a => min result (g a)) x ↔ c ≤ x ∧ ∀ a ∈ l, c ≤ g a := by
  induction l generalizing x with
  | nil => simp
  | cons a l ih =>
    rw [foldl_cons, ih, le_min_iff, forall_mem_cons, and_assoc]

theorem sum_ofFn_natCast (f : Fin n → ℕ) :
    (ofFn fun i => (f i : ℤ)).sum = ((∑ i, f i : ℕ) : ℤ) := by
  rw [List.sum_ofFn]
  push_cast
  rfl

end List
