import Mathlib

/-!
# Dictionaries of counts

A dictionary `key ↦ count` whose counts are all positive is a finitely supported function
`κ →₀ ℕ`: absent keys count zero. The relation `Tallies m f` says that the dictionary `m` holds
exactly the counts of `f`. Adding to a key, adding one dictionary to another entry by entry, the
number of keys and the sum of the values then are `f + single k c`, `f + g`, `f.support.card` and
`f.sum`, and Mathlib's algebra of `κ →₀ ℕ` applies to code that only ever loops over entries.

* **`Tallies.bump`**, **`Tallies.addAll`** — the two updates;
* **`Tallies.addAll_within`** — entry-by-entry addition that raises at the first count over a limit;
* **`Tallies.size`**, **`Tallies.sum_values`** — what `len` and `sum` read;
* **`Tallies.map_eq`**, **`Tallies.count_eq`** — each side determines the other.
-/

namespace CountMap

open Std

variable {κ : Type} {cmp : κ → κ → Ordering} [TransCmp cmp]

/-- `m[k] = m.get(k, 0) + c`. -/
def bump (m : ExtTreeMap κ ℤ cmp) (k : κ) (c : ℤ) : ExtTreeMap κ ℤ cmp :=
  m.insert k (m.getD k 0 + c)

/-- Add every entry of `n` to `m`. -/
def addAll (m n : ExtTreeMap κ ℤ cmp) : ExtTreeMap κ ℤ cmp :=
  n.toList.foldl (fun acc p => bump acc p.1 p.2) m

/-- `m` holds exactly the counts of `f`; a key is present when its count is not zero. -/
def Tallies (m : ExtTreeMap κ ℤ cmp) (f : κ →₀ ℕ) : Prop :=
  ∀ k, m[k]? = if f k = 0 then none else some (f k : ℤ)

variable {m n : ExtTreeMap κ ℤ cmp} {f g : κ →₀ ℕ}

theorem tallies_empty : Tallies (∅ : ExtTreeMap κ ℤ cmp) 0 := by
  intro k
  simp

namespace Tallies

theorem getD_eq (h : Tallies m f) (k : κ) : m.getD k 0 = f k := by
  rw [ExtTreeMap.getD_eq_getD_getElem?, h k]
  split
  · next h0 => simp [h0]
  · rfl

theorem mem_iff (h : Tallies m f) (k : κ) : k ∈ m ↔ f k ≠ 0 := by
  rw [← ExtTreeMap.isSome_getElem?_iff_mem, h k]
  split <;> simp_all

theorem count_eq (hf : Tallies m f) (hg : Tallies m g) : f = g := by
  ext k
  have h : (f k : ℤ) = g k := by rw [← hf.getD_eq k, ← hg.getD_eq k]
  exact_mod_cast h

end Tallies

variable [LawfulEqCmp cmp]

/-- A dictionary of positive counts tallies some function. -/
theorem exists_tallies (h : ∀ (k : κ) (v : ℤ), m[k]? = some v → 0 < v) : ∃ f, Tallies m f := by
  classical
  refine ⟨Finsupp.onFinset m.keys.toFinset (fun k => (m.getD k 0).toNat) ?_, ?_⟩
  · intro k hk
    by_contra hmem
    have hnot : k ∉ m := by simpa using hmem
    simp [ExtTreeMap.getD_eq_fallback hnot] at hk
  · intro k
    rw [Finsupp.onFinset_apply, ExtTreeMap.getD_eq_getD_getElem?]
    cases hk : m[k]? with
    | none => simp
    | some v =>
      have hpos := h k v hk
      rw [if_neg (by simp only [Option.getD_some]; omega)]
      simp only [Option.getD_some, Option.some.injEq]
      omega

namespace Tallies

theorem mem_toList_iff (h : Tallies m f) {k : κ} {v : ℤ} :
    (k, v) ∈ m.toList ↔ f k ≠ 0 ∧ v = f k := by
  rw [ExtTreeMap.mem_toList_iff_getElem?_eq_some, h k]
  split
  · next h0 => simp [h0]
  · next h0 => simp [h0, eq_comm]

theorem toList_pos (h : Tallies m f) {p : κ × ℤ} (hp : p ∈ m.toList) : 0 < p.2 := by
  obtain ⟨hne, hv⟩ := h.mem_toList_iff.mp (show (p.1, p.2) ∈ m.toList from hp)
  rw [hv]
  exact_mod_cast Nat.pos_of_ne_zero hne

theorem map_eq (hm : Tallies m f) (hn : Tallies n f) : m = n :=
  ExtTreeMap.ext_getElem? fun k => by rw [hm k, hn k]

theorem eq_empty_iff (h : Tallies m f) : m = ∅ ↔ f = 0 := by
  constructor
  · rintro rfl
    exact h.count_eq tallies_empty
  · rintro rfl
    exact h.map_eq tallies_empty

theorem isEmpty_iff (h : Tallies m f) : m.isEmpty = true ↔ f = 0 := by
  rw [← h.eq_empty_iff, ExtTreeMap.isEmpty_iff]

/-! ## Reading the whole dictionary -/

theorem keys_toFinset [DecidableEq κ] (h : Tallies m f) : m.keys.toFinset = f.support := by
  ext k
  rw [List.mem_toFinset, ExtTreeMap.mem_keys, h.mem_iff, Finsupp.mem_support_iff]

theorem size_eq (h : Tallies m f) : m.size = f.support.card := by
  classical
  rw [← h.keys_toFinset, List.toFinset_card_of_nodup ExtTreeMap.nodup_keys,
    ExtTreeMap.length_keys]

/-- A sum over the entries is a sum over the support. -/
theorem sum_toList {A : Type} [AddCommMonoid A] (h : Tallies m f) (w : κ → ℤ → A) :
    (m.toList.map fun p => w p.1 p.2).sum = f.sum fun k c => w k c := by
  classical
  have hkeys : (m.toList.map fun p => w p.1 p.2) = m.keys.map fun k => w k (f k) := by
    rw [← ExtTreeMap.map_fst_toList_eq_keys, List.map_map]
    refine List.map_congr_left fun p hp => ?_
    rw [Function.comp_apply, (h.mem_toList_iff.mp (show (p.1, p.2) ∈ m.toList from hp)).2]
  rw [hkeys, ← List.sum_toFinset _ ExtTreeMap.nodup_keys, h.keys_toFinset]
  rfl

theorem sum_values (h : Tallies m f) :
    (m.toList.map Prod.snd).sum = ((f.sum fun _ c => c : ℕ) : ℤ) := by
  rw [h.sum_toList (fun _ v => v), Finsupp.sum, Finsupp.sum]
  push_cast
  rfl

/-! ## Updates

Raising the counter of one key, and the fold that raises many. Both are additions of finitely
supported functions, which is how every later proof reads them. -/

theorem bump (h : Tallies m f) (k : κ) {c : ℕ} (hc : 0 < c) :
    Tallies (CountMap.bump m k c) (f + Finsupp.single k c) := by
  classical
  intro j
  unfold CountMap.bump
  rw [ExtTreeMap.getElem?_insert, h.getD_eq k, Finsupp.add_apply]
  by_cases hkj : k = j
  · subst hkj
    rw [if_pos (by simp), Finsupp.single_eq_same, if_neg (by omega)]
    push_cast
    rfl
  · rw [if_neg (by simpa using hkj), h j, Finsupp.single_eq_of_ne' hkj, add_zero]

/-- Adding a list of positive entries one by one adds their sum. -/
theorem foldl_bump (h : Tallies m f) (l : List (κ × ℤ)) (hl : ∀ p ∈ l, 0 < p.2) :
    Tallies (l.foldl (fun acc p => CountMap.bump acc p.1 p.2) m)
      (f + (l.map fun p => Finsupp.single p.1 p.2.toNat).sum) := by
  induction l generalizing m f with
  | nil => simpa using h
  | cons p l ih =>
    have hp := hl p (by simp)
    have hstep := h.bump p.1 (c := p.2.toNat) (by omega)
    rw [Int.toNat_of_nonneg hp.le] at hstep
    simpa [add_assoc] using ih hstep fun q hq => hl q (by simp [hq])

theorem sum_single (h : Tallies n g) :
    (n.toList.map fun p => Finsupp.single p.1 p.2.toNat).sum = g := by
  rw [h.sum_toList fun k v => Finsupp.single k v.toNat]
  simp

theorem addAll (hm : Tallies m f) (hn : Tallies n g) : Tallies (addAll m n) (f + g) := by
  have h := hm.foldl_bump n.toList fun p hp => hn.toList_pos hp
  rwa [hn.sum_single] at h

/-! ## Addition under a limit

The loop checks before each addition that the counter stays within the limit. It fails exactly when
some counter of the sum is over it, and this does not depend on the order of the keys. -/

/-- The entry-by-entry loop that raises when a sum passes `limit`: it completes exactly when every
sum it produces stays within the limit, and then it is plain addition. -/
theorem foldlM_within {ε : Type} {limit : ℕ} {e : ε} (h : Tallies m f) (l : List (κ × ℤ))
    (hl : ∀ p ∈ l, 0 < p.2) :
    l.foldlM (fun acc p =>
        if acc.getD p.1 0 > (limit : ℤ) - p.2 then Except.error e
        else Except.ok (CountMap.bump acc p.1 p.2)) m
      = if ∀ p ∈ l, (f + (l.map fun p => Finsupp.single p.1 p.2.toNat).sum) p.1 ≤ limit
        then .ok (l.foldl (fun acc p => CountMap.bump acc p.1 p.2) m)
        else .error e := by
  classical
  induction l generalizing m f with
  | nil => rfl
  | cons p l ih =>
    have hp := hl p (by simp)
    have hl' : ∀ q ∈ l, 0 < q.2 := fun q hq => hl q (by simp [hq])
    obtain ⟨c, hc⟩ := Int.eq_ofNat_of_zero_le hp.le
    have hstep := h.bump p.1 (c := c) (by omega)
    rw [← hc] at hstep
    set S := (l.map fun p => Finsupp.single p.1 p.2.toNat).sum with hS
    have hsum : ∀ k, (f + ((p :: l).map fun p => Finsupp.single p.1 p.2.toNat).sum) k
        = (f + Finsupp.single p.1 c + S) k := by
      intro k
      rw [List.map_cons, List.sum_cons, ← hS, hc, Int.toNat_natCast, add_assoc]
    simp only [List.foldlM_cons, List.foldl_cons, List.forall_mem_cons, hsum]
    by_cases hover : m.getD p.1 0 > (limit : ℤ) - p.2
    · -- the head already passes the limit, and later entries only add to it
      rw [if_pos hover, if_neg]
      · rfl
      · rintro ⟨hle, -⟩
        rw [h.getD_eq, hc] at hover
        simp only [Finsupp.add_apply, Finsupp.single_eq_same] at hle
        omega
    · rw [if_neg hover]
      change l.foldlM _ (CountMap.bump m p.1 p.2) = _
      rw [ih hstep hl']
      refine if_congr ⟨fun hall => ⟨?_, hall⟩, fun hall => hall.2⟩ rfl rfl
      by_cases hmem : ∃ q ∈ l, q.1 = p.1
      · obtain ⟨q, hq, hqp⟩ := hmem
        exact hqp ▸ hall q hq
      · -- no later entry touches the head's key
        have hzero : S p.1 = 0 := by
          rw [hS, ← Finsupp.applyAddHom_apply, map_list_sum, List.map_map]
          refine List.sum_eq_zero fun x hx => ?_
          obtain ⟨q, hq, rfl⟩ := List.mem_map.mp hx
          exact Finsupp.single_eq_of_ne' fun heq => hmem ⟨q, hq, heq⟩
        rw [h.getD_eq, hc] at hover
        simp only [Finsupp.add_apply, Finsupp.single_eq_same, hzero]
        omega

/-- `foldlM_within` for a whole dictionary: the loop completes exactly when every count of the sum
stays within the limit, given that the receiver's counts do. -/
theorem addAll_within {ε : Type} {limit : ℕ} {e : ε} (hm : Tallies m f) (hn : Tallies n g)
    (hf : ∀ k, f k ≤ limit) {r : Except ε (ExtTreeMap κ ℤ cmp)}
    (hr : r = n.toList.foldlM (fun acc p =>
        if acc.getD p.1 0 > (limit : ℤ) - p.2 then Except.error e
        else Except.ok (CountMap.bump acc p.1 p.2)) m) :
    ((∀ k, (f + g) k ≤ limit) ∧ r = .ok (CountMap.addAll m n))
      ∨ (¬ (∀ k, (f + g) k ≤ limit) ∧ r = .error e) := by
  have hiff : (∀ p ∈ n.toList, (f + g) p.1 ≤ limit) ↔ ∀ k, (f + g) k ≤ limit := by
    refine ⟨fun hall k => ?_, fun hall p _ => hall p.1⟩
    by_cases hk : g k = 0
    · simpa [hk] using hf k
    · exact hall (k, g k) (hn.mem_toList_iff.mpr ⟨hk, rfl⟩)
  rw [hm.foldlM_within n.toList fun p hp => hn.toList_pos hp, hn.sum_single] at hr
  by_cases hall : ∀ p ∈ n.toList, (f + g) p.1 ≤ limit
  · rw [if_pos hall] at hr
    exact .inl ⟨hiff.mp hall, hr⟩
  · rw [if_neg hall] at hr
    exact .inr ⟨fun h => hall (hiff.mpr h), hr⟩

end Tallies

/-! ## Rebuilding a dictionary from its entries -/

theorem foldl_insert_toList (m : ExtTreeMap κ ℤ cmp) :
    m.toList.foldl (fun acc p => acc.insert p.1 p.2) ∅ = m := by
  classical
  rw [show m.toList.foldl (fun acc p => acc.insert p.1 p.2) (∅ : ExtTreeMap κ ℤ cmp)
    = (∅ : ExtTreeMap κ ℤ cmp).insertMany m.toList from ExtTreeMap.insertMany_list_eq_foldl.symm]
  refine ExtTreeMap.ext_getElem? fun k => ?_
  cases hk : m[k]? with
  | none =>
    have hnot : (m.toList.map Prod.fst).contains k = false := by
      rw [ExtTreeMap.map_fst_toList_eq_keys]
      have hmem : k ∉ m := fun hmem => by
        rw [← ExtTreeMap.isSome_getElem?_iff_mem, hk] at hmem
        cases hmem
      simpa using hmem
    rw [ExtTreeMap.getElem?_insertMany_list_of_contains_eq_false hnot]
    simp
  | some v =>
    exact ExtTreeMap.getElem?_insertMany_list_of_mem (k := k) (by simp)
      ExtTreeMap.distinct_keys_toList (ExtTreeMap.mem_toList_iff_getElem?_eq_some.mpr hk)

/-! ## Extreme keys -/

theorem Tallies.maxKey?_eq_some_iff {m : ExtTreeMap ℤ ℤ} {f : ℤ →₀ ℕ} (h : Tallies m f) {k : ℤ} :
    m.maxKey? = some k ↔ IsGreatest {j | f j ≠ 0} k := by
  rw [ExtTreeMap.maxKey?_eq_some_iff_mem_and_forall, h.mem_iff]
  refine and_congr_right fun _ => ⟨fun hall j hj => ?_, fun hub j hj => ?_⟩
  · simpa [Std.isLE_compare] using hall j ((h.mem_iff j).mpr hj)
  · simpa [Std.isLE_compare] using hub ((h.mem_iff j).mp hj)

theorem Tallies.minKey?_eq_some_iff {m : ExtTreeMap ℤ ℤ} {f : ℤ →₀ ℕ} (h : Tallies m f) {k : ℤ} :
    m.minKey? = some k ↔ IsLeast {j | f j ≠ 0} k := by
  rw [ExtTreeMap.minKey?_eq_some_iff_mem_and_forall, h.mem_iff]
  refine and_congr_right fun _ => ⟨fun hall j hj => ?_, fun hlb j hj => ?_⟩
  · simpa [Std.isLE_compare] using hall j ((h.mem_iff j).mpr hj)
  · simpa [Std.isLE_compare] using hlb ((h.mem_iff j).mp hj)

/-! ## Limits under the addition of one key

One counter changes, and the support grows by at most its key. So a limit on the counters or on
their number has to be compared there only. -/

theorem card_support_add_single_le_iff {f : κ →₀ ℕ} {k : κ} {c n : ℕ} (hc : 0 < c)
    (hf : f.support.card ≤ n) :
    (f + Finsupp.single k c).support.card ≤ n ↔ f k ≠ 0 ∨ f.support.card < n := by
  classical
  have hsupp : (f + Finsupp.single k c).support = insert k f.support := by
    ext j
    rw [Finset.mem_insert, Finsupp.mem_support_iff, Finsupp.mem_support_iff, Finsupp.add_apply]
    by_cases hj : j = k
    · subst hj
      rw [Finsupp.single_eq_same]
      exact ⟨fun _ => Or.inl rfl, fun _ => by omega⟩
    · rw [Finsupp.single_eq_of_ne hj]
      simp [hj]
  rw [hsupp]
  by_cases hk : f k = 0
  · rw [Finset.card_insert_of_notMem (by simpa using hk)]
    simp [hk]
  · rw [Finset.insert_eq_of_mem (by simpa using hk)]
    simp [hk, hf]

theorem forall_add_single_le_iff {f : κ →₀ ℕ} {k : κ} {c n : ℕ} (hf : ∀ j, f j ≤ n) :
    (∀ j, (f + Finsupp.single k c) j ≤ n) ↔ f k + c ≤ n := by
  constructor
  · intro h
    simpa using h k
  · intro h j
    rw [Finsupp.add_apply]
    by_cases hj : j = k
    · subst hj
      simpa using h
    · rw [Finsupp.single_eq_of_ne hj]
      simpa using hf j

end CountMap
