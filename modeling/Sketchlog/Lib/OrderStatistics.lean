import Mathlib

/-!
# Order statistics through a monotone coarsening

A histogram keeps, for a multiset of values, only how many fall into each bucket of a monotone
coarsening `f`. The bucket of the `k`-th smallest value is nevertheless determined: it is the bucket
at which the cumulative counts pass `k`.

* **`nth s k`** — the `k`-th smallest element of `s`, counted from zero;
* **`map_nth_eq`** — the bucket of `nth s k` is the one bucket `b` with at most `k` values below it
  and more than `k` values up to it;
* **`walk`** — the loop that subtracts bucket counts from a rank until it is used up, and
  **`walk_eq_inl`**, which names the bucket it stops at.
-/

namespace OrderStatistics

variable {α β : Type} [LinearOrder α] [LinearOrder β]

/-- The `k`-th smallest element, from zero, with multiplicity. -/
def nth (s : Multiset α) (k : ℕ) (hk : k < s.card) : α :=
  (s.sort (· ≤ ·)).get ⟨k, by rwa [Multiset.length_sort]⟩

theorem nth_mem (s : Multiset α) (k : ℕ) (hk : k < s.card) : nth s k hk ∈ s :=
  (Multiset.mem_sort (· ≤ ·)).mp (List.get_mem _ _)

theorem nth_le_nth (s : Multiset α) {k k' : ℕ} (hk : k < s.card) (hk' : k' < s.card) (h : k ≤ k') :
    nth s k hk ≤ nth s k' hk' := by
  rcases h.lt_or_eq with h | rfl
  · exact List.pairwise_iff_getElem.mp (Multiset.pairwise_sort s (· ≤ ·)) k k' _ _ h
  · exact le_rfl

theorem countP_sort (s : Multiset α) (p : α → Prop) [DecidablePred p] :
    s.countP p = (s.sort (· ≤ ·)).countP fun v => p v := by
  conv_lhs => rw [← Multiset.sort_eq s (· ≤ ·)]
  exact Multiset.coe_countP _ _

theorem map_nth_eq {f : α → β} (hf : Monotone f) {s : Multiset α} {k : ℕ} (hk : k < s.card) {b : β}
    (hlt : s.countP (fun v => f v < b) ≤ k) (hle : k < s.countP fun v => f v ≤ b) :
    f (nth s k hk) = b := by
  rw [countP_sort] at hlt hle
  set l := s.sort (· ≤ ·) with hl
  have hsorted : l.Pairwise (· ≤ ·) := Multiset.pairwise_sort s (· ≤ ·)
  have hlen : k < l.length := by rwa [hl, Multiset.length_sort]
  have hmono : ∀ i j (hi : i < l.length) (hj : j < l.length), i ≤ j → l[i] ≤ l[j] := by
    intro i j hi hj hij
    rcases hij.lt_or_eq with h | rfl
    · exact List.pairwise_iff_getElem.mp hsorted i j hi hj h
    · exact le_rfl
  show f l[k] = b
  rcases lt_trichotomy (f l[k]) b with hfb | hfb | hfb
  · -- the first `k + 1` values all lie below `b`
    have hall : ∀ v ∈ l.take (k + 1), f v < b := by
      intro v hv
      obtain ⟨i, hi, rfl⟩ := List.mem_take_iff_getElem.mp hv
      have hi' : i < l.length := by omega
      exact lt_of_le_of_lt (hf (hmono i k hi' hlen (by omega))) hfb
    have hcount : (l.take (k + 1)).countP (fun v => f v < b) = k + 1 := by
      rw [List.countP_eq_length.mpr (by simpa using hall), List.length_take]
      omega
    have hsub := (List.take_sublist (k + 1) l).countP_le (p := fun v => f v < b)
    omega
  · exact hfb
  · -- the values from the `k`-th on all lie above `b`
    have hall : ∀ v ∈ l.drop k, ¬ f v ≤ b := by
      intro v hv
      obtain ⟨i, hi, rfl⟩ := List.mem_drop_iff_getElem.mp hv
      exact not_le.mpr (lt_of_lt_of_le hfb (hf (hmono k (k + i) hlen (by omega) (by omega))))
    have hcount : (l.drop k).countP (fun v => f v ≤ b) = 0 :=
      List.countP_eq_zero.mpr (by simpa using hall)
    have hsplit : l.countP (fun v => f v ≤ b) = (l.take k).countP (fun v => f v ≤ b) + 0 := by
      rw [← hcount, ← List.countP_append, List.take_append_drop]
    have htake := List.countP_le_length (p := fun v => decide (f v ≤ b)) (l := l.take k)
    rw [List.length_take] at htake
    omega

/-! ## The rank walk

`walk` passes buckets until the counts that it has seen reach the rank. By induction on the list of
buckets, it stops in the bucket of the element that has this rank in the sorted list. -/

/-- Subtract each count from the rank and stop at the first bucket that brings it to zero or below;
otherwise the remaining rank. -/
def walk {ι : Type} : List (ι × ℤ) → ℚ → ι ⊕ ℚ
  | [], rank => .inr rank
  | (idx, c) :: rest, rank => if rank - c ≤ 0 then .inl idx else walk rest (rank - c)

theorem walk_append {ι : Type} (l l' : List (ι × ℤ)) (rank : ℚ) :
    walk (l ++ l') rank = match walk l rank with
      | .inl idx => .inl idx
      | .inr rest => walk l' rest := by
  induction l generalizing rank with
  | nil => rfl
  | cons e l ih =>
    simp only [List.cons_append, walk]
    split
    · rfl
    · exact ih _

theorem walk_map {ι κ : Type} (g : ι → κ) (l : List (ι × ℤ)) (rank : ℚ) :
    walk (l.map fun e => (g e.1, e.2)) rank = (walk l rank).map g id := by
  induction l generalizing rank with
  | nil => rfl
  | cons e l ih =>
    simp only [List.map_cons, walk]
    split
    · rfl
    · exact ih _

/-- On buckets in ascending order that together cover the rank, the walk stops at the bucket at which
the cumulative counts reach the rank. -/
theorem walk_eq_inl (l : List (β × ℤ)) (hsorted : l.Pairwise fun e e' => e.1 < e'.1)
    {rank : ℚ} (h0 : 0 < rank) (hcover : rank ≤ ((l.map Prod.snd).sum : ℤ)) :
    ∃ b, walk l rank = .inl b
      ∧ (((l.filter fun e => e.1 < b).map Prod.snd).sum : ℤ) < rank
      ∧ rank ≤ (((l.filter fun e => e.1 ≤ b).map Prod.snd).sum : ℤ) := by
  induction l generalizing rank with
  | nil => simp at hcover; exact absurd h0 (not_lt.mpr hcover)
  | cons e l ih =>
    obtain ⟨b₀, c⟩ := e
    have hhead : ∀ e ∈ l, b₀ < e.1 := (List.pairwise_cons.mp hsorted).1
    have hnone : ∀ b, b ≤ b₀ → l.filter (fun e => e.1 < b) = [] ∧ l.filter (fun e => e.1 ≤ b) = [] := by
      intro b hb
      exact ⟨List.filter_eq_nil_iff.mpr fun e he => by simpa using (hb.trans (hhead e he).le),
        List.filter_eq_nil_iff.mpr fun e he => by simpa using lt_of_le_of_lt hb (hhead e he)⟩
    by_cases hstop : rank - c ≤ 0
    · -- the walk stops at the head: nothing lies below it
      refine ⟨b₀, by simp [walk, hstop], ?_, ?_⟩
      · simpa [(hnone b₀ le_rfl).1] using h0
      · simpa [(hnone b₀ le_rfl).2] using hstop
    · -- it goes on with the rank lowered by the head's count, which lies below every later bucket
      have hcover' : rank - c ≤ ((l.map Prod.snd).sum : ℤ) := by
        rw [List.map_cons, List.sum_cons, Int.cast_add] at hcover
        linarith
      obtain ⟨b, hwalk, hlt, hle⟩ := ih (List.pairwise_cons.mp hsorted).2
        (not_le.mp hstop) hcover'
      have hb : b₀ < b := by
        by_contra hnot
        rw [(hnone b (not_lt.mp hnot)).2] at hle
        simp at hle
        exact hstop (by linarith)
      refine ⟨b, by simp [walk, hstop, hwalk], ?_, ?_⟩
      · simp only [List.filter_cons, hb, decide_true, if_true, List.map_cons, List.sum_cons,
          Int.cast_add]
        linarith
      · simp only [List.filter_cons, hb.le, decide_true, if_true, List.map_cons, List.sum_cons,
          Int.cast_add]
        linarith

end OrderStatistics
