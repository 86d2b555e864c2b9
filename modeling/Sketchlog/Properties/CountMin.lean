import Sketchlog.Lib.History
import Sketchlog.Refine.CppStreamLog

/-!
# Count-Min never underestimates

A cell of the table is the total count of the added keys that fall into its column, whatever was added
and merged (`table_ofHistory`). So an estimate is the least, over the rows, of the counts of all the
keys that share the queried key's column; it is at least the key's own count and at most the total.
-/

namespace Sketchlog

open Imperative History

/-! ## The counts of a history

Each cell holds the weight of the items that share its column. So a cell is at least the count of an
item in it, and at most the total. -/

section Histories

variable {K : Type}

/-- The total count of the keys that satisfy `p`. -/
def weight (p : K → Prop) [DecidablePred p] (h : List (K × ℤ)) : ℤ :=
  ((h.filter fun e => p e.1).map Prod.snd).sum

variable (p q : K → Prop) [DecidablePred p] [DecidablePred q]

@[simp] theorem weight_nil : weight p [] = 0 := rfl

theorem weight_cons (e : K × ℤ) (h : List (K × ℤ)) :
    weight p (e :: h) = (if p e.1 then e.2 else 0) + weight p h := by
  unfold weight
  rw [List.filter_cons]
  by_cases he : p e.1
  · simp [he]
  · simp [he]

variable {p q}

/-- A weaker condition on the keys counts more. -/
theorem weight_mono (hpq : ∀ k, p k → q k) {h : List (K × ℤ)} (hpos : ∀ e ∈ h, 0 ≤ e.2) :
    weight p h ≤ weight q h := by
  induction h with
  | nil => exact le_rfl
  | cons e h ih =>
    have he : 0 ≤ e.2 := hpos e List.mem_cons_self
    have htail := ih fun x hx => hpos x (List.mem_cons_of_mem e hx)
    rw [weight_cons, weight_cons]
    by_cases hp : p e.1
    · rw [if_pos hp, if_pos (hpq _ hp)]
      omega
    · rw [if_neg hp]
      split <;> omega

namespace EventCounts

variable {width depth : ℕ} (col : K → Fin depth → Fin width)

/-- The content of a sketch that was given the keys of a history. -/
def ofHistory (h : List (K × ℤ)) : EventCounts width depth :=
  (h.map fun e => single (col e.1) e.2.toNat).sum

theorem ofHistory_cons (e : K × ℤ) (h : List (K × ℤ)) :
    ofHistory col (e :: h) = single (col e.1) e.2.toNat + ofHistory col h := by
  rw [ofHistory, List.map_cons, List.sum_cons]
  rfl

/-- **A cell counts the keys of its column.** -/
theorem table_ofHistory {h : List (K × ℤ)} (hpos : ∀ e ∈ h, 0 ≤ e.2) (r : Fin depth) (j : Fin width) :
    ((ofHistory col h).table r j : ℤ) = weight (fun k => col k r = j) h := by
  induction h with
  | nil => rfl
  | cons e h ih =>
    have he : ((e.2.toNat : ℕ) : ℤ) = e.2 := Int.toNat_of_nonneg (hpos e List.mem_cons_self)
    have hcell : ((single (col e.1) e.2.toNat).table r j : ℤ) = if col e.1 r = j then e.2 else 0 := by
      show (((if j = col e.1 r then e.2.toNat else 0) : ℕ) : ℤ) = _
      simp only [eq_comm (a := j)]
      split
      · exact he
      · rfl
    rw [ofHistory_cons, weight_cons, add_table, Pi.add_apply, Pi.add_apply, Nat.cast_add, hcell,
      ih fun x hx => hpos x (List.mem_cons_of_mem e hx)]

theorem total_ofHistory {h : List (K × ℤ)} (hpos : ∀ e ∈ h, 0 ≤ e.2) :
    ((ofHistory col h).total : ℤ) = weight (fun _ => True) h := by
  induction h with
  | nil => rfl
  | cons e h ih =>
    have he : ((e.2.toNat : ℕ) : ℤ) = e.2 := Int.toNat_of_nonneg (hpos e List.mem_cons_self)
    rw [ofHistory_cons, weight_cons, add_total, single_total, Nat.cast_add, he,
      ih fun x hx => hpos x (List.mem_cons_of_mem e hx), if_pos trivial]

end EventCounts

end Histories

/-- What an estimate `n` of the key `k` says of the history of a sketch with the total `total`, when a
key falls into column `col k r` of row `r`. -/
structure Estimates {K : Type} [DecidableEq K] {width depth : ℕ} (hd : 0 < depth)
    (col : K → Fin depth → Fin width) (h : List (K × ℤ)) (total n : ℤ) (k : K) : Prop where
  le : weight (· = k) h ≤ n
  le_total : n ≤ total
  eq : n = Finset.univ.inf' ⟨⟨0, hd⟩, Finset.mem_univ _⟩ fun r =>
    weight (fun k' => col k' r = col k r) h

/-- The estimate of a sketch with a history. -/
theorem EventCounts.estimates {K : Type} [DecidableEq K] {width depth : ℕ} (hd : 0 < depth)
    (col : K → Fin depth → Fin width) {h : List (K × ℤ)} (hpos : ∀ e ∈ h, 0 ≤ e.2) (k : K) :
    Estimates hd col h (ofHistory col h).total ((ofHistory col h).estimate hd (col k)) k := by
  have hne : (Finset.univ : Finset (Fin depth)).Nonempty := ⟨⟨0, hd⟩, Finset.mem_univ _⟩
  have hrow : (((ofHistory col h).estimate hd (col k) : ℕ) : ℤ)
      = Finset.univ.inf' hne fun r => weight (fun k' => col k' r = col k r) h := by
    rw [estimate, Finset.apply_inf'_eq_inf'_comp hne (Nat.cast : ℕ → ℤ) fun x y => Nat.cast_min x y]
    refine Finset.inf'_congr hne rfl fun r _ => ?_
    exact table_ofHistory col hpos r (col k r)
  refine ⟨?_, ?_, hrow⟩
  · rw [hrow]
    refine Finset.le_inf' hne _ fun r _ => ?_
    exact weight_mono (fun k' hk => congrArg (col · r) hk) hpos
  · have hle := (Finset.inf'_le (fun r => (ofHistory col h).table r (col k r))
      (Finset.mem_univ ⟨0, hd⟩)).trans ((ofHistory col h).table_le_total _ _)
    exact_mod_cast hle

/-! ## The Python sketch

A history of additions and merges determines the table. -/

namespace StreamLog

/-- The CountMinSketch part of `merge`: its check, the new table and its commit. -/
def mergeEvents (self other : CountMinSketch) : Except PyError CountMinSketch := do
  Checked.failIf (self.total > maxInt64 - other.total)
    (.overflowError "CountMinSketch: total_count overflow")
  let newTable ← mergeTable self.table other.table
  .ok { self with table := newTable, total := self.total + other.total }

theorem mergeEvents_ofCounts {width depth : ℕ} (a b : EventCounts width depth) {s : CountMinSketch}
    (h : mergeEvents (.ofCounts a) (.ofCounts b) = .ok s) : s = .ofCounts (a + b) := by
  simp only [mergeEvents, Checked.bind_eq_ok, Checked.failIf_eq_ok, Checked.exists_unit] at h
  obtain ⟨hroom, t, ht, hs⟩ := h
  have hroom' : ¬ (a.total : ℤ) > maxInt64 - b.total := hroom
  rw [mergeTable_ofCounts a b (by omega)] at ht
  cases ht
  cases hs
  show (⟨width, depth, _, (a.total : ℤ) + b.total⟩ : CountMinSketch) = ⟨width, depth, _, _⟩
  rw [EventCounts.add_total, Nat.cast_add]
  rfl

end StreamLog

namespace CountMinSketch

/-- The sketches built by accepted adds and merges, with the keys and counts added. -/
def History (width depth : ℕ) : CountMinSketch → List (EventKey × ℤ) → Prop :=
  Built (empty width depth) (fun s e s' => (add e.1 e.2).run s = .ok () s')
    fun s o s' => StreamLog.mergeEvents s o = .ok s'

variable {width depth : ℕ} {s : CountMinSketch} {h : List (EventKey × ℤ)}

/-- A sketch holds the counts of its history. -/
theorem History.eq (hw : 0 < width) (hb : History width depth s h) :
    (∀ e ∈ h, 0 < e.2)
      ∧ s = ofCounts (EventCounts.ofHistory (fun k => column width depth hw (keyOf k)) h) := by
  refine Built.sum (R := fun s a => s = ofCounts a) (P := fun e : EventKey × ℤ => 0 < e.2)
    (fun e => EventCounts.single (column width depth hw (keyOf e.1)) e.2.toNat) ofCounts_zero.symm
    ?_ ?_ hb
  · rintro _ a e s' rfl he
    obtain ⟨⟨hpos, -⟩, hs'⟩ := (add_guarded hw a e.1 e.2).of_run_ok he
    exact ⟨hpos, hs'⟩
  · rintro _ _ s' a b rfl rfl hm
    exact StreamLog.mergeEvents_ofCounts a b hm

end CountMinSketch

/-! ## The C++ sketch -/

namespace Cpp.CountMinSketch

/-- `add`, by the overload that takes the key. -/
def addKey (key : EventKey) (count : ℤ) : EStateM PyError CountMinSketch Unit :=
  match key with
  | .str s => addBytes (utf8 s) count
  | .bytes b => addBytes b count
  | .int n => add (UInt64.ofNat n.toNat) count

/-- `estimate`, by the overload that takes the key. -/
def estimateKey (self : CountMinSketch) (key : EventKey) : ℤ :=
  match key with
  | .str s => self.estimateBytes (utf8 s)
  | .bytes b => self.estimateBytes b
  | .int n => self.estimate (UInt64.ofNat n.toNat)

theorem addKey_eq (key : EventKey) (count : ℤ) :
    addKey key count = add (StreamLog.keyOf key) count := by
  cases key <;> rfl

theorem estimateKey_eq (self : CountMinSketch) (key : EventKey) :
    self.estimateKey key = self.estimate (StreamLog.keyOf key) := by
  cases key <;> rfl

/-- The sketches built by accepted adds and merges, with the keys and counts added. An int key is a
`uint64_t`. -/
def History (width depth : ℕ) : CountMinSketch → List (EventKey × ℤ) → Prop :=
  Built (empty width depth)
    (fun s e s' => ¬ Sketchlog.StreamLog.keyOutOfRange e.1 ∧ (addKey e.1 e.2).run s = .ok () s')
    fun s o s' => (merge o).run s = .ok () s'

variable {width depth : ℕ} {s : CountMinSketch} {h : List (EventKey × ℤ)}

/-- A sketch holds the counts of its history, which a 63-bit total can hold. -/
theorem History.eq (hw : 0 < width) (hb : History width depth s h) :
    (∀ e ∈ h, 0 < e.2)
      ∧ s = ofCounts (EventCounts.ofHistory (fun k => column width depth hw (StreamLog.keyOf k)) h)
      ∧ (EventCounts.ofHistory (fun k => column width depth hw (StreamLog.keyOf k)) h).total
        ≤ maxInt64 := by
  refine Built.sum (R := fun s a => s = ofCounts a ∧ a.total ≤ maxInt64)
    (P := fun e : EventKey × ℤ => 0 < e.2)
    (fun e => EventCounts.single (column width depth hw (StreamLog.keyOf e.1)) e.2.toNat)
    ⟨ofCounts_zero.symm, Nat.zero_le _⟩ ?_ ?_ hb
  · rintro _ a e s' ⟨rfl, ha⟩ ⟨-, he⟩
    rw [addKey_eq] at he
    obtain ⟨⟨hpos, hle⟩, hs'⟩ := (add_guarded hw a ha _ e.2).of_run_ok he
    refine ⟨hpos, hs', ?_⟩
    rw [EventCounts.add_total, EventCounts.single_total]
    omega
  · rintro _ _ s' a b ⟨rfl, ha⟩ ⟨rfl, -⟩ hm
    obtain ⟨hle, hs'⟩ := (merge_guarded a b ha).of_run_ok hm
    exact ⟨hs', hle⟩

end Cpp.CountMinSketch

/-- **Count-Min never underestimates and is bounded.** The estimate of every key, in every sketch built
by adds and merges, in the Python backend and in the C++ backend. -/
theorem count_min_bounds (width depth : ℕ) (hw : 0 < width) (hd : 0 < depth) :
    (∀ s h, CountMinSketch.History width depth s h → ∀ k, ∃ n, s.estimate k = .ok n
        ∧ Estimates hd (fun k => CountMinSketch.column width depth hw (CountMinSketch.keyOf k)) h
          s.total
          n k)
      ∧ ∀ s h, Cpp.CountMinSketch.History width depth s h → ∀ k,
        Estimates hd
          (fun k => Cpp.CountMinSketch.column width depth hw (Cpp.StreamLog.keyOf k)) h s.totalCount
          (s.estimateKey k) k := by
  constructor
  · intro s h hb k
    obtain ⟨hpos, rfl⟩ := hb.eq hw
    exact ⟨_, CountMinSketch.estimate_ofCounts hw hd _ k, EventCounts.estimates hd _ (fun e he =>
      (hpos e he).le) k⟩
  · intro s h hb k
    obtain ⟨hpos, rfl, hle⟩ := hb.eq hw
    rw [Cpp.CountMinSketch.estimateKey_eq, Cpp.CountMinSketch.estimate_ofCounts hw hd _ hle]
    exact EventCounts.estimates hd _ (fun e he => (hpos e he).le) k

/-! ## Colliding keys and a merge

In two rows of two cells the keys 1 and 3 share both columns, and 0 shares one of them. Seven
occurrences of 1 are counted in two sketches, which are merged; the estimate is 12. -/

/-- The keys of the first sketch, then those of the second. -/
def collidingKeys : List (EventKey × ℤ) := [(.int 1, 4), (.int 0, 2), (.int 3, 5), (.int 1, 3)]

theorem CountMinSketch.history_colliding :
    History 2 2 ⟨2, 2, [[2, 12], [0, 14]], 14⟩ collidingKeys := by
  have hone : (add (.int 1) 4).run (.empty 2 2) = .ok () ⟨2, 2, [[0, 4], [0, 4]], 4⟩ := rfl
  have hzero : (add (.int 0) 2).run ⟨2, 2, [[0, 4], [0, 4]], 4⟩
      = .ok () ⟨2, 2, [[2, 4], [0, 6]], 6⟩ := rfl
  have hthree : (add (.int 3) 5).run (.empty 2 2) = .ok () ⟨2, 2, [[0, 5], [0, 5]], 5⟩ := rfl
  have hagain : (add (.int 1) 3).run ⟨2, 2, [[0, 5], [0, 5]], 5⟩
      = .ok () ⟨2, 2, [[0, 8], [0, 8]], 8⟩ := rfl
  exact .merge (.add (e := (EventKey.int 0, 2)) (.add (e := (EventKey.int 1, 4)) .start hone) hzero)
    (.add (e := (EventKey.int 1, 3)) (.add (e := (EventKey.int 3, 5)) .start hthree) hagain) rfl

theorem Cpp.CountMinSketch.history_colliding :
    History 2 2 ⟨2, 2, 14, [2, 12, 0, 14]⟩ collidingKeys := by
  have hone : (addKey (.int 1) 4).run (.empty 2 2) = .ok () ⟨2, 2, 4, [0, 4, 0, 4]⟩ := rfl
  have hzero : (addKey (.int 0) 2).run ⟨2, 2, 4, [0, 4, 0, 4]⟩
      = .ok () ⟨2, 2, 6, [2, 4, 0, 6]⟩ := rfl
  have hthree : (addKey (.int 3) 5).run (.empty 2 2) = .ok () ⟨2, 2, 5, [0, 5, 0, 5]⟩ := rfl
  have hagain : (addKey (.int 1) 3).run ⟨2, 2, 5, [0, 5, 0, 5]⟩
      = .ok () ⟨2, 2, 8, [0, 8, 0, 8]⟩ := rfl
  exact .merge
    (.add (e := (EventKey.int 0, 2)) (.add (e := (EventKey.int 1, 4)) .start ⟨by decide, hone⟩)
      ⟨by decide, hzero⟩)
    (.add (e := (EventKey.int 1, 3)) (.add (e := (EventKey.int 3, 5)) .start ⟨by decide, hthree⟩)
      ⟨by decide, hagain⟩) rfl

theorem count_min_bounds_colliding : weight (· = .int 1) collidingKeys = 7
    ∧ (∃ s n, CountMinSketch.History 2 2 s collidingKeys ∧ s.estimate (.int 1) = .ok n
      ∧ n = 12 ∧ weight (· = .int 1) collidingKeys ≤ n ∧ n ≤ s.total)
    ∧ ∃ s, Cpp.CountMinSketch.History 2 2 s collidingKeys ∧ s.estimateKey (.int 1) = 12
      ∧ weight (· = .int 1) collidingKeys ≤ s.estimateKey (.int 1)
      ∧ s.estimateKey (.int 1) ≤ s.totalCount := by
  obtain ⟨hpython, hcpp⟩ := count_min_bounds 2 2 (by decide) (by decide)
  obtain ⟨n, hn, hest⟩ := hpython _ _ CountMinSketch.history_colliding (.int 1)
  have hest' := hcpp _ _ Cpp.CountMinSketch.history_colliding (.int 1)
  have htwelve : n = 12 := (Except.ok.inj hn).symm
  exact ⟨by decide,
    ⟨_, n, CountMinSketch.history_colliding, hn, htwelve, hest.le, hest.le_total⟩,
    _, Cpp.CountMinSketch.history_colliding, rfl, hest'.le, hest'.le_total⟩

end Sketchlog
