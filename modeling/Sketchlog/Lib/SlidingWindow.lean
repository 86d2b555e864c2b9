import Mathlib

/-!
# A window of time over a ring of buckets

Events are recorded in the current one of `n` buckets, each of which covers a duration `d`. When the
time of the current bucket is over, the next one is emptied and takes its place; when a whole round
has gone by, all are emptied. Next to the buckets there is a cached sum of those that have started
at most `w` ago, which is summed up again when the ring has moved on, or when one of the buckets in
it may have become too old.

Two things hold of it. The cache is the sum of the buckets that are live (`Coherent`). And it counts
each event that was recorded at most `w - d` ago once, and none from longer than `w` ago
(`Window.retention`).
-/

namespace SlidingWindow

/-- A window: what each bucket has recorded since it was emptied last, when it has started, and the
cache. `history` is all that was recorded. -/
structure Window (α C : Type*) (n : ℕ) where
  events : Fin n → Multiset (ℤ × α)
  starts : Fin n → ℤ
  current : Fin n
  cached : C
  /-- When the cache may be too old; `none` is never. -/
  expires : Option ℤ
  history : Multiset (ℤ × α)

/-- The earlier of two expiries. -/
def earlier (expires : Option ℤ) (e : ℤ) : Option ℤ :=
  match expires with
  | none => some e
  | some a => if e < a then some e else some a

/-- A cache is too old. -/
def expired (expires : Option ℤ) (now : ℤ) : Bool :=
  match expires with
  | none => false
  | some e => decide (e < now)

namespace Window

variable {α C : Type*} {n : ℕ} [NeZero n] [AddCommMonoid C] (val : α → C) (w d : ℤ)

/-- What events are worth together. -/
def value (events : Multiset (ℤ × α)) : C := (events.map fun x => val x.2).sum

/-- What a bucket is worth. -/
def cell (v : Window α C n) (i : Fin n) : C := value val (v.events i)

/-- The buckets that have started at most `w` ago. -/
def live (v : Window α C n) (now : ℤ) : Finset (Fin n) :=
  Finset.univ.filter fun i => now - v.starts i ≤ w

/-! ## Operations

A ring of buckets with a cached sum over the live ones. `rotate` clears the ring after a long pause,
moves on bucket by bucket, and rebuilds the cache. -/

open Classical in
/-- When the first of the live buckets that are not empty becomes too old. -/
noncomputable def expiry (v : Window α C n) (now : ℤ) : Option ℤ :=
  (List.finRange n).foldl
    (fun acc i => if now - v.starts i ≤ w ∧ v.cell val i ≠ 0 then earlier acc (v.starts i + w)
      else acc) none

/-- The cache is summed up again. -/
noncomputable def rebuild (v : Window α C n) (now : ℤ) : Window α C n :=
  { v with cached := ∑ i ∈ v.live w now, v.cell val i, expires := v.expiry val w now }

/-- The next bucket is emptied and takes over. -/
def advance (v : Window α C n) : Window α C n :=
  { v with
    events := Function.update v.events (v.current + 1) 0
    starts := Function.update v.starts (v.current + 1) (v.starts v.current + d)
    current := v.current + 1 }

/-- All buckets are emptied. -/
def clear (v : Window α C n) (now : ℤ) : Window α C n :=
  { v with events := fun _ => 0, starts := fun _ => now }

/-- How many buckets have had their time. -/
def overdue (v : Window α C n) (now : ℤ) : ℕ := ((now - v.starts v.current) / d).toNat

/-- The cache is to be summed up again. -/
def stale (v : Window α C n) (now : ℤ) : Bool :=
  decide (d ≤ now - v.starts v.current) || expired v.expires now

/-- The ring is brought up to the time `now`. The cache is summed up at `now'`. -/
noncomputable def rotate (v : Window α C n) (now now' : ℤ) : Window α C n :=
  if n * d ≤ now - v.starts v.current then (v.clear now).rebuild val w now'
  else if v.stale d now then ((advance d)^[v.overdue d now] v).rebuild val w now'
  else v

/-- An event is recorded. -/
def record (v : Window α C n) (now : ℤ) (a : α) : Window α C n :=
  { v with
    events := Function.update v.events v.current (v.events v.current + {(now, a)})
    cached := v.cached + val a
    history := v.history + {(now, a)} }

/-- Everything is forgotten. -/
def reset (_v : Window α C n) (now : ℤ) : Window α C n := ⟨fun _ => 0, fun _ => now, 0, 0, none, 0⟩

/-! ## The cache

The cache is the sum over the buckets that are not expired. -/

/-- The cache is the sum of the buckets that are live at the time `asOf`, and no bucket in it
becomes too old before it is known to; the current bucket apart, whose time is over first. -/
structure Coherent (v : Window α C n) (asOf : ℤ) : Prop where
  cached : v.cached = ∑ i ∈ v.live w asOf, v.cell val i
  expires : ∀ i, i ≠ v.current → v.cell val i ≠ 0 → asOf - v.starts i ≤ w →
    ∃ e, v.expires = some e ∧ e ≤ v.starts i + w
  current_le : v.starts v.current ≤ asOf

variable {val w d} {v : Window α C n} {asOf now now' : ℤ}

omit [NeZero n] [AddCommMonoid C] in
@[simp] theorem mem_live {i : Fin n} : i ∈ v.live w now ↔ now - v.starts i ≤ w := by
  simp [live]

theorem le_earlier (acc : Option ℤ) (e : ℤ) :
    (∃ e', earlier acc e = some e' ∧ e' ≤ e)
      ∧ ∀ a b, acc = some a → a ≤ b → ∃ e', earlier acc e = some e' ∧ e' ≤ b := by
  cases acc with
  | none => exact ⟨⟨e, rfl, le_rfl⟩, fun a b h => by cases h⟩
  | some a =>
    unfold earlier
    by_cases hlt : e < a
    · simp only [if_pos hlt]
      refine ⟨⟨e, rfl, le_rfl⟩, fun a' b h hb => ?_⟩
      cases h
      exact ⟨e, rfl, hlt.le.trans hb⟩
    · simp only [if_neg hlt]
      refine ⟨⟨a, rfl, not_lt.mp hlt⟩, fun a' b h hb => ?_⟩
      cases h
      exact ⟨a, rfl, hb⟩

omit [NeZero n] in
/-- The expiry is not after that of any bucket that was looked at. -/
theorem foldl_earlier {P : Fin n → Prop} [DecidablePred P] (f : Fin n → ℤ) (l : List (Fin n))
    (acc : Option ℤ) :
    (∀ i ∈ l, P i → ∃ e, l.foldl (fun acc i => if P i then earlier acc (f i) else acc) acc = some e
      ∧ e ≤ f i)
      ∧ ∀ a b, acc = some a → a ≤ b →
        ∃ e, l.foldl (fun acc i => if P i then earlier acc (f i) else acc) acc = some e ∧ e ≤ b := by
  induction l generalizing acc with
  | nil => exact ⟨fun i hi => absurd hi List.not_mem_nil, fun a b h hb => ⟨a, h, hb⟩⟩
  | cons i l ih =>
    obtain ⟨hmem, hacc⟩ := ih (if P i then earlier acc (f i) else acc)
    obtain ⟨hself, hkeep⟩ := le_earlier acc (f i)
    rw [List.foldl_cons]
    refine ⟨fun j hj hP => ?_, fun a b h hb => ?_⟩
    · rcases List.mem_cons.mp hj with rfl | hj'
      · obtain ⟨e, he, hle⟩ := hself
        exact hacc e (f j) (by rw [if_pos hP, he]) hle
      · exact hmem j hj' hP
    · by_cases hP : P i
      · obtain ⟨e, he, hle⟩ := hkeep a b h hb
        exact hacc e b (by rw [if_pos hP, he]) hle
      · exact hacc a b (by rw [if_neg hP, h]) hb

omit [NeZero n] in
open Classical in
theorem expiry_le {i : Fin n} (hlive : now - v.starts i ≤ w) (hne : v.cell val i ≠ 0) :
    ∃ e, v.expiry val w now = some e ∧ e ≤ v.starts i + w :=
  (foldl_earlier (fun i => v.starts i + w) (List.finRange n) none).1 i (List.mem_finRange i)
    ⟨hlive, hne⟩

omit [NeZero n] in
/-- A cache that was just summed up is coherent. -/
theorem coherent_rebuild (h : v.starts v.current ≤ now) : (v.rebuild val w now).Coherent val w now where
  cached := rfl
  expires _ _ hne hlive := expiry_le hlive hne
  current_le := h

omit [NeZero n] in
/-- **Nothing to do.** A cache that is not stale is coherent at the later time as well. -/
theorem Coherent.of_not_stale (h : v.Coherent val w asOf) (hnow : asOf ≤ now) (hdw : d ≤ w)
    (hstale : v.stale d now = false) : v.Coherent val w now := by
  obtain ⟨hcurrent, hexpired⟩ := Bool.or_eq_false_iff.mp hstale
  have hage : now - v.starts v.current < d := not_le.mp (of_decide_eq_false hcurrent)
  -- a bucket in the cache that is not empty has not become too old
  have hstays : ∀ i, asOf - v.starts i ≤ w → v.cell val i ≠ 0 → now - v.starts i ≤ w := by
    intro i hlive hne
    by_cases hi : i = v.current
    · rw [hi]
      omega
    · obtain ⟨e, he, hle⟩ := h.expires i hi hne hlive
      rw [he] at hexpired
      have hnot : ¬ e < now := of_decide_eq_false hexpired
      omega
  refine ⟨?_, fun i hi hne hlive => h.expires i hi hne (by omega), h.current_le.trans hnow⟩
  rw [h.cached]
  refine (Finset.sum_subset (fun i hi => ?_) fun i hi hnot => ?_).symm
  · rw [mem_live] at hi ⊢
    omega
  · by_contra hne
    rw [mem_live] at hi
    exact hnot (mem_live.mpr (hstays i hi hne))

theorem coherent_reset (v : Window α C n) (now : ℤ) : (v.reset now).Coherent val w now where
  cached := (Finset.sum_eq_zero fun _ _ => rfl).symm
  expires _ _ hne := absurd rfl hne
  current_le := le_rfl

/-! ## Moving on

Each step starts the next bucket one duration later; after as many as are overdue the present bucket
covers the present time. -/

omit [AddCommMonoid C] in
theorem advance_starts_current : (v.advance d).starts (v.advance d).current = v.starts v.current + d :=
  Function.update_self _ _ _

omit [AddCommMonoid C] in
theorem iterate_advance_starts (k : ℕ) :
    ((advance d)^[k] v).starts ((advance d)^[k] v).current = v.starts v.current + k * d := by
  induction k generalizing v with
  | zero => simp
  | succ k ih =>
    rw [Function.iterate_succ_apply, ih, advance_starts_current]
    push_cast
    ring

omit [NeZero n] [AddCommMonoid C] in
/-- The buckets that are overdue take the time up to `now`. -/
theorem overdue_spec (hd : 0 < d) (hstart : v.starts v.current ≤ now) :
    v.starts v.current + v.overdue d now * d ≤ now ∧ now < v.starts v.current + v.overdue d now * d
      + d := by
  unfold overdue
  have hnonneg : 0 ≤ (now - v.starts v.current) / d := Int.ediv_nonneg (by omega) hd.le
  have hdiv := Int.ediv_mul_add_emod (now - v.starts v.current) d
  have hmod := Int.emod_nonneg (now - v.starts v.current) hd.ne'
  have hlt := Int.emod_lt_of_pos (now - v.starts v.current) hd
  rw [Int.toNat_of_nonneg hnonneg]
  constructor
  · linarith
  · linarith

/-- **Where the ring stands** after it was brought up to `now`: in the time of the current bucket. -/
theorem rotate_current (hd : 0 < d) (hstart : v.starts v.current ≤ now) :
    (v.rotate val w d now now').starts (v.rotate val w d now now').current ≤ now
      ∧ now < (v.rotate val w d now now').starts (v.rotate val w d now now').current + d := by
  unfold rotate
  split
  · exact ⟨le_rfl, by show now < now + d; omega⟩
  · split
    · have hspec := overdue_spec hd hstart
      show ((advance d)^[v.overdue d now] v).starts ((advance d)^[v.overdue d now] v).current ≤ now
        ∧ now < ((advance d)^[v.overdue d now] v).starts ((advance d)^[v.overdue d now] v).current + d
      rw [iterate_advance_starts]
      exact hspec
    · next hstale =>
      have hcurrent := (Bool.or_eq_false_iff.mp (Bool.eq_false_iff.mpr hstale)).1
      have hage : now - v.starts v.current < d := not_le.mp (of_decide_eq_false hcurrent)
      exact ⟨hstart, by omega⟩

omit [AddCommMonoid C] in
theorem iterate_advance_history (k : ℕ) : ((advance d)^[k] v).history = v.history := by
  induction k generalizing v with
  | zero => rfl
  | succ k ih =>
    rw [Function.iterate_succ_apply, ih]
    rfl

theorem rotate_history : (v.rotate val w d now now').history = v.history := by
  unfold rotate
  split
  · rfl
  · split
    · exact iterate_advance_history _
    · rfl

/-- When the cache was summed up last, or was found to be good. -/
def asOfRotate (v : Window α C n) (d now now' : ℤ) : ℤ := if v.stale d now then now' else now

omit [AddCommMonoid C] in
/-- A ring that was idle for a round is not up to date. -/
theorem stale_of_idle (hd : 0 < d) (hidle : n * d ≤ now - v.starts v.current) :
    v.stale d now = true := by
  have hn : (1 : ℤ) ≤ n := by exact_mod_cast Nat.one_le_iff_ne_zero.mpr (NeZero.ne n)
  have hle : d ≤ now - v.starts v.current := by nlinarith
  simp [stale, hle]

/-- A ring that is up to date is left as it is. -/
theorem rotate_eq_self (hd : 0 < d) (hstale : v.stale d now = false) :
    v.rotate val w d now now' = v := by
  have hbusy : ¬ n * d ≤ now - v.starts v.current := fun hidle => by
    rw [stale_of_idle hd hidle] at hstale
    cases hstale
  rw [rotate, if_neg hbusy, hstale]
  exact if_neg Bool.false_ne_true

/-- **Rotation keeps the cache coherent.** -/
theorem Coherent.rotate (h : v.Coherent val w asOf) (hd : 0 < d) (hdw : d ≤ w) (hnow : asOf ≤ now)
    (hnow' : now ≤ now') :
    (v.rotate val w d now now').Coherent val w (v.asOfRotate d now now') := by
  have hstart := h.current_le.trans hnow
  unfold asOfRotate
  by_cases hstale : v.stale d now = true
  · unfold Window.rotate
    rw [if_pos hstale, if_pos hstale]
    split
    · exact coherent_rebuild hnow'
    · apply coherent_rebuild
      rw [iterate_advance_starts]
      exact (overdue_spec hd hstart).1.trans hnow'
  · rw [if_neg hstale, rotate_eq_self hd (Bool.eq_false_iff.mpr hstale)]
    exact h.of_not_stale hnow hdw (Bool.eq_false_iff.mpr hstale)

omit [NeZero n] in
theorem cell_record (a : α) (i : Fin n) :
    (v.record val now a).cell val i = if i = v.current then v.cell val i + val a else v.cell val i := by
  unfold cell record value
  by_cases hi : i = v.current
  · rw [if_pos hi, hi]
    simp
  · rw [if_neg hi]
    simp [hi]

omit [NeZero n] in
/-- **Recording keeps the cache coherent**, while the current bucket is live. -/
theorem Coherent.record (h : v.Coherent val w asOf) (hlive : asOf - v.starts v.current ≤ w) (a : α) :
    (v.record val now a).Coherent val w asOf := by
  refine ⟨?_, fun i hi hne hlive' => ?_, h.current_le⟩
  · show v.cached + val a = ∑ i ∈ v.live w asOf, (v.record val now a).cell val i
    have hsum : ∑ i ∈ v.live w asOf, (v.record val now a).cell val i
        = ∑ i ∈ v.live w asOf, (v.cell val i + if i = v.current then val a else 0) := by
      refine Finset.sum_congr rfl fun i _ => ?_
      rw [cell_record]
      split
      · rfl
      · rw [add_zero]
    rw [hsum, Finset.sum_add_distrib, h.cached, Finset.sum_ite_eq', if_pos (mem_live.mpr hlive)]
  · have hi' : i ≠ v.current := hi
    rw [cell_record, if_neg hi'] at hne
    exact h.expires i hi' hne hlive'

/-! ## What moving on takes away -/

/-- Every bucket is as it was, or was emptied. -/
def Trimmed (v v' : Window α C n) : Prop :=
  ∀ i, v'.events i = 0 ∨ (v'.events i = v.events i ∧ v'.starts i = v.starts i)

section Trimmed

omit [AddCommMonoid C]

theorem trimmed_advance (v : Window α C n) : v.Trimmed (v.advance d) := by
  intro i
  by_cases hi : i = v.current + 1
  · rw [hi]
    exact .inl (Function.update_self _ _ _)
  · exact .inr ⟨Function.update_of_ne hi _ _, Function.update_of_ne hi _ _⟩

theorem trimmed_iterate_advance (v : Window α C n) (k : ℕ) : v.Trimmed ((advance d)^[k] v) := by
  induction k generalizing v with
  | zero => exact fun i => .inr ⟨rfl, rfl⟩
  | succ k ih =>
    intro i
    rw [Function.iterate_succ_apply]
    rcases ih (v.advance d) i with hempty | ⟨hevents, hstarts⟩
    · exact .inl hempty
    · rw [hevents, hstarts]
      exact trimmed_advance v i

omit [NeZero n] in
theorem trimmed_clear (v : Window α C n) (now : ℤ) : v.Trimmed (v.clear now) := fun _ => .inl rfl

end Trimmed

omit [NeZero n] in
/-- **What is live later is a part of the cache**: nothing has come to it. -/
theorem Coherent.live_part {v' : Window α C n} (h : v.Coherent val w asOf) (htrim : v.Trimmed v')
    (hnow : asOf ≤ now) :
    ∃ rest, ∑ i ∈ v'.live w now, v'.cell val i + rest = v.cached := by
  classical
  -- the live buckets that were not emptied
  let stays := (v'.live w now).filter fun i => v'.events i ≠ 0
  have hstays : ∀ i ∈ stays, v'.cell val i = v.cell val i ∧ i ∈ v.live w asOf := by
    intro i hi
    obtain ⟨hlive, hne⟩ := Finset.mem_filter.mp hi
    rcases htrim i with hempty | ⟨hevents, hstarts⟩
    · exact absurd hempty hne
    · rw [mem_live, hstarts] at hlive
      exact ⟨by rw [cell, hevents]; rfl, mem_live.mpr (by omega)⟩
  have hsum : ∑ i ∈ v'.live w now, v'.cell val i = ∑ i ∈ stays, v.cell val i := by
    rw [← Finset.sum_congr rfl fun i hi => (hstays i hi).1]
    apply (Finset.sum_filter_of_ne _).symm
    intro i _ hne hempty
    apply hne
    rw [cell, hempty]
    rfl
  refine ⟨∑ i ∈ v.live w asOf \ stays, v.cell val i, ?_⟩
  rw [hsum, h.cached, add_comm]
  exact Finset.sum_sdiff fun i hi => (hstays i hi).2

/-! ## Emptying bucket by bucket -/

section Loops

omit [NeZero n] [AddCommMonoid C]

/-- A bucket is emptied. -/
def empty (v : Window α C n) (i : Fin n) : Window α C n :=
  { v with events := Function.update v.events i 0 }

/-- A bucket is emptied, and starts. -/
def restart (now : ℤ) (v : Window α C n) (i : Fin n) : Window α C n :=
  { v.empty i with starts := Function.update v.starts i now }

theorem foldl_empty (l : List (Fin n)) (v : Window α C n) :
    l.foldl empty v = { v with events := fun i => if i ∈ l then 0 else v.events i } := by
  induction l generalizing v with
  | nil => simp
  | cons i l ih =>
    rw [List.foldl_cons, ih]
    unfold empty
    congr 1
    funext j
    by_cases hj : j = i
    · subst hj
      simp
    · simp [hj]

theorem foldl_restart (now : ℤ) (l : List (Fin n)) (v : Window α C n) :
    l.foldl (restart now) v = { v with
      events := fun i => if i ∈ l then 0 else v.events i
      starts := fun i => if i ∈ l then now else v.starts i } := by
  induction l generalizing v with
  | nil => simp
  | cons i l ih =>
    rw [List.foldl_cons, ih]
    unfold restart empty
    congr 1
    · funext j
      by_cases hj : j = i
      · subst hj
        simp
      · simp [hj]
    · funext j
      by_cases hj : j = i
      · subst hj
        simp
      · simp [hj]

theorem foldl_restart_finRange (v : Window α C n) (now : ℤ) :
    (List.finRange n).foldl (restart now) v = v.clear now := by
  rw [foldl_restart]
  simp [clear]

theorem foldl_empty_finRange (v : Window α C n) :
    (List.finRange n).foldl empty v = { v with events := fun _ => 0 } := by
  rw [foldl_empty]
  simp

end Loops

/-! ## What the buckets have kept

`Kept` relates the ring to the list of everything that was ever recorded: each bucket holds the
events of its own span. `retention` reads the two bounds off it. -/

/-- Each event is in the bucket of its time; a bucket that is not empty has started as long before
the current one as its distance in the ring says; and what is in no bucket any more is old. -/
structure Kept (w d : ℤ) (v : Window α C n) (asOf : ℤ) : Prop where
  inBucket : ∀ i, ∀ x ∈ v.events i, v.starts i ≤ x.1 ∧ x.1 < v.starts i + d
  distance : ∀ k : Fin n, v.events (v.current - k) ≠ 0 → v.starts (v.current - k) + k.val * d
    ≤ v.starts v.current
  dropped : ∃ dropped : Multiset (ℤ × α), v.history = ∑ i, v.events i + dropped ∧ ∀ x ∈ dropped,
    w - d < asOf - x.1

section Kept

omit [AddCommMonoid C]

omit [NeZero n] in
theorem Kept.mono (h : v.Kept w d asOf) (hnow : asOf ≤ now) : v.Kept w d now where
  inBucket := h.inBucket
  distance := h.distance
  dropped := by
    obtain ⟨dropped, hhistory, hold⟩ := h.dropped
    refine ⟨dropped, hhistory, fun x hx => ?_⟩
    have hx' := hold x hx
    omega

/-- A bucket that is not empty has not started after the current one. -/
theorem Kept.start_le (h : v.Kept w d asOf) (hd : 0 < d) {i : Fin n} (hne : v.events i ≠ 0) :
    v.starts i ≤ v.starts v.current := by
  have hdistance := h.distance (v.current - i) (by rwa [sub_sub_cancel])
  rw [sub_sub_cancel] at hdistance
  have hnonneg : 0 ≤ ((v.current - i).val : ℤ) * d := by positivity
  omega

/-- The next bucket is the one that has started first. -/
theorem Kept.start_next (h : v.Kept w d asOf) (hne : v.events (v.current + 1) ≠ 0) :
    v.starts (v.current + 1) + (n - 1) * d ≤ v.starts v.current := by
  have hnext : v.current - (-1) = v.current + 1 := sub_neg_eq_add _ _
  have hval : ((-1 : Fin n).val : ℤ) = n - 1 := by
    obtain ⟨m, rfl⟩ := Nat.exists_eq_succ_of_ne_zero (NeZero.ne n)
    rw [Fin.coe_neg_one]
    push_cast
    ring
  have hdistance := h.distance (-1) (by rwa [hnext])
  rwa [hnext, hval] at hdistance

/-- **The ring moves on by one bucket** whose time is over; what it drops is old. -/
theorem Kept.advance (h : v.Kept w d now) (hw : w ≤ n * d) (htime : v.starts v.current + d ≤ now) :
    (v.advance d).Kept w d now where
  inBucket := by
    intro i x hx
    by_cases hi : i = v.current + 1
    · rw [hi] at hx
      have hempty : (v.advance d).events (v.current + 1) = 0 := Function.update_self _ _ _
      rw [hempty] at hx
      exact absurd hx (Multiset.notMem_zero x)
    · have hevents : (v.advance d).events i = v.events i := Function.update_of_ne hi _ _
      have hstarts : (v.advance d).starts i = v.starts i := Function.update_of_ne hi _ _
      rw [hevents] at hx
      rw [hstarts]
      exact h.inBucket i x hx
  distance := by
    intro k hne
    rw [advance_starts_current]
    by_cases hk : k = 0
    · rw [hk] at hne
      have hempty : (v.advance d).events (v.current + 1 - 0) = 0 := by
        rw [sub_zero]
        exact Function.update_self _ _ _
      exact absurd hempty hne
    · -- the bucket was one step nearer before
      have hindex : v.current + 1 - k = v.current - (k - 1) := by abel
      have hother : v.current + 1 - k ≠ v.current + 1 := fun heq => hk (by simpa using heq)
      have hevents : (v.advance d).events (v.current + 1 - k) = v.events (v.current + 1 - k) :=
        Function.update_of_ne hother _ _
      have hstarts : (v.advance d).starts (v.current + 1 - k) = v.starts (v.current + 1 - k) :=
        Function.update_of_ne hother _ _
      have hne' : v.events (v.current - (k - 1)) ≠ 0 := by
        rw [← hindex, ← hevents]
        exact hne
      have hdistance := h.distance (k - 1) hne'
      have hval : ((k - 1).val : ℤ) = k.val - 1 := by
        rw [Fin.val_sub_one_of_ne_zero hk]
        have hpos : 0 < k.val := Nat.pos_of_ne_zero fun h0 => hk (Fin.ext h0)
        omega
      show (v.advance d).starts (v.current + 1 - k) + k.val * d ≤ _
      rw [hstarts, hindex]
      rw [hval] at hdistance
      linarith
  dropped := by
    obtain ⟨dropped, hhistory, hold⟩ := h.dropped
    refine ⟨dropped + v.events (v.current + 1), ?_, fun x hx => ?_⟩
    · show v.history = ∑ i, Function.update v.events (v.current + 1) 0 i
        + (dropped + v.events (v.current + 1))
      rw [hhistory, Finset.sum_update_of_mem (Finset.mem_univ _), zero_add,
        ← Finset.sum_sdiff (Finset.singleton_subset_iff.mpr (Finset.mem_univ (v.current + 1))),
          Finset.sum_singleton]
      abel
    · rcases Multiset.mem_add.mp hx with hx | hx
      · exact hold x hx
      · have hne : v.events (v.current + 1) ≠ 0 := fun h0 => Multiset.notMem_zero x (h0 ▸ hx)
        have hnext := h.start_next hne
        have htop := (h.inBucket _ x hx).2
        linarith

theorem Kept.iterate_advance (h : v.Kept w d now) (hd : 0 ≤ d) (hw : w ≤ n * d) (k : ℕ)
    (htime : v.starts v.current + k * d ≤ now) : ((Window.advance d)^[k] v).Kept w d now := by
  induction k generalizing v with
  | zero => exact h
  | succ k ih =>
    push_cast at htime
    have hk : (0 : ℤ) ≤ k * d := by positivity
    rw [Function.iterate_succ_apply]
    apply ih (h.advance hw (by linarith))
    rw [advance_starts_current]
    linarith

/-- **All buckets are emptied** after a whole round; all they had is old. -/
theorem Kept.clear (h : v.Kept w d now) (hd : 0 < d) (hw : w ≤ n * d)
    (hidle : n * d ≤ now - v.starts v.current) :
    (v.clear now).Kept w d now where
  inBucket := fun i x hx => absurd hx (Multiset.notMem_zero x)
  distance := fun k hne => absurd rfl hne
  dropped := by
    obtain ⟨dropped, hhistory, hold⟩ := h.dropped
    refine ⟨∑ i, v.events i + dropped, ?_, fun x hx => ?_⟩
    · show v.history = ∑ _i : Fin n, (0 : Multiset (ℤ × α)) + _
      rw [Finset.sum_const_zero, zero_add, hhistory]
    · rcases Multiset.mem_add.mp hx with hx | hx
      · obtain ⟨i, -, hi⟩ := Multiset.mem_sum.mp hx
        have hne : v.events i ≠ 0 := fun h0 => Multiset.notMem_zero x (h0 ▸ hi)
        have hstart := h.start_le hd hne
        have htop := (h.inBucket i x hi).2
        linarith
      · exact hold x hx

end Kept

omit [NeZero n] [AddCommMonoid C] in
theorem Kept.of_eq {v' : Window α C n} (h : v.Kept w d now) (hevents : v'.events = v.events)
    (hstarts : v'.starts = v.starts) (hcurrent : v'.current = v.current)
    (hhistory : v'.history = v.history) :
    v'.Kept w d now := by
  obtain ⟨hinBucket, hdistance, hdropped⟩ := h
  constructor
  · rwa [hevents, hstarts]
  · rwa [hevents, hstarts, hcurrent]
  · rwa [hevents, hhistory]

/-- **Rotation keeps what is not old.** -/
theorem Kept.rotate (h : v.Kept w d asOf) (hd : 0 < d) (hw : w ≤ n * d)
    (hstart : v.starts v.current ≤ now)
    (hnow : asOf ≤ now) : (v.rotate val w d now now').Kept w d now := by
  have hkept := h.mono hnow
  unfold Window.rotate
  split
  · next hidle => exact (hkept.clear hd hw hidle).of_eq rfl rfl rfl rfl
  · split
    · exact (hkept.iterate_advance hd.le hw _ (overdue_spec hd hstart).1).of_eq rfl rfl rfl rfl
    · exact hkept

/-- **Recording** puts an event into the bucket of its time. -/
theorem Kept.record (h : v.Kept w d now) (hlow : v.starts v.current ≤ now)
    (hhigh : now < v.starts v.current + d) (a : α) :
    (v.record val now a).Kept w d now where
  inBucket := by
    intro i x hx
    -- the present bucket takes the event, which lies within its span; the others are as before
    by_cases hi : i = v.current
    · have hevents : (v.record val now a).events i = v.events v.current + {(now, a)} := by
        rw [hi]
        exact Function.update_self _ _ _
      rw [hevents] at hx
      rcases Multiset.mem_add.mp hx with hx | hx
      · rw [hi]
        exact h.inBucket v.current x hx
      · rw [Multiset.mem_singleton.mp hx, hi]
        exact ⟨hlow, hhigh⟩
    · have hevents : (v.record val now a).events i = v.events i := Function.update_of_ne hi _ _
      rw [hevents] at hx
      exact h.inBucket i x hx
  distance := by
    intro k hne
    -- the present bucket is at distance zero from itself
    by_cases hk : k = 0
    · rw [hk]
      simp [Window.record]
    · have hother : v.current - k ≠ v.current := fun heq => hk (by simpa using heq)
      have hevents : (v.record val now a).events (v.current - k) = v.events (v.current - k) :=
        Function.update_of_ne hother _ _
      exact h.distance k (hevents ▸ hne)
  dropped := by
    obtain ⟨dropped, hhistory, hold⟩ := h.dropped
    refine ⟨dropped, ?_, hold⟩
    show v.history + {(now, a)} = ∑ i, Function.update v.events v.current
      (v.events v.current + {(now, a)}) i + dropped
    -- the sum over the buckets grows by the one event
    rw [hhistory, Finset.sum_update_of_mem (Finset.mem_univ _),
      ← Finset.sum_sdiff (Finset.singleton_subset_iff.mpr (Finset.mem_univ v.current)),
        Finset.sum_singleton]
    abel

theorem stale_reset (v : Window α C n) (hd : 0 < d) (now : ℤ) : (v.reset now).stale d now = false := by
  have hlt : ¬ d ≤ now - now := by omega
  show (decide (d ≤ now - now) || false) = false
  rw [decide_eq_false hlt]
  rfl

theorem kept_reset (v : Window α C n) (now : ℤ) : (v.reset now).Kept w d now where
  inBucket := fun i x hx => absurd hx (Multiset.notMem_zero x)
  distance := fun k hne => absurd rfl hne
  dropped := by
    refine ⟨0, ?_, fun x hx => absurd hx (Multiset.notMem_zero x)⟩
    show (0 : Multiset (ℤ × α)) = ∑ _i : Fin n, (0 : Multiset (ℤ × α)) + 0
    rw [Finset.sum_const_zero, zero_add]

/-- The events in live buckets. -/
def kept (w : ℤ) (v : Window α C n) (now : ℤ) : Multiset (ℤ × α) := ∑ i ∈ v.live w now, v.events i

omit [NeZero n] in
theorem value_sum (s : Finset (Fin n)) (f : Fin n → Multiset (ℤ × α)) :
    value val (∑ i ∈ s, f i) = ∑ i ∈ s, value val (f i) := by
  induction s using Finset.cons_induction with
  | empty => rfl
  | cons i s hi ih =>
      rw [Finset.sum_cons, Finset.sum_cons, ← ih, value, Multiset.map_add, Multiset.sum_add]; rfl

omit [NeZero n] in
/-- **Retention.** The cache counts part of what was recorded, each event once: all that was
recorded at most `w - d` ago, and nothing from longer than `w` ago. -/
theorem retention (h : v.Kept w d now) (hcoherent : v.Coherent val w now) :
    v.cached = value val (v.kept w now)
      ∧ v.kept w now ≤ v.history
      ∧ v.history.filter (fun x => now - x.1 ≤ w - d) ≤ v.kept w now
      ∧ ∀ x ∈ v.kept w now, now - x.1 ≤ w := by
  obtain ⟨dropped, hhistory, hold⟩ := h.dropped
  have hsplit : ∑ i, v.events i = v.kept w now + ∑ i ∈ Finset.univ \ v.live w now, v.events i := by
    rw [kept, add_comm, Finset.sum_sdiff (Finset.subset_univ _)]
  refine ⟨?_, ?_, ?_, fun x hx => ?_⟩
  · rw [hcoherent.cached, kept, value_sum]
    rfl
  · rw [hhistory, hsplit, add_assoc]
    exact Multiset.le_add_right _ _
  · -- what is dropped, or in a bucket that is not live, was recorded longer ago
    have hdropped : dropped.filter (fun x => now - x.1 ≤ w - d) = 0 :=
      Multiset.filter_eq_nil.mpr fun x hx => by
        have hx' := hold x hx
        omega
    have hrest : (∑ i ∈ Finset.univ \ v.live w now, v.events i).filter (fun x => now - x.1 ≤ w - d)
      = 0 := by
      refine Multiset.filter_eq_nil.mpr fun x hx hrecent => ?_
      obtain ⟨i, hi, hmem⟩ := Multiset.mem_sum.mp hx
      have htop := (h.inBucket i x hmem).2
      have hnot : ¬ now - v.starts i ≤ w := fun hlive => (Finset.mem_sdiff.mp hi).2 (mem_live.mpr hlive)
      omega
    rw [hhistory, hsplit, Multiset.filter_add, Multiset.filter_add, hdropped, hrest, add_zero, add_zero]
    exact Multiset.filter_le _ _
  · obtain ⟨i, hi, hmem⟩ := Multiset.mem_sum.mp hx
    have hlow := (h.inBucket i x hmem).1
    have hlive := mem_live.mp hi
    omega

end Window

end SlidingWindow
