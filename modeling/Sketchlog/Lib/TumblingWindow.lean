import Mathlib.Algebra.Order.Ring.Int
import Mathlib.Tactic.Linarith
import Mathlib.Tactic.Ring

/-!
# Two windows of time, side by side

Events are recorded in the current window; the window before it is kept as it was. Nothing happens
when a window ends: the next check of the clock moves on (`Windows.rotate`), past as many windows as
have gone by. When more than one has, the current window is two or more back, and the one before is
empty.

`Windows.Aligned` says what this comes to: the current window is the multiple of the width that the
clock stands in, and both hold exactly what was recorded at their times, whatever the gaps between
the checks were.
-/

namespace TumblingWindow

variable {α : Type*}

/-- The start of the current window, and what was recorded in it and in the one before. -/
structure Windows (α : Type*) where
  start : ℤ
  current : List α
  previous : List α

/-- What was recorded at times in `[a, b)`. -/
def during (history : List (ℤ × α)) (a b : ℤ) : List α :=
  (history.filter fun x => decide (a ≤ x.1 ∧ x.1 < b)).map Prod.snd

theorem during_append (history history' : List (ℤ × α)) (a b : ℤ) :
    during (history ++ history') a b = during history a b ++ during history' a b := by
  rw [during, List.filter_append, List.map_append]
  rfl

theorem during_eq_nil {history : List (ℤ × α)} {a b : ℤ} (h : ∀ x ∈ history, ¬ (a ≤ x.1 ∧ x.1 < b)) :
    during history a b = [] := by
  rw [during, List.filter_eq_nil_iff.mpr]
  · rfl
  · intro x hx
    rw [decide_eq_true_eq]
    exact h x hx

/-- Events that are all recorded at the time `now`. -/
theorem during_at_of_mem {xs : List α} {now a b : ℤ} (h : a ≤ now ∧ now < b) :
    during (xs.map fun x => (now, x)) a b = xs := by
  rw [during, List.filter_eq_self.mpr]
  · rw [List.map_map]
    exact List.map_id xs
  · intro x hx
    obtain ⟨_, -, rfl⟩ := List.mem_map.mp hx
    exact decide_eq_true h

theorem during_at_of_not_mem {xs : List α} {now a b : ℤ} (h : ¬ (a ≤ now ∧ now < b)) :
    during (xs.map fun x => (now, x)) a b = [] := by
  apply during_eq_nil
  intro x hx
  obtain ⟨_, -, rfl⟩ := List.mem_map.mp hx
  exact h

namespace Windows

/-- The clock is checked at `now`. -/
def rotate (w : ℤ) (v : Windows α) (now : ℤ) : Windows α :=
  if w ≤ now - v.start then
    { start := v.start + (now - v.start) / w * w
      current := []
      previous := if 2 ≤ (now - v.start) / w then [] else v.current }
  else v

/-- Events are recorded. -/
def record (v : Windows α) (xs : List α) : Windows α := { v with current := v.current ++ xs }

/-- The windows are those of the time `now`, on the grid of width `w` that begins at `s₀`, and hold
what was recorded. -/
structure Aligned (w s₀ : ℤ) (history : List (ℤ × α)) (now : ℤ) (v : Windows α) : Prop where
  start : ∃ k : ℕ, v.start = s₀ + k * w
  start_le : v.start ≤ now
  lt_end : now < v.start + w
  current : v.current = during history v.start (v.start + w)
  previous : v.previous = during history (v.start - w) v.start

variable {w s₀ now asOf : ℤ} {history : List (ℤ × α)} {v : Windows α}

theorem aligned_new (hw : 0 < w) (s₀ : ℤ) : Aligned w s₀ ([] : List (ℤ × α)) s₀ ⟨s₀, [], []⟩ :=
  ⟨⟨0, by simp⟩, le_refl s₀, lt_add_of_pos_right s₀ hw, rfl, rfl⟩

/-- **A check aligns the windows again**, however late it comes. -/
theorem Aligned.rotate (hw : 0 < w) (h : v.Aligned w s₀ history asOf)
    (hpast : ∀ x ∈ history, x.1 ≤ asOf)
    (hnow : asOf ≤ now) : (v.rotate w now).Aligned w s₀ history now := by
  obtain ⟨⟨k, hk⟩, hle, hlt, hcurrent, hprevious⟩ := h
  unfold Windows.rotate
  split
  · next hover =>
    -- the clock stands `q` windows further on
    set q := (now - v.start) / w with hq
    have hlow : q * w ≤ now - v.start := Int.ediv_mul_le _ hw.ne'
    have hhigh : now - v.start < q * w + w := by
      have := Int.lt_ediv_add_one_mul_self (now - v.start) hw
      rw [← hq] at this
      linarith [add_mul q 1 w]
    have hone : 1 ≤ q := (Int.le_ediv_iff_mul_le hw).mpr (by rw [one_mul]; exact hover)
    have hstep : w ≤ q * w := le_mul_of_one_le_left hw.le hone
    have hpassed : ∀ x ∈ history, x.1 < v.start + w := fun x hx => (hpast x hx).trans_lt hlt
    refine ⟨⟨k + q.toNat, ?_⟩, ?_, ?_, ?_, ?_⟩
    · have hnat : ((k + q.toNat : ℕ) : ℤ) = k + q := by omega
      show v.start + q * w = _
      rw [hk, hnat]
      ring
    · show v.start + q * w ≤ now
      linarith
    · show now < v.start + q * w + w
      linarith
    · show [] = during history (v.start + q * w) (v.start + q * w + w)
      refine (during_eq_nil fun x hx hin => ?_).symm
      have := hpassed x hx
      linarith [hin.1]
    · show (if 2 ≤ q then [] else v.current) = during history (v.start + q * w - w) (v.start + q * w)
      by_cases htwo : 2 ≤ q
      · -- what was recorded last lies before the window that has just ended
        rw [if_pos htwo]
        have htwice : 2 * w ≤ q * w := mul_le_mul_of_nonneg_right htwo hw.le
        refine (during_eq_nil fun x hx hin => ?_).symm
        have := hpassed x hx
        linarith [hin.1]
      · have hq1 : q = 1 := by omega
        rw [if_neg htwo, hq1, one_mul, add_sub_cancel_right]
        exact hcurrent
  · next hover => exact ⟨⟨k, hk⟩, hle.trans hnow, by linarith, hcurrent, hprevious⟩

/-- What is recorded at the time of the check belongs to the current window. -/
theorem Aligned.record (h : v.Aligned w s₀ history now) (xs : List α) :
    (v.record xs).Aligned w s₀ (history ++ xs.map fun x => (now, x)) now := by
  refine ⟨h.start, h.start_le, h.lt_end, ?_, ?_⟩
  · show v.current ++ xs = during _ v.start (v.start + w)
    rw [during_append, during_at_of_mem ⟨h.start_le, h.lt_end⟩, h.current]
  · show v.previous = during _ (v.start - w) v.start
    rw [during_append, during_at_of_not_mem fun hin =>
      absurd h.start_le (not_le.mpr hin.2), List.append_nil]
    exact h.previous

end Windows

end TumblingWindow
