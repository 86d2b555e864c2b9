import Sketchlog.Python.Diff
import Sketchlog.Refine.FacadeReads

/-!
# The distances of `diff.py`

A list of `get_cdf` denotes a step function on the reals. Both distances sweep over the values of
two lists, and at each of them the pointers hold the values of the two functions there
(`Pointers.Tracks.advance`). So `ks_statistic` is the greatest difference at a value, which is the
greatest difference at all (`ks_isGreatest`), and `wasserstein_distance` is the sum of differences
times widths, which is the integral (`wasserstein_eq_integral`). That the two are distances then is
a matter of the functions only.
-/

namespace Sketchlog.Diff

open StepFunction

/-- What holds of a list of `get_cdf`. -/
structure IsCdf (cdf : List (ℚ × ℚ)) : Prop where
  sorted : cdf.Pairwise fun p q => p.1 ≤ q.1
  monotone : cdf.Pairwise fun p q => p.2 ≤ q.2
  nonneg : ∀ p ∈ cdf, 0 ≤ p.2
  last : ∀ p, cdf.getLast? = some p → p.2 = 1

/-- The step function a list denotes, on the rationals. -/
def valueAt (cdf : List (ℚ × ℚ)) (v : ℚ) : ℚ := eval 0 cdf v

/-- The step function a list denotes. -/
noncomputable def stepAt (cdf : List (ℚ × ℚ)) (x : ℝ) : ℝ :=
  eval 0 (cdf.map fun p => ((p.1 : ℝ), (p.2 : ℝ))) x

/-- The difference of two step functions at a rational. -/
def gap (cdf1 cdf2 : List (ℚ × ℚ)) (v : ℚ) : ℚ := |valueAt cdf1 v - valueAt cdf2 v|

variable {c₁ c₂ c₃ : List (ℚ × ℚ)}

theorem stepAt_ratCast (cdf : List (ℚ × ℚ)) (v : ℚ) : stepAt cdf (v : ℝ) = (valueAt cdf v : ℚ) := by
  have hmap := eval_map (f := fun a : ℚ => (a : ℝ)) (fun a b => Rat.cast_le)
    (fun b : ℚ => (b : ℝ)) 0 cdf v
  simp only [Rat.cast_zero] at hmap
  exact hmap

theorem gap_ratCast (c₁ c₂ : List (ℚ × ℚ)) (v : ℚ) :
    |stepAt c₁ (v : ℝ) - stepAt c₂ (v : ℝ)| = ((gap c₁ c₂ v : ℚ) : ℝ) := by
  rw [stepAt_ratCast, stepAt_ratCast, gap]
  push_cast
  rfl

/-! ## Values and breakpoints

The values at which either distribution steps, in order. Between neighbours both are constant. -/

theorem IsCdf.le_one (h : IsCdf c₁) {p : ℚ × ℚ} (hp : p ∈ c₁) : p.2 ≤ 1 := by
  obtain ⟨q, hq⟩ := Option.isSome_iff_exists.mp (List.getLast?_isSome.mpr (List.ne_nil_of_mem hp))
  rw [← h.last q hq]
  obtain ⟨init, rfl⟩ := List.getLast?_eq_some_iff.mp hq
  rcases List.mem_append.mp hp with hinit | hlast
  · exact (List.pairwise_append.mp h.monotone).2.2 p hinit q List.mem_cons_self
  · rw [List.mem_singleton.mp hlast]

theorem IsCdf.stepAt_mem (h : IsCdf c₁) (x : ℝ) : 0 ≤ stepAt c₁ x ∧ stepAt c₁ x ≤ 1 := by
  rcases eval_mem (0 : ℝ) (c₁.map fun p => ((p.1 : ℝ), (p.2 : ℝ))) x with hzero | ⟨p, hp, hvalue⟩
  · rw [stepAt, hzero]
    exact ⟨le_refl 0, zero_le_one⟩
  · obtain ⟨q, hq, rfl⟩ := List.mem_map.mp hp
    rw [stepAt, hvalue]
    have hle : (q.2 : ℝ) ≤ 1 := by exact_mod_cast h.le_one hq
    exact ⟨Rat.cast_nonneg.mpr (h.nonneg q hq), hle⟩

/-- Every list ends at one. -/
theorem IsCdf.valueAt_of_ge (h : IsCdf c₁) (hne : c₁ ≠ []) {v : ℚ} (hv : ∀ p ∈ c₁, p.1 ≤ v) :
    valueAt c₁ v = 1 := by
  obtain ⟨p, hp⟩ := Option.isSome_iff_exists.mp (List.getLast?_isSome.mpr hne)
  rw [valueAt, eval_of_ge hp hv, h.last p hp]

theorem mem_allVals {v : ℚ} : v ∈ allVals c₁ c₂ ↔ v ∈ c₁.map Prod.fst ∨ v ∈ c₂.map Prod.fst := by
  rw [allVals, Finset.mem_sort, List.mem_toFinset, List.mem_append]

theorem allVals_sorted (c₁ c₂ : List (ℚ × ℚ)) : (allVals c₁ c₂).Pairwise (· < ·) :=
  (Finset.sortedLT_sort _).pairwise

theorem allVals_eq_nil : allVals c₁ c₂ = [] ↔ c₁ = [] ∧ c₂ = [] := by
  rw [List.eq_nil_iff_forall_not_mem]
  simp only [mem_allVals, List.eq_nil_iff_forall_not_mem (l := c₁), List.eq_nil_iff_forall_not_mem
    (l := c₂),
    List.mem_map]
  constructor
  · intro h
    exact ⟨fun p hp => h p.1 (.inl ⟨p, hp, rfl⟩), fun p hp => h p.1 (.inr ⟨p, hp, rfl⟩)⟩
  · rintro ⟨h₁, h₂⟩ v (⟨p, hp, -⟩ | ⟨p, hp, -⟩)
    · exact h₁ p hp
    · exact h₂ p hp

/-- The step functions do not change between two neighbours of `allVals`. -/
theorem stepAt_eq_of_gap {cdf : List (ℚ × ℚ)} {a : ℚ} {x : ℝ} (hax : (a : ℝ) ≤ x)
    (hgap : ∀ v ∈ cdf.map Prod.fst, (v : ℝ) ≤ x → v ≤ a) : stepAt cdf x = stepAt cdf (a : ℝ) := by
  apply eval_eq_of_gap hax
  intro p hp hpx
  obtain ⟨q, hq, rfl⟩ := List.mem_map.mp hp
  exact Rat.cast_le.mpr (hgap q.1 (List.mem_map_of_mem hq) hpx)

theorem stepAt_of_lt {cdf : List (ℚ × ℚ)} {x : ℝ} (h : ∀ v ∈ cdf.map Prod.fst, x < (v : ℝ)) :
    stepAt cdf x = 0 := by
  apply eval_of_lt
  intro p hp
  obtain ⟨q, hq, rfl⟩ := List.mem_map.mp hp
  exact h q.1 (List.mem_map_of_mem hq)

/-- Two step functions are at any place what they are at one of `allVals`, or both zero. -/
theorem exists_val (c₁ c₂ : List (ℚ × ℚ)) (x : ℝ) :
    (stepAt c₁ x = 0 ∧ stepAt c₂ x = 0)
      ∨ ∃ v ∈ allVals c₁ c₂, stepAt c₁ x = stepAt c₁ (v : ℝ) ∧ stepAt c₂ x = stepAt c₂ (v : ℝ) := by
  have hleft : ∀ v : ℚ, v ∈ c₁.map Prod.fst → v ∈ allVals c₁ c₂ := fun v hv => mem_allVals.mpr (.inl hv)
  have hright : ∀ v : ℚ, v ∈ c₂.map Prod.fst → v ∈ allVals c₁ c₂ :=
    fun v hv => mem_allVals.mpr (.inr hv)
  rcases exists_break ((allVals c₁ c₂).map (Rat.castHom ℝ)) x with hlt | ⟨b, hb, hbx, hmax⟩
  · have hall : ∀ v ∈ allVals c₁ c₂, x < (v : ℝ) := fun v hv => hlt (v : ℝ) (List.mem_map_of_mem hv)
    exact .inl ⟨stepAt_of_lt fun v hv => hall v (hleft v hv), stepAt_of_lt fun v hv =>
      hall v (hright v hv)⟩
  · obtain ⟨v, hv, rfl⟩ := List.mem_map.mp hb
    have hgap : ∀ w ∈ allVals c₁ c₂, (w : ℝ) ≤ x → w ≤ v :=
      fun w hw hwx => Rat.cast_le.mp (hmax (w : ℝ) (List.mem_map_of_mem hw) hwx)
    exact .inr ⟨v, hv, stepAt_eq_of_gap hbx fun w hw => hgap w (hleft w hw),
      stepAt_eq_of_gap hbx fun w hw => hgap w (hright w hw)⟩

/-! ## The sweep

The loop over these values with two pointers; what it keeps is the value of each function at the
last one. -/

namespace Pointers

/-- The pointers have passed the points that satisfy `q`. -/
structure Tracks (c₁ c₂ : List (ℚ × ℚ)) (q : ℚ × ℚ → Bool) (pointers : Pointers ℚ) : Prop where
  left : Swept 0 c₁ q pointers.left
  right : Swept 0 c₂ q pointers.right

theorem tracks_start (c₁ c₂ : List (ℚ × ℚ)) : (start .exact c₁ c₂).Tracks c₁ c₂ fun _ => false :=
  ⟨swept_start 0 c₁, swept_start 0 c₂⟩

variable {q : ℚ × ℚ → Bool} {pointers : Pointers ℚ} {v : ℚ}

theorem Tracks.advance (h : pointers.Tracks c₁ c₂ q) (hq : ∀ p, q p = true → p.1 ≤ v) :
    (pointers.advance v).Tracks c₁ c₂ fun p => p.1 ≤ v :=
  ⟨h.left.advance hq, h.right.advance hq⟩

theorem Tracks.diff_eq (h₁ : IsCdf c₁) (h₂ : IsCdf c₂) (h : pointers.Tracks c₁ c₂ fun p => p.1 ≤ v) :
    pointers.diff .exact = gap c₁ c₂ v := by
  rw [diff, h.left.value_eq_eval h₁.sorted, h.right.value_eq_eval h₂.sorted]
  rfl

end Pointers

/-- The loop of `ks_statistic` keeps the greatest difference at a value. -/
theorem ksLoop_spec (h₁ : IsCdf c₁) (h₂ : IsCdf c₂) {q : ℚ × ℚ → Bool} {pointers : Pointers ℚ}
    (h : pointers.Tracks c₁ c₂ q) {vals : List ℚ} (hvals : vals.Pairwise (· < ·))
    (hq : ∀ v ∈ vals, ∀ p, q p = true → p.1 ≤ v) (m : ℚ) :
    m ≤ ksLoop .exact pointers m vals ∧ (∀ v ∈ vals, gap c₁ c₂ v ≤ ksLoop .exact pointers m vals)
      ∧ (ksLoop .exact pointers m vals = m ∨ ∃ v ∈ vals, ksLoop .exact pointers m vals
        = gap c₁ c₂ v) := by
  -- the pointers track both functions, so each step meets the gap at its value
  induction vals generalizing q pointers m with
  | nil => exact ⟨le_refl m, fun v hv => absurd hv List.not_mem_nil, .inl rfl⟩
  | cons v rest ih =>
    obtain ⟨hhead, htail⟩ := List.pairwise_cons.mp hvals
    have htracks := h.advance (hq v List.mem_cons_self)
    have hdiff := htracks.diff_eq h₁ h₂
    have hnext : ∀ w ∈ rest, ∀ p : ℚ × ℚ, decide (p.1 ≤ v) = true → p.1 ≤ w :=
      fun w hw p hp => (of_decide_eq_true hp).trans (hhead w hw).le
    -- one round of the loop keeps the larger of `m` and the gap
    have hrun : ksLoop .exact pointers m (v :: rest)
        = ksLoop .exact (pointers.advance v) (max m (gap c₁ c₂ v)) rest := by
      rw [ksLoop, hdiff, Arithmetic.exact_lt]
      by_cases hlt : m < gap c₁ c₂ v
      · rw [if_pos (decide_eq_true hlt), max_eq_right hlt.le]
      · rw [if_neg (by simpa using hlt), max_eq_left (not_lt.mp hlt)]
    obtain ⟨hle, hall, hattained⟩ := ih htracks htail hnext (max m (gap c₁ c₂ v))
    rw [hrun]
    refine ⟨(le_max_left _ _).trans hle, ?_, ?_⟩
    · intro w hw
      rcases List.mem_cons.mp hw with rfl | hw
      · exact (le_max_right _ _).trans hle
      · exact hall w hw
    · -- the result is the start or one of the gaps
      rcases hattained with hmax | ⟨w, hw, heq⟩
      · rcases max_choice m (gap c₁ c₂ v) with hm | hm
        · exact .inl (hmax.trans hm)
        · exact .inr ⟨v, List.mem_cons_self, hmax.trans hm⟩
      · exact .inr ⟨w, List.mem_cons_of_mem v hw, heq⟩

/-- The loop of `wasserstein_distance` adds up the area. -/
theorem wassersteinLoop_eq (h₁ : IsCdf c₁) (h₂ : IsCdf c₂) {pointers : Pointers ℚ} {a : ℚ}
    (h : pointers.Tracks c₁ c₂ fun p => p.1 ≤ a) {vals : List ℚ}
    (hvals : (a :: vals).Pairwise (· < ·)) (w : ℚ) :
    wassersteinLoop .exact pointers a w vals = w + area (gap c₁ c₂) (a :: vals) := by
  induction vals generalizing pointers a w with
  | nil => exact (add_zero w).symm
  | cons v rest ih =>
    obtain ⟨hhead, htail⟩ := List.pairwise_cons.mp hvals
    have hav : a < v := hhead v List.mem_cons_self
    have htracks := h.advance (v := v) fun p hp => (of_decide_eq_true hp).trans hav.le
    rw [wassersteinLoop, ih htracks htail, h.diff_eq h₁ h₂, area]
    exact add_assoc _ _ _

/-- The first round has no width. -/
theorem wassersteinDistance_eq (h₁ : IsCdf c₁) (h₂ : IsCdf c₂) :
    wassersteinDistance .exact c₁ c₂ = area (gap c₁ c₂) (allVals c₁ c₂) := by
  have hsorted := allVals_sorted c₁ c₂
  unfold wassersteinDistance
  cases hvals : allVals c₁ c₂ with
  | nil => rfl
  | cons v rest =>
    rw [hvals] at hsorted
    have htracks := (Pointers.tracks_start c₁ c₂).advance (v := v) fun p hp =>
      absurd hp Bool.false_ne_true
    show wassersteinLoop .exact (.start .exact c₁ c₂) v 0 (v :: rest) = _
    rw [wassersteinLoop, wassersteinLoop_eq h₁ h₂ htracks hsorted]
    simp

/-! ## The distances, by the functions

The greatest gap and its laws, from those of the absolute value. -/

/-- The distance is the greatest difference of the two step functions. -/
theorem ks_isGreatest (h₁ : IsCdf c₁) (h₂ : IsCdf c₂) :
    IsGreatest (Set.range fun x : ℝ => |stepAt c₁ x - stepAt c₂ x|)
      ((ksStatistic .exact c₁ c₂ : ℚ) : ℝ) := by
  -- what a list differs from the empty one
  have hempty : ∀ {c : List (ℚ × ℚ)}, IsCdf c → c ≠ [] → (∃ x : ℝ, stepAt c x = 1) := by
    intro c hc hne
    obtain ⟨p, hp⟩ := Option.isSome_iff_exists.mp (List.getLast?_isSome.mpr hne)
    obtain ⟨init, rfl⟩ := List.getLast?_eq_some_iff.mp hp
    have hge : ∀ q ∈ init ++ [p], q.1 ≤ p.1 := by
      intro q hq
      rcases List.mem_append.mp hq with hq | hq
      · exact (List.pairwise_append.mp hc.sorted).2.2 q hq p List.mem_cons_self
      · rw [List.mem_singleton.mp hq]
    exact ⟨(p.1 : ℝ), by rw [stepAt_ratCast, hc.valueAt_of_ge hne hge, Rat.cast_one]⟩
  have hnil : ∀ x : ℝ, stepAt [] x = 0 := fun x => rfl
  unfold ksStatistic
  by_cases hboth : c₁ = [] ∧ c₂ = []
  · rw [if_pos hboth, hboth.1, hboth.2]
    refine ⟨⟨0, ?_⟩, ?_⟩
    · show |stepAt [] 0 - stepAt [] 0| = ((0 : ℚ) : ℝ)
      rw [sub_self, abs_zero, Rat.cast_zero]
    · rintro y ⟨x, rfl⟩
      show |stepAt [] x - stepAt [] x| ≤ ((0 : ℚ) : ℝ)
      rw [sub_self, abs_zero, Rat.cast_zero]
  rw [if_neg hboth]
  by_cases hone : c₁ = [] ∨ c₂ = []
  · rw [if_pos hone, Arithmetic.exact_ofRat, Rat.cast_one]
    constructor
    · rcases hone with rfl | rfl
      · obtain ⟨x, hx⟩ := hempty h₂ fun h => hboth ⟨rfl, h⟩
        exact ⟨x, by simp [hnil, hx]⟩
      · obtain ⟨x, hx⟩ := hempty h₁ fun h => hboth ⟨h, rfl⟩
        exact ⟨x, by simp [hnil, hx]⟩
    · rintro y ⟨x, rfl⟩
      obtain ⟨hlo₁, hhi₁⟩ := h₁.stepAt_mem x
      obtain ⟨hlo₂, hhi₂⟩ := h₂.stepAt_mem x
      exact abs_sub_le_iff.mpr ⟨by linarith, by linarith⟩
  rw [if_neg hone, Arithmetic.exact_ofRat]
  obtain ⟨hzero, hall, hattained⟩ :=
    ksLoop_spec h₁ h₂ (Pointers.tracks_start c₁ c₂) (allVals_sorted c₁ c₂)
    (fun v _ p hp => absurd hp Bool.false_ne_true) 0
  constructor
  · rcases hattained with hm | ⟨v, -, hv⟩
    · -- no difference at any of the values
      obtain ⟨v, hv⟩ := List.exists_mem_of_ne_nil _ fun h => hboth (allVals_eq_nil.mp h)
      have hgap : gap c₁ c₂ v = 0 := le_antisymm (hm ▸ hall v hv) (abs_nonneg _)
      exact ⟨(v : ℝ), by rw [hm, ← hgap]; exact gap_ratCast c₁ c₂ v⟩
    · exact ⟨(v : ℝ), by rw [hv]; exact gap_ratCast c₁ c₂ v⟩
  · rintro y ⟨x, rfl⟩
    show |stepAt c₁ x - stepAt c₂ x| ≤ _
    rcases exists_val c₁ c₂ x with ⟨hx₁, hx₂⟩ | ⟨v, hv, hx₁, hx₂⟩
    · rw [hx₁, hx₂, sub_self, abs_zero]
      exact Rat.cast_nonneg.mpr hzero
    · rw [hx₁, hx₂, gap_ratCast]
      exact Rat.cast_le.mpr (hall v hv)

theorem ks_symm (h₁ : IsCdf c₁) (h₂ : IsCdf c₂) :
    ksStatistic .exact c₁ c₂ = ksStatistic .exact c₂ c₁ := by
  have hswap := ks_isGreatest h₂ h₁
  simp only [abs_sub_comm] at hswap
  exact Rat.cast_injective ((ks_isGreatest h₁ h₂).unique (by simpa only [abs_sub_comm] using hswap))

theorem ks_triangle (h₁ : IsCdf c₁) (h₂ : IsCdf c₂) (h₃ : IsCdf c₃) :
    ksStatistic .exact c₁ c₃ ≤ ksStatistic .exact c₁ c₂ + ksStatistic .exact c₂ c₃ := by
  obtain ⟨x, hx⟩ := (ks_isGreatest h₁ h₃).1
  have hfirst : |stepAt c₁ x - stepAt c₂ x| ≤ ((ksStatistic .exact c₁ c₂ : ℚ) : ℝ) :=
    (ks_isGreatest h₁ h₂).2 ⟨x, rfl⟩
  have hsecond : |stepAt c₂ x - stepAt c₃ x| ≤ ((ksStatistic .exact c₂ c₃ : ℚ) : ℝ) :=
    (ks_isGreatest h₂ h₃).2 ⟨x, rfl⟩
  have hsum : ((ksStatistic .exact c₁ c₃ : ℚ) : ℝ) ≤ ksStatistic .exact c₁ c₂ + ksStatistic .exact
    c₂ c₃ := by
    rw [← hx]
    exact (abs_sub_le _ _ _).trans (add_le_add hfirst hsecond)
  exact_mod_cast hsum

theorem ks_eq_zero_iff (h₁ : IsCdf c₁) (h₂ : IsCdf c₂) : ksStatistic .exact c₁ c₂ = 0
    ↔ stepAt c₁ = stepAt c₂ := by
  obtain ⟨⟨x, hx⟩, hall⟩ := ks_isGreatest h₁ h₂
  constructor
  · intro hzero
    funext y
    have hle : |stepAt c₁ y - stepAt c₂ y| ≤ ((ksStatistic .exact c₁ c₂ : ℚ) : ℝ) := hall ⟨y, rfl⟩
    rw [hzero, Rat.cast_zero] at hle
    exact sub_eq_zero.mp (abs_nonpos_iff.mp hle)
  · intro hsame
    have hvalue : |stepAt c₁ x - stepAt c₂ x| = ((ksStatistic .exact c₁ c₂ : ℚ) : ℝ) := hx
    rw [hsame, sub_self, abs_zero] at hvalue
    exact_mod_cast hvalue.symm

theorem ks_mem (h₁ : IsCdf c₁) (h₂ : IsCdf c₂) :
    0 ≤ ksStatistic .exact c₁ c₂ ∧ ksStatistic .exact c₁ c₂ ≤ 1 := by
  obtain ⟨x, hx⟩ := (ks_isGreatest h₁ h₂).1
  have hvalue : |stepAt c₁ x - stepAt c₂ x| = ((ksStatistic .exact c₁ c₂ : ℚ) : ℝ) := hx
  obtain ⟨hlo₁, hhi₁⟩ := h₁.stepAt_mem x
  obtain ⟨hlo₂, hhi₂⟩ := h₂.stepAt_mem x
  have hlo : (0 : ℝ) ≤ ksStatistic .exact c₁ c₂ := hvalue ▸ abs_nonneg _
  have hhi : ((ksStatistic .exact c₁ c₂ : ℚ) : ℝ) ≤ 1 :=
    hvalue ▸ abs_sub_le_iff.mpr ⟨by linarith, by linarith⟩
  exact ⟨by exact_mod_cast hlo, by exact_mod_cast hhi⟩

/-! ### The integral -/

/-- At the last of `allVals` both lists are at one. -/
theorem gap_last (h₁ : IsCdf c₁) (h₂ : IsCdf c₂) (hne₁ : c₁ ≠ []) (hne₂ : c₂ ≠ []) {v : ℚ}
    (hv : (allVals c₁ c₂).getLast? = some v) : gap c₁ c₂ v = 0 := by
  have hsorted := allVals_sorted c₁ c₂
  obtain ⟨init, hinit⟩ := List.getLast?_eq_some_iff.mp hv
  rw [hinit] at hsorted
  have hmax : ∀ w ∈ allVals c₁ c₂, w ≤ v := by
    intro w hw
    rw [hinit] at hw
    rcases List.mem_append.mp hw with hw | hw
    · exact ((List.pairwise_append.mp hsorted).2.2 w hw v List.mem_cons_self).le
    · exact (List.mem_singleton.mp hw).le
  have hone₁ := h₁.valueAt_of_ge hne₁ fun p hp =>
    hmax p.1 (mem_allVals.mpr (.inl (List.mem_map_of_mem hp)))
  have hone₂ := h₂.valueAt_of_ge hne₂ fun p hp =>
    hmax p.1 (mem_allVals.mpr (.inr (List.mem_map_of_mem hp)))
  rw [gap, hone₁, hone₂, sub_self, abs_zero]

/-- The distance is the area between the two step functions. -/
theorem wasserstein_eq_integral (h₁ : IsCdf c₁) (h₂ : IsCdf c₂) (hne₁ : c₁ ≠ []) (hne₂ : c₂ ≠ []) :
    MeasureTheory.Integrable (fun x : ℝ => |stepAt c₁ x - stepAt c₂ x|)
      ∧ ((wassersteinDistance .exact c₁ c₂ : ℚ) : ℝ) = ∫ x : ℝ, |stepAt c₁ x - stepAt c₂ x| := by
  -- the integrand is constant between neighbouring values of the two supports
  let g : ℝ → ℝ := fun x => |stepAt c₁ x - stepAt c₂ x|
  have hsorted : ((allVals c₁ c₂).map (Rat.castHom ℝ)).Pairwise (· < ·) := by
    rw [List.pairwise_map]
    exact (allVals_sorted c₁ c₂).imp fun h => Rat.cast_lt.mpr h
  have hconst : ConstantBetween g ((allVals c₁ c₂).map (Rat.castHom ℝ)) := by
    -- behind the last value both functions are 1
    refine constantBetween_of_gaps hsorted ?_ ?_
    · intro a ha x hax hgap
      obtain ⟨v, hv, rfl⟩ := List.mem_map.mp ha
      have hsame : ∀ w ∈ allVals c₁ c₂, (w : ℝ) ≤ x → w ≤ v :=
        fun w hw hwx => Rat.cast_le.mp (hgap (w : ℝ) (List.mem_map_of_mem hw) hwx)
      have hleft := stepAt_eq_of_gap hax fun w hw => hsame w (mem_allVals.mpr (.inl hw))
      have hright := stepAt_eq_of_gap hax fun w hw => hsame w (mem_allVals.mpr (.inr hw))
      show |stepAt c₁ x - stepAt c₂ x| = |stepAt c₁ (v : ℝ) - stepAt c₂ (v : ℝ)|
      rw [hleft, hright]
    · intro a ha
      rw [List.getLast?_map] at ha
      obtain ⟨v, hv, rfl⟩ := Option.map_eq_some_iff.mp ha
      have hzero := gap_last h₁ h₂ hne₁ hne₂ hv
      show |stepAt c₁ (v : ℝ) - stepAt c₂ (v : ℝ)| = 0
      rw [gap_ratCast, hzero, Rat.cast_zero]
  -- the loop sums the areas between the values
  have harea : area g ((allVals c₁ c₂).map (Rat.castHom ℝ))
    = ((wassersteinDistance .exact c₁ c₂ : ℚ) : ℝ) := by
    rw [wassersteinDistance_eq h₁ h₂]
    exact area_map (Rat.castHom ℝ) fun a _ => gap_ratCast c₁ c₂ a
  cases hvals : (allVals c₁ c₂).map (Rat.castHom ℝ) with
  | nil => exact absurd (allVals_eq_nil.mp (List.map_eq_nil_iff.mp hvals)).1 hne₁
  | cons a rest =>
    rw [hvals] at hsorted hconst harea
    -- before the first value both functions are 0
    have hzero : ∀ x, x < a → g x = 0 := by
      intro x hx
      have hall : ∀ v ∈ allVals c₁ c₂, x < (v : ℝ) := by
        intro v hv
        have hmem : (v : ℝ) ∈ a :: rest := hvals ▸ List.mem_map_of_mem hv
        rcases List.mem_cons.mp hmem with hv | hv
        · rwa [hv]
        · exact hx.trans ((List.pairwise_cons.mp hsorted).1 _ hv)
      have hleft := stepAt_of_lt fun v hv => hall v (mem_allVals.mpr (.inl hv))
      have hright := stepAt_of_lt fun v hv => hall v (mem_allVals.mpr (.inr hv))
      show |stepAt c₁ x - stepAt c₂ x| = 0
      rw [hleft, hright, sub_self, abs_zero]
    obtain ⟨hintegrable, hintegral⟩ := integral_eq_area (hsorted.imp le_of_lt) hconst hzero
    exact ⟨hintegrable, by rw [← harea, ← hintegral]⟩

/-! ## The lists of `get_cdf`

The lists of both backends are cumulative distributions: ascending, positive, ending at one. -/

theorem accumulate_fst {α : Type} (A : Arithmetic α) (totalCount : ℤ) (cum : α)
    (points : List (ℚ × ℤ)) :
    (accumulate A totalCount cum points).map Prod.fst = points.map Prod.fst := by
  induction points generalizing cum with
  | nil => rfl
  | cons p rest ih => rw [accumulate, List.map_cons, List.map_cons, ih]

/-- Adding up counts gives shares that grow to the whole. -/
theorem accumulate_spec {totalCount : ℤ} (htotal : 0 < totalCount) {points : List (ℚ × ℤ)}
    (hpoints : ∀ p ∈ points, 0 ≤ p.2) (cum : ℚ) :
    ((accumulate .exact totalCount cum points).Pairwise fun p q => p.2 ≤ q.2)
      ∧ (∀ p ∈ accumulate .exact totalCount cum points, cum / totalCount ≤ p.2)
      ∧ ∀ p, (accumulate .exact totalCount cum points).getLast? = some p
        → p.2 = (cum + ((points.map Prod.snd).sum : ℤ)) / totalCount := by
  -- the shares grow with the counts, and end at the sum of all
  induction points generalizing cum with
  | nil =>
    refine ⟨List.Pairwise.nil, fun p hp => absurd hp List.not_mem_nil, fun p hp => ?_⟩
    cases hp
  | cons point rest ih =>
    obtain ⟨val, count⟩ := point
    have hcount : 0 ≤ count := hpoints (val, count) List.mem_cons_self
    obtain ⟨hmono, hbound, hlast⟩ :=
      ih (fun p hp => hpoints p (List.mem_cons_of_mem _ hp)) (cum + count)
    have hstep : cum / totalCount ≤ (cum + count) / totalCount := by
      apply div_le_div_of_nonneg_right _ (by exact_mod_cast htotal.le)
      exact le_add_of_nonneg_right (by exact_mod_cast hcount)
    have hhead : accumulate .exact totalCount cum ((val, count) :: rest)
        = (val, (cum + count) / totalCount) :: accumulate .exact totalCount (cum + count) rest := rfl
    rw [hhead]
    refine ⟨List.pairwise_cons.mpr ⟨fun p hp => hbound p hp, hmono⟩, ?_, ?_⟩
    · intro p hp
      rcases List.mem_cons.mp hp with rfl | hp
      · exact hstep
      · exact hstep.trans (hbound p hp)
    · intro p hp
      rw [List.map_cons, List.sum_cons, Int.cast_add, ← add_assoc]
      cases rest with
      | nil =>
        have hvalue : (val, (cum + count) / (totalCount : ℚ)) = p := Option.some.inj hp
        rw [← hvalue]
        simp
      | cons r rest => exact hlast p (by rwa [accumulate, List.getLast?_cons_cons] at hp)

theorem isCdf_nil : IsCdf [] :=
  ⟨List.Pairwise.nil, List.Pairwise.nil, fun _ hp => absurd hp List.not_mem_nil, fun _ hp => nomatch hp⟩

/-- What `to_dict` gives of a log are the buckets of a Python sketch with its latencies. -/
theorem exists_latencyState {log : Facade.StreamLog} {S : Shape} {c : Contents S}
    (h : log.backend.Represents c) :
    ∃ sk : DDSketch, sk.Represents c.latency
      ∧ latencyState log = ⟨sk.alpha, sk.positive.toList, sk.negative.toList, sk.zeroCount,
        sk.count⟩ := by
  -- the Python backend lists its bins; the native one lists keys and counts apart
  cases hb : log.backend with
  | python own =>
    rw [hb] at h
    have hrep : own.Represents c := h
    refine ⟨own.latency, hrep.latency, ?_⟩
    rw [latencyState, hb]
  | cpp own =>
    rw [hb] at h
    have hrep : own.Represents c := h
    have hcontents := hrep.latency.contents
    -- no count is zero, so the filter drops nothing
    have hbins : ∀ {m : Bins} {f : ℤ →₀ ℕ}, CountMap.Tallies m f →
        ((m.toList.map Prod.fst).zip (m.toList.map Prod.snd)).filter (fun kc => kc.2 > 0)
          = m.toList := by
      intro m f hm
      rw [List.zip_map', List.map_id', List.filter_eq_self]
      intro kc hkc
      simpa using hm.toList_pos hkc
    refine ⟨own.latency.toPython, hcontents, ?_⟩
    rw [latencyState, hb]
    exact congrArg₂ (fun positive negative => LatencyState.mk own.latency.alpha.val positive negative
      own.latency.zeroCount own.latency.count) (hbins hcontents.positive) (hbins hcontents.negative)

theorem latencyState_count (log : Facade.StreamLog) :
    (latencyState log).count = log.latencyCount := by
  unfold latencyState Facade.StreamLog.latencyCount
  cases log.backend with
  | python own => rfl
  | cpp own => rfl

/-- The points of a sketch count its values. -/
theorem points_counts (bucketValue : ℚ → ℤ → ℚ) {sk : DDSketch} {t : Tally} (h : sk.Represents t) :
    let state : LatencyState :=
      ⟨sk.alpha, sk.positive.toList, sk.negative.toList, sk.zeroCount, sk.count⟩
    (∀ p ∈ points bucketValue state, 0 ≤ p.2) ∧ ((points bucketValue state).map Prod.snd).sum
      = sk.count := by
  intro state
  have hzero := h.zeroCount
  -- the points are the negative bins, the zeros and the positive bins
  constructor
  · intro p hp
    rcases List.mem_append.mp hp with hp | hp
    · rcases List.mem_append.mp hp with hp | hp
      · obtain ⟨kc, hkc, rfl⟩ := List.mem_map.mp hp
        exact (h.negative.toList_pos hkc).le
      · split at hp
        · rw [List.mem_singleton.mp hp]
          show 0 ≤ sk.zeroCount
          omega
        · cases hp
    · obtain ⟨kc, hkc, rfl⟩ := List.mem_map.mp hp
      exact (h.positive.toList_pos hkc).le
  · have hmiddle : ((if state.zeroCount > 0 then [((0 : ℚ), state.zeroCount)] else []).map
      Prod.snd).sum = sk.zeroCount := by
      split
      · exact add_zero _
      · show (0 : ℤ) = sk.zeroCount
        have hnot : ¬ sk.zeroCount > 0 := ‹_›
        omega
    have hnegative := h.negative.sum_values
    have hpositive := h.positive.sum_values
    rw [points, List.map_append, List.map_append, List.sum_append, List.sum_append, hmiddle,
      List.map_map, List.map_map,
      h.count, Tally.count, hzero]
    simp only [Function.comp_def] at hnegative hpositive ⊢
    rw [hnegative, hpositive, Finsupp.degree_apply, Finsupp.degree_apply, Finsupp.sum, Finsupp.sum]
    push_cast
    ring

/-- `get_cdf` accumulates the counts of sorted points, which sum to the count of the latencies. -/
theorem getCdf_eq {M : IndexMapping} {cppAvailable : Bool} {log : Facade.StreamLog}
    (h : Facade.StreamLog.Reachable M cppAvailable log) (bucketValue : ℚ → ℤ → ℚ) :
    ∃ pts : List (ℚ × ℤ), pts.Pairwise (fun p q => p.1 ≤ q.1) ∧ (∀ p ∈ pts, 0 ≤ p.2)
      ∧ (pts.map Prod.snd).sum = log.latencyCount ∧ 0 ≤ log.latencyCount
      ∧ ∀ {α : Type} (A : Arithmetic α), getCdf A bucketValue log
        = if log.latencyCount = 0 then [] else accumulate A log.latencyCount (A.ofRat 0) pts := by
  obtain ⟨S, c, hvalid⟩ := h.valid
  obtain ⟨sk, hrep, hstate⟩ := exists_latencyState hvalid.represents
  obtain ⟨hcounts, hsum⟩ := points_counts bucketValue hrep
  have hcount : log.latencyCount = sk.count := by
    rw [← latencyState_count, hstate]
  generalize hpoints : points bucketValue _ = pts at hcounts hsum
  have hperm := List.mergeSort_perm pts fun x y => decide (x.1 ≤ y.1)
  have hsorted : (pts.mergeSort fun x y => decide (x.1 ≤ y.1)).Pairwise
      (fun x y => decide (x.1 ≤ y.1) = true) :=
    List.pairwise_mergeSort (fun x y z => by simpa using le_trans)
      (fun x y => by simpa using le_total x.1 y.1) pts
  refine ⟨_, hsorted.imp of_decide_eq_true, fun p hp => hcounts p (hperm.mem_iff.mp hp), ?_, ?_, ?_⟩
  · rw [(hperm.map Prod.snd).sum_eq, hsum, hcount]
  · rw [hcount, hrep.count]
    exact Int.natCast_nonneg _
  · intro α A
    rw [getCdf, hstate, hpoints, hcount]

/-- **`get_cdf` gives a CDF.** -/
theorem isCdf_getCdf {M : IndexMapping} {cppAvailable : Bool} {log : Facade.StreamLog}
    (h : Facade.StreamLog.Reachable M cppAvailable log) (bucketValue : ℚ → ℤ → ℚ) :
    IsCdf (getCdf .exact bucketValue log) := by
  obtain ⟨pts, hsorted, hcounts, hsum, hnonneg, heq⟩ := getCdf_eq h bucketValue
  rw [heq]
  by_cases hcount : log.latencyCount = 0
  · rw [if_pos hcount]
    exact isCdf_nil
  rw [if_neg hcount, Arithmetic.exact_ofRat]
  have htotal : 0 < log.latencyCount := lt_of_le_of_ne hnonneg (Ne.symm hcount)
  obtain ⟨hmono, hbound, hlast⟩ := accumulate_spec htotal hcounts 0
  refine ⟨?_, hmono, ?_, ?_⟩
  · rw [← List.pairwise_map (f := Prod.fst) (R := (· ≤ ·)), accumulate_fst, List.pairwise_map]
    exact hsorted
  · intro p hp
    refine le_trans ?_ (hbound p hp)
    rw [zero_div]
  · intro p hp
    rw [hlast p hp, hsum, zero_add]
    exact div_self (by exact_mod_cast htotal.ne')

/-! ## In doubles

The probabilities of a list of `get_cdf` are doubles between zero and one, so no difference of them
overflows. Rounding is monotone: the greatest of the rounded differences is the greatest difference,
rounded (`ksStatistic_doubles`). -/

/-- A list of `get_cdf` as the code has it. -/
def floats (cdf : List (ℚ × Binary64)) : List (ℚ × PyFloat) := cdf.map (Prod.map id .fin)

/-- The list with the values of its probabilities. -/
def values (cdf : List (ℚ × Binary64)) : List (ℚ × ℚ) := cdf.map (Prod.map id Binary64.val)

/-- Between zero and one. -/
def Share (x : Binary64) : Prop := 0 ≤ x.val ∧ x.val ≤ 1

variable {d₁ d₂ d₃ : List (ℚ × Binary64)}

theorem IsCdf.share (h : IsCdf (values d₁)) : ∀ p ∈ d₁, Share p.2 := by
  intro p hp
  have hmem : Prod.map id Binary64.val p ∈ values d₁ := List.mem_map_of_mem hp
  exact ⟨h.nonneg _ hmem, h.le_one hmem⟩

theorem allVals_floats (d₁ d₂ : List (ℚ × Binary64)) :
    allVals (floats d₁) (floats d₂) = allVals (values d₁) (values d₂) := by
  unfold allVals floats values
  simp only [List.map_map]
  rfl

/-- The distance of two shares, before and after it is rounded. -/
theorem abs_sub_share {x y : Binary64} (hx : Share x) (hy : Share y) :
    0 ≤ |x.val - y.val| ∧ |x.val - y.val| ≤ 1 :=
  ⟨abs_nonneg _, abs_sub_le_iff.mpr ⟨by linarith [hx.2, hy.1], by linarith [hx.1, hy.2]⟩⟩

/-- `abs(p1 - p2)`: the sign is exact, so it may be dropped before the rounding. -/
theorem floatAbs_sub {x y : Binary64} (hx : Share x) (hy : Share y) :
    Otel.floatAbs (Otel.Float64.sub (.fin x) (.fin y)) = Otel.Float64.ofRat |x.val - y.val| := by
  obtain ⟨h0, h1⟩ := abs_sub_share hx hy
  have hdouble := Binary64.isBinary64_nearest_share h0 h1
  rw [Otel.Float64.fin_sub_fin, Otel.Float64.ofRat_of_nearest hdouble, Otel.floatAbs]
  rcases le_or_gt y.val x.val with hle | hlt
  · have habs : |x.val - y.val| = x.val - y.val := abs_of_nonneg (sub_nonneg.mpr hle)
    have hnonneg := (Binary64.nearest_share h0 h1).1
    simp only [habs] at hdouble hnonneg ⊢
    rw [Otel.Float64.ofRat_of_nearest hdouble, if_neg]
    simpa [Otel.Float64.zero, Binary64.ofInt] using hnonneg
  · -- a negative difference is rounded to the mirror image
    have habs : |x.val - y.val| = -(x.val - y.val) := abs_of_neg (sub_neg.mpr hlt)
    have hneg := (Binary64.nearest_sub_neg_iff x.isBinary64 y.isBinary64).mpr hlt
    simp only [habs, Binary64.nearest_neg] at hdouble ⊢
    have hdouble' : IsBinary64 (Binary64.nearest (x.val - y.val)) := by
      simpa using Binary64.isBinary64_neg hdouble
    rw [Otel.Float64.ofRat_of_nearest hdouble', if_pos (by
      simpa [Otel.Float64.zero, Binary64.ofInt] using hneg), Otel.floatNeg, Otel.Float64.zero,
      Otel.Float64.fin_sub_fin]
    have hzero : (Binary64.ofInt 0 Binary64.abs_zero_lt).val
        - (⟨Binary64.nearest (x.val - y.val), hdouble'⟩ : Binary64).val
        = -Binary64.nearest (x.val - y.val) := by
      simp [Binary64.ofInt]
    rw [hzero]
    exact Otel.Float64.ofRat_of_isBinary64 hdouble

/-- Keeping the greater of two floats that shares round to. -/
theorem ite_ofRat {m d : ℚ} (hm : 0 ≤ m ∧ m ≤ 1) (hd : 0 ≤ d ∧ d ≤ 1) :
    (if Otel.Float64.lt (Otel.Float64.ofRat m) (Otel.Float64.ofRat d) then Otel.Float64.ofRat d
      else Otel.Float64.ofRat m)
      = Otel.Float64.ofRat (if m < d then d else m) := by
  have hm' := Otel.Float64.ofRat_of_nearest (Binary64.isBinary64_nearest_share hm.1 hm.2)
  have hd' := Otel.Float64.ofRat_of_nearest (Binary64.isBinary64_nearest_share hd.1 hd.2)
  by_cases hlt : m < d
  · rw [if_pos hlt]
    split
    · rfl
    · next hround =>
      -- the two round to one double
      rw [hm', hd', Otel.Float64.fin_lt_fin, decide_eq_true_iff, not_lt] at hround
      rw [hm', hd']
      exact congrArg _ (Binary64.ext (le_antisymm (Binary64.nearest_monotone hlt.le) hround))
  · rw [if_neg hlt, if_neg]
    rw [hm', hd', Otel.Float64.fin_lt_fin, decide_eq_true_iff, not_lt]
    exact Binary64.nearest_monotone (not_lt.mp hlt)

namespace Pointers

variable {α β : Type}

/-- The same pointers over other numbers. -/
def map (f : α → β) (self : Pointers α) : Pointers β where
  left := (self.left.1.map (Prod.map id f), f self.left.2)
  right := (self.right.1.map (Prod.map id f), f self.right.2)

theorem advance_map (f : α → β) (self : Pointers α) (v : ℚ) :
    (self.map f).advance v = (self.advance v).map f := by
  unfold map Pointers.advance
  rw [StepFunction.advance_map, StepFunction.advance_map]

/-- All probabilities are shares. -/
structure Shares (pointers : Pointers Binary64) : Prop where
  left : (∀ p ∈ pointers.left.1, Share p.2) ∧ Share pointers.left.2
  right : (∀ p ∈ pointers.right.1, Share p.2) ∧ Share pointers.right.2

variable {pointers : Pointers Binary64}

theorem Shares.advance (h : pointers.Shares) (v : ℚ) : (pointers.advance v).Shares :=
  ⟨advance_forall v h.left.1 h.left.2, advance_forall v h.right.1 h.right.2⟩

theorem Shares.diff_eq (h : pointers.Shares) :
    (pointers.map PyFloat.fin).diff .doubles
      = Otel.Float64.ofRat ((pointers.map Binary64.val).diff .exact) := by
  rw [diff, diff, Arithmetic.doubles_abs, Arithmetic.doubles_sub, Arithmetic.exact_abs,
    Arithmetic.exact_sub]
  exact floatAbs_sub h.left.2 h.right.2

end Pointers

/-- The loop in doubles is the exact one, rounded. -/
theorem ksLoop_doubles {pointers : Pointers Binary64} (h : pointers.Shares) {m : ℚ}
    (hm : 0 ≤ m ∧ m ≤ 1) (vals : List ℚ) :
    ksLoop .doubles (pointers.map PyFloat.fin) (Otel.Float64.ofRat m) vals
      = Otel.Float64.ofRat (ksLoop .exact (pointers.map Binary64.val) m vals) := by
  induction vals generalizing pointers m with
  | nil => rfl
  | cons v rest ih =>
    have hnext := h.advance v
    set d := ((pointers.advance v).map Binary64.val).diff .exact with hd
    have hdiff : 0 ≤ d ∧ d ≤ 1 := abs_sub_share hnext.left.2 hnext.right.2
    have hmax : 0 ≤ (if m < d then d else m) ∧ (if m < d then d else m) ≤ 1 := by
      split
      · exact hdiff
      · exact hm
    have hkeep := ite_ofRat hm hdiff
    have hexact : ksLoop .exact (pointers.map Binary64.val) m (v :: rest)
        = ksLoop .exact ((pointers.advance v).map Binary64.val) (if m < d then d else m) rest := by
      simp only [ksLoop, Pointers.advance_map, Arithmetic.exact_lt, decide_eq_true_eq, hd]
    rw [hexact, ← ih hnext hmax, ← hkeep, ksLoop, Pointers.advance_map, hnext.diff_eq,
      Arithmetic.doubles_lt]

/-- **`ks_statistic` computes the exact distance, rounded.** -/
theorem ksStatistic_doubles (h₁ : ∀ p ∈ d₁, Share p.2) (h₂ : ∀ p ∈ d₂, Share p.2) :
    ksStatistic .doubles (floats d₁) (floats d₂)
      = Otel.Float64.ofRat (ksStatistic .exact (values d₁) (values d₂)) := by
  -- the early returns are the same on both sides
  have hfloats : ∀ d : List (ℚ × Binary64), floats d = [] ↔ d = [] := fun _ => List.map_eq_nil_iff
  have hvalues : ∀ d : List (ℚ × Binary64), values d = [] ↔ d = [] := fun _ => List.map_eq_nil_iff
  simp only [ksStatistic, hfloats, hvalues, Arithmetic.doubles_ofRat, Arithmetic.exact_ofRat]
  split
  · rfl
  split
  · rfl
  have hzero : Share (.ofInt 0 Binary64.abs_zero_lt) := by simp [Share, Binary64.ofInt]
  have hshares : Pointers.Shares ⟨(d₁, .ofInt 0 Binary64.abs_zero_lt),
      (d₂, .ofInt 0 Binary64.abs_zero_lt)⟩ := ⟨⟨h₁, hzero⟩, ⟨h₂, hzero⟩⟩
  -- in the loop every difference of shares is rounded once, and so is its maximum
  have hloop := ksLoop_doubles hshares ⟨le_rfl, zero_le_one⟩ (allVals (values d₁) (values d₂))
  rw [allVals_floats]
  have hstart : Pointers.start .doubles (floats d₁) (floats d₂)
      = Pointers.map PyFloat.fin ⟨(d₁, .ofInt 0 Binary64.abs_zero_lt),
        (d₂, .ofInt 0 Binary64.abs_zero_lt)⟩ := by
    have hofRat : Arithmetic.doubles.ofRat 0 = .fin (.ofInt 0 Binary64.abs_zero_lt) := by
      rw [Arithmetic.doubles_ofRat, Otel.Float64.ofRat_zero, Otel.Float64.zero]
    rw [Pointers.start, hofRat]
    rfl
  have hstart' : Pointers.start .exact (values d₁) (values d₂)
      = Pointers.map Binary64.val ⟨(d₁, .ofInt 0 Binary64.abs_zero_lt),
        (d₂, .ofInt 0 Binary64.abs_zero_lt)⟩ := by
    simp [Pointers.start, Pointers.map, values, Binary64.ofInt]
  rw [hstart, hstart']
  exact hloop

theorem ofRat_count {n : ℤ} (h : 0 ≤ n ∧ n ≤ 2 ^ 53) : Otel.Float64.ofRat (n : ℚ)
    = .fin ⟨n, Binary64.isBinary64_intCast (abs_le.mpr ⟨by omega, h.2⟩)⟩ :=
  Otel.Float64.ofRat_of_isBinary64 _

/-- The counts that are accumulated are doubles up to `2 ^ 53`, so only the quotients are rounded. -/
theorem accumulate_doubles {totalCount : ℤ} (htotal : 0 < totalCount) (hbound : totalCount ≤ 2 ^ 53)
    {points : List (ℚ × ℤ)} (hpoints : ∀ p ∈ points, 0 ≤ p.2) {cum : ℤ} (hcum : 0 ≤ cum)
    (hsum : cum + (points.map Prod.snd).sum ≤ totalCount) :
    accumulate .doubles totalCount (Otel.Float64.ofRat cum) points
      = (accumulate .exact totalCount cum points).map (Prod.map id Otel.Float64.ofRat) := by
  induction points generalizing cum with
  | nil => rfl
  | cons point rest ih =>
    obtain ⟨val, count⟩ := point
    have hcount : 0 ≤ count := hpoints (val, count) List.mem_cons_self
    -- the counts that are still to come are not negative, so no sum passes the total
    have hrest : 0 ≤ (rest.map Prod.snd).sum := by
      refine List.sum_nonneg fun n hn => ?_
      obtain ⟨p, hp, rfl⟩ := List.mem_map.mp hn
      exact hpoints p (List.mem_cons_of_mem _ hp)
    rw [List.map_cons, List.sum_cons, ← add_assoc] at hsum
    -- sums of counts are exact in doubles, being at most `2 ^ 53`
    have hadd : Otel.Float64.add (.ofRat (cum : ℚ)) (.ofRat (count : ℚ))
        = .ofRat ((cum + count : ℤ) : ℚ) := by
      rw [ofRat_count (n := cum) (by omega), ofRat_count (n := count) (by omega),
        Otel.Float64.fin_add_fin, Int.cast_add]
    -- and each quotient is rounded once
    have hdiv : Otel.Float64.div (.ofRat ((cum + count : ℤ) : ℚ)) (.ofRat (totalCount : ℚ))
        = .ofRat ((cum + count : ℤ) / totalCount : ℚ) := by
      rw [ofRat_count (n := cum + count) (by omega), ofRat_count (n := totalCount) (by omega),
        Otel.Float64.fin_div_fin _ (Int.cast_ne_zero.mpr htotal.ne')]
    have htail := ih (fun p hp => hpoints p (List.mem_cons_of_mem _ hp)) (add_nonneg hcum hcount) hsum
    rw [accumulate, accumulate, Arithmetic.doubles_ofRat, Arithmetic.doubles_ofRat,
      Arithmetic.doubles_add, hadd, Arithmetic.doubles_div, hdiv, htail, Int.cast_add]
    rfl

/-- Shares that are rounded. -/
theorem exists_floats {cdf : List (ℚ × ℚ)} (h : ∀ p ∈ cdf, 0 ≤ p.2 ∧ p.2 ≤ 1) :
    ∃ d, cdf.map (Prod.map id Otel.Float64.ofRat) = floats d
      ∧ values d = cdf.map (Prod.map id Binary64.nearest) := by
  induction cdf with
  | nil => exact ⟨[], rfl, rfl⟩
  | cons p rest ih =>
    obtain ⟨d, hfloats, hvalues⟩ := ih fun q hq => h q (List.mem_cons_of_mem p hq)
    obtain ⟨h0, h1⟩ := h p List.mem_cons_self
    have hdouble := Binary64.isBinary64_nearest_share h0 h1
    refine ⟨(p.1, ⟨Binary64.nearest p.2, hdouble⟩) :: d, ?_, ?_⟩
    · rw [List.map_cons, hfloats, Prod.map, Otel.Float64.ofRat_of_nearest hdouble]
      rfl
    · rw [List.map_cons, ← hvalues]
      rfl

theorem isCdf_nearest (h : IsCdf c₁) : IsCdf (c₁.map (Prod.map id Binary64.nearest)) where
  sorted := List.pairwise_map.mpr h.sorted
  monotone := List.pairwise_map.mpr (h.monotone.imp fun hle => Binary64.nearest_monotone hle)
  nonneg := fun p hp => by
    obtain ⟨q, hq, rfl⟩ := List.mem_map.mp hp
    exact (Binary64.nearest_share (h.nonneg q hq) (h.le_one hq)).1
  last := fun p hp => by
    rw [List.getLast?_map] at hp
    obtain ⟨q, hq, rfl⟩ := Option.map_eq_some_iff.mp hp
    rw [Prod.map, h.last q hq]
    exact Binary64.nearest_of_isBinary64 Binary64.isBinary64_one

theorem getCdf_doubles {M : IndexMapping} {cppAvailable : Bool} {log : Facade.StreamLog}
    (h : Facade.StreamLog.Reachable M cppAvailable log) (bucketValue : ℚ → ℤ → ℚ)
    (hcount : log.latencyCount ≤ 2 ^ 53) :
    getCdf .doubles bucketValue log
      = (getCdf .exact bucketValue log).map (Prod.map id Otel.Float64.ofRat) := by
  obtain ⟨pts, -, hcounts, hsum, hnonneg, heq⟩ := getCdf_eq h bucketValue
  rw [heq, heq]
  by_cases hzero : log.latencyCount = 0
  · rw [if_pos hzero, if_pos hzero]
    rfl
  · rw [if_neg hzero, if_neg hzero, Arithmetic.exact_ofRat]
    have hrun := accumulate_doubles (lt_of_le_of_ne hnonneg (Ne.symm hzero)) hcount hcounts
      le_rfl (by rw [hsum, zero_add])
    rw [Int.cast_zero] at hrun
    rw [Arithmetic.doubles_ofRat, hrun]

/-! ## The distances as the code computes them

In doubles each share and each difference is rounded once, so symmetry and identity stay and the
triangle inequality does not. The area is stated of exact arithmetic. -/

/-- The exact distance is one of two doubles. -/
theorem ks_eq_abs_sub (h₁ : IsCdf (values d₁)) (h₂ : IsCdf (values d₂)) :
    ∃ x y : ℚ, IsBinary64 x ∧ IsBinary64 y
      ∧ ksStatistic .exact (values d₁) (values d₂) = |x - y| := by
  have hdouble : ∀ (d : List (ℚ × Binary64)) (v : ℚ), IsBinary64 (valueAt (values d) v) := by
    intro d v
    rcases eval_mem (0 : ℚ) (values d) v with hzero | ⟨p, hp, hvalue⟩
    · rw [valueAt, hzero]
      exact Binary64.isBinary64_zero
    · obtain ⟨q, -, rfl⟩ := List.mem_map.mp hp
      rw [valueAt, hvalue]
      exact q.2.isBinary64
  obtain ⟨⟨x, hx⟩, -⟩ := ks_isGreatest h₁ h₂
  have hvalue : |stepAt (values d₁) x - stepAt (values d₂) x|
      = ((ksStatistic .exact (values d₁) (values d₂) : ℚ) : ℝ) := hx
  rcases exists_val (values d₁) (values d₂) x with ⟨hx₁, hx₂⟩ | ⟨v, -, hx₁, hx₂⟩
  · rw [hx₁, hx₂, sub_self, abs_zero] at hvalue
    refine ⟨0, 0, Binary64.isBinary64_zero, Binary64.isBinary64_zero, ?_⟩
    rw [sub_self, abs_zero]
    exact_mod_cast hvalue.symm
  · rw [hx₁, hx₂, gap_ratCast] at hvalue
    exact ⟨_, _, hdouble d₁ v, hdouble d₂ v, Rat.cast_injective hvalue.symm⟩

/-- **The answer of `ks_statistic`**: the exact distance, up to a `2 ^ 53`-th part of it. -/
theorem exists_ks (h₁ : IsCdf (values d₁)) (h₂ : IsCdf (values d₂)) :
    ∃ ks : Binary64, ksStatistic .doubles (floats d₁) (floats d₂) = .fin ks
      ∧ ks.val = Binary64.nearest (ksStatistic .exact (values d₁) (values d₂))
      ∧ |ks.val - ksStatistic .exact (values d₁) (values d₂)|
        ≤ ksStatistic .exact (values d₁) (values d₂) / 2 ^ 53 := by
  obtain ⟨h0, h1⟩ := ks_mem h₁ h₂
  refine ⟨⟨_, Binary64.isBinary64_nearest_share h0 h1⟩, ?_, rfl, ?_⟩
  · rw [ksStatistic_doubles h₁.share h₂.share, Otel.Float64.ofRat_of_nearest]
  · obtain ⟨x, y, hx, hy, heq⟩ := ks_eq_abs_sub h₁ h₂
    show |Binary64.nearest _ - _| ≤ _
    rw [heq]
    rcases le_total y x with hle | hle
    · rw [abs_of_nonneg (sub_nonneg.mpr hle)]
      have hround := Binary64.abs_nearest_sub_sub_le hx hy
      rwa [abs_of_nonneg (sub_nonneg.mpr hle)] at hround
    · rw [abs_sub_comm x y, abs_of_nonneg (sub_nonneg.mpr hle)]
      have hround := Binary64.abs_nearest_sub_sub_le hy hx
      rwa [abs_of_nonneg (sub_nonneg.mpr hle)] at hround

/-- The triangle inequality, up to the roundings of its three distances. -/
theorem triangle_of_rounded {x y z a b c : ℚ} (htriangle : z ≤ x + y) (hx : |a - x| ≤ x / 2 ^ 53)
    (hy : |b - y| ≤ y / 2 ^ 53) (hz : |c - z| ≤ z / 2 ^ 53) :
    c * (1 - 1 / 2 ^ 53) ≤ (a + b) * (1 + 1 / 2 ^ 53) := by
  rw [abs_le] at hx hy hz
  have hupper : c ≤ z * (1 + 1 / 2 ^ 53) := by linarith
  have hlower : (x + y) * (1 - 1 / 2 ^ 53) ≤ a + b := by linarith
  calc c * (1 - 1 / 2 ^ 53)
      ≤ z * (1 + 1 / 2 ^ 53) * (1 - 1 / 2 ^ 53) := mul_le_mul_of_nonneg_right hupper (by norm_num)
    _ ≤ (x + y) * (1 - 1 / 2 ^ 53) * (1 + 1 / 2 ^ 53) := by linarith
    _ ≤ (a + b) * (1 + 1 / 2 ^ 53) := mul_le_mul_of_nonneg_right hlower (by norm_num)

/-- **`ks_statistic` is the Kolmogorov-Smirnov distance, rounded**, of the step functions that lists
of `get_cdf` denote. -/
theorem ksStatistic_distance {M : IndexMapping} {cppAvailable : Bool} {log : Facade.StreamLog}
    (h : Facade.StreamLog.Reachable M cppAvailable log) (bucketValue : ℚ → ℤ → ℚ)
    (h₁ : IsCdf (values d₁)) (h₂ : IsCdf (values d₂)) (h₃ : IsCdf (values d₃)) :
    (log.latencyCount ≤ 2 ^ 53 →
        ∃ d, getCdf .doubles bucketValue log = floats d ∧ IsCdf (values d))
      ∧ ∃ ks₁₂ ks₂₃ ks₁₃ : Binary64,
        ksStatistic .doubles (floats d₁) (floats d₂) = .fin ks₁₂
        ∧ ksStatistic .doubles (floats d₂) (floats d₃) = .fin ks₂₃
        ∧ ksStatistic .doubles (floats d₁) (floats d₃) = .fin ks₁₃
        ∧ (∃ greatest : ℚ,
          IsLUB (Set.range fun x : ℝ => |stepAt (values d₁) x - stepAt (values d₂) x|) (greatest : ℝ)
          ∧ ks₁₂.val = Binary64.nearest greatest ∧ |ks₁₂.val - greatest| ≤ greatest / 2 ^ 53)
        ∧ 0 ≤ ks₁₂.val ∧ ks₁₂.val ≤ 1
        ∧ ksStatistic .doubles (floats d₂) (floats d₁) = .fin ks₁₂
        ∧ ks₁₃.val * (1 - 1 / 2 ^ 53) ≤ (ks₁₂.val + ks₂₃.val) * (1 + 1 / 2 ^ 53)
        ∧ (ks₁₂.val = 0 ↔ stepAt (values d₁) = stepAt (values d₂))
        ∧ ksStatistic .doubles [] [] = Otel.Float64.zero
        ∧ (d₁ ≠ [] → ksStatistic .doubles [] (floats d₁) = Otel.Float64.one
          ∧ ksStatistic .doubles (floats d₁) [] = Otel.Float64.one) := by
  constructor
  · intro hcount
    have hcdf := isCdf_getCdf h bucketValue
    obtain ⟨d, hfloats, hvalues⟩ := exists_floats fun p hp => ⟨hcdf.nonneg p hp, hcdf.le_one hp⟩
    exact ⟨d, (getCdf_doubles h bucketValue hcount).trans hfloats, hvalues ▸ isCdf_nearest hcdf⟩
  obtain ⟨ks₁₂, hrun₁₂, hround₁₂, herror₁₂⟩ := exists_ks h₁ h₂
  obtain ⟨ks₂₃, hrun₂₃, -, herror₂₃⟩ := exists_ks h₂ h₃
  obtain ⟨ks₁₃, hrun₁₃, -, herror₁₃⟩ := exists_ks h₁ h₃
  have hmem := ks_mem h₁ h₂
  have hshare := Binary64.nearest_share hmem.1 hmem.2
  rw [← hround₁₂] at hshare
  refine ⟨ks₁₂, ks₂₃, ks₁₃, hrun₁₂, hrun₂₃, hrun₁₃,
    ⟨_, (ks_isGreatest h₁ h₂).isLUB, hround₁₂, herror₁₂⟩,
    hshare.1, hshare.2, ?_, ?_, ?_, ?_, ?_⟩
  · rw [ksStatistic_doubles h₂.share h₁.share, ← ks_symm h₁ h₂,
      ← ksStatistic_doubles h₁.share h₂.share, hrun₁₂]
  · exact triangle_of_rounded (ks_triangle h₁ h₂ h₃) herror₁₂ herror₂₃ herror₁₃
  · rw [← ks_eq_zero_iff h₁ h₂]
    constructor
    · intro hzero
      rw [hzero, zero_sub, abs_neg, abs_of_nonneg hmem.1] at herror₁₂
      linarith [hmem.1]
    · intro hzero
      rw [hround₁₂, hzero, Binary64.nearest_zero]
  · rw [ksStatistic, if_pos ⟨rfl, rfl⟩, Arithmetic.doubles_ofRat, Otel.Float64.ofRat_zero]
  · intro hne
    have hne' : floats d₁ ≠ [] := fun hnil => hne (List.map_eq_nil_iff.mp hnil)
    constructor
    · rw [ksStatistic, if_neg fun hboth => hne' hboth.2, if_pos (Or.inl rfl),
        Arithmetic.doubles_ofRat, Otel.Float64.ofRat_one]
    · rw [ksStatistic, if_neg fun hboth => hne' hboth.1, if_pos (Or.inr rfl),
        Arithmetic.doubles_ofRat, Otel.Float64.ofRat_one]

/-- A log of accuracy `1/2` with `k` latencies 1 and the rest of ten latencies 3. -/
def tenLatencies (k : ℕ) : Facade.StreamLog :=
  ⟨⟨.fin Binary64.half, 4, 2, 1, true⟩,
    .python (Imperative.after (Sketchlog.StreamLog.ingest .ternary (.batch
      (List.replicate k (.fin (.ofInt 1 Binary64.abs_one_lt))
        ++ List.replicate (10 - k) (.fin (.ofInt 3 Binary64.abs_three_lt)))))
      (Sketchlog.StreamLog.emptyOf Facade.StreamLog.halfShape true))⟩

theorem reachable_tenLatencies (k : ℕ) :
    Facade.StreamLog.Reachable .ternary false (tenLatencies k) :=
  .python _ (.new _ (Facade.StreamLog.new_half true))

/-- `k / 10` as a double. -/
def tenths (k : ℕ) (h : IsBinary64 (Binary64.nearest (k / 10))) : Binary64 := ⟨_, h⟩

/-- A list of `get_cdf` that has so many tenths of its latencies in the bucket 0 and all up to the
bucket 1. -/
def tenthsCdf (k : ℕ) (h : IsBinary64 (Binary64.nearest (k / 10))) : List (ℚ × Binary64) :=
  [(0, tenths k h), (1, .ofInt 1 Binary64.abs_one_lt)]

theorem isCdf_tenthsCdf {k : ℕ} (h : IsBinary64 (Binary64.nearest (k / 10)))
    (h0 : 0 ≤ Binary64.nearest (k / 10)) (h1 : Binary64.nearest (k / 10) ≤ 1) :
    IsCdf (values (tenthsCdf k h)) := by
  refine ⟨?_, ?_, ?_, ?_⟩
  · simp [values, tenthsCdf]
  · simpa [values, tenthsCdf, tenths, Binary64.ofInt] using h1
  · simpa [values, tenthsCdf, tenths, Binary64.ofInt] using h0
  · simp [values, tenthsCdf, Binary64.ofInt]

/-- What `get_cdf` gives, where there are low and high latencies. -/
theorem getCdf_tenLatencies {k : ℕ} (h : IsBinary64 (Binary64.nearest (k / 10)))
    (hcount : (latencyState (tenLatencies k)).count = 10)
    (hpoints : points (fun _ i => i) (latencyState (tenLatencies k))
      = [(0, (k : ℤ)), (1, 10 - (k : ℤ))]) :
    getCdf .doubles (fun _ i => i) (tenLatencies k) = floats (tenthsCdf k h) := by
  have hexact : getCdf .exact (fun _ i => i) (tenLatencies k) = [(0, (k : ℚ) / 10), (1, 1)] := by
    rw [getCdf, hcount, if_neg (by norm_num), hpoints, List.mergeSort_of_pairwise (by simp)]
    simp [accumulate]
  rw [getCdf_doubles (reachable_tenLatencies k) _ (by rw [← latencyState_count, hcount]; norm_num),
    hexact, List.map_cons, Prod.map, Otel.Float64.ofRat_of_nearest h, List.map_singleton, Prod.map,
    Otel.Float64.ofRat_one]
  rfl

theorem ks_tenthsCdf {j k : ℕ} (hj : IsBinary64 (Binary64.nearest (j / 10)))
    (hk : IsBinary64 (Binary64.nearest (k / 10))) :
    ksStatistic .exact (values (tenthsCdf j hj)) (values (tenthsCdf k hk))
      = |Binary64.nearest (j / 10) - Binary64.nearest (k / 10)| := by
  have hvals : allVals (values (tenthsCdf j hj)) (values (tenthsCdf k hk)) = [0, 1] := by
    have hfinset : ([0, 1, 0, 1] : List ℚ).toFinset = [0, 1].toFinset := by decide +kernel
    show ([0, 1, 0, 1] : List ℚ).toFinset.sort (· ≤ ·) = [0, 1]
    rw [hfinset]
    exact (List.toFinset_sort (· ≤ ·) (by decide +kernel)).mpr (by simp)
  have hnot : ¬ (values (tenthsCdf j hj) = [] ∧ values (tenthsCdf k hk) = []) :=
    fun h => absurd h.1 (List.cons_ne_nil _ _)
  have hnot' : ¬ (values (tenthsCdf j hj) = [] ∨ values (tenthsCdf k hk) = []) := by
    rintro (h | h) <;> exact absurd h (List.cons_ne_nil _ _)
  rw [ksStatistic, if_neg hnot, if_neg hnot', hvals]
  have hnext : ¬ (1 : ℚ) ≤ 0 := by norm_num
  simp only [ksLoop, Pointers.advance, Pointers.start, Pointers.diff, StepFunction.advance, values,
    tenthsCdf, tenths, Binary64.ofInt, List.map_cons, List.map_nil, Prod.map, id, hnext, if_pos,
    if_false, le_refl, Arithmetic.exact_abs, Arithmetic.exact_sub, Arithmetic.exact_lt]
  -- at the second value both functions are at one
  by_cases hzero : Binary64.nearest (j / 10) - Binary64.nearest (k / 10) = 0
  · simp [hzero]
  · simp [hzero]

/-- `get_cdf` of a log with one low latency among ten, and the distance of one and two. -/
theorem ksStatistic_distance_tenths :
    (∃ d, getCdf .doubles (fun _ i => i) (tenLatencies 1) = floats d ∧ IsCdf (values d))
    ∧ ∃ ks : Binary64, ksStatistic .doubles (floats (tenthsCdf 1 (by decide +kernel)))
        (floats (tenthsCdf 2 (by decide +kernel))) = .fin ks ∧ 0 < ks.val ∧ ks.val ≤ 1 := by
  have hone := isCdf_tenthsCdf (k := 1) (by decide +kernel) (by decide +kernel) (by decide +kernel)
  have htwo := isCdf_tenthsCdf (k := 2) (by decide +kernel) (by decide +kernel) (by decide +kernel)
  obtain ⟨hcdf, ks, _, _, hrun, -, -, -, hnonneg, hle, -, -, hzero, -⟩ :=
    ksStatistic_distance (reachable_tenLatencies 1) (fun _ i => i) hone htwo hone
  refine ⟨hcdf (by decide +kernel), ks, hrun, lt_of_le_of_ne hnonneg fun h => ?_, hle⟩
  -- the step functions differ at zero
  have hsame := congrFun (hzero.mp h.symm) ((0 : ℚ) : ℝ)
  rw [stepAt_ratCast, stepAt_ratCast, Rat.cast_inj] at hsame
  exact absurd hsame (by decide +kernel)

/-- **The rounding shows**: among ten latencies, one, two and nine are low. The distances of the
first list and the second, and of the second and the third, are together below that of the first and
the third, which is not the supremum. -/
theorem ks_triangle_tenths :
    ∃ d₁ d₂ d₃ : List (ℚ × Binary64),
      (∃ log, Facade.StreamLog.Reachable .ternary false log
        ∧ getCdf .doubles (fun _ i => i) log = floats d₁)
      ∧ (∃ log, Facade.StreamLog.Reachable .ternary false log
        ∧ getCdf .doubles (fun _ i => i) log = floats d₂)
      ∧ (∃ log, Facade.StreamLog.Reachable .ternary false log
        ∧ getCdf .doubles (fun _ i => i) log = floats d₃)
      ∧ ∃ ks₁₂ ks₂₃ ks₁₃ : Binary64, ksStatistic .doubles (floats d₁) (floats d₂) = .fin ks₁₂
        ∧ ksStatistic .doubles (floats d₂) (floats d₃) = .fin ks₂₃
        ∧ ksStatistic .doubles (floats d₁) (floats d₃) = .fin ks₁₃
        ∧ ks₁₂.val + ks₂₃.val < ks₁₃.val
        ∧ ¬ IsLUB (Set.range fun x : ℝ => |stepAt (values d₁) x - stepAt (values d₃) x|)
          (ks₁₃.val : ℝ) := by
  -- one, two and nine low values of ten
  have hone := isCdf_tenthsCdf (k := 1) (by decide +kernel) (by decide +kernel) (by decide +kernel)
  have htwo := isCdf_tenthsCdf (k := 2) (by decide +kernel) (by decide +kernel) (by decide +kernel)
  have hnine := isCdf_tenthsCdf (k := 9) (by decide +kernel) (by decide +kernel) (by decide +kernel)
  obtain ⟨ks₁₂, hrun₁₂, hround₁₂, -⟩ := exists_ks hone htwo
  obtain ⟨ks₂₃, hrun₂₃, hround₂₃, -⟩ := exists_ks htwo hnine
  obtain ⟨ks₁₃, hrun₁₃, hround₁₃, -⟩ := exists_ks hone hnine
  refine ⟨_, _, _,
    ⟨_, reachable_tenLatencies 1, getCdf_tenLatencies _ (by decide +kernel) (by decide +kernel)⟩,
    ⟨_, reachable_tenLatencies 2, getCdf_tenLatencies _ (by decide +kernel) (by decide +kernel)⟩,
    ⟨_, reachable_tenLatencies 9, getCdf_tenLatencies _ (by decide +kernel) (by decide +kernel)⟩,
    ks₁₂, ks₂₃, ks₁₃, hrun₁₂, hrun₂₃, hrun₁₃, ?_, ?_⟩
  · -- the roundings of the first two distances are together smaller than that of the third
    rw [hround₁₂, hround₂₃, hround₁₃, ks_tenthsCdf, ks_tenthsCdf, ks_tenthsCdf]
    decide +kernel
  · -- the supremum is the exact distance, and the rounded one is another number
    intro hlub
    have hexact := hlub.unique (ks_isGreatest hone hnine).isLUB
    rw [Rat.cast_inj, hround₁₃, ks_tenthsCdf] at hexact
    exact absurd hexact (by decide +kernel)

/-- Two lists of `get_cdf`: half of the values at 0 and half at 1, and all at 0. -/
theorem isCdf_halves : IsCdf [(0, 1 / 2), (1, 1)] ∧ IsCdf [(0, 1)] := by
  constructor
  · exact ⟨by simp, by norm_num, by simp, by simp⟩
  · exact ⟨by simp, by simp, by simp, by simp⟩

/-- All values multiplied by `k`. -/
def scale (k : ℚ) (cdf : List (ℚ × ℚ)) : List (ℚ × ℚ) := cdf.map fun p => (k * p.1, p.2)

theorem isCdf_scale {k : ℚ} (hk : 0 < k) (h : IsCdf c₁) : IsCdf (scale k c₁) where
  sorted := List.pairwise_map.mpr (h.sorted.imp fun hle => mul_le_mul_of_nonneg_left hle hk.le)
  monotone := List.pairwise_map.mpr h.monotone
  nonneg := fun p hp => by
    obtain ⟨q, hq, rfl⟩ := List.mem_map.mp hp
    exact h.nonneg q hq
  last := fun p hp => by
    rw [scale, List.getLast?_map] at hp
    obtain ⟨q, hq, rfl⟩ := Option.map_eq_some_iff.mp hp
    exact h.last q hq

theorem stepAt_scale {k : ℚ} (hk : 0 < k) (cdf : List (ℚ × ℚ)) (x : ℝ) :
    stepAt (scale k cdf) ((k : ℝ) * x) = stepAt cdf x := by
  have hpos : (0 : ℝ) < k := by exact_mod_cast hk
  have hmap := eval_map (f := fun a : ℝ => (k : ℝ) * a) (fun a b => mul_le_mul_iff_right₀ hpos)
    (fun b : ℝ => b) 0
    (cdf.map fun p => ((p.1 : ℝ), (p.2 : ℝ))) x
  have hpoints : ((scale k cdf).map fun p => ((p.1 : ℝ), (p.2 : ℝ)))
      = (cdf.map fun p => ((p.1 : ℝ), (p.2 : ℝ))).map fun p => ((k : ℝ) * p.1, p.2) := by
    rw [scale, List.map_map, List.map_map]
    refine List.map_congr_left fun p _ => ?_
    show (((k * p.1 : ℚ) : ℝ), (p.2 : ℝ)) = _
    rw [Rat.cast_mul]
    rfl
  rw [stepAt, hpoints]
  exact hmap

theorem wasserstein_scale (h₁ : IsCdf c₁) (h₂ : IsCdf c₂) (hne₁ : c₁ ≠ []) (hne₂ : c₂ ≠ []) {k : ℚ}
    (hk : 0 < k) :
    wassersteinDistance .exact (scale k c₁) (scale k c₂) = k * wassersteinDistance .exact c₁ c₂ := by
  have hpos : (0 : ℝ) < k := by exact_mod_cast hk
  have hne : ∀ {c : List (ℚ × ℚ)}, c ≠ [] → scale k c ≠ [] :=
    fun h hnil => h (List.map_eq_nil_iff.mp hnil)
  have hscaled := (wasserstein_eq_integral (isCdf_scale hk h₁) (isCdf_scale hk h₂) (hne hne₁)
    (hne hne₂)).2
  have hplain := (wasserstein_eq_integral h₁ h₂ hne₁ hne₂).2
  have hchange := MeasureTheory.Measure.integral_comp_mul_left
    (fun x : ℝ => |stepAt (scale k c₁) x - stepAt (scale k c₂) x|) (k : ℝ)
  simp only [stepAt_scale hk] at hchange
  rw [← hplain, ← hscaled, abs_of_pos (inv_pos.mpr hpos), smul_eq_mul] at hchange
  have hreal : ((wassersteinDistance .exact (scale k c₁) (scale k c₂) : ℚ) : ℝ)
    = (k : ℝ) * wassersteinDistance .exact c₁ c₂ := by
    rw [hchange, mul_inv_cancel_left₀ hpos.ne']
  exact_mod_cast hreal

theorem wasserstein_eq_zero_iff (h₁ : IsCdf c₁) (h₂ : IsCdf c₂) (hne₁ : c₁ ≠ []) (hne₂ : c₂ ≠ []) :
    wassersteinDistance .exact c₁ c₂ = 0 ↔ stepAt c₁ = stepAt c₂ := by
  constructor
  · intro hzero
    rw [wassersteinDistance_eq h₁ h₂] at hzero
    have hgap : ∀ v ∈ allVals c₁ c₂, gap c₁ c₂ v = 0 :=
      eq_zero_of_area (fun _ => abs_nonneg _) (allVals_sorted c₁ c₂) (fun _ =>
        gap_last h₁ h₂ hne₁ hne₂) hzero
    funext x
    rcases exists_val c₁ c₂ x with ⟨hx₁, hx₂⟩ | ⟨v, hv, hx₁, hx₂⟩
    · rw [hx₁, hx₂]
    · have hvalue := gap_ratCast c₁ c₂ v
      rw [hgap v hv, Rat.cast_zero] at hvalue
      rw [hx₁, hx₂]
      exact sub_eq_zero.mp (abs_eq_zero.mp hvalue)
  · intro hsame
    have hintegral := (wasserstein_eq_integral h₁ h₂ hne₁ hne₂).2
    simp only [hsame, sub_self, abs_zero, MeasureTheory.integral_zero] at hintegral
    exact_mod_cast hintegral

theorem wasserstein_triangle (h₁ : IsCdf c₁) (h₂ : IsCdf c₂) (h₃ : IsCdf c₃) (hne₁ : c₁ ≠ [])
    (hne₂ : c₂ ≠ []) (hne₃ : c₃ ≠ []) :
    wassersteinDistance .exact c₁ c₃
      ≤ wassersteinDistance .exact c₁ c₂ + wassersteinDistance .exact c₂ c₃ := by
  obtain ⟨hint₁₂, heq₁₂⟩ := wasserstein_eq_integral h₁ h₂ hne₁ hne₂
  obtain ⟨hint₂₃, heq₂₃⟩ := wasserstein_eq_integral h₂ h₃ hne₂ hne₃
  obtain ⟨hint₁₃, heq₁₃⟩ := wasserstein_eq_integral h₁ h₃ hne₁ hne₃
  have hsum : ((wassersteinDistance .exact c₁ c₃ : ℚ) : ℝ)
      ≤ (wassersteinDistance .exact c₁ c₂ : ℚ) + (wassersteinDistance .exact c₂ c₃ : ℚ) := by
    rw [heq₁₂, heq₂₃, heq₁₃, ← MeasureTheory.integral_add hint₁₂ hint₂₃]
    exact MeasureTheory.integral_mono hint₁₃ (hint₁₂.add hint₂₃) fun x => abs_sub_le _ _ _
  exact_mod_cast hsum

/-- **`wasserstein_distance` is the integral** of the difference of the step functions that two
non-empty lists of `get_cdf` denote. -/
theorem wassersteinDistance_integral {M : IndexMapping} {cppAvailable : Bool} {log : Facade.StreamLog}
    (h : Facade.StreamLog.Reachable M cppAvailable log) (bucketValue : ℚ → ℤ → ℚ) (h₁ : IsCdf c₁)
    (h₂ : IsCdf c₂)
    (h₃ : IsCdf c₃) (hne₁ : c₁ ≠ []) (hne₂ : c₂ ≠ []) (hne₃ : c₃ ≠ []) :
    IsCdf (getCdf .exact bucketValue log)
      ∧ MeasureTheory.Integrable (fun x : ℝ => |stepAt c₁ x - stepAt c₂ x|)
      ∧ ((wassersteinDistance .exact c₁ c₂ : ℚ) : ℝ) = ∫ x : ℝ, |stepAt c₁ x - stepAt c₂ x|
      ∧ wassersteinDistance .exact c₁ c₂ = wassersteinDistance .exact c₂ c₁
      ∧ wassersteinDistance .exact c₁ c₃ ≤ wassersteinDistance .exact c₁ c₂ + wassersteinDistance
        .exact c₂ c₃
      ∧ (wassersteinDistance .exact c₁ c₂ = 0 ↔ stepAt c₁ = stepAt c₂)
      ∧ ∀ k : ℚ, 0 < k → wassersteinDistance .exact (scale k c₁) (scale k c₂)
        = k * wassersteinDistance .exact c₁ c₂ := by
  obtain ⟨hintegrable, hintegral⟩ := wasserstein_eq_integral h₁ h₂ hne₁ hne₂
  have hswap := (wasserstein_eq_integral h₂ h₁ hne₂ hne₁).2
  simp only [abs_sub_comm (stepAt c₂ _)] at hswap
  exact ⟨isCdf_getCdf h bucketValue, hintegrable, hintegral,
    Rat.cast_injective (hintegral.trans hswap.symm),
    wasserstein_triangle h₁ h₂ h₃ hne₁ hne₂ hne₃, wasserstein_eq_zero_iff h₁ h₂ hne₁ hne₂,
    fun k hk => wasserstein_scale h₁ h₂ hne₁ hne₂ hk⟩

theorem wassersteinDistance_integral_halves : ∃ log, Facade.StreamLog.Reachable .ternary false log
    ∧ IsCdf (getCdf .exact (fun _ i => i) log)
    ∧ ((wassersteinDistance .exact [(0, 1 / 2), (1, 1)] [(0, 1)] : ℚ) : ℝ)
      = ∫ x : ℝ, |stepAt [(0, 1 / 2), (1, 1)] x - stepAt [(0, 1)] x| := by
  obtain ⟨log, hreach, -⟩ := Facade.StreamLog.exists_log_one
  obtain ⟨hcdf, -, hintegral, -⟩ :=
    wassersteinDistance_integral hreach (fun _ i => i) isCdf_halves.1 isCdf_halves.2
    isCdf_halves.1 (List.cons_ne_nil _ _) (List.cons_ne_nil _ _) (List.cons_ne_nil _ _)
  exact ⟨log, hreach, hcdf, hintegral⟩

end Sketchlog.Diff
