import Sketchlog.Python.Canary
import Sketchlog.Properties.Distances

/-!
# The verdict and the confidence of a canary

The verdict is the worst over the judged figures, the confidence the greatest score over them. A
figure whose two thresholds are apart scores 1 when it reaches the second; one whose thresholds are
the same scores 0 wherever it is. A `nan` among the figure and its thresholds makes the score 1, and
so does a figure so close below its second threshold that the two distances from the first one round
to the same double. So verdict and confidence agree exactly when some figure speaks for both
(`ScoresAgree`), and there are both only for a budget below one. `Compared` says of the two streams
what their figures are.
-/

namespace Sketchlog.Canary

open Checked Otel

/-! ## The order of floats

Comparisons with `nan` are false both ways, so `<` and `<=` are not each other's negation. -/

@[simp] theorem le_fin (x y : Binary64) : le (.fin x) (.fin y) ↔ x.val ≤ y.val := by
  simp [le, floatGe]

@[simp] theorem lt_fin (x y : Binary64) : lt (.fin x) (.fin y) ↔ x.val < y.val := by
  simp [lt]

theorem not_le_of_lt {x y : PyFloat} (h : lt x y) : ¬ le y x := by
  intro hle
  cases x <;> cases y <;> simp_all [lt, le, floatGe, Float64.lt]

theorem lt_of_not_le {x y : PyFloat} (hx : x ≠ .nan) (hy : y ≠ .nan) (h : ¬ le y x) : lt x y := by
  cases x <;> cases y <;> simp_all [lt, le, floatGe, Float64.lt]

theorem lt_of_lt_of_le {x y z : PyFloat} (hxy : lt x y) (hyz : le y z) : lt x z := by
  cases x with
  | nan => cases hxy
  | inf a =>
    cases y with
    | nan => simp [lt, Float64.lt] at hxy
    | inf b => cases z <;> simp_all [lt, le, floatGe, Float64.lt]
    | fin y => cases z <;> simp_all [lt, le, floatGe, Float64.lt]
  | fin x =>
    cases y with
    | nan => simp [lt, Float64.lt] at hxy
    | inf b => cases z <;> simp_all [lt, le, floatGe, Float64.lt]
    | fin y =>
      cases z with
      | nan => simp [le, floatGe] at hyz
      | inf c => simpa [lt, le, floatGe, Float64.lt] using hyz
      | fin z => exact (lt_fin x z).mpr (((lt_fin x y).mp hxy).trans_le ((le_fin y z).mp hyz))

/-! ## One figure

When a figure rolls back and when its score is one. The two part where the distances of the score
round to the same double, where the score is computed from a `nan`, and where the threshold for a
warning is not below the other one. -/

namespace Metric

variable {m : Metric}

/-- Thresholds that `__post_init__` lets through. -/
def Sound (m : Metric) : Prop :=
  ¬ lt m.warning Float64.zero ∧ ¬ lt m.rollback Float64.zero ∧ ¬ lt m.rollback m.warning

/-- The quotient of the score is computed, and is `nan`. -/
def Undefined (m : Metric) : Prop :=
  ¬ le m.rollback m.warning ∧ ¬ le m.value m.warning
    ∧ (m.value = .nan ∨ m.warning = .nan ∨ m.rollback = .nan)

/-- The figure is below its rollback threshold, but its distance from the threshold for a warning
rounds to the same double. -/
def Close (m : Metric) : Prop :=
  ∃ v w r : Binary64, m.value = .fin v ∧ m.warning = .fin w ∧ m.rollback = .fin r
    ∧ w.val < v.val ∧ v.val < r.val
    ∧ Binary64.nearest (v.val - w.val) = Binary64.nearest (r.val - w.val)

/-- The figure reaches its rollback threshold, which lies above the one for a warning. -/
def ReachesApart (m : Metric) : Prop := lt m.warning m.rollback ∧ le m.rollback m.value

theorem verdict_eq_rollback : m.verdict = .rollbackRecommended ↔ le m.rollback m.value := by
  unfold verdict metricVerdict
  split
  · next h => exact iff_of_true rfl h
  · next h =>
    split
    · exact iff_of_false (by decide) h
    · exact iff_of_false (by decide) h

theorem verdict_eq_safe :
    m.verdict = .safe ↔ ¬ le m.rollback m.value ∧ ¬ le m.warning m.value := by
  unfold verdict metricVerdict
  split
  · next h => exact iff_of_false (by decide) fun hnot => hnot.1 h
  · next h =>
    split
    · next hw => exact iff_of_false (by decide) fun hnot => hnot.2 hw
    · next hw => exact iff_of_true rfl ⟨h, hw⟩

/-- A positive difference with a number that is not negative. -/
theorem exists_sub {x w : Binary64} (hw : 0 ≤ w.val) (h : w.val < x.val) :
    ∃ d : Binary64, Float64.sub (.fin x) (.fin w) = .fin d
      ∧ d.val = Binary64.nearest (x.val - w.val) ∧ 0 < d.val := by
  have hpos : 0 < x.val - w.val := sub_pos.mpr h
  have hdouble := Binary64.isBinary64_nearest x hpos (sub_le_self _ hw)
  refine ⟨⟨_, hdouble⟩, ?_, rfl, ?_⟩
  · rw [Float64.fin_sub_fin, Float64.ofRat_of_nearest hdouble]
  · -- doubles that differ have a difference that is not rounded away
    have hneg := (Binary64.nearest_sub_neg_iff w.isBinary64 x.isBinary64).mpr h
    rw [← neg_sub, Binary64.nearest_neg] at hneg
    exact neg_neg_iff_pos.mp hneg

/-- The quotient of two positive floats, cut at one. -/
theorem exists_quotient {a b : Binary64} (ha : 0 < a.val) (hb : 0 < b.val) :
    ∃ x : Binary64, atMostOne (Float64.div (.fin a) (.fin b)) = .fin x ∧ 0 ≤ x.val ∧ x.val ≤ 1
      ∧ (x.val = 1 ↔ b.val ≤ a.val) := by
  have hquot : 0 < a.val / b.val := div_pos ha hb
  rw [Float64.fin_div_fin a hb.ne', atMostOne]
  -- a quotient below one is not rounded up to one
  rcases lt_or_ge a.val b.val with hlt | hge
  · have hle : a.val / b.val ≤ 1 := ((div_lt_one hb).mpr hlt).le
    have hdouble := Binary64.isBinary64_nearest_share hquot.le hle
    have hbelow : Binary64.nearest (a.val / b.val) < 1 :=
      (Binary64.nearest_div_lt_one_iff a.isBinary64 b.isBinary64 hb.ne').mpr ((div_lt_one hb).mpr hlt)
    rw [Float64.ofRat_of_nearest hdouble, if_pos (by
      simpa [Float64.one, Binary64.ofInt] using hbelow)]
    exact ⟨_, rfl, (Binary64.nearest_share hquot.le hle).1, hbelow.le,
      iff_of_false hbelow.ne (not_le.mpr hlt)⟩
  · -- a quotient from one on is cut off, also when it overflows
    have hnot : ¬ (Float64.ofRat (a.val / b.val)).lt .one = true := by
      unfold Float64.ofRat
      split
      · have hround : ¬ Binary64.nearest (a.val / b.val) < 1 := by
          rw [Binary64.nearest_div_lt_one_iff a.isBinary64 b.isBinary64 hb.ne', div_lt_one hb]
          exact not_lt.mpr hge
        simpa [Float64.one, Binary64.ofInt] using hround
      · rw [decide_eq_false hquot.not_gt]
        decide
    rw [if_neg hnot]
    exact ⟨.ofInt 1 Binary64.abs_one_lt, rfl, by simp [Binary64.ofInt], by simp [Binary64.ofInt],
      iff_of_true (by simp [Binary64.ofInt]) hge⟩

/-- Above a threshold that is not negative, and with another one above it, the threshold is a
number. -/
theorem exists_warning {w x : PyFloat} (hw : ¬ lt w Float64.zero) (h : lt w x) :
    ∃ w' : Binary64, w = .fin w' ∧ 0 ≤ w'.val ∧ (x = .inf false ∨ ∃ x' : Binary64, x = .fin x') := by
  cases w with
  | nan => cases h
  | inf negative =>
    cases negative with
    | true => exact absurd rfl hw
    | false => cases x <;> simp [lt, Float64.lt] at h
  | fin w =>
    refine ⟨w, rfl, not_lt.mp fun hneg => hw (by simpa [Float64.zero, Binary64.ofInt] using hneg), ?_⟩
    cases x with
    | nan => cases h
    | inf negative =>
      cases negative with
      | true => cases h
      | false => exact .inl rfl
    | fin x => exact .inr ⟨x, rfl⟩

/-- What a score can be. -/
theorem score_cases (h : m.Sound) :
    (m.Undefined ∧ m.score = .one)
    ∨ (¬ m.Undefined ∧ m.ReachesApart ∧ m.score = .one)
    ∨ (¬ m.Undefined ∧ ¬ m.ReachesApart ∧ ¬ m.Close ∧ m.score = .zero)
    ∨ (¬ m.Undefined ∧ ∃ v w r x : Binary64, m.value = .fin v ∧ m.warning = .fin w
      ∧ m.rollback = .fin r ∧ w.val < r.val ∧ w.val < v.val
      ∧ m.score = .fin x ∧ 0 ≤ x.val ∧ x.val ≤ 1
      ∧ (x.val = 1 ↔ Binary64.nearest (r.val - w.val) ≤ Binary64.nearest (v.val - w.val))) := by
  obtain ⟨hwarning, -, -⟩ := h
  by_cases hguard : le m.rollback m.warning ∨ le m.value m.warning
  · -- the guard of the score
    right; right; left
    refine ⟨fun hundefined => ?_, fun hreach => ?_, ?_, if_pos hguard⟩
    · rcases hguard with hle | hle
      · exact hundefined.1 hle
      · exact hundefined.2.1 hle
    · rcases hguard with hle | hle
      · exact not_le_of_lt hreach.1 hle
      · exact not_le_of_lt (lt_of_lt_of_le hreach.1 hreach.2) hle
    · rintro ⟨v, w, r, hv, hw, hr, hwv, hvr, -⟩
      rw [hv, hw, hr, le_fin, le_fin] at hguard
      rcases hguard with hle | hle
      · linarith
      · linarith
  have hscore : m.score = atMostOne ((Float64.sub m.value m.warning).div
    (Float64.sub m.rollback m.warning)) := if_neg hguard
  obtain ⟨hrollback, hvalue⟩ := not_or.mp hguard
  by_cases hnan : m.value = .nan ∨ m.warning = .nan ∨ m.rollback = .nan
  · left
    refine ⟨⟨hrollback, hvalue, hnan⟩, ?_⟩
    have hquot : (Float64.sub m.value m.warning).div (Float64.sub m.rollback m.warning) = .nan := by
      rcases hnan with hnan | hnan | hnan <;> rw [hnan]
      · rfl
      · cases m.value <;> rfl
      · cases Float64.sub m.value m.warning <;> rfl
    rw [hscore, hquot]
    rfl
  have hdefined : ¬ m.Undefined := fun hundefined => hnan hundefined.2.2
  obtain ⟨hv0, hw0, hr0⟩ : m.value ≠ .nan ∧ m.warning ≠ .nan ∧ m.rollback ≠ .nan := by
    rwa [not_or, not_or] at hnan
  have hlt := lt_of_not_le hw0 hr0 hrollback
  have hltv := lt_of_not_le hw0 hv0 hvalue
  obtain ⟨w, hw, hnonneg, hr⟩ := exists_warning hwarning hlt
  obtain ⟨-, -, -, hv⟩ := exists_warning hwarning hltv
  rw [hw] at hscore hlt hltv
  rcases hv with hv | ⟨v, hv⟩
  · -- an infinite figure
    right; left
    refine ⟨hdefined, ⟨hw ▸ hlt, ?_⟩, ?_⟩
    · rcases hr with hr | ⟨r, hr⟩ <;> rw [hv, hr] <;> rfl
    · rcases hr with hr | ⟨r, hr⟩
      · rw [hscore, hv, hr]
        rfl
      · rw [hr, lt_fin] at hlt
        obtain ⟨b, hsub, -, hb⟩ := exists_sub hnonneg hlt
        rw [hscore, hv, hr, hsub]
        show atMostOne (.inf (false != decide (b.val < 0))) = .one
        rw [decide_eq_false hb.not_gt]
        rfl
  rw [hv, lt_fin] at hltv
  obtain ⟨a, hsuba, ha, hapos⟩ := exists_sub hnonneg hltv
  rcases hr with hr | ⟨r, hr⟩
  · -- an infinite rollback threshold
    right; right; left
    refine ⟨hdefined, fun hreach => ?_, ?_, ?_⟩
    · rw [ReachesApart, hv, hr] at hreach
      exact absurd hreach.2 Bool.false_ne_true
    · rintro ⟨_, _, _, _, _, hfin, _⟩
      rw [hr] at hfin
      cases hfin
    · rw [hscore, hv, hr, hsuba]
      rfl
  · right; right; right
    rw [hr, lt_fin] at hlt
    obtain ⟨b, hsubb, hb, hbpos⟩ := exists_sub hnonneg hlt
    obtain ⟨x, hx, hx0, hx1, hone⟩ := exists_quotient hapos hbpos
    refine ⟨hdefined, v, w, r, x, hv, hw, hr, hlt, hltv, ?_, hx0, hx1, ?_⟩
    · rw [hscore, hv, hr, hsuba, hsubb, hx]
    · rw [hone, ha, hb]

theorem exists_score (h : m.Sound) : ∃ x : Binary64, m.score = .fin x ∧ 0 ≤ x.val ∧ x.val ≤ 1 := by
  rcases score_cases h with ⟨-, hone⟩ | ⟨-, -, hone⟩ | ⟨-, -, -, hzero⟩
    | ⟨-, _, _, _, x, -, -, -, -, -, hx, h0, h1, -⟩
  · exact ⟨_, hone, by simp [Binary64.ofInt], by simp [Binary64.ofInt]⟩
  · exact ⟨_, hone, by simp [Binary64.ofInt], by simp [Binary64.ofInt]⟩
  · exact ⟨_, hzero, by simp [Binary64.ofInt], by simp [Binary64.ofInt]⟩
  · exact ⟨x, hx, h0, h1⟩

theorem fin_eq_one {x : Binary64} : (PyFloat.fin x = Float64.one) ↔ x.val = 1 := by
  constructor
  · intro heq
    rw [PyFloat.fin.inj heq]
    simp [Binary64.ofInt]
  · intro heq
    exact congrArg PyFloat.fin (Binary64.ext (by simpa [Binary64.ofInt] using heq))

theorem score_eq_one_iff (h : m.Sound) :
    m.score = .one ↔ m.ReachesApart ∨ m.Undefined ∨ m.Close := by
  -- the four ways in which the score comes about
  rcases score_cases h with ⟨hundefined, hone⟩ | ⟨-, hreach, hone⟩ | ⟨hdefined, hnot, hfar, hzero⟩
    | ⟨hdefined, v, w, r, x, hv, hw, hr, hlt, hltv, hx, -, -, hiff⟩
  · exact iff_of_true hone (.inr (.inl hundefined))
  · exact iff_of_true hone (.inl hreach)
  · refine iff_of_false ?_ ?_
    · rw [hzero, Float64.zero, fin_eq_one]
      simp [Binary64.ofInt]
    · rintro (hreach | hundefined | hclose)
      · exact hnot hreach
      · exact hdefined hundefined
      · exact hfar hclose
  · rw [hx, fin_eq_one, hiff, or_iff_right hdefined, ReachesApart, Close, hv, hw, hr, lt_fin, le_fin]
    constructor
    · -- rounded up to one: the value reaches the threshold, or it is close to it
      intro hround
      rcases le_or_gt r.val v.val with hle | hbelow
      · exact .inl ⟨hlt, hle⟩
      · have hmono := Binary64.nearest_monotone (sub_le_sub_right hbelow.le w.val)
        exact .inr ⟨v, w, r, rfl, rfl, rfl, hltv, hbelow, le_antisymm hmono hround⟩
    · rintro (⟨-, hle⟩ | ⟨v', w', r', hv', hw', hr', -, -, hround⟩)
      · exact Binary64.nearest_monotone (sub_le_sub_right hle w.val)
      · cases hv'
        cases hw'
        cases hr'
        exact hround.ge

/-- A positive score is one of a figure above its warning threshold. -/
theorem verdict_ne_safe (h : m.Sound) (hscore : lt Float64.zero m.score) (hdefined : ¬ m.Undefined) :
    m.verdict ≠ .safe := by
  rw [Ne, verdict_eq_safe]
  rintro ⟨hrollback, hwarning⟩
  rcases score_cases h with ⟨hundefined, -⟩ | ⟨-, hreach, -⟩ | ⟨-, -, -, hzero⟩
    | ⟨-, v, w, -, -, hv, hw, -, -, hltv, -⟩
  · exact hdefined hundefined
  · exact hrollback hreach.2
  · rw [hzero] at hscore
    exact absurd hscore (by simp [Float64.zero])
  · rw [hv, hw, le_fin] at hwarning
    exact hwarning hltv.le

end Metric

/-! ## All figures

The worst verdict and the greatest score, by induction on the list of figures. -/

theorem order_injective : Function.Injective CanaryVerdict.order := by
  intro v w h
  cases v <;> cases w <;> first | rfl | cases h

theorem eq_rollback_of_le {v : CanaryVerdict} (h : CanaryVerdict.rollbackRecommended.order ≤ v.order) :
    v = .rollbackRecommended := by
  cases v
  · exact absurd h (by decide)
  · exact absurd h (by decide)
  · rfl

theorem worstVerdict_order (v w : CanaryVerdict) : (worstVerdict v w).order = max v.order w.order := by
  unfold worstVerdict
  split
  · next h => exact (max_eq_right h.le).symm
  · next h => exact (max_eq_left (not_lt.mp h)).symm

theorem judge_order (state : CanaryVerdict × List Reason) (m : Metric) :
    (judge state m).1.order = max state.1.order m.verdict.order := by
  unfold judge
  split
  · exact worstVerdict_order _ _
  · next hsafe =>
    rw [not_not.mp hsafe]
    exact (max_eq_left (Nat.zero_le _)).symm

/-- A loop that keeps the greatest of what it sees. -/
theorem foldl_max_spec {σ α β : Type} [LinearOrder β] {f : σ → α → σ} {g : σ → β} {v : α → β}
    (hf : ∀ s a, g (f s a) = max (g s) (v a)) (l : List α) (s : σ) :
    (g s ≤ g (l.foldl f s) ∧ ∀ a ∈ l, v a ≤ g (l.foldl f s))
      ∧ (g (l.foldl f s) = g s ∨ ∃ a ∈ l, g (l.foldl f s) = v a) := by
  induction l generalizing s with
  | nil => exact ⟨⟨le_refl _, fun a ha => absurd ha List.not_mem_nil⟩, .inl rfl⟩
  | cons a l ih =>
    obtain ⟨⟨hstart, hall⟩, hmem⟩ := ih (f s a)
    rw [hf] at hstart
    rw [List.foldl_cons]
    refine ⟨⟨(le_max_left _ _).trans hstart,
      List.forall_mem_cons.mpr ⟨(le_max_right _ _).trans hstart, hall⟩⟩, ?_⟩
    rcases hmem with heq | ⟨b, hb, heq⟩
    · rw [hf] at heq
      rcases max_choice (g s) (v a) with hmax | hmax
      · exact .inl (heq.trans hmax)
      · exact .inr ⟨a, List.mem_cons_self, heq.trans hmax⟩
    · exact .inr ⟨b, List.mem_cons_of_mem a hb, heq⟩

/-- The verdict is the worst of the figures' verdicts. -/
theorem judge_spec {ms : List Metric} (hne : ms ≠ []) :
    (∀ m ∈ ms, m.verdict.order ≤ (ms.foldl judge (.safe, [])).1.order)
      ∧ ∃ m ∈ ms, m.verdict = (ms.foldl judge (.safe, [])).1 := by
  obtain ⟨⟨-, hall⟩, hmem⟩ :=
    foldl_max_spec (g := fun state : CanaryVerdict × List Reason => state.1.order)
    judge_order ms (.safe, [])
  refine ⟨hall, ?_⟩
  rcases hmem with hsafe | ⟨m, hm, heq⟩
  · obtain ⟨m, hm⟩ := List.exists_mem_of_ne_nil ms hne
    have hzero : m.verdict.order = 0 := Nat.le_zero.mp ((hall m hm).trans hsafe.le)
    exact ⟨m, hm, order_injective (hzero.trans hsafe.symm)⟩
  · exact ⟨m, hm, order_injective heq.symm⟩

/-- The confidence is the greatest score, for scores that are numbers. -/
theorem confidence_spec {ms : List Metric} (hne : ms ≠ [])
    (hscores : ∀ m ∈ ms, ∃ x : Binary64, m.score = .fin x) :
    (∀ m ∈ ms, le m.score (confidence ms)) ∧ ∃ m ∈ ms, confidence ms = m.score := by
  -- the loop's maximum bounds every score that it met, and is one of them
  have hloop : ∀ (rest : List Metric) (y : Binary64), (∀ m ∈ rest, ∃ x : Binary64, m.score = .fin x) →
      ∃ z : Binary64, rest.foldl (fun greatest m => floatMax greatest m.score) (.fin y) = .fin z
        ∧ y.val ≤ z.val ∧ (∀ m ∈ rest, le m.score (.fin z))
        ∧ (z = y ∨ ∃ m ∈ rest, m.score = .fin z) := by
    intro rest
    induction rest with
    | nil => exact fun y _ => ⟨y, rfl, le_refl _, fun m hm => absurd hm List.not_mem_nil, .inl rfl⟩
    | cons m rest ih =>
      intro y hall
      obtain ⟨x, hx⟩ := hall m List.mem_cons_self
      have hrest : ∀ m ∈ rest, ∃ x : Binary64, m.score = .fin x :=
        fun m' hm' => hall m' (List.mem_cons_of_mem m hm')
      rw [List.foldl_cons, hx, floatMax, Float64.fin_lt_fin]
      -- the greatest so far is replaced by a larger score only
      by_cases hlt : y.val < x.val
      · rw [if_pos (decide_eq_true hlt)]
        obtain ⟨z, hz, hxz, hle, hmem⟩ := ih x hrest
        refine ⟨z, hz, hlt.le.trans hxz, List.forall_mem_cons.mpr ⟨?_, hle⟩, .inr ?_⟩
        · rwa [hx, le_fin]
        · rcases hmem with rfl | ⟨m', hm', heq⟩
          · exact ⟨m, List.mem_cons_self, hx⟩
          · exact ⟨m', List.mem_cons_of_mem m hm', heq⟩
      · rw [if_neg (by simpa using hlt)]
        obtain ⟨z, hz, hyz, hle, hmem⟩ := ih y hrest
        refine ⟨z, hz, hyz, List.forall_mem_cons.mpr ⟨?_, hle⟩, ?_⟩
        · rw [hx, le_fin]
          exact (not_lt.mp hlt).trans hyz
        · rcases hmem with rfl | ⟨m', hm', heq⟩
          · exact .inl rfl
          · exact .inr ⟨m', List.mem_cons_of_mem m hm', heq⟩
  cases ms with
  | nil => exact absurd rfl hne
  | cons m rest =>
    obtain ⟨y, hy⟩ := hscores m List.mem_cons_self
    obtain ⟨z, hz, hyz, hle, hmem⟩ :=
      hloop rest y fun m' hm' => hscores m' (List.mem_cons_of_mem m hm')
    rw [confidence, hy, hz]
    refine ⟨List.forall_mem_cons.mpr ⟨by rwa [hy, le_fin], hle⟩, ?_⟩
    rcases hmem with rfl | ⟨m', hm', heq⟩
    · exact ⟨m, List.mem_cons_self, hy.symm⟩
    · exact ⟨m', List.mem_cons_of_mem m hm', heq.symm⟩

/-- If a figure reaches its rollback threshold, then some figure reaches one that lies above the
threshold for a warning, or has an undefined quotient, or is close below its rollback threshold; and
if one of the last two is the case, some figure reaches its rollback threshold. -/
def ScoresAgree (judged : Metric → Prop) : Prop :=
  ((∃ m, judged m ∧ le m.rollback m.value)
      → ∃ m, judged m ∧ (m.ReachesApart ∨ m.Undefined ∨ m.Close))
    ∧ ((∃ m, judged m ∧ (m.Undefined ∨ m.Close)) → ∃ m, judged m ∧ le m.rollback m.value)

/-- The verdict is the worst, and agrees with the confidence. -/
def Agree (ms : List Metric) (verdict : CanaryVerdict) (confidence : PyFloat) : Prop :=
  (∀ m ∈ ms, m.verdict.order ≤ verdict.order) ∧ (∃ m ∈ ms, m.verdict = verdict)
    ∧ (verdict = .rollbackRecommended ↔ confidence = Float64.one)
    ∧ (lt Float64.zero confidence → verdict ≠ .safe)

theorem agree_iff {ms : List Metric} (hne : ms ≠ []) (hsound : ∀ m ∈ ms, m.Sound) :
    Agree ms (ms.foldl judge (.safe, [])).1 (confidence ms) ↔ ScoresAgree (· ∈ ms) := by
  obtain ⟨hworst, hverdict⟩ := judge_spec hne
  obtain ⟨hgreatest, mc, hmc, hconfidence⟩ := confidence_spec hne fun m hm =>
    (Metric.exists_score (hsound m hm)).imp fun _ h => h.1
  generalize (ms.foldl judge (.safe, [])).1 = verdict at hworst hverdict
  have hrollback : verdict = .rollbackRecommended ↔ ∃ m ∈ ms, le m.rollback m.value := by
    constructor
    · intro heq
      obtain ⟨m, hm, hv⟩ := hverdict
      exact ⟨m, hm, Metric.verdict_eq_rollback.mp (hv.trans heq)⟩
    · rintro ⟨m, hm, hreach⟩
      have hle := hworst m hm
      rw [Metric.verdict_eq_rollback.mpr hreach] at hle
      exact eq_rollback_of_le hle
  have hone : confidence ms = Float64.one
      ↔ ∃ m ∈ ms, m.ReachesApart ∨ m.Undefined ∨ m.Close := by
    constructor
    · intro heq
      exact ⟨mc, hmc, (Metric.score_eq_one_iff (hsound mc hmc)).mp (hconfidence.symm.trans heq)⟩
    · rintro ⟨m, hm, hwhich⟩
      -- no score exceeds one
      have hscore := (Metric.score_eq_one_iff (hsound m hm)).mpr hwhich
      have hle := hgreatest m hm
      obtain ⟨x, hx, -, hx1⟩ := Metric.exists_score (hsound mc hmc)
      rw [hconfidence, hx, hscore, Float64.one, le_fin] at hle
      rw [hconfidence, hx, Metric.fin_eq_one]
      exact le_antisymm hx1 (by simpa [Binary64.ofInt] using hle)
  constructor
  · rintro ⟨-, -, hiff, -⟩
    rw [hrollback, hone] at hiff
    refine ⟨hiff.mp, ?_⟩
    rintro ⟨m, hm, hwhich⟩
    exact hiff.mpr ⟨m, hm, .inr hwhich⟩
  · rintro ⟨hforth, hback⟩
    refine ⟨hworst, hverdict, ?_, ?_⟩
    · rw [hrollback, hone]
      refine ⟨hforth, ?_⟩
      rintro ⟨m, hm, hreach | hwhich⟩
      · exact ⟨m, hm, hreach.2⟩
      · exact hback ⟨m, hm, hwhich⟩
    · intro hpos hsafe
      rw [hconfidence] at hpos
      by_cases hundefined : mc.Undefined
      · have hroll := hrollback.mpr (hback ⟨mc, hmc, .inl hundefined⟩)
        rw [hsafe] at hroll
        cases hroll
      · have hle := hworst mc hmc
        rw [hsafe] at hle
        exact Metric.verdict_ne_safe (hsound mc hmc) hpos hundefined
          (order_injective (Nat.le_zero.mp hle))

/-! ## The figures of two streams

`Compared` lists the figures that are judged, each by what the streams answer: their percentiles,
their distributions, their budgets and their error events. `compared_iff` finds them in the run of
`figures`. -/

section Comparison

variable (M : IndexMapping) (bucketValue : ℚ → ℤ → ℚ) (baseline candidate : Facade.StreamLog)
  (cfg : CanaryAnalysisConfig)

/-- A figure of the two streams, between its two thresholds. -/
inductive Compared : Metric → Prop
  | p99Shift {p p' : Float64} (hp : percentileOf M baseline p99 = .ok p)
      (hp' : percentileOf M candidate p99 = .ok p') :
      Compared ⟨percentChange p p', cfg.thresholds.warningP99ShiftPercent,
        cfg.thresholds.rollbackP99ShiftPercent, .p99Latency (percentChange p p')⟩
  | ks {d : Float64} (hd : Diff.ksStatistic .doubles (Diff.getCdf .doubles bucketValue baseline)
        (Diff.getCdf .doubles bucketValue candidate) = d) :
      Compared ⟨d, cfg.thresholds.warningKsStatistic, cfg.thresholds.rollbackKsStatistic,
        .ksStatistic d⟩
  | wasserstein {p d : Float64} (hp : percentileOf M baseline p99 = .ok p)
      (hd : Diff.wassersteinDistance .doubles (Diff.getCdf .doubles bucketValue baseline)
        (Diff.getCdf .doubles bucketValue candidate) = d) :
      Compared ⟨d.div (floatMax (floatAbs p) .one), cfg.thresholds.warningWassersteinRatio,
        cfg.thresholds.rollbackWassersteinRatio,
        .wassersteinRatio (d.div (floatMax (floatAbs p) .one))⟩
  | burnRate {slo slo' : Slo.Report}
      (hslo : Slo.evaluate M baseline baseline cfg.targetPercentile cfg.budgetPercent = .ok slo)
      (hslo' : Slo.evaluate M candidate baseline cfg.targetPercentile cfg.budgetPercent = .ok slo') :
      Compared ⟨floatMax .zero ((burnRateOf slo').sub (burnRateOf slo)),
        cfg.thresholds.warningSloBurnRate, cfg.thresholds.rollbackSloBurnRate,
        .sloBurnRate (floatMax .zero ((burnRateOf slo').sub (burnRateOf slo))) (burnRateOf slo)
          (burnRateOf slo')⟩
  | anomaly {d : Float64} (hd : Diff.ksStatistic .doubles (Diff.getCdf .doubles bucketValue candidate)
        (Diff.getCdf .doubles bucketValue baseline) = d) :
      Compared ⟨d, cfg.thresholds.warningAnomalyScore, cfg.thresholds.rollbackAnomalyScore,
        .anomalyScore d⟩
  | errorRate {e e' : Errors} (hnamed : cfg.hasErrorEvent) (he : errorsOf baseline cfg = .ok e)
      (he' : errorsOf candidate cfg = .ok e') :
      Compared ⟨percentChange e.rate e'.rate, cfg.thresholds.warningErrorRateIncreasePercent,
        cfg.thresholds.rollbackErrorRateIncreasePercent, .errorRate (percentChange e.rate e'.rate)⟩

end Comparison

/-- What the run of `figures` has read of the two streams. -/
theorem figures_eq_ok {M : IndexMapping} {bucketValue : ℚ → ℤ → ℚ}
    {baseline candidate : Facade.StreamLog}
    {cfg : CanaryAnalysisConfig} {f : Figures}
    (hf : figures M bucketValue baseline candidate cfg = .ok f) :
    ∃ p p' slo slo' e e', percentileOf M baseline p99 = .ok p ∧ percentileOf M candidate p99 = .ok p'
      ∧ Slo.evaluate M baseline baseline cfg.targetPercentile cfg.budgetPercent = .ok slo
      ∧ Slo.evaluate M candidate baseline cfg.targetPercentile cfg.budgetPercent = .ok slo'
      ∧ errorsOf baseline cfg = .ok e ∧ errorsOf candidate cfg = .ok e'
      ∧ f.p99Shift = percentChange p p'
      ∧ f.ksStatistic = Diff.ksStatistic .doubles (Diff.getCdf .doubles bucketValue baseline)
        (Diff.getCdf .doubles bucketValue candidate)
      ∧ f.wassersteinRatio = Float64.div (Diff.wassersteinDistance .doubles
        (Diff.getCdf .doubles bucketValue baseline) (Diff.getCdf .doubles bucketValue candidate))
          (floatMax (floatAbs p) .one)
      ∧ f.anomalyScore = Diff.ksStatistic .doubles (Diff.getCdf .doubles bucketValue candidate)
        (Diff.getCdf .doubles bucketValue baseline)
      ∧ f.baselineBurnRate = burnRateOf slo ∧ f.candidateBurnRate = burnRateOf slo'
      ∧ f.burnRateIncrease = floatMax .zero ((burnRateOf slo').sub (burnRateOf slo))
      ∧ f.errorRateIncreasePercent = percentChange e.rate e'.rate := by
  obtain ⟨latency, hlatency, hf⟩ := bind_eq_ok.mp hf
  obtain ⟨latency', hlatency', hf⟩ := bind_eq_ok.mp hf
  obtain ⟨slo, hslo, hf⟩ := bind_eq_ok.mp hf
  obtain ⟨slo', hslo', hf⟩ := bind_eq_ok.mp hf
  obtain ⟨e, he, hf⟩ := bind_eq_ok.mp hf
  obtain ⟨e', he', hf⟩ := bind_eq_ok.mp hf
  -- of the three percentiles of a stream, the last is the one that is judged
  obtain ⟨_, -, hlatency⟩ := bind_eq_ok.mp hlatency
  obtain ⟨_, -, hlatency⟩ := bind_eq_ok.mp hlatency
  obtain ⟨p, hp, hlatency⟩ := bind_eq_ok.mp hlatency
  obtain ⟨_, -, hlatency'⟩ := bind_eq_ok.mp hlatency'
  obtain ⟨_, -, hlatency'⟩ := bind_eq_ok.mp hlatency'
  obtain ⟨p', hp', hlatency'⟩ := bind_eq_ok.mp hlatency'
  cases hlatency
  cases hlatency'
  cases hf
  refine ⟨p, p', slo, slo', e, e', hp, hp', hslo, hslo', he, he', ?_⟩
  dsimp only
  exact ⟨rfl, rfl, rfl, rfl, rfl, rfl, rfl, rfl⟩

/-- **The figures that `analyze` judges are those of the streams.** -/
theorem compared_iff {M : IndexMapping} {bucketValue : ℚ → ℤ → ℚ}
    {baseline candidate : Facade.StreamLog}
    {cfg : CanaryAnalysisConfig} {f : Figures}
    (hf : figures M bucketValue baseline candidate cfg = .ok f) (m : Metric) :
    Compared M bucketValue baseline candidate cfg m ↔ m ∈ metrics cfg f := by
  obtain ⟨p, p', slo, slo', e, e', hp, hp', hslo, hslo', he, he', hshift, hks, hratio, hanomaly,
    hburn, hburn', hincrease, hrate⟩ := figures_eq_ok hf
  have hmetrics : metrics cfg f = _ ++ _ := rfl
  rw [hmetrics, List.mem_append, hshift, hks, hratio, hanomaly, hburn, hburn', hincrease, hrate]
  constructor
  · intro h
    cases h with
    | p99Shift hp₁ hp₁' =>
      cases hp.symm.trans hp₁
      cases hp'.symm.trans hp₁'
      simp
    | ks hd =>
      subst hd
      simp
    | wasserstein hp₁ hd =>
      cases hp.symm.trans hp₁
      subst hd
      simp
    | burnRate hslo₁ hslo₁' =>
      cases hslo.symm.trans hslo₁
      cases hslo'.symm.trans hslo₁'
      simp
    | anomaly hd =>
      subst hd
      simp
    | errorRate hnamed he₁ he₁' =>
      cases he.symm.trans he₁
      cases he'.symm.trans he₁'
      rw [if_pos hnamed]
      exact .inr List.mem_cons_self
  · rintro (hm | hm)
    · simp only [List.mem_cons, List.not_mem_nil, or_false] at hm
      rcases hm with rfl | rfl | rfl | rfl | rfl
      · exact .p99Shift hp hp'
      · exact .ks rfl
      · exact .wasserstein hp rfl
      · exact .burnRate hslo hslo'
      · exact .anomaly rfl
    · split at hm
      · next hnamed =>
        rw [List.mem_singleton.mp hm]
        exact .errorRate hnamed he he'
      · cases hm

/-! ## The analysis

The analysis is the judgement of its figures. They can be computed exactly when the budget is below
one. -/

section Analysis

variable {M : IndexMapping} {cppAvailable : Bool} {bucketValue : ℚ → ℤ → ℚ}
    {baseline candidate : Facade.StreamLog}
  {cfg : CanaryAnalysisConfig}

/-- A figure is judged by one of the checked pairs. -/
theorem exists_pair {f : Figures} {m : Metric} (hm : m ∈ metrics cfg f) :
    ∃ name, (name, m.warning, m.rollback) ∈ cfg.thresholds.pairs := by
  rcases List.mem_append.mp hm with hm | hm
  · simp only [List.mem_cons, List.not_mem_nil, or_false] at hm
    rcases hm with rfl | rfl | rfl | rfl | rfl
    · exact ⟨"p99_shift_percent", by simp [CanaryThresholds.pairs]⟩
    · exact ⟨"ks_statistic", by simp [CanaryThresholds.pairs]⟩
    · exact ⟨"wasserstein_ratio", by simp [CanaryThresholds.pairs]⟩
    · exact ⟨"slo_burn_rate", by simp [CanaryThresholds.pairs]⟩
    · exact ⟨"anomaly_score", by simp [CanaryThresholds.pairs]⟩
  · split at hm
    · rw [List.mem_singleton.mp hm]
      exact ⟨"error_rate_increase_percent", by simp [CanaryThresholds.pairs]⟩
    · cases hm

/-- The thresholds of an accepted configuration are ordered. -/
theorem sound_metrics (h : cfg.Accepted) (f : Figures) : ∀ m ∈ metrics cfg f, m.Sound := by
  intro m hm
  obtain ⟨name, hpair⟩ := exists_pair hm
  have hcheck := forM_eq_ok.mp h.1 _ hpair
  rw [CanaryThresholds.checkPair, bind_eq_ok, exists_unit, failIf_eq_ok, failIf_eq_ok] at hcheck
  exact ⟨fun hw => hcheck.1 (.inl hw), fun hr => hcheck.1 (.inr hr), hcheck.2⟩

/-- A percentile between 0 and 1. -/
theorem exists_target (h : cfg.Accepted) : ∃ q : Binary64, cfg.targetPercentile = .fin q ∧ 0 < q.val
    ∧ q.val < 1 := by
  have hpost := h.2
  rw [CanaryAnalysisConfig.postInit, bind_eq_ok, exists_unit, failIf_eq_ok, not_not] at hpost
  obtain ⟨⟨hlo, hhi⟩, -⟩ := hpost
  cases hq : cfg.targetPercentile with
  | nan =>
    rw [hq] at hlo
    cases hlo
  | inf negative =>
    rw [hq] at hlo hhi
    cases negative
    · cases hhi
    · cases hlo
  | fin q =>
    rw [hq] at hlo hhi
    refine ⟨q, rfl, by simpa [lt] using hlo, ?_⟩
    simpa [lt, Otel.Float64.one] using hhi

theorem exists_evaluate {sk : DDSketch} (current : Facade.StreamLog) (hlike : baseline.AnswersLike M sk)
    (hn : baseline.latencyCount ≠ 0) {q b : Binary64} (hq : 0 < q.val ∧ q.val < 1)
    (hb : 0 < b.val ∧ b.val < 1) :
    ∃ report, Slo.evaluate M current baseline (.fin q) (.fin b) = .ok report := by
  simp only [Slo.evaluate, Slo.inUnit, if_pos hq, if_pos hb, failIf, if_neg hn, hlike.percentile]
  exact ⟨_, rfl⟩

/-- The engine asks for a budget below one. -/
theorem budget_of_evaluate {current : Facade.StreamLog} {targetPercentile budgetPercent : PyFloat}
    {report : Slo.Report}
    (h : Slo.evaluate M current baseline targetPercentile budgetPercent = .ok report) :
    ∃ b : Binary64, budgetPercent = .fin b ∧ b.val < 1 := by
  rw [Slo.evaluate, bind_eq_ok] at h
  obtain ⟨_, -, hrest⟩ := h
  rw [bind_eq_ok] at hrest
  obtain ⟨_, hb, -⟩ := hrest
  unfold Slo.inUnit at hb
  split at hb
  · next v =>
    split at hb
    · next hin => exact ⟨v, rfl, hin.2⟩
    · cases hb
  · cases hb

theorem exists_errorsOf {S : Shape} {c : Contents S} {stream : Facade.StreamLog}
    (h : stream.backend.Represents c)
    (cfg : CanaryAnalysisConfig) : ∃ errors, errorsOf stream cfg = .ok errors := by
  unfold errorsOf
  split
  · exact ⟨_, rfl⟩
  · next name _ =>
    split
    · exact ⟨_, rfl⟩
    · obtain ⟨n, hn⟩ := Facade.StreamLog.exists_eventCount h name
      rw [hn]
      exact ⟨_, rfl⟩

theorem exists_latencyOf {sk : DDSketch} {stream : Facade.StreamLog} (hlike : stream.AnswersLike M sk) :
    ∃ latency, latencyOf M stream = .ok latency := by
  simp only [latencyOf, percentileOf, hlike.percentile]
  exact ⟨_, rfl⟩

/-- The figures exist exactly for a budget below one. -/
theorem exists_figures_iff (bucketValue : ℚ → ℤ → ℚ)
    (hb : Facade.StreamLog.Reachable M cppAvailable baseline)
    (hc : Facade.StreamLog.Reachable M cppAvailable candidate) (hcfg : cfg.Accepted)
    (hn : 0 < baseline.latencyCount) :
    (∃ f, figures M bucketValue baseline candidate cfg = .ok f)
      ↔ ∃ b : Binary64, cfg.budgetPercent = .fin b ∧ b.val < 1 := by
  obtain ⟨S, c, hvalid⟩ := hb.valid
  obtain ⟨S', c', hvalid'⟩ := hc.valid
  obtain ⟨sk, -, -, hlike⟩ := Facade.StreamLog.exists_sketch M hvalid.represents hvalid.fits
  obtain ⟨sk', -, -, hlike'⟩ := Facade.StreamLog.exists_sketch M hvalid'.represents hvalid'.fits
  obtain ⟨latency, hlatency⟩ := exists_latencyOf hlike
  obtain ⟨latency', hlatency'⟩ := exists_latencyOf hlike'
  -- the engine checks the budget before anything else can fail
  constructor
  · rintro ⟨f, hf⟩
    rw [figures, hlatency, hlatency'] at hf
    cases hslo : Slo.evaluate M baseline baseline cfg.targetPercentile cfg.budgetPercent with
    | ok report => exact budget_of_evaluate hslo
    | error e =>
      simp only [hslo] at hf
      cases hf
  · rintro ⟨b, hbudget, hlt⟩
    obtain ⟨q, htarget, hq⟩ := exists_target hcfg
    -- the configuration is accepted, so the budget is positive
    have hpos : 0 < b.val := by
      have hpost := hcfg.2
      rw [CanaryAnalysisConfig.postInit, bind_eq_ok, exists_unit, bind_eq_ok, exists_unit] at hpost
      have hnot := failIf_eq_ok.mp hpost.2.1
      rw [hbudget] at hnot
      rcases lt_trichotomy 0 b.val with hlt | heq | hgt
      · exact hlt
      · exact absurd (.inr (by simp [Otel.Float64.isZero, heq.symm])) hnot
      · exact absurd (.inl (by simpa [lt, Otel.Float64.zero] using hgt)) hnot
    obtain ⟨slo, hslo⟩ := exists_evaluate baseline hlike hn.ne' hq ⟨hpos, hlt⟩
    obtain ⟨slo', hslo'⟩ := exists_evaluate candidate hlike hn.ne' hq ⟨hpos, hlt⟩
    obtain ⟨errors, herrors⟩ := exists_errorsOf hvalid.represents cfg
    obtain ⟨errors', herrors'⟩ := exists_errorsOf hvalid'.represents cfg
    rw [figures, hlatency, hlatency', htarget, hbudget]
    simp only [hslo, hslo', herrors, herrors']
    exact ⟨_, rfl⟩

/-- The run of `analyze` on streams with enough latencies. -/
theorem analyze_eq (M : IndexMapping) (bucketValue : ℚ → ℤ → ℚ)
    {config : Option CanaryAnalysisConfig} (hused : config.getD .default = cfg)
    (hbn : cfg.minLatencyCount ≤ baseline.latencyCount)
    (hcn : cfg.minLatencyCount ≤ candidate.latencyCount) :
    analyze M bucketValue baseline candidate config
      = figures M bucketValue baseline candidate cfg >>= fun f =>
        .ok ⟨((metrics cfg f).foldl judge (.safe, [])).1, confidence (metrics cfg f),
          if ((metrics cfg f).foldl judge (.safe, [])).2.isEmpty then [.withinGuardrails]
          else ((metrics cfg f).foldl judge (.safe, [])).2, f, cfg⟩ := by
  simp only [analyze, hused, failIf, if_neg (not_lt.mpr hbn), if_neg (not_lt.mpr hcn)]
  rfl

theorem metrics_ne_nil (cfg : CanaryAnalysisConfig) (f : Figures) : metrics cfg f ≠ [] := by
  simp [metrics]

end Analysis

/-! ## Nine low latencies of ten become one

Under the default thresholds the KS statistic recommends a rollback, at confidence 1. Where each
rollback threshold is the one for a warning, it recommends the rollback and nothing scores. -/

/-- The default thresholds for a warning, which are the ones for a rollback too. -/
def rollbackAtWarning : CanaryAnalysisConfig :=
  { CanaryAnalysisConfig.default with
    thresholds :=
      { CanaryThresholds.default with
        rollbackP99ShiftPercent := CanaryThresholds.default.warningP99ShiftPercent
        rollbackErrorRateIncreasePercent :=
          CanaryThresholds.default.warningErrorRateIncreasePercent
        rollbackSloBurnRate := CanaryThresholds.default.warningSloBurnRate
        rollbackKsStatistic := CanaryThresholds.default.warningKsStatistic
        rollbackWassersteinRatio := CanaryThresholds.default.warningWassersteinRatio
        rollbackAnomalyScore := CanaryThresholds.default.warningAnomalyScore } }

/-- Thresholds that are numbers, the second not below the first. -/
def Ordered (pair : String × PyFloat × PyFloat) : Prop :=
  ∃ w r : Binary64, pair.2 = (.fin w, .fin r) ∧ 0 ≤ w.val ∧ w.val ≤ r.val

theorem checkPair_of_ordered {pair : String × PyFloat × PyFloat} (h : Ordered pair) :
    CanaryThresholds.checkPair pair = .ok () := by
  obtain ⟨name, warning, rollback⟩ := pair
  obtain ⟨w, r, heq, hw, hr⟩ := h
  cases heq
  rw [CanaryThresholds.checkPair, bind_eq_ok, exists_unit, failIf_eq_ok, failIf_eq_ok]
  have hr0 : 0 ≤ r.val := hw.trans hr
  simp [lt, Otel.Float64.zero, hw, hr, hr0]

theorem ordered_literal (name : String) {m n : ℤ} {e d : ℕ} {hm : |m| < 2 ^ 53} {he : e ≤ 1074}
    {hn : |n| < 2 ^ 53} {hd : d ≤ 1074} (h0 : 0 ≤ m) (h : (m : ℚ) / 2 ^ e ≤ n / 2 ^ d) :
    Ordered (name, literal m e hm he, literal n d hn hd) :=
  ⟨_, _, rfl, div_nonneg (by exact_mod_cast h0) (by positivity), h⟩

theorem ordered_default : ∀ pair ∈ CanaryThresholds.default.pairs, Ordered pair := by
  simp only [CanaryThresholds.pairs, CanaryThresholds.default, List.forall_mem_cons]
  refine ⟨?_, ?_, ?_, ?_, ?_, ?_, fun pair hpair => absurd hpair List.not_mem_nil⟩
  all_goals exact ordered_literal _ (by norm_num) (by norm_num)

theorem ordered_rollbackAtWarning : ∀ pair ∈ rollbackAtWarning.thresholds.pairs, Ordered pair := by
  simp only [CanaryThresholds.pairs, rollbackAtWarning, CanaryThresholds.default,
    List.forall_mem_cons]
  refine ⟨?_, ?_, ?_, ?_, ?_, ?_, fun pair hpair => absurd hpair List.not_mem_nil⟩
  all_goals exact ordered_literal _ (by norm_num) (le_refl _)

theorem postInit_default : CanaryAnalysisConfig.default.postInit = .ok () := by
  rw [CanaryAnalysisConfig.postInit, bind_eq_ok, exists_unit, bind_eq_ok, exists_unit, failIf_eq_ok,
    failIf_eq_ok, failIf_eq_ok]
  norm_num [CanaryAnalysisConfig.default, literal, lt, Otel.Float64.isZero, Otel.Float64.lt,
    Otel.Float64.zero, Otel.Float64.one, Binary64.ofInt]

/-- **The defaults pass their own checks.** -/
theorem accepted_default : CanaryAnalysisConfig.default.Accepted :=
  ⟨forM_eq_ok.mpr fun pair hpair => checkPair_of_ordered (ordered_default pair hpair),
    postInit_default⟩

theorem accepted_rollbackAtWarning : rollbackAtWarning.Accepted :=
  ⟨forM_eq_ok.mpr fun pair hpair => checkPair_of_ordered (ordered_rollbackAtWarning pair hpair),
    postInit_default⟩

/-- The KS statistic of nine low latencies of ten against one. -/
def tenthsStatistic : Float64 :=
  .fin ⟨Binary64.nearest |Binary64.nearest (9 / 10) - Binary64.nearest (1 / 10)|, by decide +kernel⟩

/-- It is the double nearest to the difference of nine tenths and one tenth. -/
theorem ksStatistic_tenths :
    Diff.ksStatistic .doubles (Diff.getCdf .doubles (fun _ i => i) (Diff.tenLatencies 9))
      (Diff.getCdf .doubles (fun _ i => i) (Diff.tenLatencies 1)) = tenthsStatistic := by
  have hnine := Diff.isCdf_tenthsCdf (k := 9) (by decide +kernel) (by decide +kernel)
    (by decide +kernel)
  have hone := Diff.isCdf_tenthsCdf (k := 1) (by decide +kernel) (by decide +kernel)
    (by decide +kernel)
  rw [Diff.getCdf_tenLatencies (k := 9) (by decide +kernel) (by decide +kernel) (by decide +kernel),
    Diff.getCdf_tenLatencies (k := 1) (by decide +kernel) (by decide +kernel) (by decide +kernel),
    Diff.ksStatistic_doubles hnine.share hone.share, Diff.ks_tenthsCdf]
  exact Float64.ofRat_of_nearest _

end Sketchlog.Canary
