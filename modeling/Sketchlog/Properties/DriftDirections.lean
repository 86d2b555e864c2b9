import Sketchlog.Refine.AlertRules

/-!
# The direction a drift rule names

`drift` measures a change by the distance of the ratio from one, so that a fall can be reported as
well as a rise. `evaluate` then compares the signed percentage with the rule's bound, which no fall
of the ratio can reach; and the ratio of two p99s rises when the p99 does only if the previous one
is positive. So a rule counts as violating when it should exactly in the cases of `Seen`. Among them
are the rises that doubles measure as exact arithmetic does: from 100 to 120 is a rise by 20 percent,
but the double that the ratio rounds to is closer to one.
-/

namespace Sketchlog.Alerts

open Binary64 Otel

/-! ## The sign of a change

Rounding keeps a quotient of doubles on its side of one, and their difference on its side of zero. So
`drift` gets the direction of the ratio right, whatever the doubles do to its size. -/

/-- A number below zero rounds to a float below zero, or to minus infinity. -/
theorem ofRat_lt_zero {q : ℚ} (h : nearest q < 0) (hq : q < 0) :
    (Float64.ofRat q).lt .zero = true := by
  unfold Float64.ofRat
  split
  · exact decide_eq_true (by simpa [Binary64.ofInt] using h)
  · rw [decide_eq_true hq]
    rfl

theorem ofRat_hundred : Float64.ofRat 100 = .fin (.ofInt 100 Binary64.abs_hundred_lt) := by
  simpa using Float64.ofRat_intCast 100 Binary64.abs_hundred_lt

/-- A product with a number above one does not round to zero. -/
theorem hundred_mul_lt_zero {x : Float64} (h : x.lt .zero = true) :
    (x.mul (.ofRat 100)).lt .zero = true := by
  rw [ofRat_hundred]
  cases x with
  | nan => cases h
  | inf negative =>
    cases negative with
    | true => rfl
    | false => cases h
  | fin x =>
    have hneg : x.val < 0 := by simpa [Float64.zero, Binary64.ofInt] using h
    have hbelow : x.val * ((100 : ℤ) : ℚ) ≤ x.val := by
      push_cast
      linarith
    have hround := nearest_monotone hbelow
    rw [nearest_of_isBinary64 x.isBinary64] at hround
    exact ofRat_lt_zero (hround.trans_lt hneg) (hbelow.trans_lt hneg)

/-- A float below zero is below every bound of a rule. -/
theorem not_floatGe_of_lt_zero {x : Float64} {bound : Binary64} (h : x.lt .zero = true)
    (hbound : 0 ≤ bound.val) : floatGe x (.fin bound) = false := by
  cases x with
  | nan => rfl
  | inf negative =>
    cases negative with
    | true => rfl
    | false => cases h
  | fin x =>
    have hneg : x.val < 0 := by simpa [Float64.zero, Binary64.ofInt] using h
    simpa [floatGe] using hneg.trans_le hbound

namespace Reading

variable {reading : Reading}

/-- `current / previous`, exactly. -/
def quotient (self : Reading) : ℚ := self.currP99.val / self.prevP99.val

/-- The p99 of an empty log is zero. -/
structure OfLogs (reading : Reading) : Prop where
  curr_empty : reading.currCount = 0 → reading.currP99.val = 0
  prev_empty : reading.prevCount = 0 → reading.prevP99.val = 0

/-- The figures of an entry as they are before `drift` rounds them. -/
def unrounded (self : Reading) (result : DriftResult) : DriftResult :=
  match result.direction with
  | .new => { result with currentP99 := .fin self.currP99 }
  | .up | .down =>
    { result with
      currentP99 := .fin self.currP99
      previousP99 := .fin self.prevP99
      driftRatio := self.ratio
      driftPct := self.percent }

theorem ratio_eq (hprev : reading.prevP99.val ≠ 0) :
    reading.ratio = Float64.ofRat reading.quotient :=
  Float64.fin_div_fin _ hprev

/-- **The direction of the ratio** survives the rounding. -/
theorem one_lt_ratio (hprev : reading.prevP99.val ≠ 0) :
    Float64.one.lt reading.ratio = true ↔ 1 < reading.quotient := by
  have hexact := one_lt_nearest_div_iff reading.currP99.isBinary64 reading.prevP99.isBinary64 hprev
  rw [ratio_eq hprev, Float64.ofRat]
  split
  · show decide (((1 : ℤ) : ℚ) < nearest reading.quotient) = true ↔ _
    rw [decide_eq_true_iff, Int.cast_one]
    exact hexact
  · next hinf =>
    -- beyond the range: the quotient is not between zero and one
    show (!decide (reading.quotient < 0)) = true ↔ _
    rw [Bool.not_eq_true', decide_eq_false_iff_not, not_lt]
    constructor
    · intro hnonneg
      by_contra hle
      rcases hnonneg.eq_or_lt with hzero | hpos
      · rw [← hzero, nearest_zero] at hinf
        exact hinf isBinary64_zero
      · exact hinf (isBinary64_nearest ⟨1, isBinary64_one⟩ hpos (not_lt.mp hle))
    · intro h
      exact zero_le_one.trans h.le

/-- **The percentage of a ratio below one is below zero.** -/
theorem percent_lt_zero (hprev : reading.prevP99.val ≠ 0) (h : reading.quotient < 1) :
    reading.percent.lt .zero = true := by
  have hratio : nearest reading.quotient < 1 :=
    (nearest_div_lt_one_iff reading.currP99.isBinary64 reading.prevP99.isBinary64 hprev).mpr h
  refine hundred_mul_lt_zero ?_
  rw [ratio_eq hprev]
  unfold Float64.ofRat
  split
  · next hdouble =>
    refine ofRat_lt_zero ?_ ?_
    · simpa [Binary64.ofInt] using (nearest_sub_neg_iff hdouble isBinary64_one).mpr hratio
    · simpa [Binary64.ofInt] using hratio
  · next hinf =>
    have hneg : reading.quotient < 0 := by
      by_contra hnonneg
      rcases (not_lt.mp hnonneg).eq_or_lt with hzero | hpos
      · rw [← hzero, nearest_zero] at hinf
        exact hinf isBinary64_zero
      · exact hinf (isBinary64_nearest ⟨1, isBinary64_one⟩ hpos h.le)
    rw [decide_eq_true hneg]
    rfl

end Reading

/-! ## The entry of a rule's dimension

The code rounds the quotient and the change before it compares them. Each comparison is decided on
the rounded values, and `risesTo_iff_reaches_of_eq` covers the case of equal percentiles. -/

theorem foldl_least_le (pcts : List Binary64) (pct : Binary64) :
    (pcts.foldl (fun least pct => if pct.val < least.val then pct else least) pct).val ≤ pct.val
      ∧ ∀ p ∈ pcts,
        (pcts.foldl (fun least pct => if pct.val < least.val then pct else least) pct).val ≤ p.val := by
  induction pcts generalizing pct with
  | nil => exact ⟨le_refl _, fun p hp => absurd hp List.not_mem_nil⟩
  | cons q pcts ih =>
    obtain ⟨hstart, hall⟩ := ih (if q.val < pct.val then q else pct)
    have hboth : (if q.val < pct.val then q else pct).val ≤ pct.val
        ∧ (if q.val < pct.val then q else pct).val ≤ q.val := by
      split
      · exact ⟨‹q.val < pct.val›.le, le_refl _⟩
      · exact ⟨le_refl _, not_lt.mp ‹_›⟩
    rw [List.foldl_cons]
    refine ⟨hstart.trans hboth.1, fun p hp => ?_⟩
    rcases List.mem_cons.mp hp with rfl | hp
    · exact hstart.trans hboth.2
    · exact hall p hp

/-- The least bound is no larger than the bound of any rule. -/
theorem minThresh_le {rules : List Rule} {rule : AlertRule} (h : .alert rule ∈ rules) :
    (AlertEngine.minThresh rules).val ≤ rule.minDriftPct.val := by
  unfold AlertEngine.minThresh
  split
  · simpa [Binary64.ofInt] using rule.drift_nonneg
  · generalize hpcts : rules.filterMap _ = pcts
    have hmem : rule.minDriftPct ∈ pcts := hpcts ▸ List.mem_filterMap.mpr ⟨_, h, rfl⟩
    cases pcts with
    | nil => cases hmem
    | cons pct pcts =>
      obtain ⟨hstart, hall⟩ := foldl_least_le pcts pct
      rcases List.mem_cons.mp hmem with heq | hmem
      · rw [heq]
        exact hstart
      · exact hall _ hmem

namespace AlertRule

variable {rules : List Rule} {rule : AlertRule} {current : Dict String Reading} {reading : Reading}

/-- `is_violating` of a rule in an evaluation of an engine with the given rules, by the figures of
the report before they are rounded. -/
def violatingIn (rule : AlertRule) (rules : List Rule) (current : Dict String Reading) : Bool :=
  rule.isViolating <| (current.get? rule.dimension).bind fun reading =>
    ((driftMap (drift current (AlertEngine.threshold rules))).get? rule.dimension).map
      reading.unrounded

/-- The change reaches the bound of the rule, exactly. -/
def Reaches (rule : AlertRule) (reading : Reading) : Prop :=
  rule.minDriftPct.val / 100
    ≤ |reading.currP99.val - reading.prevP99.val| / |reading.prevP99.val|

/-- The ratio exceeds one by the threshold of the report and by the bound of the rule, in doubles. -/
def RisesTo (rule : AlertRule) (rules : List Rule) (reading : Reading) : Prop :=
  floatGe reading.change (AlertEngine.threshold rules) = true
    ∧ floatGe reading.percent (.fin rule.minDriftPct) = true

/-- The rule's condition: the relative change of the p99 reaches the bound, and the p99 moved the way
it names. -/
def Named (rule : AlertRule) (reading : Reading) : Prop :=
  rule.Reaches reading
    ∧ (rule.directionFilter = some .up → reading.prevP99.val < reading.currP99.val)
    ∧ (rule.directionFilter = some .down → reading.currP99.val < reading.prevP99.val)

/-- Without a direction: a p99 that stays or moves away from zero reaches the bound in doubles if and
only if it does exactly, or it moves the other way and does not reach the bound. For `up`: a positive
p99 does not rise, or reaches the bound in doubles if and only if it does exactly; a negative one
stays, or rises by less than the bound, or falls by less than the bound in doubles. For `down`: the
p99 rises, or does not reach the bound. -/
def Seen (rule : AlertRule) (rules : List Rule) (reading : Reading) : Prop :=
  (rule.directionFilter = none
    ∧ ((1 ≤ reading.quotient ∧ (rule.RisesTo rules reading ↔ rule.Reaches reading))
      ∨ (reading.quotient < 1 ∧ ¬ rule.Reaches reading)))
  ∨ (rule.directionFilter = some .up
    ∧ ((0 < reading.prevP99.val ∧ (reading.currP99.val ≤ reading.prevP99.val
        ∨ (rule.RisesTo rules reading ↔ rule.Reaches reading)))
      ∨ (reading.prevP99.val < 0 ∧ (reading.currP99.val = reading.prevP99.val
        ∨ (reading.prevP99.val < reading.currP99.val ∧ ¬ rule.Reaches reading)
        ∨ (reading.currP99.val < reading.prevP99.val ∧ ¬ rule.RisesTo rules reading)))))
  ∨ (rule.directionFilter = some .down
    ∧ (reading.prevP99.val < reading.currP99.val ∨ ¬ rule.Reaches reading))

/-- A ratio below one does not reach the bound, which is not negative. -/
theorem RisesTo.one_le (h : rule.RisesTo rules reading) (hprev : reading.prevP99.val ≠ 0) :
    1 ≤ reading.quotient := by
  by_contra hlt
  have hpercent := reading.percent_lt_zero hprev (not_le.mp hlt)
  rw [RisesTo, not_floatGe_of_lt_zero hpercent rule.drift_nonneg] at h
  exact Bool.false_ne_true h.2

theorem eq_up_iff {p : Prop} [Decidable p] : (Direction.up = if p then .up else .down) ↔ p := by
  by_cases h : p
  · rw [if_pos h]
    exact iff_of_true rfl h
  · rw [if_neg h]
    exact iff_of_false (by decide) h

theorem eq_down_iff {p : Prop} [Decidable p] :
    (Direction.down = if p then .up else .down) ↔ ¬ p := by
  by_cases h : p
  · rw [if_pos h]
    exact iff_of_false (by decide) (not_not.mpr h)
  · rw [if_neg h]
    exact iff_of_true rfl h

/-- **What the code asks**: the ratio exceeds one by the bounds in doubles, and its direction is the
rule's. -/
theorem violatingIn_iff (hget : current.get? rule.dimension = some reading) (hlogs : reading.OfLogs)
    (hsamples : rule.minSamples ≤ reading.currCount) (hprev : reading.prevP99.val ≠ 0) :
    rule.violatingIn rules current = true ↔ rule.RisesTo rules reading
      ∧ (rule.directionFilter = none
        ∨ rule.directionFilter = some (if 1 < reading.quotient then .up else .down)) := by
  have hcount : reading.prevCount ≠ 0 := fun h => hprev (hlogs.prev_empty h)
  rw [violatingIn, get?_driftMap, hget, Option.bind_some, Option.bind_some, Reading.result?]
  by_cases hcurr : reading.currCount = 0
  · -- an empty current window has the ratio zero
    rw [if_pos (Or.inl hcurr)]
    refine ⟨fun h => absurd h Bool.false_ne_true, fun h => ?_⟩
    have hone := h.1.one_le hprev
    rw [Reading.quotient, hlogs.curr_empty hcurr, zero_div] at hone
    exact absurd hone (by norm_num)
  have hnonempty : ¬ (reading.currCount = 0 ∨ reading.prevCount = 0) := by
    rintro (h | h)
    · exact hcurr h
    · exact hcount h
  rw [if_neg hnonempty, if_neg (fun h => hprev h.1), if_neg hprev]
  by_cases hchange : floatGe reading.change (AlertEngine.threshold rules) = true
  · rw [if_pos hchange, Option.map_some, RisesTo, isViolating]
    have hdirection : (reading.unrounded (reading.changedResult rule.dimension)).direction
        = if 1 < reading.quotient then .up else .down := by
      by_cases hup : 1 < reading.quotient
      · have hratio := (reading.one_lt_ratio hprev).mpr hup
        simp [Reading.unrounded, Reading.changedResult, hratio, hup]
      · have hratio : ¬ Float64.one.lt reading.ratio = true :=
          fun h => hup ((reading.one_lt_ratio hprev).mp h)
        simp [Reading.unrounded, Reading.changedResult, hratio, hup]
    have hfigures : (reading.unrounded (reading.changedResult rule.dimension)).driftPct
        = reading.percent
        ∧ (reading.unrounded (reading.changedResult rule.dimension)).currentSamples
          = reading.currCount := by
      by_cases hratio : Float64.one.lt reading.ratio = true <;>
        simp [Reading.unrounded, Reading.changedResult, hratio]
    simp only [dirMatch, hdirection, hfigures, hchange, decide_eq_true hsamples, Bool.true_and,
      Bool.and_eq_true, Bool.or_eq_true, Option.isNone_iff_eq_none, beq_iff_eq, true_and]
    exact and_comm
  · -- below the threshold of the report
    rw [if_neg hchange]
    exact ⟨fun h => absurd h Bool.false_ne_true, fun h => absurd h.1.1 hchange⟩

/-- The relative change is the distance of the quotient from one. -/
theorem reaches_iff (hprev : reading.prevP99.val ≠ 0) :
    rule.Reaches reading ↔ rule.minDriftPct.val / 100 ≤ |reading.quotient - 1| := by
  rw [Reaches, ← abs_div, sub_div, div_self hprev]
  rfl

/-- A p99 that stays reaches only the bound zero, in doubles as well as exactly. -/
theorem risesTo_iff_reaches_of_eq (h : .alert rule ∈ rules) (hprev : reading.prevP99.val ≠ 0)
    (heq : reading.currP99.val = reading.prevP99.val) :
    rule.RisesTo rules reading ↔ rule.Reaches reading := by
  -- the quotient is one, so the reported change is zero
  have hquotient : reading.quotient = 1 := by rw [Reading.quotient, heq, div_self hprev]
  have hsub : reading.ratio.sub .one = .zero := by
    rw [Reading.ratio_eq hprev, hquotient, Float64.ofRat_one, Float64.one, Float64.fin_sub_fin,
      sub_self, Float64.ofRat_zero]
  have hpercent : reading.percent = .zero := by
    rw [Reading.percent, hsub, ofRat_hundred, Float64.zero, Float64.fin_mul_fin]
    rw [show ((Binary64.ofInt 0 Binary64.abs_zero_lt).val : ℚ) = 0 from Int.cast_zero, zero_mul,
      Float64.ofRat_zero, Float64.zero]
  have hchange : reading.change = .zero := by
    rw [Reading.change, hsub, floatAbs, if_neg (by simp [Float64.zero])]
  -- reaching the threshold then means that it is zero
  have hreaches : rule.Reaches reading ↔ rule.minDriftPct.val = 0 := by
    rw [reaches_iff hprev, hquotient, sub_self, abs_zero]
    have hnonneg := rule.drift_nonneg
    constructor
    · intro hle
      linarith
    · intro hzero
      rw [hzero, zero_div]
  rw [hreaches, RisesTo, hpercent, hchange]
  -- and so does rising to it, as the least threshold is zero with it
  constructor
  · intro hrises
    have hle : ¬ 0 < rule.minDriftPct.val := by
      simpa [floatGe, Float64.zero, Binary64.ofInt] using hrises.2
    exact le_antisymm (not_lt.mp hle) rule.drift_nonneg
  · intro hzero
    have hthreshold : AlertEngine.threshold rules = .zero := by
      have hle := minThresh_le h
      rw [hzero] at hle
      exact if_neg (not_lt.mpr hle)
    rw [hthreshold]
    refine ⟨by decide +kernel, ?_⟩
    simp [floatGe, Float64.zero, Binary64.ofInt, hzero]

/-- The quotient of a positive p99 rises with it, and that of a negative one falls. -/
theorem one_lt_quotient_iff (hprev : reading.prevP99.val ≠ 0) :
    1 < reading.quotient
      ↔ (0 < reading.prevP99.val ∧ reading.prevP99.val < reading.currP99.val)
        ∨ (reading.prevP99.val < 0 ∧ reading.currP99.val < reading.prevP99.val) := by
  rcases lt_or_gt_of_ne hprev with hneg | hpos
  · simp [Reading.quotient, one_lt_div_of_neg hneg, hneg, hneg.not_gt]
  · simp [Reading.quotient, one_lt_div hpos, hpos, hpos.not_gt]

theorem quotient_eq_one_iff (hprev : reading.prevP99.val ≠ 0) :
    reading.quotient = 1 ↔ reading.currP99.val = reading.prevP99.val :=
  div_eq_one_iff_eq hprev

/-- A rule for a change by a fifth. -/
def fifth (direction : Option Direction) (h : direction ≠ some .new) : AlertRule where
  name := "change"
  dimension := "cpu"
  minDriftPct := .ofInt 20 (by norm_num)
  minSamples := 0
  sustainedWindows := 1
  directionFilter := direction
  sustained_pos := one_pos
  drift_nonneg := by simp [Binary64.ofInt]
  direction_ne := h

/-- A p99 that was 100. -/
def fromHundred (n : ℤ) (h : |n| < 2 ^ 53) : Reading :=
  ⟨1, 1, .ofInt n h, .ofInt 100 Binary64.abs_hundred_lt⟩

theorem ofLogs_fromHundred (n : ℤ) (h : |n| < 2 ^ 53) : (fromHundred n h).OfLogs :=
  ⟨fun hzero => absurd hzero one_ne_zero, fun hzero => absurd hzero one_ne_zero⟩

theorem fromHundred_ne (n : ℤ) (h : |n| < 2 ^ 53) : (fromHundred n h).prevP99.val ≠ 0 := by
  norm_num [fromHundred, Binary64.ofInt]

/-- A rise from 100 to 120 is one by a fifth, and is not reported. -/
example : (fifth none (by decide)).Named (fromHundred 120 (by norm_num))
    ∧ (fifth none (by decide)).violatingIn [.alert (fifth none (by decide))]
      (Dict.set ∅ "cpu" (fromHundred 120 (by norm_num))) = false := by
  constructor
  · refine ⟨?_, fun hup => absurd hup (by decide), fun hdown => absurd hdown (by decide)⟩
    norm_num [Reaches, fifth, fromHundred, Binary64.ofInt]
  · decide +kernel

end AlertRule

end Sketchlog.Alerts
