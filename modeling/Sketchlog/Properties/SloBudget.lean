import Sketchlog.Python.Slo
import Sketchlog.Refine.FacadeReads
import Sketchlog.Properties.Thresholds

/-!
# The SLO of a service that has not changed

The target that `evaluate` derives is the representative of one bucket of the historical log, the
bucket of the percentile; the errors are whole buckets of the current log. When the two logs are
one, at most the share `1 - q` of its values lies above the bucket of the percentile, but the values
that share this bucket can be counted as well: they are whenever the representative lies in its own
bucket, even those below it. So a service is within its budget exactly when the buckets that are
counted leave it room (`Within`).
-/

namespace Sketchlog

open OrderStatistics Bucket DDSketch

namespace Tally

variable {M : IndexMapping} {alpha : ℚ} {t : Tally}

theorem mass_mono {p p' : Bucket → Prop} [DecidablePred p] [DecidablePred p'] (h : ∀ b, p b → p' b)
    (t : Tally) :
    mass p t ≤ mass p' t := by
  have hterm : ∀ (b : Bucket) (n : ℕ), (if p b then n else 0) ≤ if p' b then n else 0 := by
    intro b n
    by_cases hp : p b
    · rw [if_pos hp, if_pos (h b hp)]
    · rw [if_neg hp]
      exact Nat.zero_le _
  have hside : ∀ (f : ℤ →₀ ℕ) (b : ℤ → Bucket), (f.sum fun i n => if p (b i) then n else 0)
      ≤ f.sum fun i n => if p' (b i) then n else 0 :=
        fun f b => Finset.sum_le_sum fun i _ => hterm (b i) (f i)
  exact Nat.add_le_add (Nat.add_le_add (hside _ _) (hterm _ _)) (hside _ _)

/-- The bucket at which the counts reach the rank `q n`. -/
def IsPercentileBucket (t : Tally) (q : ℚ) (b : Bucket) : Prop :=
  (mass (· < b) t : ℚ) < q * t.count ∧ q * t.count ≤ (mass (· ≤ b) t : ℚ)

theorem IsPercentileBucket.eq {q : ℚ} {b b' : Bucket} (h : t.IsPercentileBucket q b)
    (h' : t.IsPercentileBucket q b') : b = b' := by
  have hnot : ∀ {b b' : Bucket}, t.IsPercentileBucket q b → t.IsPercentileBucket q b' → ¬ b < b' := by
    intro b b' h h' hlt
    have hle : mass (· ≤ b) t ≤ mass (· < b') t := mass_mono (fun _ hb => lt_of_le_of_lt hb hlt) t
    have hcast : (mass (· ≤ b) t : ℚ) ≤ mass (· < b') t := by exact_mod_cast hle
    linarith [h.2, h'.1]
  exact le_antisymm (not_lt.mp (hnot h' h)) (not_lt.mp (hnot h h'))

/-- At most `share` of the values is counted above the representative of the percentile's bucket: it
is no smaller than the maximum, or no smaller than the minimum and the buckets counted for it hold
so few. -/
def Within (M : IndexMapping) (alpha : ℚ) (t : Tally) (q share : ℚ) : Prop :=
  ∃ b, t.IsPercentileBucket q b ∧ (t.max ≤ (representative M alpha b : ERat)
    ∨ (t.min ≤ (representative M alpha b : ERat)
      ∧ (mass (Above M alpha (representative M alpha b)) t : ℚ) ≤ share * t.count))

end Tally

namespace DDSketch

variable {M : IndexMapping} {sk : DDSketch} {t : Tally}

/-- `quantile` returns the representative of the percentile's bucket. -/
theorem exists_percentileBucket (M : IndexMapping) (h : sk.Represents t) (hn : 0 < t.count) {q : ℚ}
    (h0 : 0 < q)
    (h1 : q < 1) :
    ∃ b, t.IsPercentileBucket q b ∧ sk.quantileAt M q = ((representative M sk.alpha b : ℚ) : ERat) := by
  have hcount : sk.count = t.count := h.count
  have hrank : 0 < q * (t.count : ℚ) := mul_pos h0 (by exact_mod_cast hn)
  have hall : ((sk.buckets.map Prod.snd).sum : ℤ) = t.count := by
    have hsum := sum_filter_buckets h fun _ => True
    have htrue : sk.buckets.filter (fun _ => decide True) = sk.buckets :=
      List.filter_eq_self.mpr fun _ _ => rfl
    rw [htrue] at hsum
    rw [hsum]
    simp only [mass, Tally.count, if_true, Finsupp.degree_apply, Finsupp.sum]
    push_cast
    ring
  have hcover : q * (t.count : ℚ) ≤ ((sk.buckets.map Prod.snd).sum : ℤ) := by
    rw [hall]
    push_cast
    nlinarith [show (0 : ℚ) ≤ t.count from Nat.cast_nonneg _]
  obtain ⟨b, hwalk, hlt, hle⟩ := walk_eq_inl sk.buckets (buckets_sorted sk) hrank hcover
  rw [sum_filter_buckets h fun b' => b' < b] at hlt
  rw [sum_filter_buckets h fun b' => b' ≤ b] at hle
  refine ⟨b, ⟨by exact_mod_cast hlt, by exact_mod_cast hle⟩, ?_⟩
  rw [quantileAt_eq_walk M sk (by omega) h0 h1, hcount, Int.cast_natCast, hwalk]

/-- `count_greater_than` of a number, over what the sketch holds. -/
theorem countGreaterThan_eq (h : sk.Represents t) (hn : 0 < t.count) (x : ℚ) :
    sk.countGreaterThan M x = if t.max ≤ (x : ERat) then 0 else if (x : ERat) < t.min then (t.count : ℤ)
      else (mass (Above M sk.alpha x) t : ℤ) := by
  have hcount : sk.count = t.count := h.count
  unfold countGreaterThan
  rw [if_neg (by omega), h.max, h.min, hcount, ← countAbove_eq_mass h x]
  rfl

end DDSketch

namespace Slo

open Facade.StreamLog

variable {M : IndexMapping} {cppAvailable : Bool} {log : Facade.StreamLog} {S : Shape} {c : Contents S}

/-- The error rate of a log against its own percentile. -/
theorem errorRate_le_iff {sk : DDSketch} {t : Tally} (h : sk.Represents t) (hn : 0 < t.count)
    {q share : ℚ} {b : Bucket}
    (hb : t.IsPercentileBucket q b) (h0 : 0 < share) (h1 : share < 1) :
    ((sk.countGreaterThan M (representative M sk.alpha b : ℚ) : ℚ) / t.count ≤ share)
      ↔ t.Within M sk.alpha q share := by
  have hpos : (0 : ℚ) < t.count := by exact_mod_cast hn
  have hwithin : t.Within M sk.alpha q share ↔ t.max ≤ (representative M sk.alpha b : ERat)
      ∨ (t.min ≤ (representative M sk.alpha b : ERat)
        ∧ (mass (Above M sk.alpha (representative M sk.alpha b)) t : ℚ) ≤ share * t.count) := by
    constructor
    · rintro ⟨b', hb', hroom⟩
      obtain rfl := hb.eq hb'
      exact hroom
    · exact fun hroom => ⟨b, hb, hroom⟩
  rw [hwithin, countGreaterThan_eq h hn, div_le_iff₀ hpos]
  by_cases hhi : t.max ≤ (representative M sk.alpha b : ERat)
  · simp only [hhi, if_true, true_or, iff_true, Int.cast_zero]
    positivity
  rw [if_neg hhi, or_iff_right hhi]
  by_cases hlo : (representative M sk.alpha b : ERat) < t.min
  · -- every value is counted
    rw [if_pos hlo, Int.cast_natCast]
    refine iff_of_false ?_ fun hroom => hlo.not_ge hroom.1
    nlinarith
  · rw [if_neg hlo, Int.cast_natCast, and_iff_right (not_lt.mp hlo)]

theorem evaluate_unchanged (M : IndexMapping) {sk : DDSketch} (hlike : log.AnswersLike M sk)
    (hn : 0 < log.latencyCount)
    {q b : Binary64} (hq : 0 < q.val ∧ q.val < 1) (hb : 0 < b.val ∧ b.val < 1) :
    ∃ report, evaluate M log log (.fin q) (.fin b) = .ok report
      ∧ report.currentErrorRate = (sk.countGreaterThan M (sk.quantileAt M q.val) : ℚ) / sk.count
      ∧ (report.isAlerting = false ↔ report.currentErrorRate ≤ b.val) := by
  have hne : ¬ log.latencyCount = 0 := hn.ne'
  set errors : ℤ := sk.countGreaterThan M (sk.quantileAt M q.val) with herrors
  set rate : ℚ := errors / sk.count with hrate
  refine ⟨⟨q, sk.quantileAt M q.val, b, sk.count, errors, rate, rate / b.val, rate / b.val > 1⟩, ?_,
    rfl, ?_⟩
  · rw [hlike.latencyCount] at hn hne
    simp only [evaluate, inUnit, if_pos hq, if_pos hb, Checked.failIf, hlike.latencyCount, if_neg hne,
      hlike.percentile, hlike.countGreaterThan]
    simp only [bind, Except.bind, if_pos hn, ← herrors, ← hrate]
  · exact decide_eq_false_iff_not.trans (not_lt.trans (div_le_one hb.1))

/-- **When an unchanged service is within its budget**: `evaluate` of a log against itself does not
alert exactly when the values that are counted above the target are at most the budget's share, and
its error rate is at most `1 - q` exactly when they are at most that share. -/
theorem unchanged_service_iff (h : Reachable M cppAvailable log) (hn : 0 < log.latencyCount)
    {q b : Binary64}
    (hq : 0 < q.val ∧ q.val < 1) (hb : 0 < b.val ∧ b.val < 1) :
    ∃ S, ∃ c : Contents S, log.backend.Represents c ∧ ∃ report, evaluate M log log (.fin q) (.fin b)
      = .ok report
      ∧ (report.isAlerting = false ↔ c.latency.Within M S.alpha q.val b.val)
      ∧ (report.currentErrorRate ≤ 1 - q.val ↔ c.latency.Within M S.alpha q.val (1 - q.val)) := by
  obtain ⟨S, c, hvalid⟩ := h.valid
  obtain ⟨sk, halpha, hrep, hlike⟩ := exists_sketch M hvalid.represents hvalid.fits
  obtain ⟨report, hrun, hrate, halert⟩ := evaluate_unchanged M hlike hn hq hb
  have hcount : sk.count = c.latency.count := hrep.count
  have hpos : 0 < c.latency.count := by
    rw [hlike.latencyCount] at hn
    omega
  obtain ⟨bucket, hbucket, hquantile⟩ := exists_percentileBucket M hrep hpos hq.1 hq.2
  rw [hquantile, hcount, Int.cast_natCast] at hrate
  refine ⟨S, c, hvalid.represents, report, hrun, ?_, ?_⟩
  · rw [halert, hrate, ← halpha]
    exact errorRate_le_iff hrep hpos hbucket hb.1 hb.2
  · rw [hrate, ← halpha]
    exact errorRate_le_iff hrep hpos hbucket (by linarith [hq.2]) (by linarith [hq.1])

/-! ## Latencies of both signs, and one latency -/

/-- A log of accuracy `1/2` with eight latencies. -/
def eightLatencies : Facade.StreamLog :=
  ⟨⟨.fin Binary64.half, 4, 2, 1, true⟩,
    .python (Imperative.after (Sketchlog.StreamLog.ingest .binary (.batch
      [.fin (.ofInt (-2) Binary64.abs_neg_two_lt), .fin (.ofInt 0 Binary64.abs_zero_lt),
        .fin (.ofInt 1 Binary64.abs_one_lt), .fin (.ofInt 4 Binary64.abs_four_lt),
        .fin (.ofInt 4 Binary64.abs_four_lt), .fin (.ofInt 16 (by decide)),
        .fin (.ofInt 64 (by decide)), .fin (.ofInt 64 (by decide))]))
      (Sketchlog.StreamLog.emptyOf halfShape true))⟩

theorem reachable_eightLatencies : Reachable .binary false eightLatencies :=
  .python _ (.new _ (new_half true))

def threeQuarters : Binary64 :=
  ⟨3 / 4, 3, -2, by norm_num, by norm_num, by norm_num, by norm_num⟩

/-- Five of the eight are counted above the median, which is in the bucket of two of them: the budget of
three quarters has room for them, the share of one half has not. -/
theorem unchanged_service_eight : ∃ S, ∃ c : Contents S, eightLatencies.backend.Represents c
    ∧ (∃ report, evaluate .binary eightLatencies eightLatencies (.fin Binary64.half)
        (.fin threeQuarters) = .ok report
      ∧ report.isAlerting = false ∧ report.currentErrorRate = 5 / 8)
    ∧ c.latency.Within .binary S.alpha (1 / 2) (3 / 4)
    ∧ ¬ c.latency.Within .binary S.alpha (1 / 2) (1 - 1 / 2) := by
  have hcount : 0 < eightLatencies.latencyCount := by decide +kernel
  obtain ⟨S, c, hc, report, hrun, halert, hrate⟩ := unchanged_service_iff reachable_eightLatencies
    hcount (q := Binary64.half) (b := threeQuarters) (by norm_num [Binary64.half])
    (by norm_num [threeQuarters])
  have hseen : (evaluate .binary eightLatencies eightLatencies (.fin Binary64.half)
      (.fin threeQuarters)).map (fun r => (r.isAlerting, r.currentErrorRate)) = .ok (false, 5 / 8) := by
    decide +kernel
  rw [hrun] at hseen
  obtain ⟨hfalse, hfive⟩ := Prod.mk.inj (Except.ok.inj hseen)
  have hnot : ¬ report.currentErrorRate ≤ 1 - Binary64.half.val := by
    rw [hfive]
    norm_num [Binary64.half]
  exact ⟨S, c, hc, ⟨report, hrun, hfalse, hfive⟩, halert.mp hfalse, fun h => hnot (hrate.mpr h)⟩

/-- The percentile of the one latency 1 is the representative 1/2, below all values. -/
theorem not_within_one (share : ℚ) : ¬ (Tally.single .ternary (1 / 2) 1).Within .ternary (1 / 2)
    (1 / 2) share := by
  rintro ⟨b, ⟨hlt, hle⟩, hroom⟩
  rw [Tally.count_single] at hlt hle
  rw [mass_single] at hlt hle
  have hbucket : b = bucketOf .ternary (1 / 2) 1 := by
    refine le_antisymm (not_lt.mp fun h => ?_) (not_lt.mp fun h => ?_)
    · rw [if_pos h] at hlt
      norm_num at hlt
    · rw [if_neg (not_le.mpr h)] at hle
      norm_num at hle
  have hrep : representative .ternary (1 / 2) b = 1 / 2 := by
    rw [hbucket, bucketOf_pos one_pos]
    norm_num [representative, IndexMapping.ternary]
  rw [hrep, Tally.single_max, Tally.single_min, WithBotTop.coe_le_coe] at hroom
  norm_num at hroom

/-- **An unchanged service that alerts**: at `q = b = 1/2` the one latency 1 is counted above its
own percentile. -/
theorem unchanged_service_alerts : ∃ log, Reachable .ternary false log ∧ 0 < log.latencyCount
    ∧ 1 - Binary64.half.val ≤ Binary64.half.val
    ∧ ∃ report, evaluate .ternary log log (.fin Binary64.half) (.fin Binary64.half) = .ok report
      ∧ report.isAlerting = true ∧ 1 - Binary64.half.val < report.currentErrorRate := by
  obtain ⟨log, hreach, hrep⟩ := exists_log_one
  have hcount := latencyCount_one hrep fits_one
  have hhalf : 0 < Binary64.half.val ∧ Binary64.half.val < 1 := by norm_num [Binary64.half]
  obtain ⟨sk, halpha, hrepr, hlike⟩ := exists_sketch .ternary hrep fits_one
  obtain ⟨report, hrun, hrate, halert⟩ :=
    evaluate_unchanged .ternary hlike (by rw [hcount]; exact one_pos) hhalf hhalf
  have halpha' : sk.alpha = 1 / 2 := halpha
  have hpos : 0 < (Tally.single .ternary (1 / 2) 1).count := by rw [Tally.count_single]; exact one_pos
  obtain ⟨b, hb, hquantile⟩ := exists_percentileBucket .ternary hrepr hpos hhalf.1 hhalf.2
  have hnot := (errorRate_le_iff hrepr hpos hb hhalf.1 hhalf.2).not.mpr
    (by rw [halpha']; exact not_within_one _)
  rw [hquantile, hrepr.count, Int.cast_natCast] at hrate
  rw [← hrate] at hnot
  refine ⟨log, hreach, by rw [hcount]; exact one_pos, by norm_num [Binary64.half], report, hrun, ?_, ?_⟩
  · rw [← Bool.not_eq_false, halert]
    exact hnot
  · have hhalf' : 1 - Binary64.half.val = Binary64.half.val := by norm_num [Binary64.half]
    rw [hhalf']
    exact not_le.mp hnot

end Slo

end Sketchlog
