import Sketchlog.Refine.PythonReachable
import Sketchlog.Refine.CppDDSketch

/-!
# A batch is the loop over its values

`add_batch` accumulates into dictionaries of its own and checks every limit once, at the end; `add`
checks before each write. Both are guarded addition of the same tally: the limits are inherited by
parts, so a loop of single additions never raises before the sum of all of them does
(`BoundedMonoid.forM_outcome`), and addition of tallies does not see the order.
-/

namespace Sketchlog

open Imperative

open Cpp.DDSketch (valueTally ValueValid sum_valueTally forall_valueValid_iff)

namespace DDSketch

/-- The sketches a program can hold: any sequence of calls on a sketch, accepted or rejected, or the
sketch of a log. Merges and restored documents reach a sketch through its log only. -/
inductive Reachable (M : IndexMapping) : DDSketch → Prop where
  | new {sk : DDSketch} (relativeAccuracy : PyFloat) (h : new relativeAccuracy = .ok sk) :
      Reachable M sk
  | add {sk : DDSketch} (value : PyFloat) (count : ℤ) (h : Reachable M sk) :
      Reachable M (after (add M value count) sk)
  | addBatch {sk : DDSketch} (values : List PyFloat) (h : Reachable M sk) :
      Reachable M (after (addBatch M values) sk)
  | reset {sk : DDSketch} (h : Reachable M sk) : Reachable M (after reset sk)
  | ofLog {log : StreamLog} (h : StreamLog.Reachable M log) : Reachable M log.latency

variable {M : IndexMapping} {sk : DDSketch}

/-- Any call of `add` is guarded addition of its copies; a call that counts nothing adds zero. -/
theorem add_guarded_any {t : Tally} (h : sk.Represents t) (hf : t.Fits) (value : PyFloat) (count : ℤ) :
    ∃ P : Prop, ∃ d : Tally, (P → (t + d).Fits)
      ∧ Guarded (add M value count) sk P (fun sk' => sk'.Represents (t + d)) := by
  have hnone : add M value count = pure () → ∃ P : Prop, ∃ d : Tally, (P → (t + d).Fits)
      ∧ Guarded (add M value count) sk P (fun sk' => sk'.Represents (t + d)) := by
    intro hpure
    refine ⟨True, 0, fun _ => by rwa [add_zero], ?_⟩
    rw [hpure, add_zero]
    exact Guarded.of_ok rfl h
  cases value with
  | nan => exact hnone rfl
  | inf b => exact hnone rfl
  | fin v =>
    by_cases hc : count ≤ 0
    · exact hnone (if_pos hc)
    obtain ⟨c, rfl⟩ := Int.eq_ofNat_of_zero_le (by omega : 0 ≤ count)
    have hguarded := add_guarded (M := M) h hf v (by omega : 0 < c)
    exact ⟨_, _, And.right, hguarded.imp Iff.rfl fun _ _ hR => hR.2⟩

/-- A reachable sketch holds a tally that fits. -/
theorem Reachable.holds (h : Reachable M sk) : ∃ t : Tally, sk.Represents t ∧ t.Fits := by
  induction h with
  | new relativeAccuracy hnew =>
    obtain ⟨x, -, -, -, rfl⟩ := new_eq_ok.mp hnew
    exact ⟨0, represents_empty x.val, Tally.fits_zero⟩
  | add value count _ ih =>
    obtain ⟨t, hrep, hfits⟩ := ih
    obtain ⟨P, d, hfits', hguarded⟩ := add_guarded_any (M := M) hrep hfits value count
    by_cases hP : P
    · exact ⟨t + d, hguarded.after_of_pos hP, hfits' hP⟩
    · rw [hguarded.after_of_neg hP]
      exact ⟨t, hrep, hfits⟩
  | @addBatch sk values _ ih =>
    obtain ⟨t, hrep, hfits⟩ := ih
    have hguarded := addBatch_guarded (M := M) hrep hfits values
    by_cases hok : BatchValid M sk.alpha values ∧ (t + batchTally M sk.alpha values).Fits
    · exact ⟨_, (hguarded.after_of_pos hok).2, hok.2⟩
    · rw [hguarded.after_of_neg hok]
      exact ⟨t, hrep, hfits⟩
  | @reset sk _ ih => exact ⟨0, represents_empty sk.alpha, Tally.fits_zero⟩
  | ofLog hlog =>
    obtain ⟨S, c, -, hrep, hfits⟩ := hlog.holds
    exact ⟨c.latency, hrep.latency, hfits.latency⟩

/-! ## The loop of single additions

The fold of `add` over the values, against the one batch. Both are accepted when the sum fits, and
they sum the same values in another order. -/

/-- One call `add(value)`. -/
theorem add_one_outcome {t : Tally} (h : sk.Represents t) (hf : t.Fits) (value : PyFloat) :
    Outcome (add M value 1) sk (ValueValid M sk.alpha value ∧ (t + valueTally M sk.alpha value).Fits)
      (fun sk' => sk'.alpha = sk.alpha ∧ sk'.Represents (t + valueTally M sk.alpha value)) := by
  cases value with
  | nan => exact .accept ⟨trivial, by simpa [valueTally] using hf⟩ sk rfl ⟨rfl, by
      simpa [valueTally] using h⟩
  | inf b => exact .accept ⟨trivial, by simpa [valueTally] using hf⟩ sk rfl ⟨rfl, by
      simpa [valueTally] using h⟩
  | fin v =>
    have hguarded := add_guarded (M := M) h hf v (c := 1) one_pos
    rw [one_nsmul] at hguarded
    exact hguarded.outcome

/-- **The loop over the values is addition of the batch.** -/
theorem forM_add_outcome {t : Tally} (h : sk.Represents t) (hf : t.Fits) (values : List PyFloat) :
    Outcome (values.forM fun value => add M value 1) sk
      (BatchValid M sk.alpha values ∧ (t + batchTally M sk.alpha values).Fits)
      (fun sk' => sk'.alpha = sk.alpha ∧ sk'.Represents (t + batchTally M sk.alpha values)) := by
  rw [← sum_valueTally, ← forall_valueValid_iff]
  have hparts : ∀ a b : Tally, (a + b).Fits → a.Fits := fun _ _ hs => hs.of_add
  -- the accuracy never changes on the way, so every step adds the tally of the first sketch's accuracy
  refine BoundedMonoid.forM_outcome (fun (s : DDSketch) u => s.alpha = sk.alpha ∧ s.Represents u)
    (ValueValid M sk.alpha) (valueTally M sk.alpha) hparts values ?_ ⟨rfl, h⟩ hf
  rintro value - s u ⟨halpha, hrep⟩ hfits
  have hone := add_one_outcome (M := M) hrep hfits value
  rwa [halpha] at hone

theorem batchTally_perm {values values' : List PyFloat} (hperm : values.Perm values') (alpha : ℚ) :
    batchTally M alpha values = batchTally M alpha values' := by
  rw [← sum_valueTally, ← sum_valueTally]
  exact (hperm.map _).sum_eq

/-- **`add_batch` is the loop of `add` over its values**, in whatever order: the one succeeds exactly
when the other does, and they leave the same sketch. -/
theorem batch_equals_sequential (h : Reachable M sk) {values values' : List PyFloat}
    (hperm : values.Perm values') :
    (Accepts (addBatch M values) sk ↔ Accepts (values'.forM fun value => add M value 1) sk)
      ∧ ∀ batched looped, (addBatch M values).run sk = .ok () batched →
        (values'.forM fun value => add M value 1).run sk = .ok () looped → batched = looped := by
  obtain ⟨t, hrep, hfits⟩ := h.holds
  have hbatch := addBatch_guarded (M := M) hrep hfits values
  have hloop := forM_add_outcome (M := M) hrep hfits values'
  have hvalid : BatchValid M sk.alpha values ↔ BatchValid M sk.alpha values' := by
    simp only [← forall_valueValid_iff, hperm.mem_iff]
  rw [hvalid, batchTally_perm hperm] at hbatch
  refine ⟨hbatch.accepts_iff.trans hloop.accepts_iff.symm, fun batched looped hb hl => ?_⟩
  obtain ⟨-, halpha, hrep₁⟩ := hbatch.of_run_ok hb
  obtain ⟨-, halpha', hrep₂⟩ := hloop.of_run_ok hl
  exact hrep₁.sketch_eq hrep₂ (halpha.trans halpha'.symm)

/-- A sketch of accuracy `1/2` that has counted a 4. -/
def withFour : DDSketch := after (add .binary (.fin (.ofInt 4 Binary64.abs_four_lt)) 1) (empty (1 / 2))

/-- Values of both signs, zero, and what is no number. -/
def mixedBatch : List PyFloat :=
  [.fin (.ofInt (-3) Binary64.abs_neg_three_lt), .nan, .fin (.ofInt 0 Binary64.abs_zero_lt),
    .fin (.ofInt 3 Binary64.abs_three_lt), .inf true, .fin (.ofInt 1 Binary64.abs_one_lt),
    .fin (.ofInt (-6) (by decide))]

/-- The loop takes them from the last to the first. -/
theorem batch_equals_sequential_mixed : ∃ t, (addBatch .binary mixedBatch).run withFour = .ok () t
    ∧ (mixedBatch.reverse.forM fun value => add .binary value 1).run withFour = .ok () t
    ∧ t.count = 6 ∧ t.zeroCount = 1 ∧ t.min = (-6 : ℚ) ∧ t.max = (4 : ℚ) := by
  have hnew : DDSketch.new (.fin Binary64.half) = .ok (empty (1 / 2)) :=
    if_neg (not_not.mpr ⟨by norm_num [oneMicro, Binary64.half], by norm_num [Binary64.half]⟩)
  have hreach : Reachable .binary withFour := .add _ _ (.new _ hnew)
  obtain ⟨hiff, hsame⟩ := batch_equals_sequential hreach (List.reverse_perm mixedBatch).symm
  have hbatch : Accepts (addBatch .binary mixedBatch) withFour := by decide +kernel
  obtain ⟨_, t, ht⟩ := hbatch
  obtain ⟨_, u, hu⟩ := hiff.mp ⟨_, t, ht⟩
  obtain rfl := hsame t u ht hu
  have hafter : after (addBatch .binary mixedBatch) withFour = t := by rw [after, ht]
  refine ⟨t, ht, hu, ?_⟩
  rw [← hafter]
  decide +kernel

end DDSketch

end Sketchlog
