import Sketchlog.Python.FacadeReads
import Sketchlog.Refine.WindowedSteps
import Sketchlog.Refine.CppQueries

/-!
# The answers of a log are those of one sketch

A log of either backend that holds contents `c` answers like a Python sketch of its accuracy that holds
`c.latency`: for a C++ log, like its sketch seen as a Python one (`exists_sketch`).
-/

namespace Sketchlog.Facade.StreamLog

open Imperative

variable {M : IndexMapping} {log : StreamLog} {S : Shape} {c : Contents S}

/-- The log answers like `sk`. -/
structure AnswersLike (M : IndexMapping) (log : StreamLog) (sk : DDSketch) : Prop where
  latencyCount : log.latencyCount = sk.count
  percentile : ∀ q : Binary64, log.percentile M (.fin q) = .ok (sk.quantileAt M q.val)
  countGreaterThan : log.countGreaterThan M = sk.countGreaterThan M

theorem exists_sketch (M : IndexMapping) (h : log.backend.Represents c) (hf : c.Fits) :
    ∃ sk : DDSketch, sk.alpha = S.alpha ∧ sk.Represents c.latency ∧ log.AnswersLike M sk := by
  -- the Python backend has the sketch itself, the native one its image
  cases hb : log.backend with
  | python own =>
    rw [hb] at h
    have hrep : own.Represents c := h
    refine ⟨own.latency, hrep.alpha, hrep.latency, ?_, ?_, ?_⟩
    · rw [latencyCount, hb]
    · intro q
      rw [percentile, hb]
      rfl
    · funext t
      rw [countGreaterThan, hb]
      rfl
  | cpp own =>
    rw [hb] at h
    have hrep : own.Represents c := h
    refine ⟨own.latency.toPython, hrep.toPython.alpha, hrep.toPython.latency, ?_, ?_, ?_⟩
    · rw [latencyCount, hb]
      rfl
    · intro q
      rw [percentile, hb]
      exact congrArg Except.ok (Cpp.DDSketch.quantileAt_toPython hrep.latency q.val)
    · funext t
      rw [countGreaterThan, hb]
      exact Cpp.DDSketch.countGreaterThan_toPython hrep.latency hf.latency t

/-- The count of a text is always found. -/
theorem exists_eventCount (h : log.backend.Represents c) (name : String) :
    ∃ n, log.eventCount (.str name) = .ok n := by
  have hname : ¬ Sketchlog.StreamLog.keyOutOfRange (.str name) := fun h => h
  cases hb : log.backend with
  | python own =>
    rw [hb] at h
    have hrep : own.Represents c := h
    have hfound := CountMinSketch.estimate_ofCounts S.width_pos S.depth_pos c.events (.str name)
    rw [← hrep.events] at hfound
    refine ⟨_, Eq.trans ?_ hfound⟩
    rw [eventCount, hb, Sketchlog.StreamLog.facadeEventCount, Checked.failIf, if_neg hname]
    rfl
  | cpp own =>
    refine ⟨own.events.estimateBytes (utf8 name), ?_⟩
    rw [eventCount, hb, Sketchlog.StreamLog.facadeEventCount, Checked.failIf, if_neg hname]
    rfl

/-! ## Small logs -/

theorem half_ge : oneMicro ≤ 1 / 2 := by norm_num [oneMicro]

theorem half_lt_one : (1 / 2 : ℚ) < 1 := by norm_num

theorem four_ge : 4 ≤ 4 := Nat.le_refl 4

theorem four_le : 4 ≤ 18 := by decide

/-- The shape of the smallest logs of accuracy `1/2`. -/
def halfShape : Shape := ⟨1 / 2, 4, 2, 1, Binary64.half.isBinary64, half_ge, half_lt_one, four_ge,
    four_le,
  Nat.two_pos, Nat.one_pos⟩

theorem bounded_halfShape : halfShape.Bounded := by norm_num [Shape.Bounded, halfShape]

/-- A Python log of this shape. -/
theorem new_half (deterministic : Bool) : new false ⟨.fin Binary64.half, 4, 2, 1, deterministic⟩
    = .ok ⟨⟨.fin Binary64.half, 4, 2, 1, deterministic⟩,
      .python (Sketchlog.StreamLog.emptyOf halfShape deterministic)⟩ := by
  have hpython : Sketchlog.StreamLog.new ⟨.fin Binary64.half, 4, 2, 1, deterministic⟩
      = .ok (Sketchlog.StreamLog.emptyOf halfShape deterministic) :=
    Sketchlog.StreamLog.new_eq_ok.mpr ⟨halfShape, bounded_halfShape, rfl, rfl, rfl, rfl, rfl⟩
  rw [new, Backend.new, Backend.usesCpp, Bool.false_and, if_neg (by decide), hpython]
  rfl

/-- A deterministic log with the values of one batch. -/
theorem exists_log (values : List PyFloat) (hvalid : DDSketch.BatchValid .ternary (1 / 2) values)
    (hfits : (DDSketch.batchTally .ternary (1 / 2) values).Fits) :
    ∃ log, Reachable .ternary false log
      ∧ log.backend.Represents (⟨DDSketch.batchTally .ternary (1 / 2) values, 0, 0⟩ :
        Contents halfShape) := by
  have hguarded := Sketchlog.StreamLog.ingest_guarded (M := .ternary)
    (Sketchlog.StreamLog.represents_emptyOf halfShape true) Contents.fits_zero (.batch values)
  have hadd : (0 : Contents halfShape) + (Ingest.batch values).delta .ternary halfShape
      = ⟨DDSketch.batchTally .ternary (1 / 2) values, 0, 0⟩ := zero_add _
  rw [hadd] at hguarded
  have hcount := hfits.count_le
  refine ⟨_, .python (.batch values) (.new _ (new_half true)),
    hguarded.after_of_pos ⟨hvalid, hfits, Nat.zero_le _, ?_⟩⟩
  show (DDSketch.batchTally .ternary (1 / 2) values).count + 0 ≤ maxUInt64
  omega

/-- A log of accuracy `1/2` with the latency 1. -/
theorem exists_log_one : ∃ log, Reachable .ternary false log
    ∧ log.backend.Represents (⟨Tally.single .ternary (1 / 2) 1, 0, 0⟩ : Contents halfShape) := by
  have hfinite : DDSketch.finiteValues [.fin (Binary64.ofInt 1 Binary64.abs_one_lt)] = [1] := by
    simp [DDSketch.finiteValues, Binary64.ofInt]
  have htally : DDSketch.batchTally .ternary (1 / 2) [.fin (Binary64.ofInt 1 Binary64.abs_one_lt)]
      = Tally.single .ternary (1 / 2) 1 := by simp [DDSketch.batchTally, hfinite]
  have hvalid : DDSketch.BatchValid .ternary (1 / 2) [.fin (Binary64.ofInt 1 Binary64.abs_one_lt)] := by
    rw [DDSketch.BatchValid, hfinite]
    intro v hv
    rw [List.mem_singleton.mp hv]
    exact fun _ => by decide +kernel
  rw [← htally]
  exact exists_log _ hvalid (htally ▸ Tally.fits_single _ _)

theorem latencyCount_one
    (h : log.backend.Represents (⟨Tally.single .ternary (1 / 2) 1, 0, 0⟩ : Contents halfShape))
    (hf : (⟨Tally.single .ternary (1 / 2) 1, 0, 0⟩ : Contents halfShape).Fits) :
      log.latencyCount = 1 := by
  obtain ⟨sk, -, hrep, hlike⟩ := exists_sketch .ternary h hf
  have hcount : sk.count = (Tally.single .ternary (1 / 2) 1).count := hrep.count
  rw [hlike.latencyCount, hcount, Tally.count_single, Nat.cast_one]

theorem fits_one : (⟨Tally.single .ternary (1 / 2) 1, 0, 0⟩ : Contents halfShape).Fits := by
  refine ⟨Tally.fits_single _ _, Nat.zero_le _, ?_⟩
  show (Tally.single .ternary (1 / 2) 1).count + 0 ≤ maxUInt64
  rw [Tally.count_single]
  norm_num [maxUInt64]

end Sketchlog.Facade.StreamLog
