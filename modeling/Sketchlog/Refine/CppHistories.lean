import Sketchlog.Refine.CppQueries
import Sketchlog.Properties.Percentile

/-!
# Histories of a C++ sketch

`Built M alpha sk vs`: accepted calls of `add`, `add_batch` and `merge` on C++ sketches of accuracy
`alpha` have left `sk`, and `vs` are the values they accepted. Seen as a Python sketch, `sk` holds the
tally of `vs` (`Built.holds`), so what is proved of Python sketches that hold a multiset carries over
through the query lemmas `quantileAt_toPython` and `countGreaterThan_toPython`.
-/

namespace Sketchlog.Cpp.DDSketch

open Imperative

open Sketchlog.DDSketch (Holds copies finiteValues tallyOf tallyOf_add tallyOf_replicate
  tallyOf_finiteValues
  isBinary64_of_mem_copies isBinary64_of_mem_finiteValues)

inductive Built (M : IndexMapping) (alpha : ℚ) : DDSketch → Multiset ℚ → Prop where
  | new {sk : DDSketch} (relativeAccuracy : PyFloat) (h : new relativeAccuracy = .ok sk)
      (halpha : sk.alpha.val = alpha) : Built M alpha sk 0
  | addCount {sk sk' : DDSketch} {vs : Multiset ℚ} (value : PyFloat) (count : ℕ)
      (h : Built M alpha sk vs)
      (hrun : (addCount M value count).run sk = .ok () sk') :
        Built M alpha sk' (vs + copies value count)
  | addBatch {sk sk' : DDSketch} {vs : Multiset ℚ} (values : List PyFloat) (h : Built M alpha sk vs)
      (hrun : (addBatch M values).run sk = .ok () sk') :
      Built M alpha sk' (vs + (finiteValues values : Multiset ℚ))
  | merge {sk other sk' : DDSketch} {vs ws : Multiset ℚ} (h : Built M alpha sk vs)
      (h' : Built M alpha other ws) (hrun : (merge other).run sk = .ok () sk') :
      Built M alpha sk' (vs + ws)

variable {M : IndexMapping} {alpha : ℚ} {sk : DDSketch} {vs : Multiset ℚ}

/-- The accepted values and what the sketch keeps of them. -/
structure Keeps (M : IndexMapping) (alpha : ℚ) (sk : DDSketch) (vs : Multiset ℚ) : Prop where
  represents : sk.Represents (tallyOf M alpha vs)
  holds : Holds M alpha sk.toPython vs

theorem Keeps.addCount (h : Keeps M alpha sk vs) {sk' : DDSketch} {value : PyFloat} {count : ℕ}
    (hrun : (addCount M value count).run sk = .ok () sk') :
      Keeps M alpha sk' (vs + copies value count) := by
  -- calls that count nothing leave the sketch
  have hnone : sk' = sk → copies value count = 0 → Keeps M alpha sk' (vs + copies value count) := by
    rintro rfl h0
    rwa [h0, add_zero]
  cases value with
  | nan => exact hnone (by cases hrun; rfl) rfl
  | inf b => exact hnone (by cases hrun; rfl) rfl
  | fin v =>
    by_cases hc : count = 0
    · subst hc
      exact hnone (by cases hrun; rfl) rfl
    obtain ⟨⟨hvalid, hfits⟩, halpha, hrep⟩ :=
      (addCount_guarded h.represents h.holds.fits v (Nat.pos_of_ne_zero hc)).of_run_ok hrun
    have halpha' : sk.alpha.val = alpha := h.holds.alpha_eq
    rw [halpha'] at hvalid hfits hrep
    have hcopies : copies (.fin v) count = Multiset.replicate count v.val := rfl
    rw [← tallyOf_replicate, ← tallyOf_add, ← hcopies] at hfits hrep
    refine ⟨hrep, (congrArg Binary64.val halpha).trans halpha', h.holds.alpha_ge, h.holds.alpha_lt,
      hrep.contents, hfits, fun w hw => ?_, fun w hw =>
      (Multiset.mem_add.mp hw).elim (h.holds.doubles w) isBinary64_of_mem_copies⟩
    rcases Multiset.mem_add.mp hw with hw | hw
    · exact h.holds.valid w hw
    · rw [hcopies] at hw
      exact Multiset.eq_of_mem_replicate hw ▸ hvalid

theorem Keeps.addBatch (h : Keeps M alpha sk vs) {sk' : DDSketch} {values : List PyFloat}
    (hrun : (addBatch M values).run sk = .ok () sk') :
    Keeps M alpha sk' (vs + (finiteValues values : Multiset ℚ)) := by
  obtain ⟨⟨hvalid, hfits⟩, halpha, hrep⟩ :=
    (addBatch_guarded h.represents h.holds.fits values).of_run_ok hrun
  have halpha' : sk.alpha.val = alpha := h.holds.alpha_eq
  rw [halpha'] at hvalid hfits hrep
  rw [← tallyOf_finiteValues, ← tallyOf_add] at hfits hrep
  refine ⟨hrep, (congrArg Binary64.val halpha).trans halpha', h.holds.alpha_ge, h.holds.alpha_lt,
    hrep.contents, hfits, fun w hw => ?_, fun w hw => (Multiset.mem_add.mp hw).elim (h.holds.doubles w)
      fun hw => isBinary64_of_mem_finiteValues (by simpa using hw)⟩
  rcases Multiset.mem_add.mp hw with hw | hw
  · exact h.holds.valid w hw
  · exact hvalid w (by simpa using hw)

theorem Keeps.merge (h : Keeps M alpha sk vs) {other sk' : DDSketch} {ws : Multiset ℚ}
    (h' : Keeps M alpha other ws) (hrun : (merge other).run sk = .ok () sk') :
    Keeps M alpha sk' (vs + ws) := by
  have halpha : sk.alpha = other.alpha := Binary64.ext (h.holds.alpha_eq.trans h'.holds.alpha_eq.symm)
  obtain ⟨hfits, halpha', hrep⟩ :=
    (merge_guarded h.represents h.holds.fits h'.represents halpha).of_run_ok hrun
  rw [← tallyOf_add] at hfits hrep
  exact ⟨hrep, (congrArg Binary64.val halpha').trans h.holds.alpha_eq, h.holds.alpha_ge,
    h.holds.alpha_lt,
    hrep.contents, hfits, fun w hw =>
      (Multiset.mem_add.mp hw).elim (h.holds.valid w) (h'.holds.valid w),
    fun w hw => (Multiset.mem_add.mp hw).elim (h.holds.doubles w) (h'.holds.doubles w)⟩

theorem Built.keeps (h : Built M alpha sk vs) : Keeps M alpha sk vs := by
  induction h with
  | new relativeAccuracy h halpha =>
    obtain ⟨x, -, hge, hlt, rfl⟩ := new_eq_ok.mp h
    obtain rfl : x.val = alpha := halpha
    exact ⟨represents_empty x, rfl, hge, hlt, (represents_empty x).contents, Tally.fits_zero, by
      simp, by simp⟩
  | addCount value count _ hrun ih => exact ih.addCount hrun
  | addBatch values _ hrun ih => exact ih.addBatch hrun
  | merge _ _ hrun ih ih' => exact ih.merge ih' hrun

end Sketchlog.Cpp.DDSketch
