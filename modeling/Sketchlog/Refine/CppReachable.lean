import Sketchlog.Refine.Backend
import Sketchlog.Refine.CppDocument
import Sketchlog.Refine.PythonReachable

/-!
# Every reachable C++ log is well formed

`Reachable M log`: some finite sequence of calls on C++ logs, accepted or rejected, has left `log`.
As in Python, every reachable log holds contents of its configuration that fit (`Reachable.holds`),
with coherent extrema when `key` is monotone and rounds ints (`Reachable.sound`). The C++ constructor
has no limit of its own on the cells of the Count-Min table (`new_eq_ok`), so a configuration need not
be bounded.
-/

namespace Sketchlog.Cpp

open Imperative Checked Tally

namespace StreamLog

variable {M : IndexMapping} {log other : StreamLog} {S : Shape} {c d : Contents S}

/-- The C++ log, as a backend. -/
def backend (M : IndexMapping) : Backend M where
  Log := StreamLog
  Item := EventKey
  view := Ingest.toPython
  ingest := ingest M
  merge := merge
  reset := reset
  Represents log _ c := log.Represents c
  shape_eq h h' := h.toPython.shape_eq h'.toPython
  contents_eq h h' := h.toPython.contents_eq h'.toPython
  ingest_guarded h hf op := ingest_guarded h hf op
  merge_guarded h hf h' := merge_guarded h hf h'
  merge_of_shape_ne h h' hne := merge_of_shape_ne h h' hne
  run_reset h := run_reset h

/-- The constructor returns the empty log of a configuration whose cells can be counted. -/
theorem new_eq_ok {relativeAccuracy : PyFloat} {hllPrecision cmsWidth cmsDepth : ℤ}
    (h : new relativeAccuracy hllPrecision cmsWidth cmsDepth = .ok log) :
    ∃ S : Shape, relativeAccuracy = .fin ⟨S.alpha, S.alpha_isBinary64⟩ ∧ hllPrecision = S.p
      ∧ cmsWidth = S.width ∧ cmsDepth = S.depth ∧ log = emptyOf S := by
  simp only [new, CountMinSketch.new, HyperLogLog.new, bind_eq_ok, failIf_eq_ok, exists_unit,
    DDSketch.new_eq_ok, Except.ok.injEq] at h
  obtain ⟨_, ⟨x, hx, hge, hlt, rfl⟩, _, ⟨hrange, hne, hcells, rfl⟩, _, ⟨hbyte, hp, rfl⟩, rfl⟩ := h
  rw [not_or] at hne
  rw [not_not] at hrange
  obtain ⟨w, rfl⟩ := Int.eq_ofNat_of_zero_le hrange.1
  obtain ⟨dp, rfl⟩ := Int.eq_ofNat_of_zero_le hrange.2.2.1
  obtain ⟨p, rfl⟩ := Int.eq_ofNat_of_zero_le (by omega : 0 ≤ hllPrecision)
  exact ⟨⟨x.val, p, w, dp, x.isBinary64, hge, hlt, by omega, by omega, by omega, by omega⟩, hx, rfl,
    rfl,
    rfl, rfl⟩

/-- The logs a program can hold. -/
inductive Reachable (M : IndexMapping) : StreamLog → Prop where
  | new {log : StreamLog} (relativeAccuracy : PyFloat) (hllPrecision cmsWidth cmsDepth : ℤ)
      (h : new relativeAccuracy hllPrecision cmsWidth cmsDepth = .ok log) : Reachable M log
  | ingest {log : StreamLog} (op : Ingest EventKey) (h : Reachable M log) :
      Reachable M (after (ingest M op) log)
  | merge {log other : StreamLog} (h : Reachable M log) (h' : Reachable M other) :
      Reachable M (after (merge other) log)
  | reset {log : StreamLog} (h : Reachable M log) : Reachable M (after reset log)
  | fromDict {log : StreamLog} (data : PyVal) (h : fromDict M data = .ok log) : Reachable M log

/-- What is true of empty contents, of what a call adds and of what a document describes, and is kept
by addition, is true of every reachable log. -/
theorem Reachable.keeps {I : (S : Shape) → Contents S → Prop} (hzero : ∀ S, I S 0)
    (hdelta : ∀ (S : Shape) (op : Ingest UniqueItem), I S (op.delta M S))
    (hdoc : ∀ (S : Shape) (c : Contents S) (v : Sketchlog.StreamLog), v.Sound M c → I S c.rounded)
    (hadd : ∀ (S : Shape) (c d : Contents S), I S c → I S d → I S (c + d)) (h : Reachable M log) :
    ∃ S, ∃ c : Contents S, log.Represents c ∧ c.Fits ∧ I S c := by
  induction h with
  | new x p w dp hnew =>
    obtain ⟨S, -, -, -, -, rfl⟩ := new_eq_ok hnew
    exact ⟨S, 0, represents_emptyOf S, Contents.fits_zero, hzero S⟩
  | ingest op _ ih =>
    obtain ⟨S, c, hrep, hf, hI⟩ := ih
    -- a call is accepted and adds its contents, or is rejected and changes nothing
    have hstep := ingest_guarded (M := M) hrep hf op
    by_cases hok : op.toPython.Valid M S ∧ (c + op.toPython.delta M S).Fits
    · exact ⟨S, c + op.toPython.delta M S, hstep.after_of_pos hok, hok.2,
        hadd S c _ hI (hdelta S op.toPython)⟩
    · rw [hstep.after_of_neg hok]
      exact ⟨S, c, hrep, hf, hI⟩
  | merge _ _ ih ih' =>
    obtain ⟨S, c, hrep, hf, hI⟩ := ih
    obtain ⟨S', c', hrep', hf', hI'⟩ := ih'
    -- logs of different shapes do not merge
    by_cases hS : S = S'
    · subst hS
      have hstep := merge_guarded hrep hf hrep'
      by_cases hok : (c + c').Fits
      · exact ⟨S, c + c', hstep.after_of_pos hok, hok, hadd S c c' hI hI'⟩
      · rw [hstep.after_of_neg hok]
        exact ⟨S, c, hrep, hf, hI⟩
    · obtain ⟨e, he⟩ := merge_of_shape_ne hrep hrep' hS
      refine ⟨S, c, ?_, hf, hI⟩
      rwa [after, he]
  | reset _ ih =>
    obtain ⟨S, c, hrep, -, -⟩ := ih
    obtain ⟨log', hrun, hrep'⟩ := run_reset hrep
    refine ⟨S, 0, ?_, Contents.fits_zero, hzero S⟩
    rwa [after, hrun]
  -- what was read from a document is sound up to the rounding of its extrema
  | fromDict data hdata =>
    obtain ⟨v, -, S, c, hsound, hrep⟩ := fromDict_eq_ok hdata
    exact ⟨S, c.rounded, hrep, hsound.fits.rounded, hdoc S c v hsound⟩

/-- Every reachable log holds contents that fit. -/
theorem Reachable.holds (h : Reachable M log) : ∃ S, ∃ c : Contents S, log.Represents c ∧ c.Fits := by
  obtain ⟨S, c, hrep, hf, -⟩ := h.keeps (I := fun _ _ => True) (fun _ => trivial)
    (fun _ _ => trivial) (fun _ _ _ _ => trivial) (fun _ _ _ _ _ => trivial)
  exact ⟨S, c, hrep, hf⟩

/-- **Every reachable C++ log is well formed.** -/
theorem Reachable.sound (hM : M.Monotone) (hR : M.RoundsInts) (h : Reachable M log) :
    ∃ S, ∃ c : Contents S, log.Represents c ∧ c.Fits ∧ Coherent M S.alpha c.latency :=
  h.keeps (I := fun S c => Coherent M S.alpha c.latency) (fun _ => coherent_zero)
    (fun _ op => Sketchlog.StreamLog.coherent_delta hM op)
    (fun _ _ _ hs => hs.coherent.rounded hR) (fun _ _ _ hc hd => hc.add hM hd)

end StreamLog

end Sketchlog.Cpp
