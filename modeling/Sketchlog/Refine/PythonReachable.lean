import Sketchlog.Refine.PythonFromDict

/-!
# Every reachable log is well formed

`Reachable M log`: some finite sequence of calls, accepted or rejected, has left `log`. One step of
any kind leaves contents that fit, and keeps what addition keeps (`keeps_ingest`, `keeps_merge`), so by
induction every reachable log holds contents of its configuration that fit (`Reachable.holds`), with
coherent extrema when `key` is monotone (`Reachable.sound`).
-/

namespace Sketchlog

open Imperative Tally

namespace StreamLog

/-- The logs a program can hold. A rejected call counts as a step: it leaves `after`, whatever the
receiver is then. -/
inductive Reachable (M : IndexMapping) : StreamLog → Prop where
  | new {log : StreamLog} (cfg : Config) (h : new cfg = .ok log) : Reachable M log
  | ingest {log : StreamLog} (op : Ingest UniqueItem) (h : Reachable M log) :
      Reachable M (after (ingest M op) log)
  | merge {log other : StreamLog} (h : Reachable M log) (h' : Reachable M other) :
      Reachable M (after (merge other) log)
  | reset {log : StreamLog} (h : Reachable M log) : Reachable M (after reset log)
  | fromDict {log : StreamLog} (data : PyVal) (h : fromDict M data = .ok log) : Reachable M log

variable {M : IndexMapping} {log other : StreamLog} {S : Shape} {c d : Contents S}

theorem coherent_batchTally (hM : M.Monotone) (alpha : ℚ) (values : List PyFloat) :
    Coherent M alpha (DDSketch.batchTally M alpha values) := by
  induction values with
  | nil => exact coherent_zero
  | cons value values ih =>
    cases value with
    | nan => exact ih
    | inf b => exact ih
    | fin v =>
      have htally : DDSketch.batchTally M alpha (.fin v :: values)
          = Tally.single M alpha v.val + DDSketch.batchTally M alpha values := by
        simp [DDSketch.batchTally, DDSketch.finiteValues]
      rw [htally]
      exact (coherent_single hM v).add hM ih

theorem coherent_delta (hM : M.Monotone) (op : Ingest UniqueItem) :
    Coherent M S.alpha (op.delta M S).latency := by
  cases op with
  | latency value =>
    cases value with
    | nan => exact coherent_zero
    | inf b => exact coherent_zero
    | fin v => exact coherent_single hM v
  | batch values => exact coherent_batchTally hM S.alpha values
  | event name count => exact coherent_zero
  | unique item => exact coherent_zero

/-! ## One step

Ingestion and merging keep what is `Sound`: contents that fit and whose extrema are coherent. -/

/-- Contents of a shape that is kept along a run. -/
structure Keeps (I : (S : Shape) → Contents S → Prop) (log : StreamLog) {S : Shape} (c : Contents S) :
    Prop where
  bounded : S.Bounded
  represents : log.Represents c
  fits : c.Fits
  extra : I S c

section Step

variable {I : (S : Shape) → Contents S → Prop}
  (hadd : ∀ (S : Shape) (c d : Contents S), I S c → I S d → I S (c + d))

include hadd

/-- One ingestion call, accepted or rejected. -/
theorem keeps_ingest (hdelta : ∀ (S : Shape) (op : Ingest UniqueItem), I S (op.delta M S))
    (h : Keeps I log c) (op : Ingest UniqueItem) :
    ∃ c' : Contents S, Keeps I (after (ingest M op) log) c' := by
  have hstep := ingest_guarded (M := M) h.represents h.fits op
  by_cases hok : op.Valid M S ∧ (c + op.delta M S).Fits
  · exact ⟨c + op.delta M S, h.bounded, hstep.after_of_pos hok, hok.2,
      hadd S c _ h.extra (hdelta S op)⟩
  · rw [hstep.after_of_neg hok]
    exact ⟨c, h⟩

/-- One merge, accepted or rejected. -/
theorem keeps_merge {S' : Shape} {c' : Contents S'} (h : Keeps I log c) (h' : Keeps I other c') :
    ∃ c'' : Contents S, Keeps I (after (merge other) log) c'' := by
  by_cases hS : S = S'
  · subst hS
    have hstep := merge_guarded h.represents h.fits h'.represents
    by_cases hok : (c + c').Fits
    · exact ⟨c + c', h.bounded, hstep.after_of_pos hok, hok, hadd S c c' h.extra h'.extra⟩
    · rw [hstep.after_of_neg hok]
      exact ⟨c, h⟩
  · -- another configuration: the log is left as it was
    obtain ⟨e, he⟩ := merge_of_shape_ne h.represents h'.represents hS
    refine ⟨c, ?_⟩
    rwa [after, he]

end Step

/-! ## Whole runs

By induction on how a log was reached. Documents enter through `fromDict`, whose checks are the
invariant. -/

/-- What is true of empty contents, of what a call adds and of what a document describes, and is kept
by addition, is true of every reachable log. -/
theorem Reachable.keeps {I : (S : Shape) → Contents S → Prop} (hzero : ∀ S, I S 0)
    (hdelta : ∀ (S : Shape) (op : Ingest UniqueItem), I S (op.delta M S))
    (hdoc : ∀ (S : Shape) (c : Contents S) (log : StreamLog), log.Sound M c → I S c)
    (hadd : ∀ (S : Shape) (c d : Contents S), I S c → I S d → I S (c + d)) (h : Reachable M log) :
    ∃ S, ∃ c : Contents S, Keeps I log c := by
  induction h with
  | new cfg hnew =>
    obtain ⟨S, hS, -, -, -, -, rfl⟩ := new_eq_ok.mp hnew
    exact ⟨S, 0, hS, represents_emptyOf S cfg.deterministic, Contents.fits_zero, hzero S⟩
  | ingest op _ ih =>
    obtain ⟨S, c, hc⟩ := ih
    exact ⟨S, keeps_ingest hadd hdelta hc op⟩
  | merge _ _ ih ih' =>
    obtain ⟨S, c, hc⟩ := ih
    obtain ⟨S', c', hc'⟩ := ih'
    exact ⟨S, keeps_merge hadd hc hc'⟩
  | @reset log _ ih =>
    obtain ⟨S, c, hc⟩ := ih
    obtain ⟨log', hrun, hrep⟩ := run_reset hc.represents
    refine ⟨S, 0, hc.bounded, ?_, Contents.fits_zero, hzero S⟩
    rwa [after, hrun]
  | fromDict data hdata =>
    obtain ⟨S, c, hc⟩ := fromDict_sound hdata
    exact ⟨S, c, hc.bounded, hc.represents, hc.fits, hdoc S c _ hc⟩

/-- Every reachable log holds contents that fit. -/
theorem Reachable.holds (h : Reachable M log) :
    ∃ S, ∃ c : Contents S, S.Bounded ∧ log.Represents c ∧ c.Fits := by
  obtain ⟨S, c, hc⟩ := h.keeps (I := fun _ _ => True) (fun _ => trivial) (fun _ _ => trivial)
    (fun _ _ _ _ => trivial) (fun _ _ _ _ _ => trivial)
  exact ⟨S, c, hc.bounded, hc.represents, hc.fits⟩

/-- **Every reachable log is well formed.** -/
theorem Reachable.sound (hM : M.Monotone) (h : Reachable M log) :
    ∃ S, ∃ c : Contents S, log.Sound M c := by
  obtain ⟨S, c, hc⟩ := h.keeps (I := fun S c => Coherent M S.alpha c.latency)
    (fun _ => coherent_zero) (fun _ op => coherent_delta hM op) (fun _ _ _ hs => hs.coherent)
    (fun _ _ _ hc hd => hc.add hM hd)
  exact ⟨S, c, hc.bounded, hc.represents, hc.fits, hc.extra⟩

end StreamLog

end Sketchlog
