import Sketchlog.Ebpf.Export
import Sketchlog.Lib.Runs
import Sketchlog.Properties.IngestBatches

/-!
# The export loop keeps account

Every batch that the collector's log has accepted is in one place: in a snapshot that the server has
accepted, in the one that is being posted, or in the log, to which a snapshot comes back when its
post fails with an exception that the loop catches. Such a failure ends the loop only when the
snapshot no longer fits in the log beside what came in meanwhile. Another exception ends it with the
snapshot in flight, and the stop event ends it with nothing in flight.
-/

namespace Sketchlog.Ebpf

open Imperative

variable {M : IndexMapping} {cppAvailable : Bool} {cfg : Config} {S : Shape} {c d : Contents S}

/-- What a batch adds. -/
noncomputable def batchContents (M : IndexMapping) (S : Shape) (values : List PyFloat) : Contents S :=
  ⟨DDSketch.batchTally M S.alpha values, 0, 0⟩

theorem cloneEmpty_held {log : Facade.StreamLog} (h : log.Held cppAvailable cfg c) :
    ∃ empty, log.cloneEmpty cppAvailable = .ok empty ∧ empty.Held cppAvailable cfg
      (0 : Contents S) := by
  obtain ⟨b, hnew, hempty⟩ := h.valid.fresh
  refine ⟨⟨log.config, b⟩, ?_, h.config, hempty, Contents.fits_zero, h.valid.fresh,
    Facade.Backend.isCpp_new hnew⟩
  rw [Facade.StreamLog.cloneEmpty, Facade.StreamLog.new, hnew]
  rfl

namespace Exporter

/-- Where the contents of the accepted batches are: `c` in the log, `d` in flight, and `es` at the
server. -/
structure Accounts (M : IndexMapping) (cppAvailable : Bool) (cfg : Config) (s : Exporter) {S : Shape}
    (c d : Contents S) (es : List (Contents S)) : Prop where
  log : s.log.Held cppAvailable cfg c
  inFlight : ∀ snapshot, s.loop.inFlight = some snapshot → snapshot.Held cppAvailable cfg d
  none_inFlight : s.loop.inFlight = none → d = 0
  exported : List.Forall₂ (fun snapshot e => snapshot.Held cppAvailable cfg e) s.exported es
  sum : es.sum + d + c = (s.added.map (batchContents M S)).sum
  /-- The log holds latencies only. -/
  uniques : c.uniques = 0 ∧ d.uniques = 0
  /-- What the log refuses to take back does not fit. -/
  refused : ∀ snapshot, s.loop = .refused snapshot → ¬ (c + d).Fits
  /-- `drain` does not raise. -/
  drained : s.loop ≠ .escaped none

variable {s t : Exporter} {es : List (Contents S)}

theorem accounts_start {log : Facade.StreamLog} (h : log.Held cppAvailable cfg (0 : Contents S)) :
    (start log).Accounts M cppAvailable cfg (0 : Contents S) 0 [] where
  log := h
  inFlight := fun _ hnone => absurd hnone.symm (Option.some_ne_none _)
  none_inFlight := fun _ => rfl
  exported := .nil
  sum := by rw [List.sum_nil, add_zero, add_zero]; rfl
  uniques := ⟨rfl, rfl⟩
  refused := fun _ hrefused => absurd hrefused (by simp [start])
  drained := by simp [start]

/-- A batch is added, or it raises and the log is as before. -/
theorem Accounts.addBatch (h : s.Accounts M cppAvailable cfg c d es) (values : List PyFloat) :
    ∃ c' : Contents S, (s.addBatch M values).Accounts M cppAvailable cfg c' d es := by
  have hguarded := Facade.StreamLog.addBatch_guarded (M := M) h.log values
  rw [Exporter.addBatch]
  cases hguarded with
  | accept hP log hrun hheld =>
    rw [hrun]
    refine ⟨_, hheld, h.inFlight, h.none_inFlight, h.exported, ?_, ⟨?_, h.uniques.2⟩,
      fun snapshot hrefused hfits => ?_, h.drained⟩
    · rw [← add_assoc, h.sum, List.map_append, List.sum_append, List.map_singleton, List.sum_singleton]
      rfl
    · show c.uniques + 0 = 0
      rw [h.uniques.1, add_zero]
    · -- what did not fit does not fit beside more
      rw [add_right_comm] at hfits
      exact h.refused snapshot hrefused hfits.of_add
  | reject hP e hrun =>
    rw [hrun]
    exact ⟨c, h.log, h.inFlight, h.none_inFlight, h.exported, h.sum, h.uniques, h.refused,
      h.drained⟩

/-- The log is exchanged for an empty one, and what it held is in flight. -/
theorem Accounts.drain (h : s.Accounts M cppAvailable cfg c d es)
    (hstep : s.drain cppAvailable = some t) :
    ∃ d' : Contents S, t.Accounts M cppAvailable cfg 0 d' es := by
  obtain ⟨empty, hclone, hempty⟩ := cloneEmpty_held h.log
  unfold Exporter.drain at hstep
  split at hstep
  case h_2 => cases hstep
  case h_1 hloop =>
    rw [hclone] at hstep
    cases hstep
    have hd : d = 0 := h.none_inFlight (by rw [hloop]; rfl)
    have hsum := h.sum
    rw [hd, add_zero] at hsum
    by_cases htotal : s.log.totalEvents = 0
    · -- an empty snapshot is dropped
      have hc : c = 0 := by
        rw [Facade.StreamLog.totalEvents_eq h.log] at htotal
        exact Contents.eq_zero_iff.mpr ⟨Int.natCast_eq_zero.mp htotal, h.uniques.1⟩
      rw [hc, add_zero] at hsum
      rw [if_pos htotal]
      refine ⟨0, hempty, ?_, fun _ => rfl, h.exported, ?_, ⟨rfl, rfl⟩, ?_, ?_⟩
      · exact fun _ hnone => absurd hnone.symm (Option.some_ne_none _)
      · rw [add_zero, add_zero]
        exact hsum
      · exact fun _ hrefused => absurd hrefused (by simp)
      · simp
    · rw [if_neg htotal]
      refine ⟨c, hempty, ?_, ?_, h.exported, ?_, ⟨rfl, h.uniques.1⟩, ?_, ?_⟩
      · exact fun snapshot hsnapshot => Option.some.inj hsnapshot ▸ h.log
      · exact fun hnone => absurd hnone (Option.some_ne_none _)
      · rw [add_zero]
        exact hsum
      · exact fun _ hrefused => absurd hrefused (by simp)
      · simp

/-- What was in flight is exported. -/
theorem Accounts.accept (h : s.Accounts M cppAvailable cfg c d es) (hstep : s.accept = some t) :
    t.Accounts M cppAvailable cfg c 0 (es ++ [d]) := by
  unfold Exporter.accept at hstep
  split at hstep
  case h_2 => cases hstep
  case h_1 snapshot hloop =>
    cases hstep
    have hsnapshot : snapshot.Held cppAvailable cfg d := h.inFlight snapshot (by rw [hloop]; rfl)
    refine ⟨h.log, fun _ hnone => absurd hnone.symm (Option.some_ne_none _), fun _ => rfl, ?_, ?_,
      ⟨h.uniques.1, rfl⟩, fun _ hrefused => absurd hrefused (by simp), by simp⟩
    · exact List.rel_append h.exported (.cons hsnapshot .nil)
    · rw [List.sum_append, List.sum_singleton, add_zero]
      exact h.sum

/-- The snapshot is merged back, or the loop ends with it. -/
theorem Accounts.mergeBack (h : s.Accounts M cppAvailable cfg c d es)
    (hstep : s.mergeBack M cppAvailable = some t) :
    ∃ c' d' : Contents S, t.Accounts M cppAvailable cfg c' d' es := by
  unfold Exporter.mergeBack at hstep
  split at hstep
  case h_2 => cases hstep
  case h_1 snapshot hloop =>
    have hsnapshot : snapshot.Held cppAvailable cfg d := h.inFlight snapshot (by rw [hloop]; rfl)
    cases Facade.StreamLog.merge_held (M := M) h.log hsnapshot with
    | accept hfits log hrun hheld =>
      -- the snapshot is back in the log
      simp only [hrun] at hstep
      cases hstep
      refine ⟨c + d, 0, hheld, fun _ hnone => absurd hnone.symm (Option.some_ne_none _),
        fun _ => rfl, h.exported, ?_, ⟨?_, rfl⟩, fun _ hrefused => absurd hrefused (by simp),
        by simp⟩
      · rw [add_zero, ← h.sum, add_assoc, add_comm c d]
      · show c.uniques + d.uniques = 0
        rw [h.uniques.1, h.uniques.2, add_zero]
    | reject hfits e hrun =>
      -- the merge has raised, and nobody catches it
      simp only [hrun] at hstep
      cases hstep
      refine ⟨c, d, h.log, fun l hl => ?_, fun hnone => absurd hnone (Option.some_ne_none _),
        h.exported, h.sum, h.uniques, fun _ _ => hfits, by simp⟩
      exact Option.some.inj hl ▸ hsnapshot

/-- An exception that is not caught ends the loop, and the snapshot stays in flight. -/
theorem Accounts.escape (h : s.Accounts M cppAvailable cfg c d es) (hstep : s.escape = some t) :
    t.Accounts M cppAvailable cfg c d es := by
  unfold Exporter.escape at hstep
  split at hstep
  case h_2 => cases hstep
  case h_1 snapshot hloop =>
    cases hstep
    have hsnapshot : snapshot.Held cppAvailable cfg d := h.inFlight snapshot (by rw [hloop]; rfl)
    refine ⟨h.log, fun l hl => ?_, fun hnone => absurd hnone (Option.some_ne_none _), h.exported,
      h.sum, h.uniques, fun _ hrefused => absurd hrefused (by simp), by simp⟩
    exact Option.some.inj hl ▸ hsnapshot

/-- The stop event finds nothing in flight. -/
theorem Accounts.stop (h : s.Accounts M cppAvailable cfg c d es) (hstep : s.stop = some t) :
    t.Accounts M cppAvailable cfg c d es := by
  unfold Exporter.stop at hstep
  split at hstep
  case h_2 => cases hstep
  case h_1 hloop =>
    cases hstep
    have hd : d = 0 := h.none_inFlight (by rw [hloop]; rfl)
    exact ⟨h.log, fun _ hnone => absurd hnone.symm (Option.some_ne_none _), fun _ => hd,
      h.exported, h.sum, h.uniques, fun _ hrefused => absurd hrefused (by simp), by simp⟩

theorem Accounts.step (h : s.Accounts M cppAvailable cfg c d es) {a : ExportAction}
    (hstep : s.step M cppAvailable a = some t) :
    ∃ (c' d' : Contents S) (es' : List (Contents S)), t.Accounts M cppAvailable cfg c' d' es' := by
  cases a with
  | addBatch values =>
    obtain ⟨c', ht⟩ := h.addBatch values
    exact ⟨c', d, es, Option.some.inj hstep ▸ ht⟩
  | drain =>
    obtain ⟨d', ht⟩ := h.drain hstep
    exact ⟨0, d', es, ht⟩
  | accept => exact ⟨c, 0, es ++ [d], h.accept hstep⟩
  | fail caught =>
    cases caught with
    | true =>
      obtain ⟨c', d', ht⟩ := h.mergeBack hstep
      exact ⟨c', d', es, ht⟩
    | false => exact ⟨c, d, es, h.escape hstep⟩
  | stop => exact ⟨c, d, es, h.stop hstep⟩

end Exporter

/-- **Nothing is lost or kept twice.** In every run of the loop beside the collector, on either
backend, from a new log: the contents of the accepted batches are the sum of those of the exported
snapshots, of the snapshot in flight, and of the log. -/
theorem export_accounts {log : Facade.StreamLog}
    (hnew : Facade.StreamLog.new cppAvailable cfg = .ok log)
    {actions : List ExportAction} {s : Exporter}
    (hrun : Runs.run (Exporter.step M cppAvailable) (Exporter.start log) actions = some s) :
    ∃ (S : Shape) (c d : Contents S) (es : List (Contents S)),
      s.Accounts M cppAvailable cfg c d es := by
  obtain ⟨S, hheld⟩ := Facade.StreamLog.held_new hnew
  have hkept : ∃ (c d : Contents S) (es : List (Contents S)), s.Accounts M cppAvailable cfg c d es := by
    refine Runs.run_invariant (I := fun s : Exporter => ∃ (c d : Contents S) (es : List (Contents S)),
      s.Accounts M cppAvailable cfg c d es) (fun s a s' hs _ hstep => ?_) ?_ Runs.meets_true hrun
    · obtain ⟨c, d, es, hs⟩ := hs
      exact hs.step hstep
    · exact ⟨0, 0, [], Exporter.accounts_start hheld⟩
  exact ⟨S, hkept⟩

/-- A batch is drained, another comes in while it is posted, the post fails and the snapshot is
merged back; both batches are drained and exported. A third one is lost by a bad status line. -/
theorem export_accounts_retried :
    ∃ s, Runs.run (Exporter.step .ternary false)
        (Exporter.start ⟨⟨.fin Binary64.half, 4, 2, 1, true⟩,
          .python (Sketchlog.StreamLog.emptyOf Facade.StreamLog.halfShape true)⟩)
        [.addBatch [.fin Binary64.half], .drain,
          .addBatch [.fin (.ofInt 0 Binary64.abs_zero_lt)], .fail true, .drain, .accept,
          .addBatch [.fin Binary64.half], .drain, .fail false] = some s
      ∧ s.exported.map Facade.StreamLog.totalEvents = [2]
      ∧ s.loop.inFlight.map Facade.StreamLog.totalEvents = some 1
      ∧ ∃ (S : Shape) (c d : Contents S) (es : List (Contents S)),
        s.Accounts .ternary false ⟨.fin Binary64.half, 4, 2, 1, true⟩ c d es := by
  have hnew := Facade.StreamLog.new_half true
  obtain ⟨s, hrun, hcounts⟩ : ∃ s, Runs.run (Exporter.step .ternary false)
      (Exporter.start ⟨⟨.fin Binary64.half, 4, 2, 1, true⟩,
        .python (Sketchlog.StreamLog.emptyOf Facade.StreamLog.halfShape true)⟩)
      [.addBatch [.fin Binary64.half], .drain,
        .addBatch [.fin (.ofInt 0 Binary64.abs_zero_lt)], .fail true, .drain, .accept,
        .addBatch [.fin Binary64.half], .drain, .fail false] = some s
      ∧ (s.exported.map Facade.StreamLog.totalEvents,
        s.loop.inFlight.map Facade.StreamLog.totalEvents) = ([2], some 1) :=
    Option.map_eq_some_iff.mp (by decide +kernel)
  exact ⟨s, hrun, congrArg Prod.fst hcounts, congrArg Prod.snd hcounts, export_accounts hnew hrun⟩

end Sketchlog.Ebpf
