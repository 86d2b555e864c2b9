import Sketchlog.Properties.WindowCoherence
import Sketchlog.Refine.FacadeReads

/-!
# What a windowed log reflects

A read at the time `now` reflects each event that was recorded at most `w - d` before, and none from
longer than `w` before, where `w` is the window and `d` the time of a bucket (`window_retention`).
Each is counted once: the cache holds part of what was recorded, as a multiset. All readings of the
clock inside one call are the same here, and no call raises.
-/

namespace Sketchlog

open Imperative SlidingWindow Runs

namespace WindowedStreamLog

variable (M : IndexMapping) (E : Estimator) (cppAvailable : Bool) {n : ℕ} [NeZero n] (span : Span n)

/-- A log, the clock, and what was recorded since the log was new or reset. -/
structure Recording (n : ℕ) where
  log : WindowedStreamLog n
  clock : ℤ
  history : Multiset (ℤ × Addition)

/-- A call that returns, at a time that is not before the last one. -/
def Recording.step (s : Recording n) (t : ℤ × Call) : Option (Recording n) :=
  if s.clock ≤ t.1 then
    match t.2 with
    | .add a =>
      match (WindowedStreamLog.add M E cppAvailable span a t.1 t.1).run s.log with
      | .ok _ log => some ⟨log, t.1, s.history + {(t.1, a)}⟩
      | .error _ _ => none
    | .read =>
      match (WindowedStreamLog.rotate M E cppAvailable span t.1 t.1).run s.log with
      | .ok _ log => some ⟨log, t.1, s.history⟩
      | .error _ _ => none
    | .reset =>
      match (WindowedStreamLog.reset t.1).run s.log with
      | .ok _ log => some ⟨log, t.1, 0⟩
      | .error _ _ => none
  else none

/-- The log is a window that has kept what is not old. -/
def Recording.Keeps (s : Recording n) : Prop :=
  ∃ S, ∃ v : Window Addition (Contents S) n, ∃ cfg, s.log.Tracks M cppAvailable cfg v
    ∧ v.Coherent (Addition.delta M S) span.windowNs s.clock
      ∧ v.Kept span.windowNs span.bucketDurationNs s.clock
    ∧ v.history = s.history

variable {M E cppAvailable span} {s s' : Recording n} {cfg : Config} {log : WindowedStreamLog n}
    {now : ℤ}
  {a : Addition}

omit [NeZero n] in
theorem Recording.asOf_self {S : Shape} (v : Window Addition (Contents S) n) (d now : ℤ) :
    v.asOfRotate d now now = now := by
  unfold Window.asOfRotate
  split <;> rfl

/-! ## One call -/

/-- A rotation keeps what is not old. -/
theorem Recording.Keeps.rotate (h : s.Keeps M cppAvailable span) (hnow : s.clock ≤ now) :
    ∃ r S, ∃ v : Window Addition (Contents S) n, ∃ cfg,
      (WindowedStreamLog.rotate M E cppAvailable span now now).run s.log = .ok () r
        ∧ r.Tracks M cppAvailable cfg v
        ∧ v.Coherent (Addition.delta M S) span.windowNs now
          ∧ v.Kept span.windowNs span.bucketDurationNs now
        ∧ v.history = s.history
        ∧ v.starts v.current ≤ now ∧ now < v.starts v.current + span.bucketDurationNs := by
  obtain ⟨S, v, cfg, htracks, hcoherent, hkept, hhistory⟩ := h
  have hpos : (0 : ℤ) < span.bucketDurationNs := by exact_mod_cast span.bucketDuration_pos
  have hle : (span.bucketDurationNs : ℤ) ≤ span.windowNs := by exact_mod_cast span.bucketDuration_le
  have hround : (span.windowNs : ℤ) ≤ n * span.bucketDurationNs := by exact_mod_cast span.window_le
  have hstart := hcoherent.current_le.trans hnow
  obtain ⟨r, hrun, hr⟩ := rotate_tracks (E := E) htracks hcoherent hnow (le_refl now)
  have hcoherent' := hcoherent.rotate hpos hle hnow (le_refl now)
  rw [asOf_self] at hcoherent'
  refine ⟨r, S, _, cfg, hrun, hr, hcoherent', hkept.rotate hpos hround hstart hnow, ?_, ?_⟩
  · rw [Window.rotate_history]
    exact hhistory
  · exact Window.rotate_current hpos hstart

/-- **A step keeps what is not old.** -/
theorem Recording.Keeps.step {t : ℤ × Call} (h : s.Keeps M cppAvailable span)
    (hstep : s.step M E cppAvailable span t = some s') : s'.Keeps M cppAvailable span := by
  obtain ⟨now, call⟩ := t
  unfold Recording.step at hstep
  split at hstep
  · next hclock =>
    have hnow : s.clock ≤ now := hclock
    cases call with
    | add a =>
      obtain ⟨r, S, v, cfg, hrotate, htracks, hcoherent, hkept, hhistory, hlow, hhigh⟩ :=
        h.rotate (E := E) hnow
      dsimp only at hstep
      rw [run_add a hrotate] at hstep
      -- both writes were accepted, since the call has returned
      by_cases hbucket : a.Valid M S ∧ (v.cell (Addition.delta M S) v.current + a.delta M S).Fits
      · by_cases hcache : (v.cached + a.delta M S).Fits
        · obtain ⟨t, hrun, ht⟩ := put_tracks htracks now a hbucket hcache
          rw [hrun] at hstep
          cases hstep
          have hlive : now - v.starts v.current ≤ span.windowNs := by
            have hle : (span.bucketDurationNs : ℤ) ≤ span.windowNs := by
              exact_mod_cast span.bucketDuration_le
            omega
          refine ⟨S, _, cfg, ht, hcoherent.record hlive a, hkept.record hlow hhigh a, ?_⟩
          show v.history + {(now, a)} = s.history + {(now, a)}
          rw [hhistory]
        · obtain ⟨e, log, hrun, -⟩ := put_split htracks a hbucket hcache
          rw [hrun] at hstep
          cases hstep
      · obtain ⟨e, hrun⟩ := put_rejected htracks a hbucket
        rw [hrun] at hstep
        cases hstep
    | read =>
      obtain ⟨r, S, v, cfg, hrotate, htracks, hcoherent, hkept, hhistory, -⟩ := h.rotate (E := E) hnow
      dsimp only at hstep
      rw [hrotate] at hstep
      cases hstep
      exact ⟨S, v, cfg, htracks, hcoherent, hkept, hhistory⟩
    | reset =>
      obtain ⟨S, v, cfg, htracks, -⟩ := h
      obtain ⟨r, hrun, hr⟩ := reset_tracks htracks now
      dsimp only at hstep
      rw [hrun] at hstep
      cases hstep
      exact ⟨S, _, cfg, hr, v.coherent_reset now, v.kept_reset now, rfl⟩
  · cases hstep

theorem keeps_new (h : new cppAvailable cfg now = .ok log) :
    Recording.Keeps M cppAvailable span ⟨log, now, 0⟩ := by
  obtain ⟨S, v, htracks⟩ := new_tracks (M := M) h
  exact ⟨S, _, _, htracks, v.coherent_reset now, v.kept_reset now, rfl⟩

/-! ## The loop

As many moves as are due end the loop, and no more are made. -/

/-- **The loop of `_rotate` ends**, after as many passes as there are whole buckets in the time that
has gone by. -/
theorem rotateLoop_eq (elapsed : ℤ) (rotated : Bool) :
    rotateLoop span elapsed rotated
      = ((List.replicate (elapsed / span.bucketDurationNs).toNat ()).forM fun _ => nextBucket span) >>=
        fun _ => pure (decide ((span.bucketDurationNs : ℤ) ≤ elapsed) || rotated) := by
  induction elapsed, rotated using rotateLoop.induct span with
  | case1 elapsed rotated hle ih =>
    rw [rotateLoop, dif_pos hle, ih, span.ediv_pass hle, List.replicate_succ, decide_eq_true hle,
      Bool.or_true,
      Bool.true_or]
    exact (bind_assoc _ _ _).symm
  | case2 elapsed rotated hlt =>
    rw [rotateLoop, dif_neg hlt, span.ediv_no_pass hlt, decide_eq_false hlt, Bool.false_or]
    rfl

/-- **Retention.** A read rotates and does not raise. What it finds in the cache is part of what was
recorded, each event once: all from at most `w - d` before, and none from longer than `w` before.
The ring then stands in the time of its current bucket; and the loop of the rotation ends. -/
theorem window_retention (hnew : new cppAvailable cfg now = .ok log) {calls : List (ℤ × Call)}
    (hrun : run (Recording.step M E cppAvailable span) ⟨log, now, 0⟩ calls = some s) {t : ℤ}
    (ht : s.clock ≤ t) :
    (∃ r, (rotate M E cppAvailable span t t).run s.log = .ok () r
      ∧ (∃ S, ∃ kept : Multiset (ℤ × Addition),
          r.merged.backend.Represents ((kept.map fun x => x.2.delta M S).sum)
            ∧ kept ≤ s.history
            ∧ s.history.filter (fun x => t - x.1 ≤ span.windowNs - span.bucketDurationNs) ≤ kept
            ∧ ∀ x ∈ kept, t - x.1 ≤ span.windowNs)
      ∧ r.bucketStartTimes r.currentBucket ≤ t
      ∧ t < r.bucketStartTimes r.currentBucket + span.bucketDurationNs)
    ∧ ∀ elapsed rotated, rotateLoop span elapsed rotated
      = ((List.replicate (elapsed / span.bucketDurationNs).toNat ()).forM fun _ => nextBucket span) >>=
        fun _ => pure (decide ((span.bucketDurationNs : ℤ) ≤ elapsed) || rotated) := by
  -- the invariant of the recording, up to the read at `t`
  have hkeeps : s.Keeps M cppAvailable span :=
    run_invariant (fun _ _ _ h _ hstep => h.step hstep) (keeps_new hnew) meets_true hrun
  obtain ⟨r, S, v, cfg, hrotate, htracks, hcoherent, hkept, hhistory, hlow, hhigh⟩ :=
    hkeeps.rotate (E := E) ht
  refine ⟨⟨r, hrotate, ⟨S, v.kept span.windowNs t, ?_⟩, ?_⟩, rotateLoop_eq⟩
  · -- what the merged log stands for is the sum over the events kept
    obtain ⟨hcached, hle, hrecent, hold⟩ := Window.retention hkept hcoherent
    rw [hhistory] at hle hrecent
    refine ⟨?_, hle, hrecent, hold⟩
    have hmerged := htracks.merged.valid.represents
    rw [hcached] at hmerged
    exact hmerged
  · rw [htracks.starts, htracks.current]
    exact ⟨hlow, hhigh⟩

/-! ## Two events, of which one is old -/

theorem Recording.step_add {t : ℤ} {a : Addition}
    (h : Recording.step M E cppAvailable span s (t, .add a) = some s') :
    s'.clock = t ∧ s'.history = s.history + {(t, a)} := by
  obtain ⟨-, hadd⟩ := Option.ite_none_right_eq_some.mp h
  dsimp only at hadd
  split at hadd
  · cases hadd
    exact ⟨rfl, rfl⟩
  · cases hadd

/-- A new log, with two cells of events. -/
def smallWindow : WindowedStreamLog 2 where
  buckets _ := ⟨⟨.fin .half, 4, 2, 1, false⟩, .python (.emptyOf Facade.StreamLog.halfShape false)⟩
  bucketStartTimes _ := 0
  currentBucket := ⟨0, Nat.two_pos⟩
  merged := ⟨⟨.fin .half, 4, 2, 1, false⟩, .python (.emptyOf Facade.StreamLog.halfShape false)⟩
  mergedExpiresAt := none

theorem new_smallWindow : new false ⟨.fin .half, 4, 2, 1, true⟩ 0 = .ok smallWindow :=
  Checked.bind_eq_ok.mpr ⟨_, Facade.StreamLog.new_half false, rfl⟩

/-- One event at the time 0 and two at the time 5: a read at 6 finds the two. -/
theorem window_retention_later : ∃ s, run (Recording.step .coarse registersSet false twoNanoseconds)
      ⟨smallWindow, 0, 0⟩ [(0, .add (events 1)), (5, .add (events 2))] = some s
    ∧ ∃ r, (rotate .coarse registersSet false twoNanoseconds 6 6).run s.log = .ok () r
      ∧ ∃ S, r.merged.backend.Represents ((events 2).delta .coarse S) := by
  have hsome : (run (Recording.step .coarse registersSet false twoNanoseconds)
      ⟨smallWindow, 0, 0⟩ [(0, .add (events 1)), (5, .add (events 2))]).isSome := by decide +kernel
  obtain ⟨s, hrun⟩ := Option.isSome_iff_exists.mp hsome
  obtain ⟨s₁, hstep₁, hrest⟩ := run_cons.mp hrun
  obtain ⟨s₂, hstep₂, hnil⟩ := run_cons.mp hrest
  cases hnil
  obtain ⟨-, hhistory₁⟩ := Recording.step_add hstep₁
  obtain ⟨hclock, hhistory⟩ := Recording.step_add hstep₂
  rw [hhistory₁, zero_add] at hhistory
  obtain ⟨⟨r, hrotate, ⟨S, kept, hrep, hle, hrecent, hold⟩, -⟩, -⟩ :=
    window_retention new_smallWindow hrun (t := 6) (by rw [hclock]; norm_num)
  rw [hhistory] at hle hrecent
  -- the first event is older than the window, the second is recent
  have hkept : kept ≤ {(5, events 2)} := by
    have hwithin := Multiset.le_filter.mpr ⟨hle, hold⟩
    rwa [Multiset.filter_add, Multiset.filter_singleton, Multiset.filter_singleton,
      if_neg (by decide), if_pos (by decide), Multiset.empty_eq_zero, zero_add] at hwithin
  have hall : {(5, events 2)} ≤ kept := by
    rwa [Multiset.filter_add, Multiset.filter_singleton, Multiset.filter_singleton,
      if_neg (by decide), if_pos (by decide), Multiset.empty_eq_zero, zero_add] at hrecent
  rw [le_antisymm hkept hall, Multiset.map_singleton, Multiset.sum_singleton] at hrep
  exact ⟨s, hrun, r, hrotate, S, hrep⟩

end WindowedStreamLog

end Sketchlog
