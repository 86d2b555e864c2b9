import Sketchlog.Python.Windowed
import Sketchlog.Refine.Facade

/-!
# The ring of logs is a window

A call that adds to a log of the facade adds its contents, when they fit (`add_guarded`); the logs
of a ring are of one kind, so that a merge adds contents as well (`merge_held`), and a log is found
empty exactly when its contents are (`nonempty_iff`). So the ring of logs is a window whose events
are worth contents (`Tracks`), and `_rotate` does what `Window.rotate` says (`rotate_tracks`): the
logs that it merges are a part of what was in the cache, so that no merge is rejected.
-/

namespace Sketchlog

open Imperative SlidingWindow

namespace Addition

/-- The call on the backend. -/
def toIngest : Addition → Ingest EventKey
  | .latency value => .latency value
  | .event name count => .event name count
  | .unique item => .unique item

noncomputable def delta (M : IndexMapping) (S : Shape) (a : Addition) : Contents S :=
  a.toIngest.toPython.delta M S

def Valid (M : IndexMapping) (S : Shape) (a : Addition) : Prop := a.toIngest.toPython.Valid M S

end Addition

/-- Contents are empty when nothing is counted and no register is set. -/
theorem Contents.eq_zero_iff {S : Shape} {c : Contents S} : c = 0 ↔ c.total = 0 ∧ c.uniques = 0 := by
  constructor
  · rintro rfl
    exact ⟨Contents.total_zero, rfl⟩
  · rintro ⟨htotal, huniques⟩
    obtain ⟨hlatency, hevents⟩ := Nat.add_eq_zero_iff.mp htotal
    obtain ⟨hmin, hmax⟩ := c.latency.extrema_of_count_eq_zero hlatency
    obtain ⟨hpos, hneg, hzero⟩ := c.latency.count_eq_zero_iff.mp hlatency
    have htable : c.events.table = 0 := by
      funext r j
      have hle := c.events.table_le_total r j
      rw [hevents] at hle
      exact Nat.le_zero.mp hle
    apply Contents.ext
    · exact Tally.ext hpos hneg hzero hmin hmax
    · exact EventCounts.ext htable hevents
    · exact huniques

namespace Facade.StreamLog

variable {M : IndexMapping} {E : Estimator} {cppAvailable : Bool} {S : Shape} {c d x y : Contents S}
  {self other : StreamLog} {cfg : Config}

/-- A log of a given configuration that holds contents that fit. -/
structure Held (cppAvailable : Bool) (cfg : Config) (log : StreamLog) {S : Shape} (c : Contents S) :
    Prop where
  config : log.config = cfg
  valid : log.Valid cppAvailable c

/-! ## Calls on one log

Ingesting, resetting and merging on the facade, as guarded additions to what a log holds. -/

theorem dispatch_guarded {python : EStateM PyError Sketchlog.StreamLog Unit}
    {cpp : EStateM PyError Cpp.StreamLog Unit}
    {P : Prop} (h : self.Held cppAvailable cfg c) (hd : P → d.Fits)
    (hpython : ∀ log : Sketchlog.StreamLog, log.Represents c → Guarded python log P (·.Represents d))
    (hcpp : ∀ log : Cpp.StreamLog, log.Represents c → Guarded cpp log P (·.Represents d)) :
    Guarded (dispatch python cpp) self P (fun t => t.Held cppAvailable cfg d) := by
  obtain ⟨rfl, hrep, hfits, hfresh, hkind⟩ := h
  unfold dispatch
  apply Guarded.get_bind
  cases hb : self.backend with
  | python log =>
    rw [hb] at hrep hkind
    have hput : ({ self with backend := .python log } : StreamLog) = self := by rw [← hb]
    refine (Guarded.zoom hput (hpython log hrep)).imp Iff.rfl ?_
    rintro t hP ⟨log', hrep', rfl⟩
    exact ⟨rfl, hrep', hd hP, hfresh, hkind⟩
  | cpp log =>
    rw [hb] at hrep hkind
    have hput : ({ self with backend := .cpp log } : StreamLog) = self := by rw [← hb]
    refine (Guarded.zoom hput (hcpp log hrep)).imp Iff.rfl ?_
    rintro t hP ⟨log', hrep', rfl⟩
    exact ⟨rfl, hrep', hd hP, hfresh, hkind⟩

theorem renameTypeError_guarded {x : EStateM PyError StreamLog Unit} {P : Prop} {R : StreamLog → Prop}
    (h : Guarded x self P R) : Guarded (renameTypeError x) self P R := by
  have hrename : (renameTypeError x).run self = renameTypeError x self := rfl
  unfold renameTypeError at hrename
  cases h with
  | accept hP s' hrun hR =>
    rw [hrun] at hrename
    exact .accept hP s' hrename hR
  | reject hP e hrun =>
    rw [hrun] at hrename
    cases e with
    | typeError msg =>
      by_cases hmsg : msg = "incompatible function arguments"
      · exact .reject hP _ (hrename.trans (if_pos hmsg))
      · exact .reject hP _ (hrename.trans (if_neg hmsg))
    | _ => exact .reject hP _ hrename

/-- The call of an addition on either backend. -/
theorem dispatch_ingest (h : self.Held cppAvailable cfg c) (a : Addition) :
    Guarded (dispatch (Sketchlog.StreamLog.ingest M a.toIngest.toPython)
      (Cpp.StreamLog.ingest M a.toIngest)) self
      (a.Valid M S ∧ (c + a.delta M S).Fits) (fun t => t.Held cppAvailable cfg (c + a.delta M S)) :=
  dispatch_guarded h And.right
    (fun _ hrep => Sketchlog.StreamLog.ingest_guarded hrep h.valid.fits a.toIngest.toPython)
    (fun _ hrep => Cpp.StreamLog.ingest_guarded hrep h.valid.fits a.toIngest)

/-- **An addition adds its contents**, when they fit. -/
theorem add_guarded (h : self.Held cppAvailable cfg c) (a : Addition) :
    Guarded (add M a) self (a.Valid M S ∧ (c + a.delta M S).Fits)
      (fun t => t.Held cppAvailable cfg (c + a.delta M S)) := by
  have hingest := dispatch_ingest (M := M) h a
  cases a with
  | latency value => exact hingest
  | unique item => exact renameTypeError_guarded hingest
  | event name count =>
    -- the checks of the facade are among those of the backend
    refine (Guarded.raiseIf_bind fun _ => Guarded.raiseIf_bind fun _ =>
      Guarded.raiseIf_bind fun _ => hingest).imp
      ⟨fun hok => hok.2.2.2, fun hok => ?_⟩ fun _ _ ht => ht
    have hvalid : 0 < count ∧ ¬ Sketchlog.StreamLog.keyOutOfRange name := hok.1
    have hevents : c.events.total + count.toNat ≤ maxInt64 := hok.2.events_le
    exact ⟨by omega, by omega, hvalid.2, hok⟩

theorem run_reset_held (h : self.Held cppAvailable cfg c) :
    ∃ t, (reset).run self = .ok () t ∧ t.Held cppAvailable cfg (0 : Contents S) := by
  refine (dispatch_guarded (P := True) h (fun _ => Contents.fits_zero) (fun log hrep => ?_)
    fun log hrep => ?_).run_ok
    trivial
  · obtain ⟨log', hrun, hrep'⟩ := Sketchlog.StreamLog.run_reset hrep
    exact .of_ok hrun hrep'
  · obtain ⟨log', hrun, hrep'⟩ := Cpp.StreamLog.run_reset hrep
    exact .of_ok hrun hrep'

/-- **A merge of logs of one configuration adds contents**, when they fit. -/
theorem merge_held (h : self.Held cppAvailable cfg x) (hother : other.Held cppAvailable cfg y) :
    Guarded (merge M cppAvailable other) self (x + y).Fits (fun t =>
      t.Held cppAvailable cfg (x + y)) := by
  have hkind : self.backend.isCpp = other.backend.isCpp := by
    rw [h.valid.kind, hother.valid.kind, h.config, hother.config]
  have hbrings : Brings M cppAvailable self other y := brings_of_kind hkind hother.valid.represents
  refine (merge_brings h.valid hother.valid.represents hother.valid.fits).imp ⟨?_, fun hfits =>
    ⟨y, hbrings, hfits⟩⟩ ?_
  · rintro ⟨z, hz, hfits⟩
    rwa [hbrings.unique hz]
  · rintro t - ⟨hconfig, z, hz, hvalid⟩
    rw [hz.unique hbrings] at hvalid
    exact ⟨hconfig.trans h.config, hvalid⟩

/-- A new log is empty. -/
theorem held_new {log : StreamLog} (h : new cppAvailable cfg = .ok log) :
    ∃ S, log.Held cppAvailable cfg (0 : Contents S) := by
  obtain ⟨S, hvalid⟩ := valid_new h
  refine ⟨S, ?_, hvalid⟩
  unfold new at h
  cases hb : Backend.new cppAvailable cfg with
  | ok b =>
    rw [hb] at h
    cases h
    rfl
  | error e =>
    rw [hb] at h
    cases h

/-! ## When a log is found empty

The cache skips a bucket whose log counts nothing; this is when its contents are zero. -/

theorem totalEvents_eq (h : self.Held cppAvailable cfg c) : self.totalEvents = c.total := by
  have hrep := h.valid.represents
  unfold totalEvents
  cases hb : self.backend with
  | python log =>
    rw [hb] at hrep
    exact Sketchlog.StreamLog.Represents.total hrep
  | cpp log =>
    rw [hb] at hrep
    exact Cpp.StreamLog.Represents.totalEvents hrep

theorem exists_register_ne_zero {p : ℕ} (u : RegisterMax p) : (∃ r ∈ List.ofFn u.register, r ≠ 0)
    ↔ u ≠ 0 := by
  constructor
  · rintro ⟨r, hr, hne⟩ rfl
    obtain ⟨i, rfl⟩ := List.mem_ofFn.mp hr
    exact hne rfl
  · intro hne
    by_contra hall
    push Not at hall
    apply hne
    apply RegisterMax.ext
    funext i
    exact hall _ (List.mem_ofFn.mpr ⟨i, rfl⟩)

theorem uniqueCount_pos_iff (h : self.Held cppAvailable cfg c) : 0 < self.uniqueCount E
    ↔ c.uniques ≠ 0 := by
  have hrep := h.valid.represents
  unfold uniqueCount
  cases hb : self.backend with
  | python log =>
    rw [hb] at hrep
    have huniques : log.uniques.registers = List.ofFn c.uniques.register := by
      rw [Sketchlog.StreamLog.Represents.uniques hrep]
      rfl
    dsimp only
    rw [lt_max_iff, huniques, E.count_pos_iff, exists_register_ne_zero]
    simp
  | cpp log =>
    rw [hb] at hrep
    have huniques : log.uniques.registers = List.ofFn c.uniques.register := by
      rw [Cpp.StreamLog.Represents.uniques hrep]
      rfl
    dsimp only
    rw [huniques, E.count_pos_iff, exists_register_ne_zero]

/-- **A log is found empty exactly when it is.** -/
theorem nonempty_iff (h : self.Held cppAvailable cfg c) :
    (0 < self.totalEvents ∨ 0 < self.uniqueCount E) ↔ c ≠ 0 := by
  rw [totalEvents_eq h, uniqueCount_pos_iff h, Int.natCast_pos, Nat.pos_iff_ne_zero, Ne, Ne, Ne,
    Contents.eq_zero_iff]
  exact not_and_or.symm

end Facade.StreamLog

/-! ## The length of a bucket

The duration is rounded up, so all buckets together cover the window. -/

theorem Span.bucketDuration_le {n : ℕ} [NeZero n] (span : Span n) :
    span.bucketDurationNs ≤ span.windowNs := by
  have hn : 0 < n := NeZero.pos n
  have hle : span.windowNs + n - 1 ≤ span.windowNs * n := by
    obtain ⟨w, hw⟩ := Nat.exists_eq_succ_of_ne_zero span.window_pos.ne'
    obtain ⟨m, hm⟩ := Nat.exists_eq_succ_of_ne_zero hn.ne'
    have hexpand : w.succ * m.succ = w * m + w + m + 1 := by
      simp only [Nat.succ_eq_add_one]
      ring
    rw [hw, hm, hexpand]
    have hnonneg := Nat.zero_le (w * m)
    omega
  exact (Nat.div_le_div_right hle).trans (Nat.mul_div_cancel _ hn).le

theorem Span.window_le {n : ℕ} [NeZero n] (span : Span n) :
    span.windowNs ≤ n * span.bucketDurationNs := by
  have hn : 0 < n := NeZero.pos n
  have hdiv := Nat.div_add_mod (span.windowNs + n - 1) n
  have hmod := Nat.mod_lt (span.windowNs + n - 1) hn
  unfold bucketDurationNs
  omega

/-- A pass of the loop of `_rotate` leaves one whole bucket less. -/
theorem Span.ediv_pass {n : ℕ} [NeZero n] (span : Span n) {elapsed : ℤ}
    (hle : (span.bucketDurationNs : ℤ) ≤ elapsed) :
    (elapsed / span.bucketDurationNs).toNat
      = ((elapsed - span.bucketDurationNs) / span.bucketDurationNs).toNat + 1 := by
  have hpos : (0 : ℤ) < span.bucketDurationNs := by exact_mod_cast span.bucketDuration_pos
  have hsub : (elapsed - span.bucketDurationNs) / (span.bucketDurationNs : ℤ)
    = elapsed / span.bucketDurationNs - 1 := by
    rw [Int.sub_ediv_of_dvd _ (dvd_refl _), Int.ediv_self hpos.ne']
  have hone : 1 ≤ elapsed / span.bucketDurationNs := (Int.le_ediv_iff_mul_le hpos).mpr (by omega)
  omega

theorem Span.ediv_no_pass {n : ℕ} [NeZero n] (span : Span n) {elapsed : ℤ}
    (hlt : ¬ (span.bucketDurationNs : ℤ) ≤ elapsed) : (elapsed / span.bucketDurationNs).toNat = 0 := by
  have hpos : (0 : ℤ) < span.bucketDurationNs := by exact_mod_cast span.bucketDuration_pos
  have hneg : elapsed / span.bucketDurationNs < 1 := (Int.ediv_lt_iff_lt_mul hpos).mpr (by omega)
  omega

namespace WindowedStreamLog

open Facade.StreamLog (Held)

variable {M : IndexMapping} {E : Estimator} {cppAvailable : Bool} {n : ℕ} [NeZero n] {span : Span n}
    {S : Shape}
  {cfg : Config} {s : WindowedStreamLog n} {v : Window Addition (Contents S) n} {now now' asOf : ℤ}

/-- The ring of logs is the window: each log holds what the events of its bucket are worth. -/
structure Tracks (M : IndexMapping) (cppAvailable : Bool) (cfg : Config) (s : WindowedStreamLog n)
    (v : Window Addition (Contents S) n) : Prop where
  bucket : ∀ i, (s.buckets i).Held cppAvailable cfg (v.cell (Addition.delta M S) i)
  merged : s.merged.Held cppAvailable cfg v.cached
  starts : s.bucketStartTimes = v.starts
  current : s.currentBucket = v.current
  expires : s.mergedExpiresAt = v.expires

/-! ## Emptying -/

omit [NeZero n] in
/-- A bucket is emptied. -/
theorem onBucket_reset_tracks (h : s.Tracks M cppAvailable cfg v) (i : Fin n) :
    ∃ s', (onBucket i Facade.StreamLog.reset).run s = .ok () s' ∧ s'.bucketStartTimes
      = s.bucketStartTimes
      ∧ s'.Tracks M cppAvailable cfg (v.empty i) := by
  obtain ⟨log, hrun, hheld⟩ := Facade.StreamLog.run_reset_held (h.bucket i)
  refine ⟨{ s with buckets := Function.update s.buckets i log }, ?_, rfl, ?_, h.merged, h.starts,
    h.current, h.expires⟩
  · rw [onBucket, run_zoom, hrun]
  · intro j
    by_cases hj : j = i
    · subst hj
      have hcell : (v.empty j).cell (Addition.delta M S) j = 0 := by
        simp [Window.cell, Window.empty, Window.value]
      rw [hcell]
      show (Function.update s.buckets j log j).Held cppAvailable cfg _
      rw [Function.update_self]
      exact hheld
    · have hcell : (v.empty i).cell (Addition.delta M S) j = v.cell (Addition.delta M S) j := by
        simp [Window.cell, Window.empty, hj]
      rw [hcell]
      show (Function.update s.buckets i log j).Held cppAvailable cfg _
      rw [Function.update_of_ne hj]
      exact h.bucket j

omit [NeZero n] in
/-- A loop over buckets. -/
theorem forM_tracks {step : Fin n → EStateM PyError (WindowedStreamLog n) Unit}
    {f : Window Addition (Contents S) n → Fin n → Window Addition (Contents S) n}
    (hstep : ∀ s v i, Tracks M cppAvailable cfg s v → ∃ s', (step i).run s = .ok () s'
      ∧ s'.Tracks M cppAvailable cfg (f v i))
    (l : List (Fin n)) (h : s.Tracks M cppAvailable cfg v) :
    ∃ s', (l.forM step).run s = .ok () s' ∧ s'.Tracks M cppAvailable cfg (l.foldl f v) := by
  induction l generalizing s v with
  | nil => exact ⟨s, rfl, h⟩
  | cons i l ih =>
    obtain ⟨s₁, hrun, htracks⟩ := hstep s v i h
    obtain ⟨s₂, hrun', htracks'⟩ := ih htracks
    refine ⟨s₂, ?_, htracks'⟩
    show (step i >>= fun _ => l.forM step).run s = _
    rw [EStateM.run_bind, hrun]
    exact hrun'

omit [NeZero n] in
theorem clearBucket_tracks (h : s.Tracks M cppAvailable cfg v) (i : Fin n) :
    ∃ s', (clearBucket now i).run s = .ok () s' ∧ s'.Tracks M cppAvailable cfg (v.restart now i) := by
  obtain ⟨s', hrun, -, htracks⟩ := onBucket_reset_tracks h i
  refine ⟨{ s' with bucketStartTimes := Function.update s'.bucketStartTimes i now }, ?_, htracks.bucket,
    htracks.merged, ?_, htracks.current, htracks.expires⟩
  · simp only [clearBucket, EStateM.run_bind, hrun, EStateM.run_modify]
  · show Function.update s'.bucketStartTimes i now = Function.update v.starts i now
    rw [htracks.starts]
    rfl

omit [NeZero n] in
/-- All buckets are emptied. -/
theorem clear_tracks (now : ℤ) (h : s.Tracks M cppAvailable cfg v) :
    ∃ s', ((List.finRange n).forM (clearBucket now)).run s = .ok () s'
      ∧ s'.Tracks M cppAvailable cfg (v.clear now) := by
  rw [← Window.foldl_restart_finRange]
  exact forM_tracks (fun _ _ i hi => clearBucket_tracks hi i) _ h

/-! ## The next bucket -/

theorem nextBucket_tracks (span : Span n) (h : s.Tracks M cppAvailable cfg v) :
    ∃ s', (nextBucket span).run s = .ok () s'
      ∧ s'.Tracks M cppAvailable cfg (v.advance span.bucketDurationNs) := by
  have hmoved : ({ s with currentBucket := s.currentBucket + 1 } : WindowedStreamLog n).Tracks M
      cppAvailable cfg { v with current := v.current + 1 } :=
    ⟨h.bucket, h.merged, h.starts, by rw [h.current], h.expires⟩
  obtain ⟨s', hrun, hstarts, htracks⟩ := onBucket_reset_tracks hmoved (s.currentBucket + 1)
  obtain ⟨start, hstart⟩ :
    ∃ start, start = s.bucketStartTimes s.currentBucket + span.bucketDurationNs := ⟨_, rfl⟩
  refine ⟨{ s' with
      bucketStartTimes := Function.update s'.bucketStartTimes (s.currentBucket + 1) start },
    ?_, ?_, htracks.merged, ?_, htracks.current, htracks.expires⟩
  · simp only [nextBucket, EStateM.run_bind, EStateM.run_get, EStateM.run_modify, hrun, hstart]
  · rw [h.current] at htracks
    exact htracks.bucket
  · show Function.update s'.bucketStartTimes _ _ = Function.update v.starts _ _
    rw [hstarts, hstart, h.starts, h.current]

/-- **The loop of `_rotate`** moves on by the buckets that are overdue, and tells whether there was
one. -/
theorem rotateLoop_tracks (span : Span n) (elapsed : ℤ) (rotated : Bool)
    (h : s.Tracks M cppAvailable cfg v) :
    ∃ s', (rotateLoop span elapsed rotated).run s
        = .ok (decide ((span.bucketDurationNs : ℤ) ≤ elapsed) || rotated) s'
      ∧ s'.Tracks M cppAvailable cfg
        ((Window.advance span.bucketDurationNs)^[(elapsed / span.bucketDurationNs).toNat] v) := by
  induction elapsed, rotated using rotateLoop.induct span generalizing s v with
  | case1 elapsed rotated hle ih =>
    obtain ⟨s₁, hrun, htracks⟩ := nextBucket_tracks span h
    obtain ⟨s₂, hrun', htracks'⟩ := ih htracks
    refine ⟨s₂, ?_, ?_⟩
    · rw [rotateLoop, dif_pos hle, EStateM.run_bind, hrun]
      simp only [hrun', decide_eq_true hle, Bool.or_true, Bool.true_or]
    · rw [span.ediv_pass hle, Function.iterate_succ_apply]
      exact htracks'
  | case2 elapsed rotated hlt =>
    refine ⟨s, ?_, ?_⟩
    · rw [rotateLoop, dif_neg hlt, decide_eq_false hlt, Bool.false_or]
      rfl
    · rw [span.ediv_no_pass hlt]
      exact h

/-! ## The cache

Merging the live buckets into an empty log gives their sum. -/

omit [NeZero n] in
theorem contributes_iff (h : s.Tracks M cppAvailable cfg v) (i : Fin n) :
    s.contributes E span now i ↔ now - v.starts i ≤ span.windowNs ∧ v.cell (Addition.delta M S) i
      ≠ 0 := by
  unfold contributes
  rw [h.starts, Facade.StreamLog.nonempty_iff (h.bucket i)]

open Classical in
omit [NeZero n] in
/-- The loop of `_rebuild_merged`, which is not rejected when the sum of what it merges fits. -/
theorem foldlM_mergeBucket (l : List (Fin n)) (expires : Option ℤ) (h : s.Tracks M cppAvailable cfg v)
    (hfits : (v.cached + (l.map fun i =>
      if now - v.starts i ≤ span.windowNs then v.cell (Addition.delta M S) i
      else 0).sum).Fits) :
    ∃ s', (l.foldlM (mergeBucket M E cppAvailable span now) expires).run s
        = .ok (l.foldl (fun acc i =>
          if now - v.starts i ≤ span.windowNs ∧ v.cell (Addition.delta M S) i ≠ 0
            then earlier acc (v.starts i + span.windowNs) else acc) expires) s'
      ∧ s'.Tracks M cppAvailable cfg { v with cached := v.cached
          + (l.map fun i => if now - v.starts i ≤ span.windowNs then v.cell (Addition.delta M S) i
            else 0).sum } := by
  induction l generalizing s v expires with
  | nil =>
    refine ⟨s, rfl, ?_⟩
    simpa using h
  | cons i l ih =>
    rw [List.map_cons, List.sum_cons, ← add_assoc] at hfits
    by_cases hc : s.contributes E span now i
    · have hc' := (contributes_iff h i).mp hc
      rw [if_pos hc'.1] at hfits
      obtain ⟨log, hrun, hheld⟩ := (Facade.StreamLog.merge_held (M := M) h.merged (h.bucket i)).run_ok
        (Contents.Fits.of_add hfits)
      have htracks : ({ s with merged := log } : WindowedStreamLog n).Tracks M cppAvailable cfg
          { v with cached := v.cached + v.cell (Addition.delta M S) i } :=
        ⟨h.bucket, hheld, h.starts, h.current, h.expires⟩
      obtain ⟨s', hrest, htracks'⟩ :=
        ih (earlier expires (s.bucketStartTimes i + span.windowNs)) htracks hfits
      refine ⟨s', ?_, ?_⟩
      · simp only [List.foldlM_cons, List.foldl_cons, mergeBucket, EStateM.run_bind, EStateM.run_get,
          if_pos hc, if_pos hc', onMerged, run_zoom, hrun, EStateM.run_pure]
        rw [hrest, h.starts]
        rfl
      · rw [List.map_cons, List.sum_cons, ← add_assoc, if_pos hc'.1]
        exact htracks'
    · have hc' : ¬ (now - v.starts i ≤ span.windowNs ∧ v.cell (Addition.delta M S) i ≠ 0) :=
        fun hn => hc ((contributes_iff h i).mpr hn)
      -- a bucket that is left out is too old, or empty
      have hzero : (if now - v.starts i ≤ span.windowNs then v.cell (Addition.delta M S) i else 0)
        = 0 := by
        by_cases hlive : now - v.starts i ≤ span.windowNs
        · rw [if_pos hlive]
          exact not_not.mp fun hne => hc' ⟨hlive, hne⟩
        · rw [if_neg hlive]
      rw [hzero, add_zero] at hfits
      obtain ⟨s', hrest, htracks'⟩ := ih expires h hfits
      refine ⟨s', ?_, ?_⟩
      · simp only [List.foldlM_cons, List.foldl_cons, mergeBucket, EStateM.run_bind, EStateM.run_get,
          if_neg hc, if_neg hc', EStateM.run_pure]
        exact hrest
      · rw [List.map_cons, List.sum_cons, ← add_assoc, hzero, add_zero]
        exact htracks'

omit [NeZero n] in
theorem sum_live (v : Window Addition (Contents S) n) (w now : ℤ) :
    ∑ i ∈ v.live w now, v.cell (Addition.delta M S) i
      = ((List.finRange n).map fun i => if now - v.starts i ≤ w then v.cell (Addition.delta M S) i
        else 0).sum := by
  rw [Window.live, Finset.sum_filter, Fin.sum_univ_def]

omit [NeZero n] in
/-- **`_rebuild_merged`** sums up the live buckets, when their sum fits. -/
theorem rebuildMerged_tracks (h : s.Tracks M cppAvailable cfg v)
    (hfits : (∑ i ∈ v.live span.windowNs now, v.cell (Addition.delta M S) i).Fits) :
    ∃ s', (rebuildMerged M E cppAvailable span now).run s = .ok () s'
      ∧ s'.Tracks M cppAvailable cfg (v.rebuild (Addition.delta M S) span.windowNs now) := by
  obtain ⟨log, hrun, hheld⟩ := Facade.StreamLog.run_reset_held h.merged
  have htracks : ({ s with merged := log } : WindowedStreamLog n).Tracks M cppAvailable cfg
    { v with cached := 0 } :=
    ⟨h.bucket, hheld, h.starts, h.current, h.expires⟩
  rw [sum_live] at hfits
  obtain ⟨s', hrun', htracks'⟩ := foldlM_mergeBucket (E := E) (List.finRange n) none htracks
    (by rwa [zero_add])
  refine ⟨{ s' with mergedExpiresAt := v.expiry (Addition.delta M S) span.windowNs now }, ?_,
    htracks'.bucket, ?_,
    htracks'.starts, htracks'.current, rfl⟩
  · simp only [rebuildMerged, EStateM.run_bind, onMerged, run_zoom, hrun, hrun', EStateM.run_modify]
    rfl
  · have hmerged := htracks'.merged
    simp only [zero_add] at hmerged
    show s'.merged.Held cppAvailable cfg (∑ i ∈ v.live span.windowNs now, v.cell (Addition.delta M S) i)
    rw [sum_live]
    exact hmerged

/-! ## Calls

Each call of the class tracks the corresponding operation on the abstract ring. An addition may also
be rejected by the bucket, or by the cache after the bucket has taken it. -/

omit [NeZero n] in
/-- What is live after the ring has moved on fits, as part of the cache. -/
theorem live_fits {v' : Window Addition (Contents S) n} (h : s.Tracks M cppAvailable cfg v)
    (hcoherent : v.Coherent (Addition.delta M S) span.windowNs asOf) (htrim : v.Trimmed v')
    (hnow : asOf ≤ now) :
    (∑ i ∈ v'.live span.windowNs now, v'.cell (Addition.delta M S) i).Fits := by
  obtain ⟨rest, hrest⟩ := hcoherent.live_part htrim hnow
  apply Contents.Fits.of_add (b := rest)
  rw [hrest]
  exact h.merged.valid.fits

/-- **`_rotate`** is not rejected, and does what it is for. -/
theorem rotate_tracks (h : s.Tracks M cppAvailable cfg v)
    (hcoherent : v.Coherent (Addition.delta M S) span.windowNs asOf) (hnow : asOf ≤ now)
    (hnow' : now ≤ now') :
    ∃ s', (rotate M E cppAvailable span now now').run s = .ok () s'
      ∧ s'.Tracks M cppAvailable cfg
        (v.rotate (Addition.delta M S) span.windowNs span.bucketDurationNs now now') := by
  have hlater : asOf ≤ now' := hnow.trans hnow'
  unfold rotate Window.rotate
  simp only [EStateM.run_bind, EStateM.run_get, run_ite]
  rw [h.starts, h.current, h.expires]
  by_cases hidle : (n : ℤ) * span.bucketDurationNs ≤ now - v.starts v.current
  · rw [if_pos hidle, if_pos hidle]
    obtain ⟨s₁, hrun, htracks⟩ := clear_tracks now h
    obtain ⟨s₂, hrun', htracks'⟩ := rebuildMerged_tracks (E := E) htracks
      (live_fits h hcoherent (v.trimmed_clear now) hlater)
    refine ⟨s₂, ?_, htracks'⟩
    simp only [hrun, hrun']
  · rw [if_neg hidle, if_neg hidle]
    obtain ⟨s₁, hrun, htracks⟩ :=
      rotateLoop_tracks span (now - v.starts v.current) (expired v.expires now) h
    by_cases hstale : v.stale span.bucketDurationNs now = true
    · obtain ⟨s₂, hrun', htracks'⟩ := rebuildMerged_tracks (E := E) htracks
        (live_fits h hcoherent (v.trimmed_iterate_advance _) hlater)
      refine ⟨s₂, ?_, ?_⟩
      · have hflag : (decide ((span.bucketDurationNs : ℤ) ≤ now - v.starts v.current)
          || expired v.expires now) = true :=
          hstale
        simp only [hrun, hflag, if_true, hrun']
      · rw [if_pos hstale]
        exact htracks'
    · have hflag : (decide ((span.bucketDurationNs : ℤ) ≤ now - v.starts v.current)
        || expired v.expires now) = false :=
        Bool.eq_false_iff.mpr hstale
      -- the loop was not entered
      rw [span.ediv_no_pass (of_decide_eq_false (Bool.or_eq_false_iff.mp hflag).1)] at htracks
      refine ⟨s₁, ?_, ?_⟩
      · simp only [hrun, hflag]
        rfl
      · rw [if_neg hstale]
        exact htracks

omit [NeZero n] in
/-- What is written to the current bucket, and then to the cache. -/
theorem put_tracks (h : s.Tracks M cppAvailable cfg v) (now : ℤ) (a : Addition)
    (hbucket : a.Valid M S ∧ (v.cell (Addition.delta M S) v.current + a.delta M S).Fits)
    (hcache : (v.cached + a.delta M S).Fits) :
    ∃ s', (do
          onBucket s.currentBucket (Facade.StreamLog.add M a)
          onMerged (Facade.StreamLog.add M a)).run s = .ok () s'
      ∧ s'.Tracks M cppAvailable cfg (v.record (Addition.delta M S) now a) := by
  -- the addition goes to the present bucket and to the merged log, and both have room
  have hcurrent : (s.buckets s.currentBucket).Held cppAvailable cfg
      (v.cell (Addition.delta M S) v.current) := by
    rw [h.current]
    exact h.bucket v.current
  obtain ⟨log, hrun, hheld⟩ := (Facade.StreamLog.add_guarded (M := M) hcurrent a).run_ok hbucket
  obtain ⟨merged, hrun', hheld'⟩ :=
    (Facade.StreamLog.add_guarded (M := M) h.merged a).run_ok ⟨hbucket.1, hcache⟩
  refine ⟨{ s with
      buckets := Function.update s.buckets s.currentBucket log
      merged := merged }, ?_, fun i => ?_, hheld', h.starts, h.current, h.expires⟩
  · simp only [EStateM.run_bind, onBucket, onMerged, run_zoom, hrun, hrun']
  · rw [Window.cell_record]
    show (Function.update s.buckets s.currentBucket log i).Held cppAvailable cfg _
    -- only the present bucket changes
    by_cases hi : i = v.current
    · rw [if_pos hi, hi, ← h.current, Function.update_self, h.current]
      exact hheld
    · rw [if_neg hi, Function.update_of_ne (fun heq => hi (heq.trans h.current))]
      exact h.bucket i

omit [NeZero n] in
/-- A value that the current bucket rejects is written nowhere. -/
theorem put_rejected (h : s.Tracks M cppAvailable cfg v) (a : Addition)
    (hbucket : ¬ (a.Valid M S ∧ (v.cell (Addition.delta M S) v.current + a.delta M S).Fits)) :
    ∃ e, (do
        onBucket s.currentBucket (Facade.StreamLog.add M a)
        onMerged (Facade.StreamLog.add M a)).run s
      = .error e s := by
  have hcurrent : (s.buckets s.currentBucket).Held cppAvailable cfg
      (v.cell (Addition.delta M S) v.current) := by
    rw [h.current]
    exact h.bucket v.current
  obtain ⟨e, hrun⟩ := (Facade.StreamLog.add_guarded (M := M) hcurrent a).run_error hbucket
  refine ⟨e, ?_⟩
  simp only [EStateM.run_bind, onBucket, run_zoom, hrun, Function.update_eq_self]

omit [NeZero n] in
/-- A value that the current bucket takes and the cache rejects is written to the bucket only. -/
theorem put_split (h : s.Tracks M cppAvailable cfg v) (a : Addition)
    (hbucket : a.Valid M S ∧ (v.cell (Addition.delta M S) v.current + a.delta M S).Fits)
    (hcache : ¬ (v.cached + a.delta M S).Fits) :
    ∃ e log, (do
          onBucket s.currentBucket (Facade.StreamLog.add M a)
          onMerged (Facade.StreamLog.add M a)).run s
        = .error e { s with buckets := Function.update s.buckets s.currentBucket log }
      ∧ log.Held cppAvailable cfg (v.cell (Addition.delta M S) v.current + a.delta M S) := by
  have hcurrent : (s.buckets s.currentBucket).Held cppAvailable cfg
      (v.cell (Addition.delta M S) v.current) := by
    rw [h.current]
    exact h.bucket v.current
  obtain ⟨log, hrun, hheld⟩ := (Facade.StreamLog.add_guarded (M := M) hcurrent a).run_ok hbucket
  obtain ⟨e, hrun'⟩ :=
    (Facade.StreamLog.add_guarded (M := M) h.merged a).run_error fun hok => hcache hok.2
  refine ⟨e, log, ?_, hheld⟩
  simp only [EStateM.run_bind, onBucket, onMerged, run_zoom, hrun, hrun']

/-- An addition is a rotation and the two writes. -/
theorem run_add {s' : WindowedStreamLog n} (a : Addition)
    (hrotate : (rotate M E cppAvailable span now now').run s = .ok () s') :
    (add M E cppAvailable span a now now').run s
      = (do
          onBucket s'.currentBucket (Facade.StreamLog.add M a)
          onMerged (Facade.StreamLog.add M a)).run s' := by
  simp only [add, EStateM.run_bind, hrotate, EStateM.run_get]

/-- **`reset`**. -/
theorem reset_tracks (h : s.Tracks M cppAvailable cfg v) (now : ℤ) :
    ∃ s', (reset now).run s = .ok () s' ∧ s'.Tracks M cppAvailable cfg (v.reset now) := by
  have hstep : ∀ (s : WindowedStreamLog n) (v : Window Addition (Contents S) n) i,
    s.Tracks M cppAvailable cfg v →
      ∃ s', (onBucket i Facade.StreamLog.reset).run s = .ok () s' ∧ s'.Tracks M cppAvailable cfg
        (v.empty i) := by
    intro s v i hi
    obtain ⟨s', hrun, -, htracks⟩ := onBucket_reset_tracks hi i
    exact ⟨s', hrun, htracks⟩
  obtain ⟨s₁, hrun, htracks⟩ := forM_tracks hstep (List.finRange n) h
  rw [Window.foldl_empty_finRange] at htracks
  obtain ⟨log, hrun', hheld⟩ := Facade.StreamLog.run_reset_held htracks.merged
  refine ⟨⟨s₁.buckets, fun _ => now, 0, log, none⟩, ?_, htracks.bucket, hheld, rfl, rfl, rfl⟩
  simp only [reset, EStateM.run_bind, hrun, onMerged, run_zoom, hrun', EStateM.run_modify]

/-- A new ring. -/
theorem new_tracks {log : WindowedStreamLog n} (h : new cppAvailable cfg now = .ok log) :
    ∃ S, ∃ v : Window Addition (Contents S) n,
      log.Tracks M cppAvailable { cfg with deterministic := false } (v.reset now) := by
  obtain ⟨empty, hnew, h⟩ := Checked.bind_eq_ok.mp h
  cases h
  obtain ⟨S, hheld⟩ := Facade.StreamLog.held_new hnew
  exact ⟨S, ⟨fun _ => 0, fun _ => 0, 0, 0, none, 0⟩, fun _ => hheld, hheld, rfl, rfl, rfl⟩

end WindowedStreamLog

end Sketchlog
