import Sketchlog.Lib.Runs
import Sketchlog.Properties.MergedReads
import Sketchlog.Refine.WindowedSteps

/-!
# The cache of a windowed log

`_merged` is to be the merge of the buckets that are young enough, after every call. A rotation
keeps it so, and is never rejected. A value is written to the current bucket and then to the cache,
each with limits of its own: when the bucket takes the value and the cache does not, the call raises
with the value in the bucket. The other way to go wrong is a clock that passes by the window between
the two readings of one rotation, so that the current bucket is itself too old for the cache.

With neither, the cache is right in every state of a run and an addition that raises has done no
more than rotate (`cached_merge_coherent`).
-/

namespace Sketchlog

open Imperative SlidingWindow Runs

namespace WindowedStreamLog

variable (M : IndexMapping) (E : Estimator) (cppAvailable : Bool) {n : ℕ} [NeZero n] (span : Span n)

/-- `percentile`, `unique_count` and the other reads rotate, and then only look at the cache. -/
inductive Call where
  | add (a : Addition)
  | read
  | reset

/-- A call, with the two readings of the clock. -/
structure Timed where
  call : Call
  now : ℤ
  now' : ℤ

/-- A log, and the last reading of the clock. -/
structure Running (n : ℕ) where
  log : WindowedStreamLog n
  readAt : ℤ

/-- A rotation merges the buckets again. -/
def rebuilds (self : WindowedStreamLog n) (now : ℤ) : Bool :=
  decide ((span.bucketDurationNs : ℤ) ≤ now - self.bucketStartTimes self.currentBucket)
    || expired self.mergedExpiresAt now

/-- The clock is read again when the buckets are merged again. -/
def lastReading (self : WindowedStreamLog n) (now now' : ℤ) : ℤ :=
  if self.rebuilds span now then now' else now

/-- A call, which may raise. The clock does not go back. -/
def Running.step (s : Running n) (t : Timed) : Option (Running n) :=
  if s.readAt ≤ t.now ∧ t.now ≤ t.now' then
    match t.call with
    | .add a =>
        some ⟨after (add M E cppAvailable span a t.now t.now') s.log,
        s.log.lastReading span t.now t.now'⟩
    | .read => some ⟨after (rotate M E cppAvailable span t.now t.now') s.log,
        s.log.lastReading span t.now t.now'⟩
    | .reset => some ⟨after (WindowedStreamLog.reset t.now) s.log, t.now⟩
  else none

open Classical in
omit [NeZero n] in
/-- `_merged` is the merge of the buckets that are not empty and have started at most the window
before. -/
def CacheCoherent (self : WindowedStreamLog n) (asOf : ℤ) : Prop :=
  ∃ S, ∃ cells : Fin n → Contents S, (∀ i, (self.buckets i).backend.Represents (cells i))
    ∧ self.merged.backend.Represents
      (∑ i with asOf - self.bucketStartTimes i ≤ span.windowNs ∧ cells i ≠ 0, cells i)

/-- When the current bucket takes the value, the cache is to take it as well: it fits together with
the buckets that are young enough, and the current bucket is one of them. -/
def Takes (self : WindowedStreamLog n) (asOf : ℤ) (a : Addition) : Prop :=
  ∀ S, ∀ cells : Fin n → Contents S, (∀ i, (self.buckets i).backend.Represents (cells i)) →
    a.Valid M S → (cells self.currentBucket + a.delta M S).Fits →
      asOf - self.bucketStartTimes self.currentBucket ≤ span.windowNs
        ∧ (∑ i with asOf - self.bucketStartTimes i ≤ span.windowNs, cells i + a.delta M S).Fits

/-- What is asked of a step: the log, once rotated, takes what is added to it. -/
def Running.Fitting (s : Running n) (t : Timed) : Prop :=
  ∀ a, t.call = .add a → Takes M span (after (rotate M E cppAvailable span t.now t.now') s.log)
    (s.log.lastReading span t.now t.now') a

/-- The log is a window whose cache is coherent. -/
def Running.Tracked (s : Running n) : Prop :=
  ∃ S, ∃ v : Window Addition (Contents S) n, ∃ cfg, s.log.Tracks M cppAvailable cfg v
    ∧ v.Coherent (Addition.delta M S) span.windowNs s.readAt

variable {M E cppAvailable span} {s s' : Running n} {S : Shape} {cfg : Config}
    {log : WindowedStreamLog n}
  {v : Window Addition (Contents S) n} {now now' asOf : ℤ} {a : Addition}

omit [NeZero n] in
theorem lastReading_self : log.lastReading span now now = now := by
  unfold lastReading
  split <;> rfl

theorem Running.step_add (hnow : s.readAt ≤ now) (hnow' : now ≤ now') :
    s.step M E cppAvailable span ⟨.add a, now, now'⟩
      = some ⟨after (WindowedStreamLog.add M E cppAvailable span a now now') s.log,
        s.log.lastReading span now now'⟩ :=
  if_pos ⟨hnow, hnow'⟩

/-! ## Tracked logs -/

omit [NeZero n] in
theorem Tracks.lastReading_eq (h : log.Tracks M cppAvailable cfg v) :
    log.lastReading span now now' = v.asOfRotate span.bucketDurationNs now now' := by
  unfold lastReading rebuilds Window.asOfRotate Window.stale
  rw [h.starts, h.current, h.expires]

theorem Tracks.cells_eq (h : log.Tracks M cppAvailable cfg v) {S' : Shape} {cells : Fin n → Contents S'}
    (hcells : ∀ i, (log.buckets i).backend.Represents (cells i)) :
    ∃ heq : S' = S, ∀ i, heq ▸ cells i = v.cell (Addition.delta M S) i := by
  obtain rfl := (hcells 0).shape_eq (h.bucket 0).valid.represents
  exact ⟨rfl, fun i => (hcells i).contents_eq (h.bucket i).valid.represents⟩

open Classical in
omit [NeZero n] in
/-- Empty buckets add nothing. -/
theorem sum_nonempty_live (starts : Fin n → ℤ) (w asOf : ℤ) (cells : Fin n → Contents S) :
    ∑ i with asOf - starts i ≤ w ∧ cells i ≠ 0, cells i = ∑ i with asOf - starts i ≤ w, cells i := by
  rw [← Finset.filter_filter]
  exact Finset.sum_filter_ne_zero _

omit [NeZero n] in
theorem Tracks.cacheCoherent (h : log.Tracks M cppAvailable cfg v)
    (hcoherent : v.Coherent (Addition.delta M S) span.windowNs asOf) : log.CacheCoherent span asOf := by
  refine ⟨S, v.cell (Addition.delta M S), fun i => (h.bucket i).valid.represents, ?_⟩
  rw [sum_nonempty_live, h.starts]
  have hcached := hcoherent.cached
  unfold Window.live at hcached
  rw [← hcached]
  exact h.merged.valid.represents

/-- What `Takes` asks for, of a tracked log. -/
theorem Tracks.takes_iff (h : log.Tracks M cppAvailable cfg v)
    (hcoherent : v.Coherent (Addition.delta M S) span.windowNs asOf) :
    Takes M span log asOf a ↔ (a.Valid M S
      → (v.cell (Addition.delta M S) v.current + a.delta M S).Fits →
      asOf - v.starts v.current ≤ span.windowNs ∧ (v.cached + a.delta M S).Fits) := by
  unfold Takes
  rw [hcoherent.cached, h.starts, h.current]
  constructor
  · intro htakes
    exact htakes S (v.cell (Addition.delta M S)) fun i => (h.bucket i).valid.represents
  · intro htakes S' cells hcells
    obtain ⟨rfl, heq⟩ := h.cells_eq hcells
    obtain rfl : cells = v.cell (Addition.delta M S') := funext heq
    exact htakes

/-! ## One call

A call on a tracked log leaves it tracked and its cache coherent, when the sum over the live buckets
has room for the value. -/

/-- A rotation, in a tracked state. -/
theorem Running.Tracked.rotate (h : s.Tracked M cppAvailable span) (hnow : s.readAt ≤ now)
    (hnow' : now ≤ now') :
    ∃ r S, ∃ v : Window Addition (Contents S) n, ∃ cfg,
      (WindowedStreamLog.rotate M E cppAvailable span now now').run s.log = .ok () r
        ∧ r.Tracks M cppAvailable cfg v
        ∧ v.Coherent (Addition.delta M S) span.windowNs (s.log.lastReading span now now') := by
  obtain ⟨S, v, cfg, htracks, hcoherent⟩ := h
  have hpos : (0 : ℤ) < span.bucketDurationNs := by exact_mod_cast span.bucketDuration_pos
  have hle : (span.bucketDurationNs : ℤ) ≤ span.windowNs := by exact_mod_cast span.bucketDuration_le
  obtain ⟨r, hrun, hr⟩ := rotate_tracks (E := E) htracks hcoherent hnow hnow'
  refine ⟨r, S, _, cfg, hrun, hr, ?_⟩
  rw [htracks.lastReading_eq]
  exact hcoherent.rotate hpos hle hnow hnow'

/-- **An addition that fits**: it has rotated only, or the log is a coherent window again. -/
theorem Running.Tracked.add (h : s.Tracked M cppAvailable span) (hnow : s.readAt ≤ now)
    (hnow' : now ≤ now')
    (hfitting : s.Fitting M E cppAvailable span ⟨.add a, now, now'⟩) :
    (∃ r e, (WindowedStreamLog.rotate M E cppAvailable span now now').run s.log = .ok () r
        ∧ (WindowedStreamLog.add M E cppAvailable span a now now').run s.log = .error e r
        ∧ Running.Tracked M cppAvailable span ⟨r, s.log.lastReading span now now'⟩)
      ∨ ∃ t, (WindowedStreamLog.add M E cppAvailable span a now now').run s.log = .ok () t
        ∧ Running.Tracked M cppAvailable span ⟨t, s.log.lastReading span now now'⟩ := by
  obtain ⟨r, S, v, cfg, hrotate, htracks, hcoherent⟩ := h.rotate (E := E) hnow hnow'
  have htakes := hfitting a rfl
  have hafter : after (WindowedStreamLog.rotate M E cppAvailable span now now') s.log = r := by
    rw [after, hrotate]
  rw [hafter, htracks.takes_iff hcoherent] at htakes
  by_cases hbucket : a.Valid M S ∧ (v.cell (Addition.delta M S) v.current + a.delta M S).Fits
  · obtain ⟨hlive, hcache⟩ := htakes hbucket.1 hbucket.2
    obtain ⟨t, hrun, ht⟩ := put_tracks htracks now a hbucket hcache
    refine .inr ⟨t, ?_, S, _, cfg, ht, hcoherent.record hlive a⟩
    rw [run_add a hrotate]
    exact hrun
  · obtain ⟨e, he⟩ := put_rejected htracks a hbucket
    refine .inl ⟨r, e, hrotate, ?_, S, v, cfg, htracks, hcoherent⟩
    rw [run_add a hrotate]
    exact he

/-- **A step keeps the cache coherent.** -/
theorem Running.Tracked.step {t : Timed} (h : s.Tracked M cppAvailable span)
    (hfitting : s.Fitting M E cppAvailable span t) (hstep : s.step M E cppAvailable span t = some s') :
    s'.Tracked M cppAvailable span := by
  obtain ⟨call, now, now'⟩ := t
  unfold Running.step at hstep
  -- a call at a time before the last one does not take place
  split at hstep
  · next hclock =>
    cases call with
    | add a =>
      cases hstep
      rcases h.add (a := a) hclock.1 hclock.2 hfitting with ⟨r, e, -, hrun, htracked⟩ | ⟨t, hrun,
        htracked⟩
      · rw [after, hrun]
        exact htracked
      · rw [after, hrun]
        exact htracked
    | read =>
      cases hstep
      obtain ⟨r, S, v, cfg, hrotate, htracks, hcoherent⟩ := h.rotate (E := E) hclock.1 hclock.2
      rw [after, hrotate]
      exact ⟨S, v, cfg, htracks, hcoherent⟩
    | reset =>
      cases hstep
      obtain ⟨S, v, cfg, htracks, -⟩ := h
      obtain ⟨r, hrun, hr⟩ := reset_tracks htracks now
      rw [after, hrun]
      exact ⟨S, _, cfg, hr, v.coherent_reset now⟩
  · cases hstep

theorem tracked_new (h : new cppAvailable cfg now = .ok log) :
    Running.Tracked M cppAvailable span ⟨log, now⟩ := by
  obtain ⟨S, v, htracks⟩ := new_tracks (M := M) h
  exact ⟨S, _, _, htracks, v.coherent_reset now⟩

/-- **The cache is right** in every state of a run whose additions fit, and an addition that raises
leaves the log as it was after the rotation. -/
theorem cached_merge_coherent (hnew : new cppAvailable cfg now = .ok log) {calls : List Timed}
    (hmeets : Meets (Running.step M E cppAvailable span) (Running.Fitting M E cppAvailable span)
      ⟨log, now⟩ calls)
    (hrun : run (Running.step M E cppAvailable span) ⟨log, now⟩ calls = some s) :
    s.log.CacheCoherent span s.readAt
      ∧ ∀ a t t' e r, s.readAt ≤ t → t ≤ t' → s.Fitting M E cppAvailable span ⟨.add a, t, t'⟩ →
        (add M E cppAvailable span a t t').run s.log = .error e r →
          (rotate M E cppAvailable span t t').run s.log = .ok () r := by
  have htracked : s.Tracked M cppAvailable span :=
    run_invariant (fun _ _ _ h hfitting hstep => h.step hfitting hstep) (tracked_new hnew) hmeets hrun
  constructor
  · obtain ⟨S, v, cfg, htracks, hcoherent⟩ := htracked
    exact htracks.cacheCoherent hcoherent
  · intro a t t' e r hnow hnow' hfitting herror
    rcases htracked.add (a := a) hnow hnow' hfitting with ⟨r', e', hrotate, hadd, -⟩ | ⟨r', hadd, -⟩
    · cases herror.symm.trans hadd
      exact hrotate
    · cases herror.symm.trans hadd

/-! ## When the cache does not take the value

The bucket takes the value first. If the cache then refuses it, the two differ. -/

/-- **The bucket and the cache diverge** when the bucket takes a value and the cache does not. -/
theorem Tracks.split_incoherent (h : log.Tracks M cppAvailable cfg v)
    (hcoherent : v.Coherent (Addition.delta M S) span.windowNs asOf)
    (hlive : asOf - v.starts v.current ≤ span.windowNs)
    {bucket : Facade.StreamLog}
    (hbucket : bucket.Held cppAvailable cfg (v.cell (Addition.delta M S) v.current + a.delta M S))
    (hcache : ¬ (v.cached + a.delta M S).Fits) :
    ¬ CacheCoherent span { log with buckets := Function.update log.buckets log.currentBucket bucket
      } asOf := by
  rintro ⟨S', cells, hcells, hmerged⟩
  have hrecorded : ∀ i, (Function.update log.buckets log.currentBucket bucket i).backend.Represents
      ((v.record (Addition.delta M S) asOf a).cell (Addition.delta M S) i) := by
    intro i
    rw [Window.cell_record]
    by_cases hi : i = v.current
    · rw [if_pos hi, hi, ← h.current, Function.update_self, h.current]
      exact hbucket.valid.represents
    · rw [if_neg hi, Function.update_of_ne (fun heq => hi (heq.trans h.current))]
      exact (h.bucket i).valid.represents
  obtain rfl := (hcells 0).shape_eq (hrecorded 0)
  obtain rfl : cells = (v.record (Addition.delta M S') asOf a).cell (Addition.delta M S') :=
    funext fun i => (hcells i).contents_eq (hrecorded i)
  rw [sum_nonempty_live] at hmerged
  -- the sum of the live buckets is what the cache did not take
  have hsum : v.cached + a.delta M S'
    = ∑ i with asOf - (v.record (Addition.delta M S') asOf a).starts i ≤ span.windowNs,
      (v.record (Addition.delta M S') asOf a).cell (Addition.delta M S') i :=
        (hcoherent.record hlive a).cached
  have hstarts : log.bucketStartTimes = (v.record (Addition.delta M S') asOf a).starts := h.starts
  dsimp only at hmerged
  rw [hstarts, ← hsum] at hmerged
  have heq : v.cached = v.cached + a.delta M S' := h.merged.valid.represents.contents_eq hmerged
  apply hcache
  rw [← heq]
  exact h.merged.valid.fits

/-! ## Two buckets of a nanosecond

Each bucket has room for its events, and the merged log has none for both. -/

/-- How many registers are set, which is the estimate while they are few. -/
def registersSet : Estimator where
  count registers := registers.countP (· ≠ 0)
  count_pos_iff registers := by
    rw [Int.natCast_pos, List.countP_pos_iff]
    simp

def twoNanoseconds : Span 2 := ⟨2, Nat.two_pos⟩

/-- `n` of the event `a`. -/
def events (n : ℤ) : Addition := .event (.str "a") n

/-- A first addition at the time of construction fits: the cache is as empty as the bucket. -/
theorem fitting_first (hnew : new cppAvailable cfg now = .ok log) (a : Addition) :
    Running.Fitting M E cppAvailable span ⟨log, now⟩ ⟨.add a, now, now⟩ := by
  intro a' ha'
  obtain ⟨S, v, htracks⟩ := new_tracks (M := M) hnew
  have hpos : (0 : ℤ) < span.bucketDurationNs := by exact_mod_cast span.bucketDuration_pos
  have hcoherent : (v.reset now).Coherent (Addition.delta M S) span.windowNs now := v.coherent_reset now
  obtain ⟨r, hrotate, hr⟩ := rotate_tracks (E := E) htracks hcoherent le_rfl (le_refl now)
  rw [Window.rotate_eq_self hpos (v.stale_reset hpos now)] at hr
  have hafter : after (rotate M E cppAvailable span now now) log = r := by rw [after, hrotate]
  dsimp only
  rw [hafter, lastReading_self, hr.takes_iff hcoherent]
  intro _ hfits
  refine ⟨?_, ?_⟩
  · show now - now ≤ _
    omega
  · have hcell : (v.reset now).cell (Addition.delta M S) (v.reset now).current = 0 := rfl
    rw [hcell] at hfits
    exact hfits

theorem new_default : ∃ log : WindowedStreamLog 2, new false (Facade.defaults false) 0 = .ok log := by
  obtain ⟨b, hb, -⟩ : ∃ b, Facade.Backend.new false (Facade.defaults false) = .ok b
      ∧ b.Represents (0 : Contents Facade.Shape.default) :=
    Facade.Backend.new_of_shape Facade.Shape.default_bounded rfl rfl rfl rfl
  refine ⟨_, Checked.bind_eq_ok.mpr ⟨⟨Facade.defaults false, b⟩, ?_, rfl⟩⟩
  show Facade.StreamLog.new false (Facade.defaults false) = _
  rw [Facade.StreamLog.new, hb]
  rfl

theorem cached_merge_coherent_once :
    ∃ log : WindowedStreamLog 2, new false (Facade.defaults false) 0 = .ok log
      ∧ ∃ s, run (Running.step .coarse registersSet false twoNanoseconds) ⟨log, 0⟩
          [⟨.add (events 1), 0, 0⟩] = some s
        ∧ s.log.CacheCoherent twoNanoseconds s.readAt := by
  obtain ⟨log, hnew⟩ := new_default
  have hmeets : Meets (Running.step .coarse registersSet false twoNanoseconds)
      (Running.Fitting .coarse registersSet false twoNanoseconds) ⟨log, 0⟩ [⟨.add (events 1), 0, 0⟩] :=
    ⟨fitting_first hnew (events 1), fun _ _ => trivial⟩
  exact ⟨log, hnew, _, rfl, (cached_merge_coherent hnew hmeets rfl).1⟩

theorem valid_events {n : ℤ} (hn : 0 < n) : (events n).Valid M S := ⟨hn, fun h => h.elim⟩

theorem total_delta_events (n : ℤ) : ((events n).delta M S).events.total = n.toNat := rfl

theorem fits_delta_events {n : ℤ} (hn : n ≤ maxInt64) : ((events n).delta M S).Fits := by
  have htotal : ((events n).delta M S).total = n.toNat := by
    show (0 : Tally).count + n.toNat = _
    rw [Tally.count_zero, Nat.zero_add]
  refine ⟨Tally.fits_zero, ?_, ?_⟩
  · rw [total_delta_events]
    omega
  · rw [htotal]
    have hle : maxInt64 ≤ maxUInt64 := by decide
    omega

/-- A first call on a new log. -/
theorem first_add_returns {log : WindowedStreamLog 2} {v : Window Addition (Contents S) 2}
    (h : log.Tracks .coarse false cfg (v.reset 0)) {n : ℤ} (hpos : 0 < n) (hle : n ≤ maxInt64) :
    ∃ s, (add .coarse registersSet false twoNanoseconds (events n) 0 0).run log = .ok () s
      ∧ s.Tracks .coarse false cfg ((v.reset 0).record (Addition.delta .coarse S) 0 (events n)) := by
  have hduration : (0 : ℤ) < twoNanoseconds.bucketDurationNs := by decide
  have hcoherent : (v.reset 0).Coherent (Addition.delta .coarse S) twoNanoseconds.windowNs 0 :=
    v.coherent_reset 0
  obtain ⟨r, hrotate, hr⟩ := rotate_tracks (E := registersSet) h hcoherent le_rfl (le_refl 0)
  rw [Window.rotate_eq_self hduration (v.stale_reset hduration 0)] at hr
  have hfits : (0 + (events n).delta .coarse S).Fits := by
    rw [zero_add]
    exact fits_delta_events hle
  obtain ⟨s, hput, htracks⟩ := put_tracks hr 0 (events n) ⟨valid_events hpos, hfits⟩ hfits
  rw [← run_add (events n) hrotate] at hput
  exact ⟨s, hput, htracks⟩

/-- The window after the first of two calls. -/
noncomputable def afterFirst (v : Window Addition (Contents S) 2) : Window Addition (Contents S) 2 :=
  (v.reset 0).record (Addition.delta .coarse S) 0 (events (2 ^ 63 - 1))

/-- The window when the second call has rotated it. -/
noncomputable def beforeSecond (v : Window Addition (Contents S) 2) : Window Addition (Contents S) 2 :=
  ((afterFirst v).advance 1).rebuild (Addition.delta .coarse S) 2 1

theorem cached_beforeSecond (v : Window Addition (Contents S) 2) :
    (beforeSecond v).cached = (events (2 ^ 63 - 1)).delta .coarse S := by
  have hfirst : ((afterFirst v).advance 1).cell (Addition.delta .coarse S) 0
    = (events (2 ^ 63 - 1)).delta .coarse S := by
    show Window.value (Addition.delta .coarse S) (0 + {(0, events (2 ^ 63 - 1))}) = _
    simp [Window.value]
  have hsecond : ((afterFirst v).advance 1).cell (Addition.delta .coarse S) 1 = 0 := rfl
  have hlive : ((afterFirst v).advance 1).live 2 1 = Finset.univ := by
    ext i
    rw [Window.mem_live]
    fin_cases i <;> simp [afterFirst, Window.advance, Window.record, Window.reset]
  show ∑ i ∈ ((afterFirst v).advance 1).live 2 1, ((afterFirst v).advance 1).cell
    (Addition.delta .coarse S) i = _
  rw [hlive, Fin.sum_univ_two, hfirst, hsecond, add_zero]

/-- The counts of one bucket and of the next fit each, and their sum does not: the second call
raises, with the value in its bucket. -/
theorem overflow_diverges : ∃ log : WindowedStreamLog 2, new false (Facade.defaults false) 0 = .ok log
    ∧ ∃ s, run (Running.step .coarse registersSet false twoNanoseconds) ⟨log, 0⟩
        [⟨.add (events (2 ^ 63 - 1)), 0, 0⟩, ⟨.add (events 1), 1, 1⟩] = some s
      ∧ ¬ s.log.CacheCoherent twoNanoseconds s.readAt := by
  obtain ⟨log, hnew⟩ := new_default
  obtain ⟨S, v, htracks⟩ := new_tracks (M := .coarse) hnew
  have hduration : (0 : ℤ) < twoNanoseconds.bucketDurationNs := by decide
  -- the first call, on the first bucket
  obtain ⟨s₁, hput, h₁⟩ := first_add_returns htracks (n := 2 ^ 63 - 1) (by decide) (by decide)
  have hcoherent : (v.reset 0).Coherent (Addition.delta .coarse S) twoNanoseconds.windowNs 0 :=
    v.coherent_reset 0
  have hcoherent₁ : (afterFirst v).Coherent (Addition.delta .coarse S) twoNanoseconds.windowNs 0 :=
    hcoherent.record (show (0 : ℤ) - 0 ≤ 2 by decide) (events (2 ^ 63 - 1))
  -- the second call, on the next bucket
  obtain ⟨r₂, hrotate₂, hr₂⟩ := rotate_tracks (E := registersSet) h₁ hcoherent₁ zero_le_one (le_refl 1)
  have hcoherent₂ : (beforeSecond v).Coherent (Addition.delta .coarse S) twoNanoseconds.windowNs 1 :=
    hcoherent₁.rotate hduration (by decide) zero_le_one (le_refl 1)
  have htracks₂ : r₂.Tracks .coarse false { Facade.defaults false with deterministic := false }
    (beforeSecond v) := hr₂
  have hbucket : ((beforeSecond v).cell (Addition.delta .coarse S) (beforeSecond v).current
      + (events 1).delta .coarse S).Fits := by
    show (0 + (events 1).delta .coarse S).Fits
    rw [zero_add]
    exact fits_delta_events (by decide)
  have hcache : ¬ ((beforeSecond v).cached + (events 1).delta .coarse S).Fits := by
    intro hfits
    have htotal : (2 ^ 63 - 1 : ℤ).toNat + (1 : ℤ).toNat ≤ maxInt64 := by
      have hle := hfits.events_le
      rw [cached_beforeSecond] at hle
      exact hle
    exact absurd htotal (by decide)
  obtain ⟨e, bucket, hsplit, hheld⟩ :=
    put_split htracks₂ (events 1) ⟨valid_events (by decide), hbucket⟩ hcache
  rw [← run_add (events 1) hrotate₂] at hsplit
  have hafter₁ : after (add .coarse registersSet false twoNanoseconds (events (2 ^ 63 - 1)) 0 0) log
    = s₁ := by
    rw [after, hput]
  have hstep₁ : Running.step .coarse registersSet false twoNanoseconds ⟨log, 0⟩
    ⟨.add (events (2 ^ 63 - 1)), 0, 0⟩
      = some ⟨s₁, 0⟩ := by
    rw [Running.step_add (le_refl 0) (le_refl 0), hafter₁, lastReading_self]
  refine ⟨log, hnew, _, run_cons.mpr
    ⟨_, hstep₁, run_cons.mpr ⟨_, Running.step_add zero_le_one le_rfl, rfl⟩⟩, ?_⟩
  dsimp only
  rw [after, hsplit, lastReading_self]
  exact htracks₂.split_incoherent hcoherent₂ (show (1 : ℤ) - 1 ≤ 2 by decide) hheld hcache

end WindowedStreamLog

end Sketchlog
