import Sketchlog.Lib.TumblingWindow
import Sketchlog.Python.DriftSketch
import Sketchlog.Refine.FacadeReads

/-!
# The two logs of a dimension are tumbling windows

* **`Separate`** — no two dimensions share a current log, and no current log is anybody's previous
  one: a call that writes to a log is seen in one window only.
* **`Tracks`** — the logs of a dimension hold the values of a pair of windows, and its start is theirs.
* A rotation check of a dimension is `Windows.rotate` (`maybeRotate_tracks`), an addition to its
  current log is `Windows.record` (`put_tracks`), and neither touches another dimension
  (`SameDimension`).
-/

namespace Sketchlog

open Imperative TumblingWindow

namespace DriftSketch

variable {clock : ℕ → ℤ} {M : IndexMapping} {cppAvailable : Bool} {settings : Settings} {S : Shape}
  {s s' : DriftSketch} {name name' : String} {v : Windows ℚ} {c : Contents S} {empty : Facade.StreamLog}

/-- The arguments of the logs. -/
def Settings.config (settings : Settings) : Config := { settings.skKwargs with deterministic := false }

/-- What a log has taken. -/
noncomputable def contentsOf (M : IndexMapping) (S : Shape) (values : List ℚ) : Contents S :=
  ⟨(values.map (Tally.single M S.alpha)).sum, 0, 0⟩

theorem contentsOf_append (xs ys : List ℚ) :
    contentsOf M S (xs ++ ys) = contentsOf M S xs + contentsOf M S ys := by
  apply Contents.ext
  · show ((xs ++ ys).map _).sum = _
    rw [List.map_append, List.sum_append]
    rfl
  · exact (add_zero _).symm
  · exact (add_zero _).symm

theorem total_contentsOf (values : List ℚ) : (contentsOf M S values).total = values.length := by
  induction values with
  | nil => exact Contents.total_zero
  | cons v vs ih =>
    have hone : (contentsOf M S [v]).total = 1 := by
      show (List.sum [Tally.single M S.alpha v]).count + 0 = 1
      rw [List.sum_singleton, Tally.count_single]
    rw [← List.singleton_append, contentsOf_append, Contents.total_add, hone, ih, List.length_append]
    rfl

/-- The settings make logs of the shape `S`. -/
def Makes (cppAvailable : Bool) (settings : Settings) (S : Shape) (empty : Facade.StreamLog) : Prop :=
  Facade.StreamLog.new cppAvailable settings.config = .ok empty
    ∧ empty.Held cppAvailable settings.config (0 : Contents S)

/-- The log that a dictionary has for a name holds contents. -/
def HoldsAt (cppAvailable : Bool) (settings : Settings) (s : DriftSketch) (refs : Dict String ℕ)
    (name : String)
    (c : Contents S) : Prop :=
  ∃ ref log, refs.get? name = some ref ∧ s.logs[ref]? = some log
    ∧ log.Held cppAvailable settings.config c

/-- The logs of a dimension are the windows `v`. -/
structure Tracks (M : IndexMapping) (cppAvailable : Bool) (settings : Settings) (S : Shape)
    (s : DriftSketch)
    (name : String) (v : Windows ℚ) : Prop where
  current : HoldsAt cppAvailable settings s s.current name (contentsOf M S v.current)
  previous : HoldsAt cppAvailable settings s s.previous name (contentsOf M S v.previous)
  start : s.windowStart.get? name = some v.start

/-- The current logs are referenced once. -/
structure Separate (s : DriftSketch) : Prop where
  current_lt : ∀ {name ref}, s.current.get? name = some ref → ref < s.logs.length
  previous_lt : ∀ {name ref}, s.previous.get? name = some ref → ref < s.logs.length
  current_inj : ∀ {name name' ref}, s.current.get? name = some ref → s.current.get? name' = some ref
    → name = name'
  apart : ∀ {name name' ref}, s.current.get? name = some ref → s.previous.get? name' ≠ some ref

/-- A dimension is as it was. -/
structure SameDimension (s s' : DriftSketch) (name : String) : Prop where
  current : s'.current.get? name = s.current.get? name
  previous : s'.previous.get? name = s.previous.get? name
  start : s'.windowStart.get? name = s.windowStart.get? name
  current_log : ∀ ref, s.current.get? name = some ref → s'.logs[ref]? = s.logs[ref]?
  previous_log : ∀ ref, s.previous.get? name = some ref → s'.logs[ref]? = s.logs[ref]?

theorem Tracks.of_same (h : Tracks M cppAvailable settings S s name v)
    (hsame : SameDimension s s' name) :
    Tracks M cppAvailable settings S s' name v := by
  obtain ⟨⟨ref, log, href, hlog, hheld⟩, ⟨ref', log', href', hlog', hheld'⟩, hstart⟩ := h
  refine ⟨⟨ref, log, hsame.current.trans href, (hsame.current_log ref href).trans hlog, hheld⟩,
    ⟨ref', log', hsame.previous.trans href', (hsame.previous_log ref' href').trans hlog', hheld'⟩,
    hsame.start.trans hstart⟩

/-- New references of a dimension are in place, and the clock has been read. -/
def install (s : DriftSketch) (name : String) (more : List Facade.StreamLog) (ref ref' : ℕ) (start : ℤ)
    (cusum : Dict String (List Otel.Float64)) : DriftSketch where
  logs := s.logs ++ more
  current := s.current.set name ref
  previous := s.previous.set name ref'
  windowStart := s.windowStart.set name start
  eventCounts := s.eventCounts
  cusum := cusum
  clockReads := s.clockReads + 1

/-- A dimension has got new references: the current one is to a new log, the previous one to a new
log or to the log that was the current one. -/
structure Replaced (s s' : DriftSketch) (name : String) (ref ref' : ℕ) : Prop where
  logs : ∃ more, s'.logs = s.logs ++ more
  current : s'.current = s.current.set name ref
  previous : s'.previous = s.previous.set name ref'
  windowStart : ∃ start, s'.windowStart = s.windowStart.set name start
  le_current : s.logs.length ≤ ref
  current_lt : ref < s'.logs.length
  previous_lt : ref' < s'.logs.length
  ne : ref ≠ ref'
  frozen : s.logs.length ≤ ref' ∨ s.current.get? name = some ref'

theorem Replaced.separate {ref ref' : ℕ} (h : Replaced s s' name ref ref') (hsep : s.Separate) :
    s'.Separate := by
  obtain ⟨more, hmore⟩ := h.logs
  have hle : s.logs.length ≤ s'.logs.length := by
    rw [hmore, List.length_append]
    exact Nat.le_add_right _ _
  have hcurrent : ∀ {n r}, s'.current.get? n = some r → n = name ∧ r = ref ∨ n ≠ name
    ∧ s.current.get? n = some r := by
    intro n r hr
    rw [h.current, Dict.get?_set] at hr
    split at hr
    · next heq => exact .inl ⟨heq, (Option.some.inj hr).symm⟩
    · next hne => exact .inr ⟨hne, hr⟩
  have hprevious : ∀ {n r}, s'.previous.get? n = some r → r = ref' ∨ s.previous.get? n = some r := by
    intro n r hr
    rw [h.previous, Dict.get?_set] at hr
    split at hr
    · exact .inl (Option.some.inj hr).symm
    · exact .inr hr
  refine ⟨fun hr => ?_, fun hr => ?_, fun hr hr' => ?_, fun hr hr' => ?_⟩
  · obtain ⟨-, rfl⟩ | ⟨-, hold⟩ := hcurrent hr
    · exact h.current_lt
    · exact (hsep.current_lt hold).trans_le hle
  · obtain rfl | hold := hprevious hr
    · exact h.previous_lt
    · exact (hsep.previous_lt hold).trans_le hle
  · -- an old reference is not the new one
    obtain ⟨hn, hnew⟩ | ⟨-, hold⟩ := hcurrent hr
    · obtain ⟨hn', -⟩ | ⟨-, hold'⟩ := hcurrent hr'
      · exact hn.trans hn'.symm
      · exact absurd (hsep.current_lt hold') (not_lt.mpr (hnew ▸ h.le_current))
    · obtain ⟨-, hnew'⟩ | ⟨-, hold'⟩ := hcurrent hr'
      · exact absurd (hsep.current_lt hold) (not_lt.mpr (hnew' ▸ h.le_current))
      · exact hsep.current_inj hold hold'
  · obtain ⟨-, hnew⟩ | ⟨hne, hold⟩ := hcurrent hr
    · obtain hfrozen | hold' := hprevious hr'
      · exact h.ne (hnew.symm.trans hfrozen)
      · exact absurd (hsep.previous_lt hold') (not_lt.mpr (hnew ▸ h.le_current))
    · obtain rfl | hold' := hprevious hr'
      · obtain hlate | hfrom := h.frozen
        · exact absurd (hsep.current_lt hold) (not_lt.mpr hlate)
        · exact hne (hsep.current_inj hold hfrom)
      · exact hsep.apart hold hold'

/-- The logs of the other dimensions are where they were. -/
theorem Replaced.same {ref ref' : ℕ} (h : Replaced s s' name ref ref') (hsep : s.Separate)
    (hne : name' ≠ name) :
    SameDimension s s' name' := by
  obtain ⟨more, hmore⟩ := h.logs
  obtain ⟨start, hstart⟩ := h.windowStart
  refine ⟨?_, ?_, ?_, fun r hr => ?_, fun r hr => ?_⟩
  · rw [h.current, Dict.get?_set_of_ne hne]
  · rw [h.previous, Dict.get?_set_of_ne hne]
  · rw [hstart, Dict.get?_set_of_ne hne]
  · rw [hmore, List.getElem?_append_left (hsep.current_lt hr)]
  · rw [hmore, List.getElem?_append_left (hsep.previous_lt hr)]

theorem Replaced.isSome {ref ref' : ℕ} (h : Replaced s s' name ref ref') :
    (s'.current.get? name').isSome ↔ name' = name ∨ (s.current.get? name').isSome := by
  rw [h.current, Dict.get?_set]
  split
  · next heq => exact iff_of_true rfl (.inl heq)
  · next hne => exact (or_iff_right hne).symm

theorem getElem?_kept (logs : List Facade.StreamLog) (empty : Facade.StreamLog) :
    (logs ++ [empty, empty])[logs.length]? = some empty := by simp

theorem getElem?_fresh (logs : List Facade.StreamLog) (empty : Facade.StreamLog) :
    (logs ++ [empty, empty])[logs.length + 1]? = some empty := by simp

/-- Both logs are new. -/
theorem replaced_install (s : DriftSketch) (name : String) (ref ref' : ℕ) (empty : Facade.StreamLog)
    (start : ℤ)
    (cusum : Dict String (List Otel.Float64)) (href : s.logs.length ≤ ref ∧ ref < s.logs.length + 2)
    (href' : s.logs.length ≤ ref' ∧ ref' < s.logs.length + 2) (hne : ref ≠ ref') :
    Replaced s (s.install name [empty, empty] ref ref' start cusum) name ref ref' where
  logs := ⟨_, rfl⟩
  current := rfl
  previous := rfl
  windowStart := ⟨start, rfl⟩
  le_current := href.1
  current_lt := by simpa [install] using href.2
  previous_lt := by simpa [install] using href'.2
  ne := hne
  frozen := .inl href'.1

/-- The current log is frozen. -/
theorem replaced_freeze {ref : ℕ} (hsep : s.Separate) (href : s.current.get? name = some ref)
    (empty : Facade.StreamLog)
    (start : ℤ) (cusum : Dict String (List Otel.Float64)) :
    Replaced s (s.install name [empty] s.logs.length ref start cusum) name s.logs.length ref where
  logs := ⟨_, rfl⟩
  current := rfl
  previous := rfl
  windowStart := ⟨start, rfl⟩
  le_current := le_rfl
  current_lt := by simp [install]
  previous_lt := (hsep.current_lt href).trans (by simp [install])
  ne := (hsep.current_lt href).ne'
  frozen := .inr href

/-! ## Statements

The run of each statement in a state where its references are valid. -/

theorem run_monotonicNs : (monotonicNs clock).run s
    = .ok (clock s.clockReads) { s with clockReads := s.clockReads + 1 } := rfl

theorem run_newLog (h : Makes cppAvailable settings S empty) :
    (newLog cppAvailable settings).run s = .ok s.logs.length { s with logs := s.logs ++ [empty] } := by
  have hnew := h.1
  unfold Settings.config at hnew
  simp only [newLog, hnew, EStateM.run_bind, run_liftExcept_ok, EStateM.run_get, EStateM.run_set,
    EStateM.run_pure]

theorem run_item {β : Type} {d : Dict String β} {b : β} (h : d.get? name = some b) :
    (liftExcept (item d name) : EStateM PyError DriftSketch β).run s = .ok b s := by
  rw [item, h]
  rfl

theorem run_logAt {ref : ℕ} {log : Facade.StreamLog} (h : s.logs[ref]? = some log) :
    (logAt ref).run s = .ok log s := by
  simp only [logAt, EStateM.run_bind, EStateM.run_get, h, EStateM.run_pure]

theorem run_currentLog (h : HoldsAt cppAvailable settings s s.current name c) :
    ∃ log, (currentLog name).run s = .ok log s ∧ log.Held cppAvailable settings.config c := by
  obtain ⟨ref, log, href, hlog, hheld⟩ := h
  refine ⟨log, ?_, hheld⟩
  simp only [currentLog, EStateM.run_bind, EStateM.run_get, run_item href, run_logAt hlog]

theorem run_previousLog (h : HoldsAt cppAvailable settings s s.previous name c) :
    ∃ log, (previousLog name).run s = .ok log s ∧ log.Held cppAvailable settings.config c := by
  obtain ⟨ref, log, href, hlog, hheld⟩ := h
  refine ⟨log, ?_, hheld⟩
  simp only [previousLog, EStateM.run_bind, EStateM.run_get, run_item href, run_logAt hlog]

/-- A percentile of a log is always there. -/
theorem exists_percentileOf {log : Facade.StreamLog} (h : log.Held cppAvailable settings.config c)
    (q : Binary64) :
    ∃ x, Canary.percentileOf M log q = .ok x := by
  obtain ⟨sk, -, -, hlike⟩ := Facade.StreamLog.exists_sketch M h.valid.represents h.valid.fits
  refine ⟨Canary.float (sk.quantileAt M q.val), ?_⟩
  rw [Canary.percentileOf, hlike.percentile]
  rfl

theorem run_updateWithP99 (h : HoldsAt cppAvailable settings s s.current name c) :
    ∃ cusum, (updateWithP99 M name).run s = .ok () { s with cusum := cusum } := by
  obtain ⟨log, hrun, hheld⟩ := run_currentLog h
  obtain ⟨x, hx⟩ := exists_percentileOf (M := M) hheld Canary.p99
  refine ⟨s.cusum.set name ((s.cusum.get? name).getD [] ++ [x]), ?_⟩
  simp only [updateWithP99, updateCusum, EStateM.run_bind, hrun, hx, run_liftExcept_ok,
    EStateM.run_modify]

theorem run_backfill (name : String) (values : List Otel.Float64) (s : DriftSketch) :
    ∃ cusum, (values.forM (updateCusum name)).run s = .ok () { s with cusum := cusum } := by
  induction values generalizing s with
  | nil => exact ⟨s.cusum, rfl⟩
  | cons x xs ih =>
    obtain ⟨cusum, hrun⟩ := ih { s with cusum := s.cusum.set name ((s.cusum.get? name).getD [] ++ [x]) }
    exact ⟨cusum, hrun⟩

theorem run_reading (h : Tracks M cppAvailable settings S s name v) :
    ∃ reading, (DriftSketch.reading M name).run s = .ok reading s := by
  obtain ⟨current, hcurrent, hheld⟩ := run_currentLog h.current
  obtain ⟨previous, hprevious, hheld'⟩ := run_previousLog h.previous
  obtain ⟨x, hx⟩ := exists_percentileOf (M := M) hheld Canary.p99
  obtain ⟨y, hy⟩ := exists_percentileOf (M := M) hheld' Canary.p99
  simp only [reading, EStateM.run_bind, hcurrent, hprevious, hx, hy, run_liftExcept_ok,
    EStateM.run_pure]
  exact ⟨_, rfl⟩

/-! ## The rotation check

Young, one window over, several over. The dimension tracks its abstract windows in each case, and
the others stay as they are. -/

theorem run_maybeRotate_young (htracks : Tracks M cppAvailable settings S s name v)
    (h : ¬ (settings.windowNs : ℤ) ≤ clock s.clockReads - v.start) :
    (maybeRotate clock M cppAvailable settings name).run s
      = .ok () { s with clockReads := s.clockReads + 1 } := by
  simp only [maybeRotate, EStateM.run_bind, run_monotonicNs, EStateM.run_get,
    run_item htracks.start, if_neg h,
    EStateM.run_pure]

/-- The window has ended, and the next one has not. -/
theorem run_maybeRotate_one (hmakes : Makes cppAvailable settings S empty)
    (htracks : Tracks M cppAvailable settings S s name v)
    (h : (settings.windowNs : ℤ) ≤ clock s.clockReads - v.start)
    (hone : ¬ 2 ≤ (clock s.clockReads - v.start) / settings.windowNs) :
    ∃ ref cusum, s.current.get? name = some ref ∧
      (maybeRotate clock M cppAvailable settings name).run s
        = .ok () (s.install name [empty] s.logs.length ref
        (v.start + (clock s.clockReads - v.start) / settings.windowNs * settings.windowNs) cusum) := by
  obtain ⟨ref, log, href, hlog, hheld⟩ := htracks.current
  have hread : HoldsAt cppAvailable settings { s with clockReads := s.clockReads + 1 } s.current name
      (contentsOf M S v.current) := ⟨ref, log, href, hlog, hheld⟩
  obtain ⟨cusum, hupdate⟩ := run_updateWithP99 (M := M) hread
  refine ⟨ref, cusum, href, ?_⟩
  simp only [maybeRotate, EStateM.run_bind, run_monotonicNs, EStateM.run_get,
    run_item htracks.start, if_pos h,
    if_neg hone, hupdate, run_item href, EStateM.run_modify, run_newLog hmakes, install]

/-- More than one window has ended. -/
theorem run_maybeRotate_many (hmakes : Makes cppAvailable settings S empty)
    (htracks : Tracks M cppAvailable settings S s name v)
    (h : (settings.windowNs : ℤ) ≤ clock s.clockReads - v.start)
    (hmany : 2 ≤ (clock s.clockReads - v.start) / settings.windowNs) :
    ∃ cusum, (maybeRotate clock M cppAvailable settings name).run s = .ok ()
      (s.install name [empty, empty] (s.logs.length + 1) s.logs.length
        (v.start + (clock s.clockReads - v.start) / settings.windowNs * settings.windowNs) cusum) := by
  obtain ⟨ref, log, href, hlog, hheld⟩ := htracks.current
  have hread : HoldsAt cppAvailable settings { s with clockReads := s.clockReads + 1 } s.current name
      (contentsOf M S v.current) := ⟨ref, log, href, hlog, hheld⟩
  obtain ⟨cusum, hupdate⟩ := run_updateWithP99 (M := M) hread
  obtain ⟨cusum', hbackfill⟩ := run_backfill name
    (List.replicate (min ((clock s.clockReads - v.start) / settings.windowNs - 1) 100).toNat
      Otel.Float64.zero)
    { s with clockReads := s.clockReads + 1, cusum := cusum }
  refine ⟨cusum', ?_⟩
  simp only [maybeRotate, EStateM.run_bind, run_monotonicNs, EStateM.run_get,
    run_item htracks.start, if_pos h,
    if_pos hmany, hupdate, hbackfill, EStateM.run_modify, run_newLog hmakes, install, List.append_assoc,
    List.singleton_append, List.length_append, List.length_singleton]

/-- **A rotation check rotates the windows of its dimension**, and touches no other. -/
theorem maybeRotate_tracks (clock : ℕ → ℤ) (hmakes : Makes cppAvailable settings S empty)
    (hsep : s.Separate)
    (htracks : Tracks M cppAvailable settings S s name v) :
    ∃ s', (maybeRotate clock M cppAvailable settings name).run s = .ok () s' ∧ s'.Separate
      ∧ Tracks M cppAvailable settings S s' name (v.rotate settings.windowNs (clock s.clockReads))
      ∧ (∀ n, n ≠ name → SameDimension s s' n)
        ∧ (∀ n, (s'.current.get? n).isSome ↔ (s.current.get? n).isSome)
      ∧ s'.eventCounts = s.eventCounts ∧ s'.clockReads = s.clockReads + 1 := by
  -- the log that is current now is the one the next window may keep as the previous one
  obtain ⟨ref, log, href, hlog, hheld⟩ := htracks.current
  have hsome : ∀ {s' : DriftSketch} {r r' : ℕ}, Replaced s s' name r r' →
      ∀ n, (s'.current.get? n).isSome ↔ (s.current.get? n).isSome := by
    intro s' r r' hreplaced n
    rw [hreplaced.isSome]
    refine ⟨fun h => h.elim (fun heq => ?_) id, .inr⟩
    rw [heq, href]
    rfl
  unfold Windows.rotate
  by_cases hover : (settings.windowNs : ℤ) ≤ clock s.clockReads - v.start
  · rw [if_pos hover]
    -- after two windows or more both logs are new and empty
    by_cases hmany : 2 ≤ (clock s.clockReads - v.start) / settings.windowNs
    · obtain ⟨cusum, hrun⟩ := run_maybeRotate_many hmakes htracks hover hmany
      have hreplaced := s.replaced_install name (s.logs.length + 1) s.logs.length empty
        (v.start + (clock s.clockReads - v.start) / settings.windowNs * settings.windowNs) cusum
        (by omega) (by omega) (by omega)
      refine ⟨_, hrun, hreplaced.separate hsep, ⟨?_, ?_, Dict.get?_set_self⟩, fun n hn =>
        hreplaced.same hsep hn,
        hsome hreplaced, rfl, rfl⟩
      · exact ⟨_, empty, Dict.get?_set_self, getElem?_fresh s.logs empty, hmakes.2⟩
      · rw [if_pos hmany]
        exact ⟨_, empty, Dict.get?_set_self, getElem?_kept s.logs empty, hmakes.2⟩
    · -- after one window the current log becomes the previous one, under the reference it had
      obtain ⟨ref', cusum, href', hrun⟩ := run_maybeRotate_one hmakes htracks hover hmany
      obtain rfl : ref = ref' := Option.some.inj (href.symm.trans href')
      have hreplaced := replaced_freeze hsep href empty
        (v.start + (clock s.clockReads - v.start) / settings.windowNs * settings.windowNs) cusum
      refine ⟨_, hrun, hreplaced.separate hsep, ⟨?_, ?_, Dict.get?_set_self⟩, fun n hn =>
        hreplaced.same hsep hn,
        hsome hreplaced, rfl, rfl⟩
      · exact ⟨_, empty, Dict.get?_set_self, List.getElem?_concat_length, hmakes.2⟩
      · rw [if_neg hmany]
        refine ⟨ref, log, Dict.get?_set_self, ?_, hheld⟩
        exact (List.getElem?_append_left (hsep.current_lt href)).trans hlog
  · -- within the window nothing moves but the clock
    rw [if_neg hover]
    have hsep' : ({ s with clockReads := s.clockReads + 1 } : DriftSketch).Separate :=
      ⟨hsep.current_lt, hsep.previous_lt, hsep.current_inj, hsep.apart⟩
    exact ⟨_, run_maybeRotate_young htracks hover, hsep',
      ⟨htracks.current, htracks.previous, htracks.start⟩,
      fun n _ => ⟨rfl, rfl, rfl, fun _ _ => rfl, fun _ _ => rfl⟩, fun n => Iff.rfl, rfl, rfl⟩

/-! ## A new dimension

The first use of a name makes two logs and starts the window. -/

theorem run_getOrCreate_known (h : (s.current.get? name).isSome) :
    (getOrCreate clock cppAvailable settings name).run s = .ok () s := by
  obtain ⟨ref, href⟩ := Option.isSome_iff_exists.mp h
  simp only [getOrCreate, EStateM.run_bind, EStateM.run_get, href, Option.isNone_some,
    Bool.false_eq_true, if_false,
    EStateM.run_pure]

theorem run_getOrCreate_new (hmakes : Makes cppAvailable settings S empty)
    (h : s.current.get? name = none) :
    (getOrCreate clock cppAvailable settings name).run s = .ok ()
      (s.install name [empty, empty] s.logs.length (s.logs.length + 1)
        (clock s.clockReads) s.cusum) := by
  simp only [getOrCreate, EStateM.run_bind, EStateM.run_get, h, Option.isNone_none, if_true,
    run_newLog hmakes,
    EStateM.run_modify, run_monotonicNs, install, List.append_assoc, List.singleton_append,
      List.length_append,
    List.length_singleton]

/-- Without a log there is no dimension. -/
theorem run_getOrCreate_error {e : PyError}
    (hfails : Facade.StreamLog.new cppAvailable settings.config = .error e)
    (h : s.current.get? name = none) : (getOrCreate clock cppAvailable settings name).run s
      = .error e s := by
  unfold Settings.config at hfails
  simp only [getOrCreate, EStateM.run_bind, EStateM.run_get, h, Option.isNone_none, if_true, newLog,
    hfails,
    run_liftExcept_error]

/-- **A new dimension begins with empty windows** at the time of the reading. -/
theorem getOrCreate_tracks (clock : ℕ → ℤ) (M : IndexMapping)
    (hmakes : Makes cppAvailable settings S empty) (hsep : s.Separate)
    (h : s.current.get? name = none) :
    ∃ s', (getOrCreate clock cppAvailable settings name).run s = .ok () s' ∧ s'.Separate
      ∧ Tracks M cppAvailable settings S s' name ⟨clock s.clockReads, [], []⟩
      ∧ (∀ n, n ≠ name → SameDimension s s' n)
      ∧ (∀ n, (s'.current.get? n).isSome ↔ n = name ∨ (s.current.get? n).isSome)
      ∧ s'.eventCounts = s.eventCounts ∧ s'.clockReads = s.clockReads + 1 := by
  have hreplaced := s.replaced_install name s.logs.length (s.logs.length + 1) empty
    (clock s.clockReads) s.cusum
    (by omega) (by omega) (by omega)
  refine ⟨_, run_getOrCreate_new hmakes h, hreplaced.separate hsep, ⟨?_, ?_, Dict.get?_set_self⟩,
    fun n hn => hreplaced.same hsep hn, fun n => hreplaced.isSome, rfl, rfl⟩
  · exact ⟨_, empty, Dict.get?_set_self, getElem?_kept s.logs empty, hmakes.2⟩
  · exact ⟨_, empty, Dict.get?_set_self, getElem?_fresh s.logs empty, hmakes.2⟩

/-! ## Additions

An addition writes to the current log of one dimension and counts what that log has accepted. -/

theorem run_onLog {ref : ℕ} {log : Facade.StreamLog} {x : EStateM PyError Facade.StreamLog Unit}
    (h : s.logs[ref]? = some log) :
    (onLog ref x).run s = match x.run log with
      | .ok a log' => .ok a { s with logs := s.logs.set ref log' }
      | .error e log' => .error e { s with logs := s.logs.set ref log' } := by
  simp only [onLog, EStateM.run_bind, run_logAt h, run_zoom]
  cases x.run log with
  | ok a log' => rfl
  | error e log' => rfl

/-- The number of events of a dimension; those of an unknown one are none. -/
def events (s : DriftSketch) (name : String) : ℤ := (s.eventCounts.get? name).getD 0

/-- Reading a count may enter the name; the counts stay. -/
theorem run_eventCount (s : DriftSketch) (name : String) :
    ∃ eventCounts, (eventCount name).run s = .ok (s.events name) { s with eventCounts := eventCounts }
      ∧ ∀ n', (eventCounts.get? n').getD 0 = s.events n' := by
  cases hcase : s.eventCounts.get? name with
  | some k =>
    refine ⟨s.eventCounts, ?_, fun _ => rfl⟩
    simp only [eventCount, EStateM.run_bind, EStateM.run_get, hcase, EStateM.run_pure, events,
      Option.getD_some]
  | none =>
    refine ⟨s.eventCounts.set name 0, ?_, fun n' => ?_⟩
    · simp only [eventCount, EStateM.run_bind, EStateM.run_get, hcase, EStateM.run_set,
        EStateM.run_pure, events,
        Option.getD_none]
    · rw [Dict.get?_set, events]
      split
      · next heq =>
        rw [heq, hcase]
        rfl
      · rfl

theorem run_countEvents (s : DriftSketch) (name : String) (n : ℤ) :
    ∃ eventCounts, (countEvents name n).run s = .ok () { s with eventCounts := eventCounts }
      ∧ ∀ n', (eventCounts.get? n').getD 0 = s.events n' + if n' = name then n else 0 := by
  obtain ⟨entered, hrun, hentered⟩ := run_eventCount s name
  refine ⟨entered.set name (s.events name + n), ?_, fun n' => ?_⟩
  · simp only [countEvents, EStateM.run_bind, hrun, EStateM.run_modify]
  · rw [Dict.get?_set]
    split
    · next heq =>
      rw [heq]
      rfl
    · rw [hentered, add_zero]

/-- The count of `add`, where at most one event is new. -/
theorem run_countNew (s : DriftSketch) (name : String) (before : ℤ) {k : ℕ} (hk : k ≤ 1) :
    ∃ eventCounts, (if before + k > before then countEvents name 1 else pure () :
      EStateM PyError DriftSketch Unit).run s
        = .ok () { s with eventCounts := eventCounts }
      ∧ ∀ n', (eventCounts.get? n').getD 0 = s.events n' + if n' = name then (k : ℤ) else 0 := by
  by_cases hzero : k = 0
  · refine ⟨s.eventCounts, ?_, fun n' => ?_⟩
    · rw [if_neg (by omega)]
      rfl
    · rw [hzero, Nat.cast_zero, ite_self, add_zero]
      rfl
  · obtain rfl : k = 1 := by omega
    rw [if_pos (by omega)]
    exact run_countEvents s name 1

/-- The current log of a dimension has taken values, and they have been counted. -/
structure Recorded (cppAvailable : Bool) (settings : Settings) (S : Shape) (s s' : DriftSketch)
    (name : String)
    (c : Contents S) (n : ℕ) : Prop where
  log : ∃ ref log', s.current.get? name = some ref ∧ s'.logs = s.logs.set ref log'
    ∧ log'.Held cppAvailable settings.config c
  current : s'.current = s.current
  previous : s'.previous = s.previous
  windowStart : s'.windowStart = s.windowStart
  clockReads : s'.clockReads = s.clockReads
  events : ∀ n', s'.events n' = s.events n' + if n' = name then (n : ℤ) else 0

theorem Recorded.separate {n : ℕ} (h : Recorded cppAvailable settings S s s' name c n)
    (hsep : s.Separate) :
    s'.Separate := by
  obtain ⟨ref, log', -, hlogs, -⟩ := h.log
  have hlength : s'.logs.length = s.logs.length := by rw [hlogs, List.length_set]
  refine ⟨fun hr => ?_, fun hr => ?_, fun hr hr' => ?_, fun hr hr' => ?_⟩
  · rw [h.current] at hr
    exact hlength ▸ hsep.current_lt hr
  · rw [h.previous] at hr
    exact hlength ▸ hsep.previous_lt hr
  · rw [h.current] at hr hr'
    exact hsep.current_inj hr hr'
  · rw [h.current] at hr
    rw [h.previous] at hr'
    exact hsep.apart hr hr'

/-- The write is seen in the current window of its dimension only. -/
theorem Recorded.same {n : ℕ} (h : Recorded cppAvailable settings S s s' name c n) (hsep : s.Separate)
    (hne : name' ≠ name) : SameDimension s s' name' := by
  obtain ⟨ref, log', href, hlogs, -⟩ := h.log
  refine ⟨by rw [h.current], by rw [h.previous], by rw [h.windowStart], fun r hr => ?_, fun r hr => ?_⟩
  · have hr' : ref ≠ r := fun heq => hne (hsep.current_inj hr (heq ▸ href))
    rw [hlogs, List.getElem?_set_ne hr']
  · have hr' : ref ≠ r := fun heq => hsep.apart href (heq ▸ hr)
    rw [hlogs, List.getElem?_set_ne hr']

theorem Recorded.tracks {xs : List ℚ} {n : ℕ}
    (h : Recorded cppAvailable settings S s s' name (contentsOf M S (v.current ++ xs)) n)
    (hsep : s.Separate)
    (htracks : Tracks M cppAvailable settings S s name v) :
    Tracks M cppAvailable settings S s' name (v.record xs) := by
  obtain ⟨ref, log', href, hlogs, hheld⟩ := h.log
  obtain ⟨ref', log, href', hlog, hheld'⟩ := htracks.previous
  have hne : ref ≠ ref' := fun heq => hsep.apart href (heq ▸ href')
  refine ⟨⟨ref, log', by rw [h.current, href], ?_, hheld⟩,
    ⟨ref', log, by rw [h.previous, href'], ?_, hheld'⟩,
    by rw [h.windowStart]; exact htracks.start⟩
  · rw [hlogs, List.getElem?_set_self (hsep.current_lt href)]
  · rw [hlogs, List.getElem?_set_ne hne, hlog]

open DDSketch (finiteValues BatchValid)

theorem add_guarded {log : Facade.StreamLog} (h : log.Held cppAvailable settings.config c)
    (value : PyFloat) :
    Guarded (Facade.StreamLog.add M (.latency value)) log
      (Addition.Valid M S (.latency value) ∧ (c + contentsOf M S (finiteValues [value])).Fits)
      (fun t => t.Held cppAvailable settings.config (c + contentsOf M S (finiteValues [value]))) := by
  have hdelta : Addition.delta M S (.latency value) = contentsOf M S (finiteValues [value]) := by
    cases value with
    | fin x =>
      show (⟨Tally.single M S.alpha x.val, 0, 0⟩ : Contents S)
        = ⟨List.sum [Tally.single M S.alpha x.val], 0, 0⟩
      rw [List.sum_singleton]
    | nan => rfl
    | inf negative => rfl
  rw [← hdelta]
  exact Facade.StreamLog.add_guarded h (.latency value)

theorem addBatch_guarded {log : Facade.StreamLog} (h : log.Held cppAvailable settings.config c)
    (values : List PyFloat) :
    Guarded (Facade.StreamLog.addBatch M values) log
      (BatchValid M S.alpha values ∧ (c + contentsOf M S (finiteValues values)).Fits)
      (fun t => t.Held cppAvailable settings.config (c + contentsOf M S (finiteValues values))) :=
  Facade.StreamLog.dispatch_guarded h And.right
    (fun _ hrep => Sketchlog.StreamLog.ingest_guarded hrep h.valid.fits (.batch values))
    (fun _ hrep => Cpp.StreamLog.ingest_guarded hrep h.valid.fits (.batch values))

/-- A call that adds `xs` to a log, or leaves it. -/
theorem call_cases {log : Facade.StreamLog} {x : EStateM PyError Facade.StreamLog Unit} {P : Prop}
    {xs ys : List ℚ}
    {ref : ℕ} (hlog : s.logs[ref]? = some log)
    (hheld : log.Held cppAvailable settings.config (contentsOf M S ys))
    (h : Guarded x log P fun t =>
      t.Held cppAvailable settings.config (contentsOf M S ys + contentsOf M S xs)) :
    (∃ log', (onLog ref x).run s = .ok () { s with logs := s.logs.set ref log' }
        ∧ log'.Held cppAvailable settings.config (contentsOf M S (ys ++ xs))
        ∧ log'.totalEvents = log.totalEvents + xs.length)
      ∨ ∃ e, (onLog ref x).run s = .error e s := by
  -- a call on one log either records the finite values or leaves the log as it was
  by_cases hP : P
  · obtain ⟨log', hrun, hheld'⟩ := h.run_ok hP
    rw [← contentsOf_append] at hheld'
    refine .inl ⟨log', ?_, hheld', ?_⟩
    · rw [run_onLog hlog, hrun]
    · rw [Facade.StreamLog.totalEvents_eq hheld', Facade.StreamLog.totalEvents_eq hheld,
        total_contentsOf, total_contentsOf, List.length_append]
      exact Nat.cast_add _ _
  · obtain ⟨e, hrun⟩ := h.run_error hP
    refine .inr ⟨e, ?_⟩
    -- writing back the log that was read changes nothing
    have hset : s.logs.set ref log = s.logs := by
      obtain ⟨hlt, rfl⟩ := List.getElem?_eq_some_iff.mp hlog
      exact List.set_getElem_self hlt
    rw [run_onLog hlog, hrun]
    show EStateM.Result.error e { s with logs := s.logs.set ref log } = .error e s
    rw [hset]

section Calls

variable {s₁ s₂ : DriftSketch}

/-- **`add` counts a value that its log takes**; a value that is rejected leaves what the check has
left. -/
theorem add_cases (hcreate : (getOrCreate clock cppAvailable settings name).run s = .ok () s₁)
    (hcheck : (maybeRotate clock M cppAvailable settings name).run s₁ = .ok () s₂)
    (htracks : Tracks M cppAvailable settings S s₂ name v) (value : PyFloat) :
    (∃ s', (add clock M cppAvailable settings name value).run s = .ok () s'
        ∧ Recorded cppAvailable settings S s₂ s' name
          (contentsOf M S (v.current ++ finiteValues [value]))
          (finiteValues [value]).length)
      ∨ ∃ e, (add clock M cppAvailable settings name value).run s = .error e s₂ := by
  obtain ⟨ref, log, href, hlog, hheld⟩ := htracks.current
  -- a rejected value leaves the state of the rotation before it
  obtain ⟨log', hrun, hheld', htotal⟩ | ⟨e, hrun⟩ := call_cases hlog hheld (add_guarded hheld value)
  · have hlog' : ({ s₂ with logs := s₂.logs.set ref log' } : DriftSketch).logs[ref]? = some log' :=
      List.getElem?_set_self (List.getElem?_eq_some_iff.mp hlog).1
    have hone : (finiteValues [value]).length ≤ 1 := List.length_filterMap_le _ _
    obtain ⟨eventCounts, hcount, hevents⟩ :=
      run_countNew { s₂ with logs := s₂.logs.set ref log' } name log.totalEvents hone
    rw [← htotal] at hcount
    refine .inl ⟨{ s₂ with logs := s₂.logs.set ref log', eventCounts := eventCounts }, ?_,
      ⟨ref, log', href, rfl, hheld'⟩, rfl, rfl, rfl, rfl, hevents⟩
    simp only [add, EStateM.run_bind, hcreate, hcheck, EStateM.run_get, run_item href,
      run_logAt hlog, hrun,
      run_logAt hlog', hcount]
  · right
    refine ⟨e, ?_⟩
    simp only [add, EStateM.run_bind, hcreate, hcheck, EStateM.run_get, run_item href,
      run_logAt hlog, hrun]

/-- **`add_batch` counts the finite values of a batch that its log takes.** -/
theorem addBatch_cases (hcreate : (getOrCreate clock cppAvailable settings name).run s = .ok () s₁)
    (hcheck : (maybeRotate clock M cppAvailable settings name).run s₁ = .ok () s₂)
    (htracks : Tracks M cppAvailable settings S s₂ name v) (values : List PyFloat) :
    (∃ s', (addBatch clock M cppAvailable settings name values).run s = .ok () s'
        ∧ Recorded cppAvailable settings S s₂ s' name
          (contentsOf M S (v.current ++ finiteValues values))
          (finiteValues values).length)
      ∨ ∃ e, (addBatch clock M cppAvailable settings name values).run s = .error e s₂ := by
  obtain ⟨ref, log, href, hlog, hheld⟩ := htracks.current
  obtain ⟨log', hrun, hheld', htotal⟩ | ⟨e, hrun⟩ :=
    call_cases hlog hheld (addBatch_guarded hheld values)
  · have hlog' : ({ s₂ with logs := s₂.logs.set ref log' } : DriftSketch).logs[ref]? = some log' :=
      List.getElem?_set_self (List.getElem?_eq_some_iff.mp hlog).1
    have hnew : log'.totalEvents - log.totalEvents = (finiteValues values).length := by
      rw [htotal, add_sub_cancel_left]
    obtain ⟨eventCounts, hcount, hevents⟩ :=
      run_countEvents { s₂ with logs := s₂.logs.set ref log' } name (finiteValues values).length
    refine .inl ⟨{ s₂ with logs := s₂.logs.set ref log', eventCounts := eventCounts }, ?_,
      ⟨ref, log', href, rfl, hheld'⟩, rfl, rfl, rfl, rfl, hevents⟩
    simp only [addBatch, EStateM.run_bind, hcreate, hcheck, EStateM.run_get, run_item href,
      run_logAt hlog, hrun,
      run_logAt hlog', hnew, hcount]
  · right
    refine ⟨e, ?_⟩
    simp only [addBatch, EStateM.run_bind, hcreate, hcheck, EStateM.run_get, run_item href,
      run_logAt hlog, hrun]

end Calls

end DriftSketch

end Sketchlog
