import Sketchlog.Refine.DriftSteps

/-!
# The windows of a `DriftSketch` are aligned

A session is a sketch with what can be seen of it from outside: when each dimension was used first,
and what was accepted, at which times. A value is accepted when the call that brings it returns and
it is finite; its time is that of the rotation check of the call.

The statements of a call that change the sketch before or between its rotation checks are calls
here, too. So the states that a session reaches include those in the middle of a call, before each
of its checks, and it is enough to say what one more check leaves (`windows_aligned`).
-/

namespace Sketchlog

open Imperative TumblingWindow

namespace DriftSketch

open DDSketch (finiteValues)

/-- What can be called. -/
inductive Call where
  | add (dimension : String) (value : PyFloat)
  | addBatch (dimension : String) (values : List PyFloat)
  | drift (threshold : Otel.Float64)
  | correlations (minEvents : ℤ)
  | anomalies
  | summary
  | getOrCreate (dimension : String)
  | eventCount (dimension : String)
  | maybeRotate (dimension : String)

/-- A sketch, the first use of its dimensions, and the values that were accepted. -/
structure Session where
  sketch : DriftSketch
  firstUse : String → ℤ
  accepted : String → List (ℤ × ℚ)

variable (clock : ℕ → ℤ) (M : IndexMapping) (cppAvailable : Bool) (settings : Settings)

/-- The call, without what it returns. -/
def Call.exec : Call → EStateM PyError DriftSketch Unit
  | .add dimension value => DriftSketch.add clock M cppAvailable settings dimension value
  | .addBatch dimension values => DriftSketch.addBatch clock M cppAvailable settings dimension values
  | .drift threshold => do
    let _ ← DriftSketch.drift clock M cppAvailable settings threshold
  | .correlations minEvents => do
    let _ ← DriftSketch.correlations clock M cppAvailable settings minEvents
  | .anomalies => DriftSketch.anomalies clock M cppAvailable settings
  | .summary => do
    let _ ← DriftSketch.summary clock M cppAvailable settings
  | .getOrCreate dimension => DriftSketch.getOrCreate clock cppAvailable settings dimension
  | .eventCount dimension => do
    let _ ← DriftSketch.eventCount dimension
  | .maybeRotate dimension => DriftSketch.maybeRotate clock M cppAvailable settings dimension

/-- The finite values that the call brings for a dimension. -/
def Call.valuesOf : Call → String → List ℚ
  | .add dimension value, name => if name = dimension then finiteValues [value] else []
  | .addBatch dimension values, name => if name = dimension then finiteValues values else []
  | _, _ => []

/-- The first use of the dimensions after a call: one that comes in with the call is used at its
first reading. -/
def Session.usesNext (h : Session) (name : String) : ℤ :=
  if (h.sketch.current.get? name).isSome then h.firstUse name else clock h.sketch.clockReads

/-- One call. The check of a call that brings values is its last reading. -/
def Session.step (h : Session) (call : Call) : Session :=
  match (call.exec clock M cppAvailable settings).run h.sketch with
  | .ok _ sketch =>
    { sketch := sketch
      firstUse := h.usesNext clock
      accepted := fun name => h.accepted name ++ (call.valuesOf name).map fun x =>
        (clock (sketch.clockReads - 1), x) }
  | .error _ sketch => { h with sketch := sketch, firstUse := h.usesNext clock }

/-- The session after some calls. -/
def Session.after (calls : List Call) : Session :=
  calls.foldl (Session.step clock M cppAvailable settings) ⟨.new, fun _ => 0, fun _ => []⟩

/-- The logs of a dimension are aligned windows of what was accepted, as of the time `asOf`. -/
def Session.WindowedAt (h : Session) (name : String) (asOf : ℤ) : Prop :=
  ∃ S empty, Makes cppAvailable settings S empty ∧ ∃ v, Tracks M cppAvailable settings S h.sketch name v
    ∧ v.Aligned settings.windowNs (h.firstUse name) (h.accepted name) asOf ∧ ∀ x ∈ h.accepted name,
      x.1 ≤ asOf

/-- What every call keeps. -/
structure Session.Inv (h : Session) : Prop where
  separate : h.sketch.Separate
  windowed : ∀ name, (h.sketch.current.get? name).isSome →
    ∃ asOf, h.WindowedAt M cppAvailable settings name asOf ∧ asOf ≤ clock h.sketch.clockReads
  unused : ∀ name, h.sketch.current.get? name = none → h.accepted name = []
    ∧ h.sketch.windowStart.get? name = none
  events : ∀ name, h.sketch.events name = (h.accepted name).length

variable {clock M cppAvailable settings} {h : Session} {s s' : DriftSketch} {name name' : String}
    {asOf : ℤ}

/-- A dimension that is as it was. -/
theorem Session.WindowedAt.of_same (hw : h.WindowedAt M cppAvailable settings name asOf)
    (hsame : SameDimension h.sketch s' name) :
    { h with sketch := s' }.WindowedAt M cppAvailable settings name asOf := by
  obtain ⟨S, empty, hmakes, v, htracks, haligned, hpast⟩ := hw
  exact ⟨S, empty, hmakes, v, htracks.of_same hsame, haligned, hpast⟩

/-! ## The parts of a call

Rotation, first use and recording each keep the invariant of a session. -/

/-- **A rotation check of a known dimension** aligns its windows as of the reading. -/
theorem Session.Inv.check (hclock : Monotone clock) (hinv : h.Inv clock M cppAvailable settings)
    (hname : (h.sketch.current.get? name).isSome) :
    ∃ s', (DriftSketch.maybeRotate clock M cppAvailable settings name).run h.sketch = .ok () s'
      ∧ { h with sketch := s' }.Inv clock M cppAvailable settings
      ∧ { h with sketch := s' }.WindowedAt M cppAvailable settings name (clock h.sketch.clockReads)
      ∧ (∀ n, (s'.current.get? n).isSome ↔ (h.sketch.current.get? n).isSome)
      ∧ s'.clockReads = h.sketch.clockReads + 1 := by
  obtain ⟨asOf, ⟨S, empty, hmakes, v, htracks, haligned, hpast⟩, hle⟩ := hinv.windowed name hname
  obtain ⟨s', hrun, hsep, htracks', hothers, hsome, hevents, hreads⟩ :=
    maybeRotate_tracks clock hmakes hinv.separate htracks
  have hpos : (0 : ℤ) < settings.windowNs := by exact_mod_cast settings.window_pos
  -- the windows of `name` are aligned with the reading just taken
  have hat : { h with sketch := s' }.WindowedAt M cppAvailable settings name
    (clock h.sketch.clockReads) :=
    ⟨S, empty, hmakes, _, htracks', haligned.rotate hpos hpast hle, fun x hx => (hpast x hx).trans hle⟩
  have hlater : clock h.sketch.clockReads ≤ clock s'.clockReads := hclock (by omega)
  -- every other dimension kept its windows and an earlier reading
  refine ⟨s', hrun, ⟨hsep, fun n hn => ?_, fun n hn => ?_, fun n => ?_⟩, hat, hsome, hreads⟩
  · by_cases hne : n = name
    · subst hne
      exact ⟨_, hat, hlater⟩
    · obtain ⟨asOf', hwindowed, hle'⟩ := hinv.windowed n ((hsome n).mp hn)
      exact ⟨asOf', hwindowed.of_same (hothers n hne), hle'.trans hlater⟩
  · -- a dimension without a log still has none
    have hold : h.sketch.current.get? n = none := by
      rw [← Option.not_isSome_iff_eq_none] at hn ⊢
      exact fun hsome' => hn ((hsome n).mpr hsome')
    have hne : n ≠ name := by
      rintro rfl
      rw [hold] at hname
      cases hname
    obtain ⟨haccepted, hstart⟩ := hinv.unused n hold
    exact ⟨haccepted, (hothers n hne).start.trans hstart⟩
  · show s'.events n = _
    rw [DriftSketch.events, hevents]
    exact hinv.events n

/-- First uses matter for the dimensions that are there. -/
theorem Session.Inv.usesNext (hinv : h.Inv clock M cppAvailable settings) :
    { h with firstUse := h.usesNext clock }.Inv clock M cppAvailable settings := by
  refine ⟨hinv.separate, fun n hn => ?_, hinv.unused, hinv.events⟩
  obtain ⟨asOf, ⟨S, empty, hmakes, v, htracks, haligned, hpast⟩, hle⟩ := hinv.windowed n hn
  have hsame : h.usesNext clock n = h.firstUse n := if_pos hn
  refine ⟨asOf, ⟨S, empty, hmakes, v, htracks, ?_, hpast⟩, hle⟩
  show v.Aligned settings.windowNs (h.usesNext clock n) (h.accepted n) asOf
  rw [hsame]
  exact haligned

/-- **A name is known after `_get_or_create`**, if it returns; if not, nothing has happened. -/
theorem Session.Inv.touch (hclock : Monotone clock) (hinv : h.Inv clock M cppAvailable settings)
    (name : String) :
    (∃ s', (DriftSketch.getOrCreate clock cppAvailable settings name).run h.sketch = .ok () s'
        ∧ { h with sketch := s', firstUse := h.usesNext clock }.Inv clock M cppAvailable settings
        ∧ (s'.current.get? name).isSome)
      ∨ ∃ e, (DriftSketch.getOrCreate clock cppAvailable settings name).run h.sketch
        = .error e h.sketch := by
  -- a known dimension is not touched; an unknown one gets two empty windows
  by_cases hname : (h.sketch.current.get? name).isSome
  · exact .inl ⟨h.sketch, run_getOrCreate_known hname, hinv.usesNext, hname⟩
  rw [Option.not_isSome_iff_eq_none] at hname
  cases hnew : Facade.StreamLog.new cppAvailable settings.config with
  | error e => exact .inr ⟨e, run_getOrCreate_error hnew hname⟩
  | ok empty =>
    left
    obtain ⟨S, hheld⟩ := Facade.StreamLog.held_new hnew
    have hmakes : Makes cppAvailable settings S empty := ⟨hnew, hheld⟩
    obtain ⟨s', hrun, hsep, htracks, hothers, hsome, hevents, hreads⟩ :=
      getOrCreate_tracks clock M hmakes hinv.separate hname
    have hlater : clock h.sketch.clockReads ≤ clock s'.clockReads := hclock (by omega)
    refine ⟨s', hrun, ⟨hsep, fun n hn => ?_, fun n hn => ?_, fun n => ?_⟩, (hsome name).mpr (.inl rfl)⟩
    · by_cases hne : n = name
      · subst hne
        -- a dimension first used now has accepted nothing yet
        have huse : h.usesNext clock n = clock h.sketch.clockReads := if_neg (by rw [hname]; decide)
        have hnone : h.accepted n = [] := (hinv.unused n hname).1
        have hpos : (0 : ℤ) < settings.windowNs := by exact_mod_cast settings.window_pos
        refine ⟨clock h.sketch.clockReads, ⟨S, empty, hmakes, _, htracks, ?_, ?_⟩, hlater⟩
        · show Windows.Aligned settings.windowNs (h.usesNext clock n) (h.accepted n) _ _
          rw [huse, hnone]
          exact Windows.aligned_new hpos _
        · show ∀ x ∈ h.accepted n, _
          rw [hnone]
          exact fun x hx => absurd hx List.not_mem_nil
      · have hknown : (h.sketch.current.get? n).isSome := ((hsome n).mp hn).resolve_left hne
        obtain ⟨asOf, hwindowed, hle⟩ := hinv.usesNext.windowed n hknown
        exact ⟨asOf, hwindowed.of_same (hothers n hne), hle.trans hlater⟩
    · -- a dimension that is unknown after the step was unknown before
      rw [← Option.not_isSome_iff_eq_none] at hn
      have hold : h.sketch.current.get? n = none := by
        rw [← Option.not_isSome_iff_eq_none]
        exact fun hsome' => hn ((hsome n).mpr (.inr hsome'))
      have hne : n ≠ name := fun heq => hn ((hsome n).mpr (.inl heq))
      obtain ⟨haccepted, hstart⟩ := hinv.unused n hold
      exact ⟨haccepted, (hothers n hne).start.trans hstart⟩
    · show s'.events n = _
      rw [DriftSketch.events, hevents]
      exact hinv.events n

/-- **Values that the current log takes at the time of the check** are accepted. -/
theorem Session.Inv.record {S : Shape} {empty : Facade.StreamLog} {v : Windows ℚ} {xs : List ℚ}
    (hinv : h.Inv clock M cppAvailable settings) (hmakes : Makes cppAvailable settings S empty)
    (htracks : Tracks M cppAvailable settings S h.sketch name v)
    (haligned : v.Aligned settings.windowNs (h.firstUse name) (h.accepted name) asOf)
    (hpast : ∀ x ∈ h.accepted name, x.1 ≤ asOf) (hle : asOf ≤ clock h.sketch.clockReads)
    (hrec : Recorded cppAvailable settings S h.sketch s' name (contentsOf M S (v.current ++ xs))
      xs.length) :
    Session.Inv clock M cppAvailable settings
      ⟨s', h.firstUse,
        fun n => h.accepted n ++ (if n = name then xs else []).map fun x => (asOf, x)⟩ := by
  have hname : (h.sketch.current.get? name).isSome := by
    obtain ⟨ref, log, href, -⟩ := htracks.current
    rw [href]
    rfl
  have hclock : clock h.sketch.clockReads = clock s'.clockReads := by rw [hrec.clockReads]
  refine ⟨hrec.separate hinv.separate, fun n hn => ?_, fun n hn => ?_, fun n => ?_⟩
  · -- the values belong to `name` alone; elsewhere the list of accepted values is as it was
    by_cases hne : n = name
    · subst hne
      refine ⟨asOf, ⟨S, empty, hmakes, _, hrec.tracks hinv.separate htracks, ?_, ?_⟩,
        hle.trans hclock.le⟩
      · show Windows.Aligned _ _ (h.accepted n ++ (if n = n then xs else []).map fun x => (asOf, x)) _ _
        rw [if_pos rfl]
        exact haligned.record xs
      · intro x hx
        obtain hold | hnew := List.mem_append.mp hx
        · exact hpast x hold
        · obtain ⟨_, -, rfl⟩ := List.mem_map.mp hnew
          exact le_rfl
    · rw [hrec.current] at hn
      obtain ⟨asOf', hwindowed, hle'⟩ := hinv.windowed n hn
      obtain ⟨S', empty', hmakes', v', htracks', haligned', hpast'⟩ :=
        hwindowed.of_same (hrec.same hinv.separate hne)
      refine ⟨asOf', ⟨S', empty', hmakes', v', htracks', ?_, ?_⟩, hle'.trans hclock.le⟩
      · show Windows.Aligned _ _
          (h.accepted n ++ (if n = name then xs else []).map fun x => (asOf, x)) _ _
        rw [if_neg hne, List.map_nil, List.append_nil]
        exact haligned'
      · show ∀ x ∈ h.accepted n ++ (if n = name then xs else []).map fun x => (asOf, x), _
        rw [if_neg hne, List.map_nil, List.append_nil]
        exact hpast'
  · rw [hrec.current] at hn
    have hne : n ≠ name := by
      rintro rfl
      rw [hn] at hname
      cases hname
    obtain ⟨haccepted, hstart⟩ := hinv.unused n hn
    refine ⟨?_, by rw [hrec.windowStart]; exact hstart⟩
    show h.accepted n ++ (if n = name then xs else []).map (fun x => (asOf, x)) = []
    rw [if_neg hne, haccepted]
    rfl
  · show s'.events n
      = ((h.accepted n ++ (if n = name then xs else []).map fun x => (asOf, x)).length : ℕ)
    rw [hrec.events n, hinv.events n, List.length_append, List.length_map, Nat.cast_add]
    by_cases hne : n = name
    · rw [if_pos hne, if_pos hne]
    · rw [if_neg hne, if_neg hne]
      rfl

/-! ## Reports

A report is a loop of checks and reads, so it keeps the invariant as each of them does. -/

/-- A state in the middle of a report: the dimensions are the same, and nothing is accepted. -/
structure Session.Keeps (clock : ℕ → ℤ) (M : IndexMapping) (cppAvailable : Bool)
    (settings : Settings) (h : Session)
    (s : DriftSketch) : Prop where
  inv : { h with sketch := s }.Inv clock M cppAvailable settings
  known : ∀ n, (s.current.get? n).isSome ↔ (h.sketch.current.get? n).isSome

theorem Session.maintains_check (hclock : Monotone clock) (hname : name ∈ h.sketch.current.keys) :
    Maintains (h.Keeps clock M cppAvailable settings)
      (DriftSketch.maybeRotate clock M cppAvailable settings name) := by
  intro s hkeeps
  have hknown := (hkeeps.known name).mpr (Dict.get?_isSome_iff.mpr hname)
  obtain ⟨s', hrun, hinv, -, hsome, -⟩ := hkeeps.inv.check hclock hknown
  exact ⟨(), s', hrun, hinv, fun n => (hsome n).trans (hkeeps.known n)⟩

theorem Session.maintains_reading (hname : name ∈ h.sketch.current.keys) :
    Maintains (h.Keeps clock M cppAvailable settings) (DriftSketch.reading M name) := by
  intro s hkeeps
  have hknown := (hkeeps.known name).mpr (Dict.get?_isSome_iff.mpr hname)
  obtain ⟨_, ⟨S, empty, -, v, htracks, -⟩, -⟩ := hkeeps.inv.windowed name hknown
  obtain ⟨reading, hrun⟩ := run_reading htracks
  exact ⟨reading, s, hrun, hkeeps⟩

theorem Session.maintains_eventCount (name : String) :
    Maintains (h.Keeps clock M cppAvailable settings) (DriftSketch.eventCount name) := by
  rintro s ⟨⟨hsep, hwindowed, hunused, hcounts⟩, hknown⟩
  obtain ⟨eventCounts, hrun, hevents⟩ := run_eventCount s name
  refine ⟨_, { s with eventCounts := eventCounts }, hrun, ⟨?_, fun n hn => ?_, hunused, fun n =>
    ?_⟩, hknown⟩
  · exact ⟨hsep.current_lt, hsep.previous_lt, hsep.current_inj, hsep.apart⟩
  · obtain ⟨asOf, ⟨S, empty, hmakes, v, htracks, haligned, hpast⟩, hle⟩ := hwindowed n hn
    exact ⟨asOf, ⟨S, empty, hmakes, v, ⟨htracks.current, htracks.previous, htracks.start⟩, haligned,
      hpast⟩, hle⟩
  · exact (hevents n).trans (hcounts n)

/-- The calls that report. -/
def Call.Reports : Call → Prop
  | .drift _ | .correlations _ | .anomalies | .summary => True
  | _ => False

/-- **A report returns**, and leaves a state of the session. -/
theorem Session.Inv.report (hclock : Monotone clock) (hinv : h.Inv clock M cppAvailable settings)
    {call : Call}
    (hcall : call.Reports) :
    ∃ s', (call.exec clock M cppAvailable settings).run h.sketch = .ok () s'
      ∧ h.Keeps clock M cppAvailable settings s' := by
  have hself : h.Keeps clock M cppAvailable settings h.sketch := ⟨hinv, fun _ => Iff.rfl⟩
  -- a report checks the dimensions one after another and changes nothing else
  cases call with
  | anomalies =>
    obtain ⟨_, s', hrun, hkeeps⟩ :=
      Maintains.forM (fun _ => Session.maintains_check (M := M) hclock) h.sketch hself
    exact ⟨s', hrun, hkeeps⟩
  | drift threshold =>
    have hrounds : Maintains (h.Keeps clock M cppAvailable settings)
      (h.sketch.current.keys.mapM fun name => do
        DriftSketch.maybeRotate clock M cppAvailable settings name
        let reading ← DriftSketch.reading M name
        pure (reading.result? threshold name)) := by
      apply Maintains.mapM
      intro name hname
      exact (Session.maintains_check hclock hname).bind fun _ =>
        (Session.maintains_reading hname).bind fun reading => .pure _
    obtain ⟨_, s', hrun, hkeeps⟩ := hrounds h.sketch hself
    refine ⟨s', ?_, hkeeps⟩
    simp only [Call.exec, DriftSketch.drift, EStateM.run_bind, EStateM.run_get, hrun, EStateM.run_pure]
  | correlations minEvents =>
    have hrounds : Maintains (h.Keeps clock M cppAvailable settings)
      (h.sketch.current.keys.mapM fun name => do
        let events ← DriftSketch.eventCount name
        if events < minEvents then pure none
        else do
          DriftSketch.maybeRotate clock M cppAvailable settings name
          let reading ← DriftSketch.reading M name
          if reading.currCount = 0 ∨ reading.prevCount = 0 then pure none
          else if 0 < reading.prevP99.val then pure (some (name, reading.ratio))
          else pure none) := by
      apply Maintains.mapM
      intro name hname
      refine (Session.maintains_eventCount name).bind fun events => .ite (.pure _) ?_
      exact (Session.maintains_check hclock hname).bind fun _ =>
        (Session.maintains_reading hname).bind fun reading => .ite (.pure _) (.ite (.pure _) (.pure _))
    obtain ⟨_, s', hrun, hkeeps⟩ := hrounds h.sketch hself
    refine ⟨s', ?_, hkeeps⟩
    simp only [Call.exec, DriftSketch.correlations, EStateM.run_bind, EStateM.run_get, hrun,
      EStateM.run_pure]
  | summary =>
    have hrounds : Maintains (h.Keeps clock M cppAvailable settings)
        ((h.sketch.current.keys.mergeSort (· ≤ ·)).mapM fun name => do
          DriftSketch.maybeRotate clock M cppAvailable settings name
          let events ← DriftSketch.eventCount name
          let reading ← DriftSketch.reading M name
          pure (⟨name, events, Alerts.roundTo 4 (.fin reading.currP99),
            Alerts.roundTo 4 (.fin reading.prevP99)⟩ : Metric)) := by
      apply Maintains.mapM
      intro name hname
      have hname' : name ∈ h.sketch.current.keys := List.mem_mergeSort.mp hname
      exact (Session.maintains_check hclock hname').bind fun _ =>
        (Session.maintains_eventCount name).bind fun events =>
        (Session.maintains_reading hname').bind fun reading => .pure _
    obtain ⟨_, s', hrun, hkeeps⟩ := hrounds h.sketch hself
    refine ⟨s', ?_, hkeeps⟩
    simp only [Call.exec, DriftSketch.summary, EStateM.run_bind, EStateM.run_get, hrun,
      EStateM.run_pure]
  | _ => exact hcall.elim

/-! ## Runs

By induction over the calls of a session, which read the clock as often as they need. -/

/-- The clock goes on. -/
theorem Session.Inv.later (hclock : Monotone clock) (hinv : h.Inv clock M cppAvailable settings) :
    { h with sketch := { h.sketch with clockReads := h.sketch.clockReads + 1 } }.Inv clock M
      cppAvailable settings := by
  refine ⟨?_, fun n hn => ?_, hinv.unused, hinv.events⟩
  · exact ⟨hinv.separate.current_lt, hinv.separate.previous_lt, hinv.separate.current_inj,
      hinv.separate.apart⟩
  · obtain ⟨asOf, hwindowed, hle⟩ := hinv.windowed n hn
    exact ⟨asOf, hwindowed.of_same ⟨rfl, rfl, rfl, fun _ _ => rfl, fun _ _ => rfl⟩,
      hle.trans (hclock (Nat.le_succ _))⟩

/-- A call that brings values: the two statements it begins with, and then the values are taken or
not. -/
theorem Session.Inv.bring (hclock : Monotone clock) (hinv : h.Inv clock M cppAvailable settings)
    {call : Call}
    {xs : List ℚ} (hvalues : ∀ n, call.valuesOf n = if n = name then xs else [])
    (hfails : ∀ e, (DriftSketch.getOrCreate clock cppAvailable settings name).run h.sketch
      = .error e h.sketch →
      (call.exec clock M cppAvailable settings).run h.sketch = .error e h.sketch)
    (hcases : ∀ s₁ s₂ S v, (DriftSketch.getOrCreate clock cppAvailable settings name).run h.sketch
      = .ok () s₁ →
      (DriftSketch.maybeRotate clock M cppAvailable settings name).run s₁ = .ok () s₂ →
      Tracks M cppAvailable settings S s₂ name v →
      (∃ s', (call.exec clock M cppAvailable settings).run h.sketch = .ok () s'
          ∧ Recorded cppAvailable settings S s₂ s' name (contentsOf M S (v.current ++ xs)) xs.length)
        ∨ ∃ e, (call.exec clock M cppAvailable settings).run h.sketch = .error e s₂) :
    (h.step clock M cppAvailable settings call).Inv clock M cppAvailable settings := by
  unfold Session.step
  -- the call creates, rotates, and then records or fails
  obtain ⟨s₁, hcreate, hinv₁, hname⟩ | ⟨e, herror⟩ := hinv.touch hclock name
  · obtain ⟨s₂, hcheck, hinv₂, ⟨S, empty, hmakes, v, htracks, haligned, hpast⟩, -, hreads⟩ :=
      hinv₁.check hclock hname
    have hreads₂ : s₂.clockReads = s₁.clockReads + 1 := hreads
    obtain ⟨s', hrun, hrec⟩ | ⟨e, hrun⟩ := hcases s₁ s₂ S v hcreate hcheck htracks
    · rw [hrun]
      -- the time of the call is the reading the rotation took
      have htime : clock (s'.clockReads - 1) = clock s₁.clockReads := by
        rw [hrec.clockReads, hreads₂, Nat.add_sub_cancel]
      have hle : clock s₁.clockReads ≤ clock s₂.clockReads := hclock (by omega)
      have hrecorded := hinv₂.record hmakes htracks haligned hpast hle hrec
      simp only [hvalues, htime]
      exact hrecorded
    · rw [hrun]
      exact hinv₂
  · rw [hfails e herror]
    exact hinv.usesNext

/-- **Every call keeps the windows aligned.** -/
theorem Session.Inv.step (hclock : Monotone clock) (hinv : h.Inv clock M cppAvailable settings)
    (call : Call) :
    (h.step clock M cppAvailable settings call).Inv clock M cppAvailable settings := by
  have hreport : call.Reports → (h.step clock M cppAvailable settings call).Inv clock M cppAvailable
    settings := by
    intro hcall
    obtain ⟨s', hrun, hkeeps⟩ := hinv.usesNext.report hclock hcall
    have hnone : ∀ n, call.valuesOf n = [] := fun n => by cases call <;> first | rfl | exact hcall.elim
    unfold Session.step
    rw [hrun]
    simp only [hnone, List.map_nil, List.append_nil]
    exact hkeeps.inv
  cases call with
  | add dimension value =>
    refine hinv.bring hclock (fun _ => rfl) (fun e herror => ?_)
      fun s₁ s₂ S v hcreate hcheck htracks => ?_
    · simp only [Call.exec, DriftSketch.add, EStateM.run_bind, herror]
    · exact add_cases hcreate hcheck htracks value
  | addBatch dimension values =>
    refine hinv.bring hclock (fun _ => rfl) (fun e herror => ?_)
      fun s₁ s₂ S v hcreate hcheck htracks => ?_
    · simp only [Call.exec, DriftSketch.addBatch, EStateM.run_bind, herror]
    · exact addBatch_cases hcreate hcheck htracks values
  | drift threshold => exact hreport trivial
  | correlations minEvents => exact hreport trivial
  | anomalies => exact hreport trivial
  | summary => exact hreport trivial
  | getOrCreate dimension =>
    unfold Session.step
    obtain ⟨s', hrun, hinv', -⟩ | ⟨e, hrun⟩ := hinv.touch hclock dimension
    · simp only [Call.exec, hrun, Call.valuesOf, List.map_nil, List.append_nil]
      exact hinv'
    · simp only [Call.exec, hrun]
      exact hinv.usesNext
  | eventCount dimension =>
    unfold Session.step
    have hself : Session.Keeps clock M cppAvailable settings { h with firstUse := h.usesNext clock }
      h.sketch :=
      ⟨hinv.usesNext, fun _ => Iff.rfl⟩
    obtain ⟨_, s', hrun, hkeeps⟩ := Session.maintains_eventCount dimension h.sketch hself
    simp only [Call.exec, EStateM.run_bind, hrun, EStateM.run_pure, Call.valuesOf, List.map_nil,
      List.append_nil]
    exact hkeeps.inv
  | maybeRotate dimension =>
    unfold Session.step
    by_cases hname : (h.sketch.current.get? dimension).isSome
    · obtain ⟨s', hrun, hinv', -⟩ := hinv.usesNext.check hclock hname
      simp only [Call.exec, hrun, Call.valuesOf, List.map_nil, List.append_nil]
      exact hinv'
    · -- a dimension that is not there has no start
      rw [Option.not_isSome_iff_eq_none] at hname
      have hrun : (DriftSketch.maybeRotate clock M cppAvailable settings dimension).run h.sketch
          = .error (.keyError ("'" ++ dimension ++ "'"))
            { h.sketch with clockReads := h.sketch.clockReads + 1 } := by
        simp only [DriftSketch.maybeRotate, EStateM.run_bind, run_monotonicNs, EStateM.run_get, item,
          (hinv.unused dimension hname).2, run_liftExcept_error]
      simp only [Call.exec, hrun]
      exact hinv.usesNext.later hclock

theorem Session.inv_after (hclock : Monotone clock) (calls : List Call) :
    (Session.after clock M cppAvailable settings calls).Inv clock M cppAvailable settings := by
  have hrun : ∀ h : Session, h.Inv clock M cppAvailable settings →
      (calls.foldl (Session.step clock M cppAvailable settings) h).Inv clock M cppAvailable
        settings := by
    induction calls with
    | nil => exact fun h hinv => hinv
    | cons call calls ih => exact fun h hinv => ih _ (hinv.step hclock call)
  apply hrun
  have hnone : ∀ name, (∅ : Dict String ℕ).get? name = none := fun _ => rfl
  refine ⟨⟨?_, ?_, ?_, ?_⟩, ?_, fun _ _ => ⟨rfl, rfl⟩, fun _ => rfl⟩
  · exact fun h => nomatch h
  · exact fun h => nomatch h
  · exact fun h => nomatch h
  · exact fun h => nomatch h
  · exact fun name h => nomatch h

/-- A session that some calls lead to. -/
def Session.Reached (clock : ℕ → ℤ) (M : IndexMapping) (cppAvailable : Bool) (settings : Settings)
    (h : Session) :
    Prop :=
  ∃ calls, Session.after clock M cppAvailable settings calls = h

/-- **Window alignment.** After any calls, a rotation check of a dimension returns, and leaves the
window of the grid that the clock stands in: its current log holds what was accepted in this window,
its previous log what was accepted in the window before, and its events are all that was ever
accepted. -/
theorem windows_aligned (hclock : Monotone clock) (hreached : h.Reached clock M cppAvailable settings)
    (hname : (h.sketch.current.get? name).isSome) :
    ∃ s' start S, (maybeRotate clock M cppAvailable settings name).run h.sketch = .ok () s'
      ∧ s'.windowStart.get? name = some start
      ∧ (∃ k : ℕ, start = h.firstUse name + k * settings.windowNs)
      ∧ start ≤ clock h.sketch.clockReads ∧ clock h.sketch.clockReads < start + settings.windowNs
      ∧ HoldsAt cppAvailable settings s' s'.current name
          (contentsOf M S (during (h.accepted name) start (start + settings.windowNs)))
      ∧ HoldsAt cppAvailable settings s' s'.previous name
          (contentsOf M S (during (h.accepted name) (start - settings.windowNs) start))
      ∧ s'.events name = (h.accepted name).length := by
  obtain ⟨calls, rfl⟩ := hreached
  obtain ⟨s', hrun, hinv, ⟨S, empty, -, v, htracks, haligned, -⟩, -⟩ :=
    (Session.inv_after (M := M) hclock calls).check hclock hname
  refine ⟨s', v.start, S, hrun, htracks.start, haligned.start, haligned.start_le, haligned.lt_end,
    ?_, ?_,
    hinv.events name⟩
  · rw [← haligned.current]
    exact htracks.current
  · rw [← haligned.previous]
    exact htracks.previous

/-- Windows of ten nanoseconds. -/
def tenNs : Settings := ⟨10, by decide, ⟨.fin Binary64.half, 4, 2, 1, false⟩⟩

/-- Three additions, of which the first falls into one window and the others into the next. -/
def threeAdds : Session :=
  Session.after (fun i => 6 * i) .ternary false tenNs
    [.add "cpu" (.fin (.ofInt 1 Binary64.abs_one_lt)),
      .add "cpu" (.fin (.ofInt 3 Binary64.abs_three_lt)),
      .add "cpu" (.fin (.ofInt 1 Binary64.abs_one_lt))]

/-- The next check, at 24 ns, rotates: the two later additions are the previous window. -/
theorem windows_aligned_threeAdds : ∃ s' S,
    (maybeRotate (fun i => 6 * (i : ℤ)) .ternary false tenNs "cpu").run threeAdds.sketch = .ok () s'
      ∧ s'.windowStart.get? "cpu" = some 20
      ∧ HoldsAt false tenNs s' s'.current "cpu" (contentsOf .ternary S [])
      ∧ HoldsAt false tenNs s' s'.previous "cpu" (contentsOf .ternary S [3, 1])
      ∧ s'.events "cpu" = 3 := by
  have hclock : Monotone fun i : ℕ => 6 * (i : ℤ) :=
    fun _ _ h => mul_le_mul_of_nonneg_left (Int.ofNat_le.mpr h) (by norm_num)
  have hreached : threeAdds.Reached (fun i => 6 * (i : ℤ)) .ternary false tenNs := ⟨_, rfl⟩
  have hknown : (threeAdds.sketch.current.get? "cpu").isSome := by decide +kernel
  obtain ⟨s', start, S, hrun, hstart, ⟨k, hk⟩, hle, hlt, hcurrent, hprevious, hevents⟩ :=
    windows_aligned hclock hreached hknown
  have hfirst : threeAdds.firstUse "cpu" = 0 := by decide +kernel
  have hreads : threeAdds.sketch.clockReads = 4 := by decide +kernel
  have haccepted : threeAdds.accepted "cpu" = [(6, 1), (12, 3), (18, 1)] := by decide +kernel
  -- the reading at 24 falls into the window that starts at 20
  have hwindow : tenNs.windowNs = 10 := rfl
  rw [hfirst, hwindow] at hk
  rw [hreads] at hle hlt
  rw [hwindow] at hlt
  have hstart' : start = 20 := by omega
  rw [haccepted, hstart', hwindow] at hcurrent hprevious
  rw [haccepted] at hevents
  refine ⟨s', S, hrun, hstart' ▸ hstart, ?_, ?_, hevents⟩
  · -- nothing was accepted since 20, and two values in the ten before
    have hduring : during [(6, (1 : ℚ)), (12, 3), (18, 1)] 20 (20 + (10 : ℕ)) = [] := by
      decide +kernel
    rwa [hduring] at hcurrent
  · have hduring : during [(6, (1 : ℚ)), (12, 3), (18, 1)] (20 - (10 : ℕ)) 20 = [3, 1] := by
      decide +kernel
    rwa [hduring] at hprevious

end DriftSketch

end Sketchlog
