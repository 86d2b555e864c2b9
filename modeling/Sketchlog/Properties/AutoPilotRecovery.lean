import Sketchlog.Properties.AlertIsolation

/-!
# Recoveries of an autopilot rule

An `AutoPilotRule` keeps one state for each dimension. A rule for one dimension looks at it in every
evaluation, with or without an entry in the drift report; a rule for all dimensions looks at those
that the report has. So a dimension that drops out of the report keeps its state: where it was
firing it goes on firing, with no recovery. The wildcard recovers in a run exactly when no dimension
that is not `OK` is missing from a report (`autoPilot_recovers_iff`).
-/

namespace Sketchlog.Alerts

open Otel Runs

/-! ## The dimensions of an evaluation

A wildcard rule runs over the dimensions of the report, any other rule over its own if it is there.
Each dimension has a state of its own. -/

/-- `PENDING` and `FIRING` come with a violation count. -/
theorem AlertState.status_advance (state : AlertState) (violating : Bool) (k : ℕ) (time : Float64) :
    (state.advance violating k time).1.status = .ok
      ↔ (state.advance violating k time).1.violationCount = 0 := by
  cases violating with
  | false => simp [AlertState.advance]
  | true =>
    unfold AlertState.advance
    simp only [if_true]
    split
    · split
      · simp
      · split <;> simp
    · simp

/-- `update` is about the statistics. -/
theorem CUSUMState.toAlertState_update (state : CUSUMState) (x : Float64) (sensitivity : Binary64) :
    (state.update x sensitivity).1.toAlertState = state.toAlertState := by
  unfold CUSUMState.update
  dsimp only
  rw [apply_ite Prod.fst, apply_ite CUSUMState.toAlertState]
  exact ite_self _

namespace AutoPilotRule

variable {rule : AutoPilotRule} {driftMap : Dict String DriftResult} {time : Float64}

/-- The state of a dimension, `CUSUMState()` where there is none. -/
def stateOf (states : Dict String CUSUMState) (dim : String) : CUSUMState := (states.get? dim).getD {}

/-- A dimension's state after an evaluation that reports `result`, and what is queued. -/
def outcome (rule : AutoPilotRule) (time : Float64) (state : CUSUMState) (result : Option DriftResult) :
    CUSUMState × Option Bool :=
  let judged := rule.isViolating state result
  let next := judged.1.toAlertState.advance judged.2 rule.sustainedWindows time
  ({ judged.1 with toAlertState := next.1 }, next.2)

theorem evaluateDim_eq (states : Dict String CUSUMState) (dim : String) :
    rule.evaluateDim driftMap time states dim
      = (states.set dim (rule.outcome time (stateOf states dim) (driftMap.get? dim)).1,
          (rule.outcome time (stateOf states dim) (driftMap.get? dim)).2.toList.map
            (⟨.autoPilot rule, driftMap.get? dim, ·⟩)) := rfl

theorem stateOf_set (states : Dict String CUSUMState) (dim dim' : String) (state : CUSUMState) :
    stateOf (states.set dim state) dim' = if dim' = dim then state else stateOf states dim' := by
  unfold stateOf
  rw [Dict.get?_set]
  split <;> rfl

/-- The dimensions that are not evaluated keep their states. -/
theorem stateOf_evaluateDims_of_notMem {dims : List String} {dim : String} (hdim : dim ∉ dims)
    (states : Dict String CUSUMState) :
    stateOf (rule.evaluateDims driftMap time dims states).1 dim = stateOf states dim := by
  induction dims generalizing states with
  | nil => rfl
  | cons d dims ih =>
    obtain ⟨hne, hdims⟩ := not_or.mp (fun h => hdim (List.mem_cons.mpr h))
    show stateOf (rule.evaluateDims driftMap time dims
      (rule.evaluateDim driftMap time states d).1).1 dim = _
    rw [ih hdims, evaluateDim_eq, stateOf_set, if_neg hne]

/-- Each dimension is evaluated on its own state. -/
theorem evaluateDims_of_mem (rule : AutoPilotRule) (driftMap : Dict String DriftResult) (time : Float64)
    {dims : List String} (hnodup : dims.Nodup) {dim : String} (hdim : dim ∈ dims)
    (states : Dict String CUSUMState) :
    stateOf (rule.evaluateDims driftMap time dims states).1 dim
        = (rule.outcome time (stateOf states dim) (driftMap.get? dim)).1
      ∧ ∀ isRecovery ∈ (rule.outcome time (stateOf states dim) (driftMap.get? dim)).2,
          ⟨.autoPilot rule, driftMap.get? dim, isRecovery⟩
            ∈ (rule.evaluateDims driftMap time dims states).2 := by
  induction dims generalizing states with
  | nil => exact absurd hdim List.not_mem_nil
  | cons d dims ih =>
    rw [List.nodup_cons] at hnodup
    show stateOf (rule.evaluateDims driftMap time dims
      (rule.evaluateDim driftMap time states d).1).1 dim = _
      ∧ ∀ isRecovery ∈ _, _ ∈ (rule.evaluateDim driftMap time states d).2
          ++ (rule.evaluateDims driftMap time dims (rule.evaluateDim driftMap time states d).1).2
    rcases List.mem_cons.mp hdim with rfl | hmem
    · rw [stateOf_evaluateDims_of_notMem hnodup.1, evaluateDim_eq, stateOf_set, if_pos rfl]
      refine ⟨rfl, fun isRecovery hqueued => List.mem_append_left _ ?_⟩
      exact List.mem_map.mpr ⟨isRecovery, Option.mem_toList.mpr hqueued, rfl⟩
    · have hne : dim ≠ d := fun heq => hnodup.1 (heq ▸ hmem)
      obtain ⟨hstate, hqueued⟩ := ih hnodup.2 hmem (rule.evaluateDim driftMap time states d).1
      rw [evaluateDim_eq, stateOf_set, if_neg hne] at hstate hqueued
      exact ⟨hstate, fun isRecovery h => List.mem_append_right _ (hqueued isRecovery h)⟩

/-- A dimension that is not violating is `OK` afterwards, and recovers where it was firing. -/
theorem outcome_of_not_violating (time : Float64) {state : CUSUMState} {result : Option DriftResult}
    (h : (rule.isViolating state result).2 = false) :
    (rule.outcome time state result).1.status = .ok
      ∧ (rule.outcome time state result).1.violationCount = 0
      ∧ (state.status = .firing → true ∈ (rule.outcome time state result).2) := by
  have hstatus : (rule.isViolating state result).1.status = state.status := by
    unfold isViolating
    split
    · rfl
    · split
      · exact congrArg AlertState.status (state.toAlertState_update _ _)
      · rfl
  unfold outcome
  simp only [h, AlertState.advance, Bool.false_eq_true, if_false, hstatus, true_and]
  intro hfiring
  rw [if_pos hfiring]
  exact Option.mem_some_self true

theorem status_outcome (state : CUSUMState) (result : Option DriftResult) :
    (rule.outcome time state result).1.status = .ok
      ↔ (rule.outcome time state result).1.violationCount = 0 :=
  AlertState.status_advance _ _ _ _

/-- The dimensions that a rule is about. -/
def Covers (rule : AutoPilotRule) (dim : String) : Prop := rule.dimension = "*" ∨ dim = rule.dimension

theorem nodup_dimsToEval (rule : AutoPilotRule) (driftMap : Dict String DriftResult) :
    (rule.dimsToEval driftMap).Nodup := by
  unfold dimsToEval
  split
  · exact driftMap.nodup_keys
  · exact List.nodup_singleton _

/-- A wildcard evaluates what is reported, any other rule its own dimension. -/
theorem mem_dimsToEval {dim : String} (hcovers : rule.Covers dim) :
    dim ∈ rule.dimsToEval driftMap ↔ rule.dimension ≠ "*" ∨ (driftMap.get? dim).isSome := by
  unfold dimsToEval
  by_cases hwild : rule.dimension = "*"
  · rw [if_pos hwild, Dict.get?_isSome_iff]
    simp [hwild]
  · rw [if_neg hwild]
    simp only [ne_eq, hwild, not_false_eq_true, true_or, iff_true]
    exact List.mem_singleton.mpr (hcovers.resolve_left hwild)

end AutoPilotRule

/-! ## What the report has at the threshold zero

Every dimension with samples in both windows, unless both percentiles are zero. -/

theorem floatGe_abs_zero {x : Float64} (hx : x ≠ .nan) : floatGe (floatAbs x) .zero = true := by
  cases x with
  | nan => exact absurd rfl hx
  | inf negative => cases negative <;> rfl
  | fin v =>
    have hzero : (Binary64.ofInt 0 Binary64.abs_zero_lt).val = 0 := Int.cast_zero
    unfold floatAbs
    by_cases hneg : v.val < 0
    · have hlt : Float64.lt (.fin v) .zero = true := by
        simp [Float64.zero, hneg]
      have hval : floatNeg (.fin v) = .fin ⟨-v.val, Binary64.isBinary64_neg v.isBinary64⟩ := by
        unfold floatNeg Float64.zero
        rw [Float64.fin_sub_fin, hzero, zero_sub, Float64.ofRat_of_isBinary64
          (Binary64.isBinary64_neg v.isBinary64)]
      rw [if_pos hlt, hval]
      simp [floatGe, Float64.zero, hneg.le]
    · have hlt : ¬ Float64.lt (.fin v) .zero = true := by
        simp [Float64.zero, hneg]
      rw [if_neg hlt]
      simp [floatGe, Float64.zero, hneg]

theorem ofRat_ne_nan (q : ℚ) : Float64.ofRat q ≠ .nan := by
  unfold Float64.ofRat
  split <;> exact fun h => by cases h

theorem Reading.change_ge_zero (reading : Reading) (hprev : reading.prevP99.val ≠ 0) :
    floatGe reading.change .zero = true := by
  have hratio : reading.ratio = Float64.ofRat (reading.currP99.val / reading.prevP99.val) :=
    Float64.fin_div_fin _ hprev
  apply floatGe_abs_zero
  cases hcase : reading.ratio with
  | nan => exact absurd (hratio.symm.trans hcase) (ofRat_ne_nan _)
  | inf negative => exact fun h => by cases h
  | fin v => exact ofRat_ne_nan _

/-- Both windows have samples, and their p99s are not both zero. -/
def Reading.Reported (reading : Reading) : Prop :=
  reading.currCount ≠ 0 ∧ reading.prevCount ≠ 0 ∧ ¬ (reading.prevP99.val = 0 ∧ reading.currP99.val = 0)

theorem Reading.isSome_result?_zero (reading : Reading) (name : String) :
    (reading.result? .zero name).isSome ↔ reading.Reported := by
  unfold Reading.result? Reading.Reported
  by_cases hempty : reading.currCount = 0 ∨ reading.prevCount = 0
  · rw [if_pos hempty]
    simp only [Option.isSome_none, Bool.false_eq_true, false_iff]
    tauto
  rw [if_neg hempty]
  obtain ⟨hcurr, hprev⟩ := not_or.mp hempty
  by_cases hboth : reading.prevP99.val = 0 ∧ reading.currP99.val = 0
  · rw [if_pos hboth]
    simp [hboth]
  rw [if_neg hboth]
  by_cases hzero : reading.prevP99.val = 0
  · rw [if_pos hzero]
    simp [hcurr, hprev, hboth]
  · rw [if_neg hzero, if_pos (reading.change_ge_zero hzero)]
    simp [hcurr, hprev, hboth]

/-! ## Runs

A firing dimension recovers when it is reported again; one that has left the report stays firing. -/

namespace Monitor

variable {rules : List Rule} {rule : AutoPilotRule} {s s' : Monitor} {e : Evaluation}

/-- `self.states[rule.name][dim]`. -/
def cusum (s : Monitor) (rule : AutoPilotRule) (dim : String) : CUSUMState :=
  match s.entry (.autoPilot rule) with
  | some (.autoPilot states) => AutoPilotRule.stateOf states dim
  | _ => {}

/-- The report of an evaluation, in an engine with the given rules. -/
def report (rules : List Rule) (e : Evaluation) : Dict String DriftResult :=
  e.entries (AlertEngine.threshold rules)

/-- A dimension that is not violating is `OK` after the evaluation, and recovers where it was firing. -/
def Recovers (rules : List Rule) (rule : AutoPilotRule) (s : Monitor) (e : Evaluation)
    (s' : Monitor) : Prop :=
  ∀ dim, rule.Covers dim → (rule.isViolating (s.cusum rule dim) ((report rules e).get? dim)).2 = false →
    (s'.cusum rule dim).status = .ok ∧ (s'.cusum rule dim).violationCount = 0
      ∧ ((s.cusum rule dim).status = .firing → ∃ new, s'.sent (.autoPilot rule)
        = s.sent (.autoPilot rule) ++ new
        ∧ (e.time, ⟨.autoPilot rule, (report rules e).get? dim, true⟩) ∈ new)

/-- A wildcard finds every dimension that is `PENDING` or `FIRING` in the report. -/
def StillReported (rule : AutoPilotRule) (s : Monitor) (e : Evaluation) : Prop :=
  rule.dimension = "*" → ∀ dim, (s.cusum rule dim).status ≠ .ok →
    ∃ reading, e.current.get? dim = some reading ∧ reading.Reported

/-- An `AutoPilotRule` is in its own run: the table, and what an evaluation makes of it. -/
theorem step_autoPilot (hnodup : (rules.map Rule.name).Nodup) (hmem : .autoPilot rule ∈ rules)
    (hsorted : Sorted rules s) (hstep : s.step e = some s') :
    ∃ states, s.entry (.autoPilot rule) = some (.autoPilot states)
      ∧ s'.entry (.autoPilot rule) = some (.autoPilot
          (rule.evaluateDims (report rules e) e.time (rule.dimsToEval (report rules e)) states).1)
      ∧ s'.sent (.autoPilot rule) = s.sent (.autoPilot rule)
          ++ (rule.evaluateDims (report rules e) e.time (rule.dimsToEval (report rules e))
            states).2.map (e.time, ·) := by
  obtain ⟨entry, hentry, hfits⟩ := hsorted.fits _ hmem
  cases entry with
  | alert state => exact hfits.elim
  | autoPilot states =>
    have hfollows : Follows rules (.autoPilot rule) s ⟨.autoPilot states, s.sent (.autoPilot rule)⟩ :=
      ⟨hsorted.rules_eq, hentry, rfl⟩
    obtain ⟨r, hrule, hfollows'⟩ := hfollows.step hnodup hmem hstep
    cases hrule
    exact ⟨states, hentry, hfollows'.entry_eq, hfollows'.sent_eq⟩

/-- The dimensions that are evaluated. -/
theorem cusum_of_mem (hnodup : (rules.map Rule.name).Nodup) (hmem : .autoPilot rule ∈ rules)
    (hsorted : Sorted rules s) (hstep : s.step e = some s') {dim : String}
    (hdim : dim ∈ rule.dimsToEval (report rules e)) :
    s'.cusum rule dim = (rule.outcome e.time (s.cusum rule dim) ((report rules e).get? dim)).1
      ∧ ∀ isRecovery ∈ (rule.outcome e.time (s.cusum rule dim) ((report rules e).get? dim)).2,
          ∃ new, s'.sent (.autoPilot rule) = s.sent (.autoPilot rule) ++ new
            ∧ (e.time, ⟨.autoPilot rule, (report rules e).get? dim, isRecovery⟩) ∈ new := by
  obtain ⟨states, hentry, hentry', hsent⟩ := step_autoPilot hnodup hmem hsorted hstep
  obtain ⟨hstate, hqueued⟩ := rule.evaluateDims_of_mem (report rules e) e.time
    (rule.nodup_dimsToEval _) hdim states
  unfold cusum
  rw [hentry, hentry']
  exact ⟨hstate, fun isRecovery h => ⟨_, hsent, List.mem_map_of_mem (hqueued isRecovery h)⟩⟩

/-- The others keep their state. -/
theorem cusum_of_notMem (hnodup : (rules.map Rule.name).Nodup) (hmem : .autoPilot rule ∈ rules)
    (hsorted : Sorted rules s) (hstep : s.step e = some s') {dim : String}
    (hdim : dim ∉ rule.dimsToEval (report rules e)) : s'.cusum rule dim = s.cusum rule dim := by
  obtain ⟨states, hentry, hentry', -⟩ := step_autoPilot hnodup hmem hsorted hstep
  unfold cusum
  rw [hentry, hentry']
  exact AutoPilotRule.stateOf_evaluateDims_of_notMem hdim states

theorem threshold_eq_zero (hmem : .autoPilot rule ∈ rules) : AlertEngine.threshold rules = .zero := by
  have hzero : (AlertEngine.minThresh [.autoPilot rule]).val = 0 := Int.cast_zero
  rw [threshold_of_autoPilot hmem, AlertEngine.threshold, if_neg (by rw [hzero]; exact lt_irrefl 0)]

theorem isSome_report_iff (hmem : .autoPilot rule ∈ rules) (dim : String) :
    ((report rules e).get? dim).isSome ↔ ∃ reading, e.current.get? dim = some reading
      ∧ reading.Reported := by
  unfold report Evaluation.entries
  rw [threshold_eq_zero hmem, get?_driftMap]
  cases e.current.get? dim with
  | none => simp
  | some reading => simp [reading.isSome_result?_zero]

/-- The table of a rule, between evaluations. -/
structure Steady (rules : List Rule) (rule : AutoPilotRule) (s : Monitor) : Prop where
  sorted : Sorted rules s
  counted : ∀ dim, (s.cusum rule dim).status = .ok ↔ (s.cusum rule dim).violationCount = 0

theorem cusum_start (hnodup : (rules.map Rule.name).Nodup) (hmem : .autoPilot rule ∈ rules)
    (dim : String) :
    (start rules).cusum rule dim = {} := by
  have hentry : (start rules).entry (.autoPilot rule) = some (.autoPilot ∅) :=
    AlertEngine.withRules_get? hnodup hmem
  unfold cusum
  rw [hentry]
  rfl

theorem steady_start (hnodup : (rules.map Rule.name).Nodup) (hmem : .autoPilot rule ∈ rules) :
    Steady rules rule (start rules) where
  sorted := sorted_start hnodup
  counted dim := by
    rw [cusum_start hnodup hmem]
    exact iff_of_true rfl rfl

theorem Steady.step (hnodup : (rules.map Rule.name).Nodup) (hmem : .autoPilot rule ∈ rules)
    (h : Steady rules rule s) (e : Evaluation) : ∃ s', s.step e = some s' ∧ Steady rules rule s' := by
  obtain ⟨s', hstep, hsorted⟩ := h.sorted.step hnodup e
  refine ⟨s', hstep, hsorted, fun dim => ?_⟩
  by_cases hdim : dim ∈ rule.dimsToEval (report rules e)
  · rw [(cusum_of_mem hnodup hmem h.sorted hstep hdim).1]
    exact AutoPilotRule.status_outcome _ _
  · rw [cusum_of_notMem hnodup hmem h.sorted hstep hdim]
    exact h.counted dim

/-- **One evaluation.** -/
theorem Steady.recovers_iff (hnodup : (rules.map Rule.name).Nodup) (hmem : .autoPilot rule ∈ rules)
    (h : Steady rules rule s) (hstep : s.step e = some s') : Recovers rules rule s e s'
      ↔ StillReported rule s e := by
  constructor
  · intro hrecovers hwild dim hstatus
    by_contra hmissing
    rw [← isSome_report_iff hmem, Bool.not_eq_true, Option.isSome_eq_false_iff,
      Option.isNone_iff_eq_none] at hmissing
    have hdim : dim ∉ rule.dimsToEval (report rules e) := by
      rw [AutoPilotRule.mem_dimsToEval (.inl hwild), hmissing]
      simp [hwild]
    have hok := (hrecovers dim (.inl hwild) (by rw [hmissing]; rfl)).1
    rw [cusum_of_notMem hnodup hmem h.sorted hstep hdim] at hok
    exact hstatus hok
  · intro hreported dim hcovers hviolating
    by_cases hdim : dim ∈ rule.dimsToEval (report rules e)
    · obtain ⟨hstate, hqueued⟩ := cusum_of_mem hnodup hmem h.sorted hstep hdim
      obtain ⟨hok, hcount, hrecovery⟩ := AutoPilotRule.outcome_of_not_violating e.time hviolating
      rw [hstate]
      exact ⟨hok, hcount, fun hfiring => hqueued true (hrecovery hfiring)⟩
    · -- a wildcard and a dimension that is not in the report
      obtain ⟨hwild, hmissing⟩ :=
        not_or.mp (fun hor => hdim ((AutoPilotRule.mem_dimsToEval hcovers).mpr hor))
      have hok : (s.cusum rule dim).status = .ok := by
        by_contra hstatus
        exact hmissing ((isSome_report_iff hmem dim).mpr (hreported (not_not.mp hwild) dim hstatus))
      rw [cusum_of_notMem hnodup hmem h.sorted hstep hdim]
      exact ⟨hok, (h.counted dim).mp hok, fun hfiring => absurd (hok.symm.trans hfiring) (by decide)⟩

end Monitor

open Monitor in
/-- **Recoveries of an autopilot rule.** In a run of an engine whose rules have distinct names,
every evaluation leaves the dimensions that are not violating `OK`, with a recovery where they were
firing, exactly when a wildcard finds every dimension that is `PENDING` or `FIRING` in the report of
every evaluation. -/
theorem autoPilot_recovers_iff (rules : List Rule) (hnodup : (rules.map Rule.name).Nodup)
    (rule : AutoPilotRule)
    (hmem : .autoPilot rule ∈ rules) (evals : List Evaluation) :
    (∀ calls e, calls ++ [e] <+: evals → ∃ s s', run step (start rules) calls = some s ∧ s.step e
      = some s'
      ∧ Recovers rules rule s e s') ↔ Meets step (StillReported rule) (start rules) evals := by
  have hreach : ∀ calls e, ∃ s s', run step (start rules) calls = some s ∧ s.step e = some s'
    ∧ Steady rules rule s := by
    intro calls e
    obtain ⟨s, hrun, hsteady⟩ :=
      Runs.exists_run (fun _ e h => h.step hnodup hmem e) (steady_start hnodup hmem)
    obtain ⟨s', hstep, -⟩ := hsteady.step hnodup hmem e
    exact ⟨s, s', hrun, hstep, hsteady⟩
  rw [meets_iff_forall_steps]
  constructor
  · intro h calls e hcalls t hrun
    obtain ⟨s, s', hrun', hstep, hrecovers⟩ := h calls e hcalls
    obtain ⟨s₁, -, hrun₁, -, hsteady⟩ := hreach calls e
    cases hrun.symm.trans hrun'
    cases hrun.symm.trans hrun₁
    exact (hsteady.recovers_iff hnodup hmem hstep).mp hrecovers
  · intro h calls e hcalls
    obtain ⟨s, s', hrun, hstep, hsteady⟩ := hreach calls e
    exact ⟨s, s', hrun, hstep, (hsteady.recovers_iff hnodup hmem hstep).mpr (h calls e hcalls s hrun)⟩

open Monitor in
/-- A wildcard whose evaluations all report the same dimensions meets the condition. -/
theorem meets_stillReported {rules : List Rule} {rule : AutoPilotRule} {evals : List Evaluation}
    (hnodup : (rules.map Rule.name).Nodup) (hmem : .autoPilot rule ∈ rules)
    (hsame : ∀ e ∈ evals, ∀ e' ∈ evals, ∀ dim, ((report rules e).get? dim).isSome →
      ((report rules e').get? dim).isSome) :
    Meets step (StillReported rule) (start rules) evals := by
  rw [meets_iff_forall_steps]
  intro calls e hprefix t hrun hwild dim hstatus
  have hcalls : ∀ e' ∈ calls ++ [e], e' ∈ evals := hprefix.subset
  have hmeets : Meets step (fun _ e' => e' ∈ evals) (start rules) calls :=
    meets_iff_forall_steps.mpr fun bs a hbs _ _ =>
      hcalls a (List.mem_append_left _ (hbs.subset (by simp)))
  -- only dimensions of the report are ever looked at
  have hreported : Steady rules rule t ∧ ∀ dim, (t.cusum rule dim).status ≠ .ok →
      ∀ e' ∈ evals, ((report rules e').get? dim).isSome := by
    refine run_invariant (I := fun s => Steady rules rule s ∧ ∀ dim, (s.cusum rule dim).status ≠ .ok →
      ∀ e' ∈ evals, ((report rules e').get? dim).isSome) ?_ ?_ hmeets hrun
    · intro s e₁ s' hI he₁ hstep
      obtain ⟨s'', hstep', hsteady⟩ := hI.1.step hnodup hmem e₁
      cases hstep.symm.trans hstep'
      refine ⟨hsteady, fun dim hdim e' he' => ?_⟩
      by_cases heval : dim ∈ rule.dimsToEval (report rules e₁)
      · have hsome := (AutoPilotRule.mem_dimsToEval (.inl hwild)).mp heval
        exact hsame e₁ he₁ e' he' dim (hsome.resolve_left (not_not.mpr hwild))
      · rw [cusum_of_notMem hnodup hmem hI.1.sorted hstep heval] at hdim
        exact hI.2 dim hdim e' he'
    · refine ⟨steady_start hnodup hmem, fun dim hdim => ?_⟩
      rw [cusum_start hnodup hmem] at hdim
      exact absurd rfl hdim
  exact (isSome_report_iff hmem dim).mp
    (hreported.2 dim hstatus e (hcalls e (List.mem_append_right _ List.mem_cons_self)))

/-! ## A wildcard that fires

The first ten samples are the baseline, the next ten fire. Whether the rule recovers depends on what the
evaluation after them has of the dimension: a few samples, or none. -/

theorem roundTo_ofInt (digits : ℕ) (n : ℤ) (h : |n| < 2 ^ 53) :
    roundTo digits (.fin (.ofInt n h)) = .fin (.ofInt n h) := by
  have hexact : (Binary64.halfEven ((n : ℚ) * 10 ^ digits) : ℚ) / 10 ^ digits = n := by
    have hcast : (n : ℚ) * 10 ^ digits = ((n * 10 ^ digits : ℤ) : ℚ) := by push_cast; rfl
    rw [hcast, Binary64.halfEven_intCast, ← hcast]
    exact mul_div_cancel_right₀ _ (by positivity)
  have hround : roundTo digits (.fin (.ofInt n h))
      = .ofRat (Binary64.halfEven ((Binary64.ofInt n h).val * 10 ^ digits) / 10 ^ digits) := by
        rw [roundTo]
  rw [hround, Float64.val_ofInt, hexact, Float64.ofRat_intCast n h]

/-- A float that is `b` or more. -/
def AtLeast (b : ℚ) (x : Float64) : Prop := x = .inf false ∨ ∃ v, x = .fin v ∧ b ≤ v.val

theorem atLeast_ofRat {b q : ℚ} (hb : IsBinary64 b) (hpos : 0 < b) (h : b ≤ q) :
    AtLeast b (.ofRat q) := by
  unfold Float64.ofRat
  split
  · exact .inr ⟨_, rfl, Binary64.le_nearest hb hpos h⟩
  · rw [decide_eq_false (not_lt.mpr (hpos.le.trans h))]
    exact .inl rfl

theorem lt_of_atLeast {b : ℚ} {x : Float64} (h : AtLeast b x) (y : Binary64) (hy : y.val < b) :
    Float64.lt (.fin y) x = true := by
  rcases h with rfl | ⟨v, rfl, hv⟩
  · rfl
  · exact decide_eq_true (hy.trans_le hv)

/-- Adding to zero, or taking off a small number, leaves a large float large. -/
theorem atLeast_zero_add {b : ℚ} {x : Float64} (hb : IsBinary64 b) (hpos : 0 < b) (h : AtLeast b x) :
    AtLeast b (Float64.zero.add x) := by
  rcases h with rfl | ⟨v, rfl, hv⟩
  · exact .inl rfl
  · apply atLeast_ofRat hb hpos
    rw [Float64.val_ofInt, Int.cast_zero, zero_add]
    exact hv

theorem atLeast_sub {b c : ℚ} {x : Float64} (hb : IsBinary64 b) (hpos : 0 < b) (y : Binary64)
    (h : AtLeast c x)
    (hle : b + y.val ≤ c) : AtLeast b (x.sub (.fin y)) := by
  rcases h with rfl | ⟨v, rfl, hv⟩
  · exact .inl rfl
  · apply atLeast_ofRat hb hpos
    linarith

theorem floatMax_zero_of_atLeast {b : ℚ} {x : Float64} (hpos : 0 < b) (h : AtLeast b x) :
    floatMax .zero x = x := by
  have hlt : Float64.zero.lt x = true :=
    lt_of_atLeast h _ (by rw [Float64.val_ofInt, Int.cast_zero]; exact hpos)
  unfold floatMax
  rw [if_pos hlt]

theorem tenMicro_pos : 0 < tenMicro.val := by norm_num [tenMicro]

/-- All dimensions, without a direction, and at once. -/
def watchAll : AutoPilotRule where
  name := "autopilot"
  dimension := "*"
  sensitivity := .ofInt 3 Binary64.abs_three_lt
  minSamples := 10
  sustainedWindows := 1
  directionFilter := none
  sensitivity_pos := three_pos
  sustained_pos := Nat.one_pos
  direction_ne := unfiltered

/-- Ten samples of `n` milliseconds, after a window of zeros. -/
def levelReading (n : ℤ) (h : |n| < 2 ^ 53) : Reading :=
  ⟨10, 10, .ofInt n h, .ofInt 0 Binary64.abs_zero_lt⟩

def level (n : ℤ) (h : |n| < 2 ^ 53) (time : Float64) : Evaluation :=
  ⟨Dict.set ∅ "api_latency" (levelReading n h), time⟩

/-- Five samples, too few to judge by. -/
def fewSamples (time : Float64) : Evaluation :=
  ⟨Dict.set ∅ "api_latency" ⟨5, 10, .ofInt 1000 (by decide), .ofInt 0 Binary64.abs_zero_lt⟩, time⟩

/-- The window has just been rotated: no samples yet. -/
def rotated (time : Float64) : Evaluation :=
  ⟨Dict.set ∅ "api_latency" ⟨0, 10, .ofInt 0 Binary64.abs_zero_lt, .ofInt 1000 (by decide)⟩, time⟩

theorem ofRat_two : Float64.ofRat 2 = .fin (.ofInt 2 (by decide)) := by
  rw [← Float64.ofRat_intCast]
  norm_num

/-- The first value becomes the mean. -/
theorem update_first (n : ℤ) (h : |n| < 2 ^ 53) :
    ∃ M2, (({} : CUSUMState).update (.fin (.ofInt n h)) watchAll.sensitivity).1
      = { n := 1, mean := .fin (.ofInt n h), M2 := M2, S_hi := .zero, S_lo := .zero } := by
  have htwo : Float64.mul (.fin watchAll.sensitivity) (.ofRat 2)
    = .fin (.ofInt 6 Binary64.abs_six_lt) := by
    rw [ofRat_two, watchAll, Float64.fin_mul_fin, Float64.val_ofInt, Float64.val_ofInt,
      ← Int.cast_mul, Float64.ofRat_intCast (3 * 2) (by decide)]
    rfl
  have hscore : Float64.zero.lt (Float64.mul (.fin watchAll.sensitivity) (.ofRat 2)) = true := by
    rw [htwo, Float64.zero_lt_fin, Float64.val_ofInt]
    decide
  have hdelta : Float64.sub (.fin (.ofInt n h)) .zero = .fin (.ofInt n h) := by
    rw [Float64.zero, Float64.fin_sub_fin, Float64.val_ofInt, Float64.val_ofInt, Int.cast_zero,
      sub_zero, Float64.ofRat_intCast n h]
  have hquot : Float64.div (.fin (.ofInt n h)) (.ofRat ((0 + 1 : ℕ) : ℚ)) = .fin (.ofInt n h) := by
    rw [show (((0 + 1 : ℕ) : ℚ)) = ((1 : ℤ) : ℚ) by norm_num, Float64.ofRat_intCast 1 (by decide),
      Float64.fin_div_fin _ (by rw [Float64.val_ofInt]; norm_num), Float64.val_ofInt,
        Float64.val_ofInt, Int.cast_one, div_one, Float64.ofRat_intCast n h]
  have hmean : Float64.add .zero (.fin (.ofInt n h)) = .fin (.ofInt n h) := by
    rw [Float64.zero, Float64.fin_add_fin, Float64.val_ofInt, Float64.val_ofInt, Int.cast_zero,
      zero_add, Float64.ofRat_intCast n h]
  unfold CUSUMState.update
  simp only [lt_irrefl, if_false, hscore, if_true, hdelta, hquot, hmean]
  exact ⟨_, rfl⟩

/-- With a flat baseline a higher value scores at once. -/
theorem update_second (state : CUSUMState) (hn : state.n = 1)
    (hmean : state.mean = .fin (.ofInt 100 Binary64.abs_hundred_lt))
    (hS : state.S_hi = .zero) :
    Float64.lt (.fin watchAll.sensitivity)
      (state.update (.fin (.ofInt 1000 (by decide))) watchAll.sensitivity).2
      = true := by
  -- no deviation has been seen yet, so the jump of 900 is divided by the least one
  have hmillion : IsBinary64 ((1000000 : ℤ) : ℚ) := (Binary64.ofInt 1000000 (by decide)).isBinary64
  have hthousand : IsBinary64 ((1000 : ℤ) : ℚ) := (Binary64.ofInt 1000 (by decide)).isBinary64
  have hsafe : floatMax .zero (.fin tenMicro) = .fin tenMicro :=
    floatMax_zero_of_atLeast tenMicro_pos (.inr ⟨_, rfl, le_rfl⟩)
  have hdelta : Float64.sub (.fin (.ofInt 1000 (by decide))) (.fin (.ofInt 100 Binary64.abs_hundred_lt))
      = .fin (.ofInt 900 (by decide)) := by
    rw [Float64.fin_sub_fin, Float64.val_ofInt, Float64.val_ofInt, ← Int.cast_sub,
      Float64.ofRat_intCast (1000 - 100) (by decide)]
    rfl
  have hz : AtLeast ((1000000 : ℤ) : ℚ)
    (Float64.div (.fin (.ofInt 900 (by decide))) (.fin tenMicro)) := by
    rw [Float64.fin_div_fin _ tenMicro_pos.ne']
    apply atLeast_ofRat hmillion (by norm_num)
    rw [le_div_iff₀ tenMicro_pos, Float64.val_ofInt]
    norm_num [tenMicro]
  -- half the sensitivity is subtracted, which is 3/2
  obtain ⟨slack, hslack, hval⟩ :
      ∃ slack : Binary64, Float64.div (.fin watchAll.sensitivity) (.ofRat 2) = .fin slack
        ∧ slack.val = 3 / 2 := by
    have hhalf : IsBinary64 (3 / 2) := ⟨3, -1, by norm_num, by norm_num, by norm_num, by norm_num⟩
    refine ⟨⟨3 / 2, hhalf⟩, ?_, rfl⟩
    rw [ofRat_two, watchAll, Float64.fin_div_fin _ (by rw [Float64.val_ofInt]; norm_num),
      Float64.val_ofInt, Float64.val_ofInt,
      ← Float64.ofRat_of_isBinary64 hhalf]
    norm_num
  -- what is left is still over a thousand
  have hlarge := atLeast_sub hthousand (by norm_num) slack (atLeast_zero_add hmillion (by norm_num) hz)
    (by rw [hval]; norm_num)
  have hpos : Float64.zero.lt (Float64.div (.fin (.ofInt 900 (by decide))) (.fin tenMicro)) = true :=
    lt_of_atLeast hz _ (by rw [Float64.val_ofInt]; norm_num)
  have hflat : Float64.zero.lt Float64.zero = false := by
    rw [Float64.zero, Float64.fin_lt_fin]
    exact decide_eq_false (lt_irrefl _)
  unfold CUSUMState.update
  simp only [hn, hmean, hS, lt_irrefl, if_false, hflat, Bool.false_eq_true, hsafe, hdelta, hslack,
    Nat.lt_one_iff, if_true,
    hpos, floatMax_zero_of_atLeast (by norm_num) hlarge]
  rw [apply_ite Prod.snd, ite_self]
  exact lt_of_atLeast hlarge _ (by rw [watchAll, Float64.val_ofInt]; norm_num)

/-- The report on one dimension that was at zero before. -/
theorem get?_report_new {reading : Reading} (hcurr : reading.currCount ≠ 0)
    (hprev : reading.prevCount ≠ 0) (hzero : reading.prevP99.val = 0) (hp99 : reading.currP99.val ≠ 0)
    (rules : List Rule) (time : Float64) :
    (Monitor.report rules ⟨Dict.set ∅ "api_latency" reading, time⟩).get? "api_latency"
      = some (reading.newResult "api_latency") := by
  unfold Monitor.report Evaluation.entries
  rw [get?_driftMap]
  show reading.result? _ "api_latency" = _
  rw [Reading.result?, if_neg (not_or.mpr ⟨hcurr, hprev⟩), if_neg (fun hboth => hp99 hboth.2),
    if_pos hzero]

/-- What `watchAll` finds when the p99 is `n`. -/
theorem isViolating_level (state : CUSUMState) (n : ℤ) (h : |n| < 2 ^ 53) (hn : (n : ℚ) ≠ 0)
    (rules : List Rule) (time : Float64) :
    watchAll.isViolating state ((Monitor.report rules (level n h time)).get? "api_latency")
      = ((state.update (.fin (.ofInt n h)) watchAll.sensitivity).1,
          Float64.lt (.fin watchAll.sensitivity)
            (state.update (.fin (.ofInt n h)) watchAll.sensitivity).2) := by
  rw [level, get?_report_new (Nat.succ_ne_zero 9) (Nat.succ_ne_zero 9) Int.cast_zero hn]
  unfold AutoPilotRule.isViolating Reading.newResult levelReading
  simp only [roundTo_ofInt]
  rfl

/-- A report on one dimension reports no other. -/
theorem isSome_report_single {reading : Reading} (h : reading.Reported) {rules : List Rule}
    {rule : AutoPilotRule} (hmem : .autoPilot rule ∈ rules) (time : Float64) (dim : String) :
    ((Monitor.report rules ⟨Dict.set ∅ "api_latency" reading, time⟩).get? dim).isSome
      ↔ dim = "api_latency" := by
  rw [Monitor.isSome_report_iff hmem]
  show (∃ r, (Dict.set ∅ "api_latency" reading).get? dim = some r ∧ r.Reported) ↔ _
  rw [Dict.get?_set]
  by_cases hdim : dim = "api_latency"
  · simp [hdim, h]
  · simp [hdim]

theorem status_firing_of_violating (rule : AutoPilotRule) (hone : rule.sustainedWindows = 1)
    {state : CUSUMState}
    {result : Option DriftResult} (time : Float64) (h : (rule.isViolating state result).2 = true) :
    (rule.outcome time state result).1.status = .firing := by
  unfold AutoPilotRule.outcome AlertState.advance
  simp only [h, hone, if_true, Nat.le_add_left]
  split
  · rfl
  · split <;> rfl

open Monitor in
/-- After the two evaluations the rule fires. -/
theorem exists_firing : ∃ s, run step (start [.autoPilot watchAll])
      [level 100 (by decide) .zero, level 1000 (by decide) .zero] = some s
    ∧ Steady [.autoPilot watchAll] watchAll s ∧ (s.cusum watchAll "api_latency").status = .firing := by
  have hnodup : ([Rule.autoPilot watchAll].map Rule.name).Nodup := List.nodup_singleton _
  have hmem : Rule.autoPilot watchAll ∈ [Rule.autoPilot watchAll] := List.mem_cons_self
  obtain ⟨s₁, hstep₁, hsteady₁⟩ :=
    (steady_start hnodup hmem).step hnodup hmem (level 100 (by decide) .zero)
  obtain ⟨s₂, hstep₂, hsteady₂⟩ := hsteady₁.step hnodup hmem (level 1000 (by decide) .zero)
  have hdim : ∀ (n : ℤ) h, (n : ℚ) ≠ 0 →
      "api_latency" ∈ watchAll.dimsToEval (report [.autoPilot watchAll] (level n h .zero)) := by
    intro n h hn
    rw [AutoPilotRule.mem_dimsToEval (.inl rfl), isSome_report_iff hmem]
    exact .inr ⟨levelReading n h, rfl, Nat.succ_ne_zero 9, Nat.succ_ne_zero 9, fun hboth => hn hboth.2⟩
  -- the first value is the baseline
  have hstate₁ : (s₁.cusum watchAll "api_latency").n = 1
      ∧ (s₁.cusum watchAll "api_latency").mean = .fin (.ofInt 100 Binary64.abs_hundred_lt)
      ∧ (s₁.cusum watchAll "api_latency").S_hi = .zero := by
    rw [(cusum_of_mem hnodup hmem (steady_start hnodup hmem).sorted hstep₁
      (hdim 100 (by decide) (by norm_num))).1]
    unfold AutoPilotRule.outcome
    rw [isViolating_level _ 100 (by decide) (by norm_num)]
    obtain ⟨M2, hupdate⟩ := update_first 100 (by decide)
    rw [cusum_start hnodup hmem, hupdate]
    exact ⟨rfl, rfl, rfl⟩
  -- the second fires
  have hfiring : (s₂.cusum watchAll "api_latency").status = .firing := by
    rw [(cusum_of_mem hnodup hmem hsteady₁.sorted hstep₂ (hdim 1000 (by decide) (by norm_num))).1]
    apply status_firing_of_violating watchAll rfl
    rw [isViolating_level _ 1000 (by decide) (by norm_num)]
    exact update_second _ hstate₁.1 hstate₁.2.1 hstate₁.2.2
  exact ⟨s₂, run_cons.mpr ⟨s₁, hstep₁, run_cons.mpr ⟨s₂, hstep₂, rfl⟩⟩, hsteady₂, hfiring⟩

open Monitor in
/-- With five samples the wildcard recovers, and says so. -/
theorem autoPilot_recovers_wildcard : ∃ s s' new, run step (start [.autoPilot watchAll])
      [level 100 (by decide) .zero, level 1000 (by decide) .zero] = some s
    ∧ (s.cusum watchAll "api_latency").status = .firing ∧ s.step (fewSamples .one) = some s'
    ∧ (s'.cusum watchAll "api_latency").status = .ok
    ∧ (s'.cusum watchAll "api_latency").violationCount = 0
    ∧ s'.sent (.autoPilot watchAll) = s.sent (.autoPilot watchAll) ++ new
    ∧ (Float64.one, ⟨.autoPilot watchAll, (report [.autoPilot watchAll] (fewSamples .one)).get?
      "api_latency", true⟩) ∈ new := by
  have hnodup : ([Rule.autoPilot watchAll].map Rule.name).Nodup := List.nodup_singleton _
  have hmem : Rule.autoPilot watchAll ∈ [Rule.autoPilot watchAll] := List.mem_cons_self
  obtain ⟨s, hrun, -, hfiring⟩ := exists_firing
  have hmeets : Meets step (StillReported watchAll) (start [.autoPilot watchAll])
      [level 100 (by decide) .zero, level 1000 (by decide) .zero, fewSamples .one] := by
    -- every report names the one dimension and no other
    have hsingle : ∀ e ∈ [level 100 (by decide) .zero, level 1000 (by decide) .zero, fewSamples .one],
        ∀ dim, ((report [.autoPilot watchAll] e).get? dim).isSome ↔ dim = "api_latency" := by
      rw [List.forall_mem_cons, List.forall_mem_cons, List.forall_mem_singleton]
      have hlevel : ∀ (n : ℤ) (h : |n| < 2 ^ 53), (n : ℚ) ≠ 0 → (levelReading n h).Reported :=
        fun n h hn => ⟨Nat.succ_ne_zero 9, Nat.succ_ne_zero 9, fun hboth => hn hboth.2⟩
      exact ⟨isSome_report_single (hlevel 100 (by decide) (by norm_num)) hmem _,
        isSome_report_single (hlevel 1000 (by decide) (by norm_num)) hmem _,
        isSome_report_single ⟨Nat.succ_ne_zero 4, Nat.succ_ne_zero 9, by decide⟩ hmem _⟩
    exact meets_stillReported hnodup hmem fun e he e' he' dim hdim =>
      (hsingle e' he' dim).mpr ((hsingle e he dim).mp hdim)
  obtain ⟨t, s', hrun', hstep, hrecovers⟩ :=
    (autoPilot_recovers_iff [.autoPilot watchAll] hnodup watchAll hmem _).mpr hmeets
      [level 100 (by decide) .zero, level 1000 (by decide) .zero] (fewSamples .one) List.prefix_rfl
  cases hrun.symm.trans hrun'
  -- five samples are too few to violate, and the sum starts again
  have hfew : (watchAll.isViolating (s.cusum watchAll "api_latency")
      ((report [.autoPilot watchAll] (fewSamples .one)).get? "api_latency")).2 = false := by
    rw [fewSamples, get?_report_new (Nat.succ_ne_zero 4) (Nat.succ_ne_zero 9) Int.cast_zero
      (by decide)]
    rfl
  obtain ⟨hok, hcount, hqueued⟩ := hrecovers "api_latency" (.inl rfl) hfew
  obtain ⟨new, hnew, hin⟩ := hqueued hfiring
  exact ⟨s, s', new, hrun, hfiring, hstep, hok, hcount, hnew, hin⟩

open Monitor in
/-- A wildcard that fires for a dimension goes on firing when the dimension has no samples in the
current window. -/
theorem wildcard_keeps_firing : ∃ s s', run step (start [.autoPilot watchAll])
      [level 100 (by decide) .zero, level 1000 (by decide) .zero] = some s ∧ s.step (rotated .one)
        = some s'
    ∧ (s'.cusum watchAll "api_latency").status = .firing
    ∧ ¬ Recovers [.autoPilot watchAll] watchAll s (rotated .one) s' := by
  have hnodup : ([Rule.autoPilot watchAll].map Rule.name).Nodup := List.nodup_singleton _
  have hmem : Rule.autoPilot watchAll ∈ [Rule.autoPilot watchAll] := List.mem_cons_self
  obtain ⟨s, hrun, hsteady, hfiring⟩ := exists_firing
  obtain ⟨s', hstep, -⟩ := hsteady.step hnodup hmem (rotated .one)
  -- the dimension is not looked at
  have hmissing : (report [.autoPilot watchAll] (rotated .one)).get? "api_latency" = none := by
    unfold report Evaluation.entries
    rw [get?_driftMap]
    rfl
  have hskipped : "api_latency" ∉ watchAll.dimsToEval
    (report [.autoPilot watchAll] (rotated .one)) := by
    rw [AutoPilotRule.mem_dimsToEval (.inl rfl), hmissing]
    decide
  have hsame := cusum_of_notMem hnodup hmem hsteady.sorted hstep hskipped
  refine ⟨s, s', hrun, hstep, by rw [hsame, hfiring], ?_⟩
  intro hrecovers
  have hok := (hrecovers "api_latency" (.inl rfl) (by rw [hmissing]; rfl)).1
  rw [hsame, hfiring] at hok
  cases hok

end Sketchlog.Alerts
