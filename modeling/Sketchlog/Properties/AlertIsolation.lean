import Sketchlog.Properties.AlertLifecycle

/-!
# Rules beside one another

Rules share the table of states, by name, and the drift report, which is computed at the least
threshold of all of them. A rule with a higher threshold then sees entries that it would not see
alone; `drift_pct` is rounded to two digits, so such an entry may even reach the rule's
`min_drift_pct`, and the recovery of a firing rule carries it as its details. With distinct names
this is the only way in which one rule can be told from another (`rules_isolated_iff`). A name that
an `AlertRule` and an `AutoPilotRule` share makes `evaluate` raise.
-/

namespace Sketchlog.Alerts

open Otel Runs

variable {rules : List Rule} {evals : List Evaluation}

/-- The change of the rule's dimension is reported at one of the two thresholds only: at the common
one of all rules, or at the one that the rule has alone. -/
def Between (rules : List Rule) (rule : AlertRule) (reading : Reading) : Prop :=
  reading.currCount ≠ 0 ∧ reading.prevCount ≠ 0 ∧ reading.prevP99.val ≠ 0
    ∧ floatGe reading.change (AlertEngine.threshold rules)
      ≠ floatGe reading.change (AlertEngine.threshold [.alert rule])

/-- An entry that the rule would not see alone makes no difference: it does not violate the rule, as
reported, and the rule has no recovery to report. -/
def Unaffected (rules : List Rule) (s : Monitor) (e : Evaluation) : Prop :=
  ∀ rule reading, .alert rule ∈ rules → e.current.get? rule.dimension = some reading
    → Between rules rule reading →
    rule.isViolating (some (reading.changedResult rule.dimension)) = false ∧ s.status? rule
      ≠ some .firing

/-- The rule has the state and the notifications that it would have alone. -/
def AsAlone (s : Monitor) (rule : Rule) (evals : List Evaluation) : Prop :=
  ∃ s₁, run Monitor.step (Monitor.start [rule]) evals = some s₁ ∧ s.entry rule = s₁.entry rule
    ∧ s.sent rule = s₁.sent rule

/-! ## One rule, two thresholds

The report depends on the least threshold of all rules. A rule sees a difference only if its own
dimension is reported under one and not under the other. -/

theorem Reading.result?_eq_iff (reading : Reading) (t t' : Float64) (name : String) :
    reading.result? t name = reading.result? t' name ↔ ¬ (reading.currCount ≠ 0 ∧ reading.prevCount ≠ 0
      ∧ reading.prevP99.val ≠ 0 ∧ floatGe reading.change t ≠ floatGe reading.change t') := by
  unfold Reading.result?
  by_cases hempty : reading.currCount = 0 ∨ reading.prevCount = 0
  · rw [if_pos hempty, if_pos hempty]
    simp only [true_iff]
    tauto
  rw [if_neg hempty, if_neg hempty]
  obtain ⟨hcurr, hprev⟩ := not_or.mp hempty
  by_cases hzero : reading.prevP99.val = 0
  · simp [hzero]
  · have hboth : ¬ (reading.prevP99.val = 0 ∧ reading.currP99.val = 0) := fun h => hzero h.1
    rw [if_neg hboth, if_neg hboth, if_neg hzero, if_neg hzero]
    cases floatGe reading.change t <;> cases floatGe reading.change t' <;> simp [hcurr, hprev, hzero]

/-- A reading that is reported at one threshold only is reported as changed. -/
theorem Reading.result?_of_ne {reading : Reading} {t t' : Float64} {name : String}
    (h : reading.result? t name ≠ reading.result? t' name) :
    (reading.result? t name = some (reading.changedResult name) ∧ reading.result? t' name = none)
      ∨ (reading.result? t name = none ∧ reading.result? t' name
        = some (reading.changedResult name)) := by
  rw [ne_eq, Reading.result?_eq_iff, not_not] at h
  obtain ⟨hcurr, hprev, hzero, hne⟩ := h
  have hempty : ¬ (reading.currCount = 0 ∨ reading.prevCount = 0) := not_or.mpr ⟨hcurr, hprev⟩
  have hboth : ¬ (reading.prevP99.val = 0 ∧ reading.currP99.val = 0) := fun h => hzero h.1
  unfold Reading.result?
  rw [if_neg hempty, if_neg hempty, if_neg hboth, if_neg hboth, if_neg hzero, if_neg hzero]
  cases hleft : floatGe reading.change t <;> cases hright : floatGe reading.change t'
  · exact absurd (hleft.trans hright.symm) hne
  · exact .inr ⟨rfl, rfl⟩
  · exact .inl ⟨rfl, rfl⟩
  · exact absurd (hleft.trans hright.symm) hne

/-- The rule's run after an evaluation that reports `result` for its dimension. -/
def AlertRule.outcome (rule : AlertRule) (state : AlertState) (sent : List (Float64 × Notification))
    (time : Float64)
    (result : Option DriftResult) : RuleRun where
  entry := .alert (state.advance (rule.isViolating result) rule.sustainedWindows time).1
  sent := sent ++ ((state.advance (rule.isViolating result) rule.sustainedWindows time).2.toList.map
    fun isRecovery => (time, ⟨.alert rule, result, isRecovery⟩))

theorem AlertState.violationCount_advance_true (state : AlertState) (k : ℕ) (time : Float64) :
    (state.advance true k time).1.violationCount = state.violationCount + 1 := by
  unfold AlertState.advance
  simp only [if_true]
  split
  · split
    · rfl
    · split <;> rfl
  · rfl

/-- An entry is as good as none where it does not violate the rule and the rule is not firing. -/
theorem AlertRule.outcome_eq_iff (rule : AlertRule) (state : AlertState)
    (sent : List (Float64 × Notification))
    (time : Float64) (d : DriftResult) : rule.outcome state sent time (some d)
      = rule.outcome state sent time none
      ↔ rule.isViolating (some d) = false ∧ state.status ≠ .firing := by
  have hnone : rule.isViolating none = false := rfl
  -- a violation is counted, so the entries differ
  cases hviolating : rule.isViolating (some d) with
  | true =>
    simp only [Bool.true_eq_false, false_and, iff_false]
    intro h
    have hentry := congrArg RuleRun.entry h
    simp only [AlertRule.outcome, hviolating, hnone, Entry.alert.injEq] at hentry
    have hcount := congrArg AlertState.violationCount hentry
    rw [AlertState.violationCount_advance_true] at hcount
    cases hcount
  | false =>
    simp only [true_and]
    -- without one, only a firing rule sends anything
    by_cases hfiring : state.status = .firing
    · simp only [hfiring, ne_eq, not_true_eq_false, iff_false]
      intro h
      have hsent := congrArg RuleRun.sent h
      simp only [AlertRule.outcome, hviolating, hnone, AlertState.advance, Bool.false_eq_true,
        if_false, hfiring, if_true,
        Option.toList_some, List.map_cons, List.map_nil, List.append_cancel_left_eq] at hsent
      cases hsent
    · simp only [ne_eq, hfiring, not_false_eq_true, iff_true]
      simp only [AlertRule.outcome, hviolating, hnone, AlertState.advance, Bool.false_eq_true,
        if_false, if_neg hfiring,
        Option.toList_none, List.map_nil]

/-- **One evaluation at two thresholds.** -/
theorem AlertRule.step_eq_iff (rule : AlertRule) (t t' : Float64) (state : AlertState)
    (sent : List (Float64 × Notification)) (e : Evaluation) :
    (Rule.alert rule).step t ⟨.alert state, sent⟩ e = (Rule.alert rule).step t' ⟨.alert state, sent⟩ e
      ↔ ∀ reading, e.current.get? rule.dimension = some reading →
        reading.result? t rule.dimension ≠ reading.result? t' rule.dimension →
        rule.isViolating (some (reading.changedResult rule.dimension)) = false ∧ state.status
          ≠ .firing := by
  -- a step of a rule sees the report only through its own dimension
  have hstep : ∀ threshold, (Rule.alert rule).step threshold ⟨.alert state, sent⟩ e
      = some (rule.outcome state sent e.time ((e.current.get? rule.dimension).bind fun reading =>
          reading.result? threshold rule.dimension)) := by
    intro threshold
    rw [rule.step_eq, AlertRule.violatingAt, Evaluation.entries, get?_driftMap]
    rfl
  rw [hstep, hstep, Option.some.injEq]
  -- the two thresholds report the same, or one reports the change and the other nothing
  cases hget : e.current.get? rule.dimension with
  | none => simp
  | some reading =>
    simp only [Option.bind_some, Option.some.injEq, forall_eq']
    by_cases heq : reading.result? t rule.dimension = reading.result? t' rule.dimension
    · simp [heq]
    · simp only [ne_eq, heq, not_false_eq_true, forall_const]
      rcases Reading.result?_of_ne heq with ⟨hsome, hnone⟩ | ⟨hnone, hsome⟩
      · rw [hsome, hnone]
        exact rule.outcome_eq_iff state sent e.time _
      · rw [hsome, hnone, eq_comm]
        exact rule.outcome_eq_iff state sent e.time _

/-- An `AutoPilotRule` brings the common threshold down to zero, which is its own. -/
theorem threshold_of_autoPilot {rule : AutoPilotRule} (hmem : .autoPilot rule ∈ rules) :
    AlertEngine.threshold rules = AlertEngine.threshold [.autoPilot rule] := by
  have hzero : ∀ rs : List Rule, .autoPilot rule ∈ rs → AlertEngine.minThresh rs
    = .ofInt 0 Binary64.abs_zero_lt := by
    intro rs hmem
    exact if_pos (List.any_eq_true.mpr ⟨_, hmem, rfl⟩)
  unfold AlertEngine.threshold
  rw [hzero rules hmem, hzero _ List.mem_cons_self]

/-! ## Whole runs

A rule fares in company as it does alone if and only if no evaluation of the run is such a case. -/

/-- The joint run of a rule and its run alone, both as runs of the rule. -/
theorem asAlone_iff (hnodup : (rules.map Rule.name).Nodup) {rule : Rule} (hmem : rule ∈ rules)
    {s : Monitor}
    (hrun : run Monitor.step (Monitor.start rules) evals = some s) :
    AsAlone s rule evals ↔ run (rule.step (AlertEngine.threshold rules)) rule.start evals
      = run (rule.step (AlertEngine.threshold [rule])) rule.start evals := by
  obtain ⟨r, hr, hfollows⟩ := Monitor.run_follows_rule hnodup hmem hrun
  have hone : ([rule].map Rule.name).Nodup := List.nodup_singleton _
  obtain ⟨s₁, hrun₁, -⟩ := Monitor.exists_run hone evals
  obtain ⟨r₁, hr₁, hfollows₁⟩ := Monitor.run_follows_rule hone List.mem_cons_self hrun₁
  rw [hr, hr₁, Option.some.injEq]
  constructor
  · rintro ⟨s₂, hrun₂, hentry, hsent⟩
    cases hrun₁.symm.trans hrun₂
    rw [hfollows.entry_eq, hfollows₁.entry_eq, Option.some.injEq] at hentry
    rw [hfollows.sent_eq, hfollows₁.sent_eq] at hsent
    obtain ⟨entry, sent⟩ := r
    obtain ⟨entry₁, sent₁⟩ := r₁
    cases hentry
    cases hsent
    rfl
  · rintro rfl
    exact ⟨s₁, hrun₁, by rw [hfollows.entry_eq, hfollows₁.entry_eq], by
      rw [hfollows.sent_eq, hfollows₁.sent_eq]⟩

/-- For one rule, one evaluation: the step is the one that the rule takes alone. -/
theorem step_alone_iff (hnodup : (rules.map Rule.name).Nodup) {rule : AlertRule}
    (hmem : .alert rule ∈ rules)
    {calls : List Evaluation} {s : Monitor}
    (hrun : run Monitor.step (Monitor.start rules) calls = some s)
    (e : Evaluation) :
    (∀ r, run ((Rule.alert rule).step (AlertEngine.threshold rules)) (Rule.alert rule).start calls
      = some r →
      (Rule.alert rule).step (AlertEngine.threshold rules) r e
        = (Rule.alert rule).step (AlertEngine.threshold [.alert rule]) r e)
      ↔ ∀ reading, e.current.get? rule.dimension = some reading → Between rules rule reading →
        rule.isViolating (some (reading.changedResult rule.dimension)) = false ∧ s.status? rule
          ≠ some .firing := by
  obtain ⟨r, hr, hfollows⟩ := Monitor.run_follows_rule hnodup hmem hrun
  obtain ⟨state, sent, hr', -⟩ := run_tracks rule (AlertEngine.threshold rules) calls
  cases hr.symm.trans hr'
  have hbetween : ∀ reading : Reading, reading.result? (AlertEngine.threshold rules) rule.dimension
      ≠ reading.result? (AlertEngine.threshold [.alert rule]) rule.dimension
        ↔ Between rules rule reading := by
    intro reading
    rw [ne_eq, Reading.result?_eq_iff, not_not]
    exact Iff.rfl
  rw [hr, hfollows.status?_eq]
  simp only [Option.some.injEq, forall_eq', ne_eq, rule.step_eq_iff, ← hbetween]

/-- **Rules do not interfere**, as long as their names are distinct, exactly when no entry that is
only reported for another rule's sake makes a difference: no evaluation raises, and every rule has
the state and the notifications that it would have as the only rule. -/
theorem rules_isolated_iff (rules : List Rule) (hnodup : (rules.map Rule.name).Nodup)
    (evals : List Evaluation) :
    (∀ calls, calls <+: evals → ∃ s, run Monitor.step (Monitor.start rules) calls = some s
      ∧ ∀ rule ∈ rules, AsAlone s rule calls)
      ↔ Meets Monitor.step (Unaffected rules) (Monitor.start rules) evals := by
  -- both sides are about every rule and every evaluation, in the state before it
  have hruns : (∀ calls, calls <+: evals → ∃ s, run Monitor.step (Monitor.start rules) calls = some s
      ∧ ∀ rule ∈ rules, AsAlone s rule calls) ↔ ∀ rule ∈ rules, ∀ calls, calls <+: evals →
        run (rule.step (AlertEngine.threshold rules)) rule.start calls
          = run (rule.step (AlertEngine.threshold [rule])) rule.start calls := by
    constructor
    · intro h rule hmem calls hcalls
      obtain ⟨s, hrun, halone⟩ := h calls hcalls
      exact (asAlone_iff hnodup hmem hrun).mp (halone rule hmem)
    · intro h calls hcalls
      obtain ⟨s, hrun, -⟩ := Monitor.exists_run hnodup calls
      exact ⟨s, hrun, fun rule hmem => (asAlone_iff hnodup hmem hrun).mpr (h rule hmem calls hcalls)⟩
  rw [hruns, meets_iff_forall_steps]
  simp only [runs_agree_iff, meets_iff_forall_steps]
  constructor
  · intro h calls e hcalls s hrun rule reading hmem
    exact (step_alone_iff hnodup hmem hrun e).mp (fun r hr => h _ hmem calls e hcalls r hr) reading
  · intro h rule hmem calls e hcalls r hr
    obtain ⟨s, hrun, -⟩ := Monitor.exists_run hnodup calls
    cases rule with
    | alert rule =>
      apply (step_alone_iff hnodup hmem hrun e).mpr _ r hr
      exact fun reading => h calls e hcalls s hrun rule reading hmem
    | autoPilot rule => rw [threshold_of_autoPilot hmem]

/-! ## Two rules -/

theorem three_pos : 0 < (Binary64.ofInt 3 Binary64.abs_three_lt).val := by decide

/-- Watches one dimension; the name is given. -/
def watchLatency (name : String) : AutoPilotRule where
  name := name
  dimension := "api_latency"
  sensitivity := .ofInt 3 Binary64.abs_three_lt
  minSamples := 10
  sustainedWindows := 1
  directionFilter := none
  sensitivity_pos := three_pos
  sustained_pos := Nat.one_pos
  direction_ne := unfiltered

/-- A drift rule and an autopilot rule of another name. -/
theorem rules_isolated_jump : ∃ s, run Monitor.step
      (Monitor.start [.alert twoWindows, .autoPilot (watchLatency "autopilot")])
        [jump .zero, jump .one] = some s
    ∧ AsAlone s (.alert twoWindows) [jump .zero, jump .one]
    ∧ AsAlone s (.autoPilot (watchLatency "autopilot")) [jump .zero, jump .one] := by
  have hjump : ∀ s time, Unaffected [.alert twoWindows, .autoPilot (watchLatency "autopilot")] s
    (jump time) := by
    intro s time rule reading hmem hget hbetween
    -- the window before holds zeros only, and such a dimension is reported at every threshold
    have hrule : rule = twoWindows := by
      simpa using hmem
    subst hrule
    cases hget
    exact absurd rfl hbetween.2.2.1
  have hall := (rules_isolated_iff [.alert twoWindows, .autoPilot (watchLatency "autopilot")]
    (by decide)
    [jump .zero, jump .one]).mpr ⟨hjump _ _, fun _ _ => ⟨hjump _ _, fun _ _ => trivial⟩⟩
  obtain ⟨s, hrun, halone⟩ := hall _ List.prefix_rfl
  exact ⟨s, hrun, halone _ List.mem_cons_self, halone _ (List.mem_cons_of_mem _ List.mem_cons_self)⟩

/-- An `AlertRule` and an `AutoPilotRule` of one name: `evaluate` looks for the dimension in an
`AlertState`. -/
theorem shared_name_raises :
    (AlertEngine.withRules [.alert twoWindows, .autoPilot (watchLatency "api-drift")]).evaluate
      (jump .zero).current
      (jump .zero).time = .error .typeError := rfl

end Sketchlog.Alerts
