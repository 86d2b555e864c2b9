import Sketchlog.Alerting.AlertEngine
import Sketchlog.Lib.Checked
import Sketchlog.Lib.Runs

/-!
# A rule on its own

Rules with distinct names have their own entries in the table of states, and share only the drift
report. So the run of an engine, seen from one of its rules, is a run of that rule alone on the
entries that `drift` reports at the common threshold (`Monitor.run_follows_rule`), and no evaluation
raises (`Monitor.exists_run`).
-/

namespace Sketchlog.Alerts

open Otel Runs

/-! ## What the drift report says of a dimension -/

/-- **The report, by dimension**: `drift` reports a dimension by its own reading. -/
theorem get?_driftMap (current : Dict String Reading) (threshold : Float64) (name : String) :
    (driftMap (drift current threshold)).get? name
      = (current.get? name).bind fun reading => reading.result? threshold name := by
  have hperm : (drift current threshold).Perm (current.items.filterMap fun kv =>
    kv.2.result? threshold kv.1) :=
    List.mergeSort_perm _ _
  have hkey : ∀ (reading : Reading) (name : String) (d : DriftResult),
      reading.result? threshold name = some d → d.dimension = name :=
        fun _ _ _ => Reading.dimension_of_result?
  exact Dict.get?_foldl_set_filterMap hkey current hperm name

/-! ## Runs of the engine and runs of a rule

An engine with many rules does for each what a run of the rule by itself does, over the same
reports. `run_follows_rule` is the simulation, by induction on the evaluations. -/

/-- A call of `evaluate`: the readings of the sketch, and the time. -/
structure Evaluation where
  current : Dict String Reading
  time : Float64

/-- The drift report of an evaluation at a threshold. -/
def Evaluation.entries (e : Evaluation) (threshold : Float64) : Dict String DriftResult :=
  driftMap (drift e.current threshold)

/-- An engine, and all that it has queued, with the times. -/
structure Monitor where
  engine : AlertEngine
  queued : List (Float64 × Notification)

/-- A rule's entry, and all that has been queued for the rule. -/
structure RuleRun where
  entry : Entry
  sent : List (Float64 × Notification)

namespace Monitor

def step (s : Monitor) (e : Evaluation) : Option Monitor :=
  match s.engine.evaluate e.current e.time with
  | .ok (engine, queued) => some ⟨engine, s.queued ++ queued.map (e.time, ·)⟩
  | .error _ => none

def start (rules : List Rule) : Monitor := ⟨.withRules rules, []⟩

def entry (s : Monitor) (rule : Rule) : Option Entry := s.engine.states.get? rule.name

/-- What has been queued under the rule's name. -/
def sent (s : Monitor) (rule : Rule) : List (Float64 × Notification) :=
  s.queued.filter fun q => q.2.rule.name = rule.name

end Monitor

namespace Rule

/-- An evaluation of one rule, with the report at a threshold. -/
def step (rule : Rule) (threshold : Float64) (r : RuleRun) (e : Evaluation) : Option RuleRun :=
  match rule.evaluate r.entry (e.entries threshold) e.time with
  | .ok (entry, queued) => some ⟨entry, r.sent ++ queued.map (e.time, ·)⟩
  | .error _ => none

def start (rule : Rule) : RuleRun := ⟨rule.newEntry, []⟩

/-- The entry is of the rule's kind. -/
def Fits : Rule → Entry → Prop
  | .alert _, .alert _ => True
  | .autoPilot _, .autoPilot _ => True
  | _, _ => False

theorem fits_newEntry (rule : Rule) : rule.Fits rule.newEntry := by
  cases rule <;> trivial

variable {rule : Rule} {entry : Entry} {driftMap : Dict String DriftResult} {currentTime : Float64}

theorem evaluateDims_rule {rule : AutoPilotRule} {dims : List String}
    {states : Dict String CUSUMState} :
    ∀ n ∈ (rule.evaluateDims driftMap currentTime dims states).2, n.rule = .autoPilot rule := by
  induction dims generalizing states with
  | nil => exact fun n hn => absurd hn List.not_mem_nil
  | cons dim dims ih =>
    intro n hn
    rcases List.mem_append.mp hn with hn | hn
    · obtain ⟨_, -, rfl⟩ := List.mem_map.mp hn
      rfl
    · exact ih n hn

/-- A rule queues notifications of its own. -/
theorem rule_of_evaluate {entry' : Entry} {queued : List Notification}
    (h : rule.evaluate entry driftMap currentTime = .ok (entry', queued)) :
      ∀ n ∈ queued, n.rule = rule := by
  cases rule with
  | alert rule =>
    cases entry with
    | alert state =>
      cases h
      intro n hn
      obtain ⟨_, -, rfl⟩ := List.mem_map.mp hn
      rfl
    | autoPilot states => cases h
  | autoPilot rule =>
    cases entry with
    | alert state =>
      simp only [evaluate, AutoPilotRule.evaluate] at h
      split at h
      · cases h
        exact fun n hn => absurd hn List.not_mem_nil
      · cases h
    | autoPilot states =>
      cases h
      exact evaluateDims_rule

/-- With an entry of its kind a rule is evaluated. -/
theorem exists_evaluate (hfits : rule.Fits entry) :
    ∃ entry' queued, rule.evaluate entry driftMap currentTime = .ok (entry', queued)
      ∧ rule.Fits entry' := by
  cases rule with
  | alert rule =>
    cases entry with
    | alert state => exact ⟨_, _, rfl, trivial⟩
    | autoPilot states => exact hfits.elim
  | autoPilot rule =>
    cases entry with
    | alert state => exact hfits.elim
    | autoPilot states => exact ⟨_, _, rfl, trivial⟩

end Rule

namespace AlertEngine

variable {driftMap : Dict String DriftResult} {currentTime : Float64} {rules : List Rule} {rule : Rule}
  {states states' : Dict String Entry} {queued : List Notification}

theorem evaluateRules_cons
    (h : evaluateRules driftMap currentTime (rule :: rules) states = .ok (states', queued)) :
    ∃ entry entry' own rest, states.get? rule.name = some entry
      ∧ rule.evaluate entry driftMap currentTime = .ok (entry', own)
      ∧ evaluateRules driftMap currentTime rules (states.set rule.name entry') = .ok (states', rest)
      ∧ queued = own ++ rest := by
  rw [evaluateRules] at h
  cases hget : states.get? rule.name with
  | none =>
    rw [hget] at h
    cases h
  | some entry =>
    rw [hget] at h
    obtain ⟨⟨entry', own⟩, hown, h⟩ := Checked.bind_eq_ok.mp h
    obtain ⟨⟨states₁, rest⟩, hrest, h⟩ := Checked.bind_eq_ok.mp h
    cases h
    exact ⟨entry, entry', own, rest, rfl, hown, hrest, rfl⟩

/-- Rules leave the entries of other names alone, and queue nothing under them. -/
theorem evaluateRules_frame {name : String} (hne : ∀ r ∈ rules, r.name ≠ name)
    (h : evaluateRules driftMap currentTime rules states = .ok (states', queued)) :
    states'.get? name = states.get? name ∧ queued.filter (fun n => n.rule.name = name) = [] := by
  induction rules generalizing states queued with
  | nil =>
    cases h
    exact ⟨rfl, rfl⟩
  | cons rule rules ih =>
    obtain ⟨entry, entry', own, rest, -, hown, hrest, rfl⟩ := evaluateRules_cons h
    obtain ⟨hne₁, hne₂⟩ := List.forall_mem_cons.mp hne
    obtain ⟨hget, hqueued⟩ := ih hne₂ hrest
    have hfilter : own.filter (fun n => n.rule.name = name) = [] := by
      apply List.filter_eq_nil_iff.mpr
      intro n hn
      rw [Rule.rule_of_evaluate hown n hn, decide_eq_true_eq]
      exact hne₁
    rw [Dict.get?_set_of_ne hne₁.symm] at hget
    exact ⟨hget, by rw [List.filter_append, hfilter, hqueued, List.nil_append]⟩

/-- **One rule among others.** A rule whose name no other rule has is evaluated on its own entry. -/
theorem evaluateRules_rule (hnodup : (rules.map Rule.name).Nodup) (hmem : rule ∈ rules) {entry : Entry}
    (hentry : states.get? rule.name = some entry)
    (h : evaluateRules driftMap currentTime rules states = .ok (states', queued)) :
    ∃ entry' own, rule.evaluate entry driftMap currentTime = .ok (entry', own)
      ∧ states'.get? rule.name = some entry' ∧ queued.filter (fun n => n.rule.name = rule.name)
        = own := by
  induction rules generalizing states queued with
  | nil => exact absurd hmem List.not_mem_nil
  | cons r rules ih =>
    rw [List.map_cons, List.nodup_cons] at hnodup
    obtain ⟨entry₁, entry', own, rest, hget, hown, hrest, rfl⟩ := evaluateRules_cons h
    have hownRule := Rule.rule_of_evaluate hown
    rcases List.mem_cons.mp hmem with rfl | hmem'
    · -- the rule itself: the ones after it have other names
      cases hentry.symm.trans hget
      have hne : ∀ r ∈ rules, r.name ≠ rule.name := by
        intro r hr heq
        exact hnodup.1 (List.mem_map.mpr ⟨r, hr, heq⟩)
      obtain ⟨hget', hqueued⟩ := evaluateRules_frame hne hrest
      rw [Dict.get?_set_self] at hget'
      refine ⟨entry', own, hown, hget', ?_⟩
      rw [List.filter_append, hqueued, List.append_nil]
      apply List.filter_eq_self.mpr
      intro n hn
      rw [hownRule n hn, decide_eq_true_eq]
    · -- a rule after `r`, which has another name
      have hne : rule.name ≠ r.name := fun heq => hnodup.1 (List.mem_map.mpr ⟨rule, hmem', heq⟩)
      obtain ⟨entry'', own', hown', hget', hqueued⟩ :=
        ih hnodup.2 hmem' (by rw [Dict.get?_set_of_ne hne, hentry]) hrest
      refine ⟨entry'', own', hown', hget', ?_⟩
      have hfilter : own.filter (fun n => n.rule.name = rule.name) = [] := by
        apply List.filter_eq_nil_iff.mpr
        intro n hn
        rw [hownRule n hn, decide_eq_true_eq]
        exact hne.symm
      rw [List.filter_append, hfilter, hqueued, List.nil_append]

/-- Where every rule has an entry of its kind, nothing is raised. -/
theorem exists_evaluateRules (hnodup : (rules.map Rule.name).Nodup)
    (hfits : ∀ rule ∈ rules, ∃ entry, states.get? rule.name = some entry ∧ rule.Fits entry) :
    ∃ states' queued, evaluateRules driftMap currentTime rules states = .ok (states', queued) := by
  induction rules generalizing states with
  | nil => exact ⟨states, [], rfl⟩
  | cons r rules ih =>
    rw [List.map_cons, List.nodup_cons] at hnodup
    obtain ⟨⟨entry, hget, hfit⟩, hrest⟩ := List.forall_mem_cons.mp hfits
    obtain ⟨entry', own, hown, -⟩ : ∃ entry' own, r.evaluate entry driftMap currentTime
      = .ok (entry', own) ∧ r.Fits entry' :=
      Rule.exists_evaluate hfit
    have hfits' : ∀ rule ∈ rules, ∃ entry, (states.set r.name entry').get? rule.name = some entry
      ∧ rule.Fits entry := by
      intro rule hmem
      have hne : rule.name ≠ r.name := fun heq => hnodup.1 (List.mem_map.mpr ⟨rule, hmem, heq⟩)
      rw [Dict.get?_set_of_ne hne]
      exact hrest rule hmem
    obtain ⟨states', rest, hrun⟩ := ih hnodup.2 hfits'
    refine ⟨states', own ++ rest, ?_⟩
    rw [evaluateRules, hget]
    exact Checked.bind_eq_ok.mpr
      ⟨(entry', own), hown, Checked.bind_eq_ok.mpr ⟨(states', rest), hrun, rfl⟩⟩

theorem withRules_append : withRules (rules ++ [rule]) = (withRules rules).addRule rule :=
  List.foldl_append

theorem rules_withRules (rules : List Rule) : (withRules rules).rules = rules := by
  induction rules using List.reverseRecOn with
  | nil => rfl
  | append_singleton rules rule ih =>
    rw [withRules_append]
    show (withRules rules).rules ++ [rule] = _
    rw [ih]

/-- The names in the table are those of the rules. -/
theorem withRules_get?_eq_none {name : String} (h : ∀ rule ∈ rules, rule.name ≠ name) :
    (withRules rules).states.get? name = none := by
  induction rules using List.reverseRecOn with
  | nil => rfl
  | append_singleton rules rule ih =>
    have hne : rule.name ≠ name := h rule (List.mem_append_right _ List.mem_cons_self)
    have hnone := ih fun r hr => h r (List.mem_append_left _ hr)
    rw [withRules_append]
    unfold addRule
    dsimp only
    split
    · exact hnone
    · rw [Dict.get?_set_of_ne hne.symm, hnone]

/-- `add_rule`, for rules of distinct names: each has a new entry. -/
theorem withRules_get? (hnodup : (rules.map Rule.name).Nodup) (hmem : rule ∈ rules) :
    (withRules rules).states.get? rule.name = some rule.newEntry := by
  induction rules using List.reverseRecOn with
  | nil => exact absurd hmem List.not_mem_nil
  | append_singleton rules r ih =>
    rw [List.map_append, List.nodup_append] at hnodup
    have hfresh : ∀ r' ∈ rules, r'.name ≠ r.name := by
      intro r' hr'
      exact hnodup.2.2 r'.name (List.mem_map_of_mem hr') r.name List.mem_cons_self
    rw [withRules_append]
    unfold addRule
    rw [withRules_get?_eq_none hfresh]
    rcases List.mem_append.mp hmem with hmem' | hmem'
    · simp only [Option.isSome_none, Bool.false_eq_true, if_false]
      rw [Dict.get?_set_of_ne (hfresh rule hmem'), ih hnodup.1 hmem']
    · cases List.mem_singleton.mp hmem'
      simp only [Option.isSome_none, Bool.false_eq_true, if_false, Dict.get?_set_self]

end AlertEngine

namespace Monitor

variable {rules : List Rule} {rule : Rule}

/-- The entry and the notifications of a rule are those of a run of its own. -/
structure Follows (rules : List Rule) (rule : Rule) (s : Monitor) (r : RuleRun) : Prop where
  rules_eq : s.engine.rules = rules
  entry_eq : s.entry rule = some r.entry
  sent_eq : s.sent rule = r.sent

theorem step_eq_some {s s' : Monitor} {e : Evaluation} : s.step e = some s' ↔ ∃ engine queued,
    s.engine.evaluate e.current e.time = .ok (engine, queued)
      ∧ s' = ⟨engine, s.queued ++ queued.map (e.time, ·)⟩ := by
  unfold step
  split
  case h_1 engine queued h =>
    rw [h]
    constructor
    · intro hs
      exact ⟨engine, queued, rfl, (Option.some.inj hs).symm⟩
    · rintro ⟨_, _, heq, rfl⟩
      cases heq
      rfl
  case h_2 h =>
    rw [h]
    constructor
    · intro hs
      cases hs
    · rintro ⟨_, _, heq, -⟩
      cases heq

/-- What an evaluation does, for an engine with rules. -/
theorem evaluate_eq_ok {s : Monitor} {e : Evaluation} {engine : AlertEngine}
    {queued : List Notification}
    (hmem : rule ∈ s.engine.rules) : s.engine.evaluate e.current e.time = .ok (engine, queued) ↔
      ∃ states, AlertEngine.evaluateRules (e.entries (AlertEngine.threshold s.engine.rules)) e.time
        s.engine.rules
        s.engine.states = .ok (states, queued) ∧ engine = { s.engine with states } := by
  unfold AlertEngine.evaluate
  rw [if_neg (List.ne_nil_of_mem hmem)]
  constructor
  · intro h
    obtain ⟨⟨states, queued'⟩, hrun, h⟩ := Checked.bind_eq_ok.mp h
    cases h
    exact ⟨states, hrun, rfl⟩
  · rintro ⟨states, hrun, rfl⟩
    exact Checked.bind_eq_ok.mpr ⟨(states, queued), hrun, rfl⟩

theorem Follows.step (hnodup : (rules.map Rule.name).Nodup) (hmem : rule ∈ rules) {s s' : Monitor}
    {r : RuleRun}
    {e : Evaluation} (h : Follows rules rule s r) (hstep : s.step e = some s') :
    ∃ r', rule.step (AlertEngine.threshold rules) r e = some r' ∧ Follows rules rule s' r' := by
  obtain ⟨hrules, hentry, hsent⟩ := h
  obtain ⟨engine, queued, heval, rfl⟩ := step_eq_some.mp hstep
  obtain ⟨states, hrun, rfl⟩ := (evaluate_eq_ok (hrules ▸ hmem)).mp heval
  rw [hrules] at hrun
  obtain ⟨entry', own, hown, hget, hqueued⟩ := AlertEngine.evaluateRules_rule hnodup hmem hentry hrun
  refine ⟨⟨entry', r.sent ++ own.map (e.time, ·)⟩, ?_, hrules, hget, ?_⟩
  · unfold Rule.step
    rw [hown]
  · show (s.queued ++ queued.map (e.time, ·)).filter _ = _
    rw [List.filter_append, List.filter_map, ← hsent, ← hqueued]
    rfl

theorem follows_start (hnodup : (rules.map Rule.name).Nodup) (hmem : rule ∈ rules) :
    Follows rules rule (start rules) rule.start :=
  ⟨AlertEngine.rules_withRules rules, AlertEngine.withRules_get? hnodup hmem, rfl⟩

/-- **A run, seen from a rule.** -/
theorem run_follows_rule (hnodup : (rules.map Rule.name).Nodup) (hmem : rule ∈ rules)
    {evals : List Evaluation}
    {s : Monitor} (hrun : run step (start rules) evals = some s) :
    ∃ r, run (rule.step (AlertEngine.threshold rules)) rule.start evals = some r
      ∧ Follows rules rule s r :=
  run_follows (fun _ _ _ _ h hstep => h.step hnodup hmem hstep) (follows_start hnodup hmem) hrun

/-- Every rule has an entry of its kind. -/
structure Sorted (rules : List Rule) (s : Monitor) : Prop where
  rules_eq : s.engine.rules = rules
  fits : ∀ rule ∈ rules, ∃ entry, s.entry rule = some entry ∧ rule.Fits entry

theorem sorted_start (hnodup : (rules.map Rule.name).Nodup) : Sorted rules (start rules) where
  rules_eq := AlertEngine.rules_withRules rules
  fits rule hmem := ⟨rule.newEntry, AlertEngine.withRules_get? hnodup hmem, rule.fits_newEntry⟩

theorem Sorted.step (hnodup : (rules.map Rule.name).Nodup) {s : Monitor} (h : Sorted rules s)
    (e : Evaluation) :
    ∃ s', s.step e = some s' ∧ Sorted rules s' := by
  obtain ⟨hrules, hfits⟩ := h
  cases hrs : rules with
  -- without rules the engine returns at once
  | nil =>
    have heval : s.engine.evaluate e.current e.time = .ok (s.engine, []) := if_pos (hrules.trans hrs)
    refine ⟨_, step_eq_some.mpr ⟨_, _, heval, rfl⟩, hrules.trans hrs, ?_⟩
    exact fun rule hmem => absurd hmem List.not_mem_nil
  | cons r rest =>
    rw [← hrs]
    have hmem : r ∈ s.engine.rules := by rw [hrules, hrs]; exact List.mem_cons_self
    -- every rule finds an entry of its own kind under its name
    obtain ⟨states, queued, hrun⟩ : ∃ states queued, AlertEngine.evaluateRules
        (e.entries (AlertEngine.threshold rules)) e.time rules s.engine.states = .ok (states, queued) :=
      AlertEngine.exists_evaluateRules hnodup hfits
    have heval : s.engine.evaluate e.current e.time = .ok ({ s.engine with states }, queued) :=
      (evaluate_eq_ok hmem).mpr ⟨states, by rw [hrules]; exact hrun, rfl⟩
    refine ⟨_, step_eq_some.mpr ⟨_, _, heval, rfl⟩, hrules, ?_⟩
    -- each rule leaves an entry of its own kind
    intro rule hmem'
    obtain ⟨entry, hget, hfit⟩ := hfits rule hmem'
    obtain ⟨entry', own, hown, hget', -⟩ := AlertEngine.evaluateRules_rule hnodup hmem' hget hrun
    obtain ⟨entry'', own', hown', hfit'⟩ : ∃ entry'' own', rule.evaluate entry
        (e.entries (AlertEngine.threshold rules)) e.time = .ok (entry'', own') ∧ rule.Fits entry'' :=
      Rule.exists_evaluate hfit
    cases hown.symm.trans hown'
    exact ⟨entry', hget', hfit'⟩

/-- **No evaluation raises** when the names of the rules are distinct. -/
theorem exists_run (hnodup : (rules.map Rule.name).Nodup) (evals : List Evaluation) :
    ∃ s, run step (start rules) evals = some s ∧ Sorted rules s :=
  Runs.exists_run (fun _ e h => h.step hnodup e) (sorted_start hnodup)

end Monitor

end Sketchlog.Alerts
