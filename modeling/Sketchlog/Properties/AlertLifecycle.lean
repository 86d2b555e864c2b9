import Sketchlog.Refine.AlertRules

/-!
# The episodes of an alert rule

The status of an `AlertRule` says how long the current run of violating evaluations is: its
`violation_count` is the length of the streak, and the rule fires once the streak is
`sustained_windows` long. An episode opens with one notification and closes with one recovery; in
between there are repetitions, each an hour or more after the notification before it.
-/

namespace Sketchlog.Alerts

open Otel Runs

/-- How many evaluations in a row, up to the last one, were violating. -/
def streak (flags : List Bool) : ℕ := (flags.rtakeWhile id).length

@[simp] theorem streak_nil : streak [] = 0 := rfl

@[simp] theorem streak_concat_true (flags : List Bool) :
    streak (flags ++ [true]) = streak flags + 1 := by
  unfold streak
  rw [List.rtakeWhile_concat_pos id flags true rfl, List.length_append]
  rfl

@[simp] theorem streak_concat_false (flags : List Bool) : streak (flags ++ [false]) = 0 := by
  unfold streak
  rw [List.rtakeWhile_concat_neg id flags false Bool.false_ne_true]
  rfl

/-- A streak of length `k`: the last `k` evaluations were violating. -/
theorem le_streak_iff {k : ℕ} {flags : List Bool} : k ≤ streak flags
    ↔ List.replicate k true <:+ flags := by
  induction flags using List.reverseRecOn generalizing k with
  | nil => simp [List.replicate_eq_nil_iff]
  | append_singleton flags flag ih =>
    cases k with
    | zero => simp
    | succ k =>
      rw [List.replicate_succ', List.suffix_concat_iff]
      cases flag with
      | true => simp [ih]
      | false => simp

/-- The status that a streak stands for. -/
def statusOf (sustainedWindows count : ℕ) : AlertStatus :=
  if count = 0 then .ok else if count < sustainedWindows then .pending else .firing

/-- The notifications without the repetitions, those that fire what is firing: `true` is a recovery. -/
def milestones : Bool → List Bool → List Bool
  | _, [] => []
  | _, true :: rest => true :: milestones false rest
  | true, false :: rest => milestones true rest
  | false, false :: rest => false :: milestones true rest

/-- Whether a rule is firing after the notifications so far. -/
def firingAfter (flags : List Bool) : Bool := flags.getLast? == some false

theorem milestones_concat (firing : Bool) (flags : List Bool) (flag : Bool) :
    milestones firing (flags ++ [flag]) = milestones firing flags
      ++ milestones (if flags = [] then firing else firingAfter flags) [flag] := by
  induction flags generalizing firing with
  | nil => rw [List.nil_append, if_pos rfl]; rfl
  | cons f flags ih =>
    -- whether it fires after the later flags does not depend on how it stood before them
    have hlast : (if flags = [] then !f else firingAfter flags) = firingAfter (f :: flags) := by
      unfold firingAfter
      cases flags with
      | nil => cases f <;> rfl
      | cons g rest => rw [if_neg (List.cons_ne_nil g rest), List.getLast?_cons_cons]
    rw [if_neg (List.cons_ne_nil f flags), ← hlast, List.cons_append]
    -- a recovery is always kept, a firing only if it fires anew
    cases f with
    | true =>
      show true :: milestones false (flags ++ [flag]) = true :: milestones false flags ++ _
      rw [ih false, List.cons_append]
      rfl
    | false =>
      cases firing with
      | true =>
        show milestones true (flags ++ [flag]) = milestones true flags ++ _
        rw [ih true]
        rfl
      | false =>
        show false :: milestones true (flags ++ [flag]) = false :: milestones true flags ++ _
        rw [ih true, List.cons_append]
        rfl

/-- Initial notifications and recoveries take turns, and an initial one comes first. -/
def TakeTurns (flags : List Bool) : Prop :=
  (milestones false flags).IsChain (· ≠ ·) ∧ (milestones false flags).head? ≠ some true

theorem takeTurns_nil : TakeTurns [] := ⟨List.isChain_nil, by simp [milestones]⟩

theorem getLast?_milestones (flags : List Bool) :
    (milestones false flags).getLast? = flags.getLast? := by
  induction flags using List.reverseRecOn with
  | nil => rfl
  | append_singleton flags flag ih =>
    rw [milestones_concat, List.getLast?_append, List.getLast?_append, List.getLast?_singleton]
    cases flag with
    | true => rfl
    | false =>
      by_cases hfiring : firingAfter flags = true
      · -- a repetition: the last milestone is the notification that it repeats
        have hne : flags ≠ [] := by
          intro hnil
          rw [hnil] at hfiring
          cases hfiring
        rw [if_neg hne, hfiring, ih]
        exact eq_of_beq hfiring
      · rw [Bool.not_eq_true] at hfiring
        split <;> (try rw [hfiring]) <;> rfl

/-- An initial notification or a recovery may follow where it changes whether the rule is firing. -/
theorem TakeTurns.concat {flags : List Bool} (h : TakeTurns flags) {flag : Bool}
    (hflag : firingAfter flags = flag) :
    TakeTurns (flags ++ [flag]) := by
  obtain ⟨hchain, hhead⟩ := h
  -- the flag differs from the last milestone, so it is one itself
  have hnew : milestones false (flags ++ [flag]) = milestones false flags ++ [flag] := by
    rw [milestones_concat]
    congr 1
    subst hflag
    by_cases hnil : flags = []
    · rw [hnil]
      rfl
    · rw [if_neg hnil]
      cases firingAfter flags <;> rfl
  -- the last milestone is the flag before it
  have hlast : ∀ x ∈ (milestones false flags).getLast?, x ≠ flag := by
    intro x hx heq
    rw [getLast?_milestones] at hx
    subst hflag
    unfold firingAfter at heq
    rw [Option.mem_def.mp hx] at heq
    cases x <;> cases heq
  constructor
  · rw [hnew]
    apply hchain.append (List.isChain_singleton _)
    intro x hx y hy
    cases Option.mem_def.mp hy
    exact hlast x hx
  · -- the first milestone is a firing, as the list began with one or the flag is it
    rw [hnew, List.head?_append]
    cases hm : (milestones false flags).head? with
    | some x =>
      rw [hm] at hhead
      exact hhead
    | none =>
      have hnil : milestones false flags = [] := List.head?_eq_none_iff.mp hm
      have hempty : flags.getLast? = none := by
        rw [← getLast?_milestones, hnil]
        rfl
      unfold firingAfter at hflag
      rw [hempty] at hflag
      subst hflag
      simp

/-- A repetition changes nothing. -/
theorem TakeTurns.repeat {flags : List Bool} (h : TakeTurns flags)
    (hfiring : firingAfter flags = true) :
    TakeTurns (flags ++ [false]) := by
  have hsame : milestones false (flags ++ [false]) = milestones false flags := by
    have hne : flags ≠ [] := by
      intro hnil
      rw [hnil] at hfiring
      cases hfiring
    rw [milestones_concat, if_neg hne, hfiring]
    exact List.append_nil _
  unfold TakeTurns
  rw [hsame]
  exact h

/-! ## One evaluation of a rule

The streak of equal flags decides the status. `advance` covers the transitions, one lemma each. -/

/-- The evaluation finds the rule's dimension drifting. -/
def AlertRule.violatingAt (rule : AlertRule) (threshold : Float64) (e : Evaluation) : Bool :=
  rule.isViolating ((e.entries threshold).get? rule.dimension)

/-- The recovery flags of notifications. -/
def recoveries (sent : List (Float64 × Notification)) : List Bool := sent.map (·.2.isRecovery)

/-- What an evaluation queues for a rule, by what the status was and what it becomes. -/
structure Notified (rule : AlertRule) (before after : AlertStatus) (time : Float64)
    (sent sent' : List (Float64 × Notification)) : Prop where
  opens : before ≠ .firing → after = .firing → ∃ result,
    sent' = sent ++ [(time, ⟨.alert rule, result, false⟩)]
  repeats : before = .firing → after = .firing → sent' = sent ∨ ∃ result last,
    sent' = sent ++ [(time, ⟨.alert rule, result, false⟩)] ∧ sent.getLast? = some last
      ∧ floatGe (time.sub last.1) (.ofRat 3600)
  closes : before = .firing → after ≠ .firing → ∃ result,
    sent' = sent ++ [(time, ⟨.alert rule, result, true⟩)]
  quiet : before ≠ .firing → after ≠ .firing → sent' = sent

/-- What the run of a rule is after evaluations with the given flags. -/
structure Tracks (rule : AlertRule) (flags : List Bool) (state : AlertState)
    (sent : List (Float64 × Notification)) : Prop where
  count : state.violationCount = streak flags
  status : state.status = statusOf rule.sustainedWindows (streak flags)
  fired : state.status = .firing → sent.getLast?.map (fun q => (q.1, q.2.isRecovery))
    = some (state.lastFiredAt, false)
  idle : state.status ≠ .firing → firingAfter (recoveries sent) = false
  turns : TakeTurns (recoveries sent)

namespace Tracks

variable {rule : AlertRule} {flags : List Bool} {state : AlertState}
    {sent : List (Float64 × Notification)}

theorem firingAfter_eq (h : Tracks rule flags state sent) (hfiring : state.status = .firing) :
    firingAfter (recoveries sent) = true := by
  obtain ⟨last, hlast, hpair⟩ := Option.map_eq_some_iff.mp (h.fired hfiring)
  unfold firingAfter recoveries
  rw [List.getLast?_map, hlast, Option.map_some, (Prod.mk.inj hpair).2]
  rfl

theorem status_ne_firing (h : Tracks rule flags state sent)
    (hshort : streak flags < rule.sustainedWindows) :
    state.status ≠ .firing := by
  rw [h.status, statusOf, if_pos hshort]
  split <;> decide

/-- What is claimed of one evaluation. -/
def Advances (rule : AlertRule) (flags : List Bool) (state : AlertState)
    (sent : List (Float64 × Notification))
    (violating : Bool) (time : Float64) (result : Option DriftResult) : Prop :=
  let next := state.advance violating rule.sustainedWindows time
  let sent' := sent ++ (next.2.toList.map fun isRecovery => (time, ⟨.alert rule, result, isRecovery⟩))
  Tracks rule (flags ++ [violating]) next.1 sent'
    ∧ Notified rule state.status next.1.status time sent sent'

theorem recoveries_concat (sent : List (Float64 × Notification)) (q : Float64 × Notification) :
    recoveries (sent ++ [q]) = recoveries sent ++ [q.2.isRecovery] := List.map_append

/-- The streak ends: a recovery when the rule was firing. -/
theorem clears (h : Tracks rule flags state sent) (time : Float64) (result : Option DriftResult) :
    Advances rule flags state sent false time result := by
  have hstatus : statusOf rule.sustainedWindows (streak (flags ++ [false])) = .ok := by
    rw [streak_concat_false]
    rfl
  unfold Advances AlertState.advance
  by_cases hfiring : state.status = .firing
  · simp only [Bool.false_eq_true, if_false, if_pos hfiring, Option.toList_some, List.map_cons,
      List.map_nil]
    refine ⟨⟨(streak_concat_false flags).symm, hstatus.symm, (fun hf => by cases hf), fun _ =>
      ?_, ?_⟩, ?_⟩
    · rw [recoveries_concat, firingAfter, List.getLast?_concat]
      rfl
    · rw [recoveries_concat]
      exact h.turns.concat (h.firingAfter_eq hfiring)
    · exact ⟨fun hne => absurd hfiring hne, fun _ hok => absurd hok (by decide), fun _ _ =>
        ⟨result, rfl⟩,
        fun hne => absurd hfiring hne⟩
  · simp only [Bool.false_eq_true, if_false, if_neg hfiring, Option.toList_none, List.map_nil,
      List.append_nil]
    refine ⟨⟨(streak_concat_false flags).symm, hstatus.symm, (fun hf => by cases hf), fun _ =>
      h.idle hfiring, h.turns⟩, ?_⟩
    exact ⟨fun _ hok => absurd hok (by decide), fun hf => absurd hf hfiring, fun hf =>
      absurd hf hfiring, fun _ _ => rfl⟩

/-- The streak is not long enough yet. -/
theorem waits (h : Tracks rule flags state sent)
    (hshort : ¬ rule.sustainedWindows ≤ streak flags + 1) (time : Float64)
    (result : Option DriftResult) : Advances rule flags state sent true time result := by
  have hfiring : state.status ≠ .firing := h.status_ne_firing (by omega)
  have hstatus : statusOf rule.sustainedWindows (streak (flags ++ [true])) = .pending := by
    rw [streak_concat_true, statusOf, if_neg (by omega), if_pos (by omega)]
  unfold Advances AlertState.advance
  rw [h.count]
  simp only [if_true, if_neg hshort, Option.toList_none, List.map_nil, List.append_nil]
  refine ⟨⟨(streak_concat_true flags).symm, hstatus.symm, (fun hf => by cases hf), fun _ =>
    h.idle hfiring, h.turns⟩, ?_⟩
  exact ⟨fun _ hok => absurd hok (by decide), fun hf => absurd hf hfiring, fun hf =>
    absurd hf hfiring, fun _ _ => rfl⟩

theorem statusOf_firing (hlong : rule.sustainedWindows ≤ streak flags + 1) :
    statusOf rule.sustainedWindows (streak (flags ++ [true])) = .firing := by
  rw [streak_concat_true, statusOf, if_neg (by omega), if_neg (by omega)]

/-- The streak becomes long enough. -/
theorem opens (h : Tracks rule flags state sent) (hlong : rule.sustainedWindows ≤ streak flags + 1)
    (hfiring : state.status ≠ .firing) (time : Float64) (result : Option DriftResult) :
    Advances rule flags state sent true time result := by
  unfold Advances AlertState.advance
  rw [h.count]
  simp only [if_true, if_pos hlong, if_pos hfiring, Option.toList_some, List.map_cons, List.map_nil]
  refine ⟨⟨(streak_concat_true flags).symm, (statusOf_firing hlong).symm, fun _ => ?_, fun hne =>
    absurd rfl hne, ?_⟩, ?_⟩
  · rw [List.getLast?_concat]
    rfl
  · rw [recoveries_concat]
    exact h.turns.concat (h.idle hfiring)
  · exact ⟨fun _ _ => ⟨result, rfl⟩, fun hf => absurd hf hfiring, fun hf => absurd hf hfiring,
      fun _ hne => absurd rfl hne⟩

/-- The streak goes on: a repetition when the last notification is an hour old. -/
theorem goesOn (h : Tracks rule flags state sent) (hlong : rule.sustainedWindows ≤ streak flags + 1)
    (hfiring : state.status = .firing) (time : Float64) (result : Option DriftResult) :
    Advances rule flags state sent true time result := by
  obtain ⟨last, hlast, hpair⟩ := Option.map_eq_some_iff.mp (h.fired hfiring)
  unfold Advances AlertState.advance
  rw [h.count]
  -- a reminder is due after an hour, and is sent without a change of status
  by_cases hdue : floatGe (time.sub state.lastFiredAt) (.ofRat 3600) = true
  · simp only [if_true, if_pos hlong, hfiring, ne_eq, not_true_eq_false, if_false, if_pos hdue,
      Option.toList_some,
      List.map_cons, List.map_nil]
    refine ⟨⟨(streak_concat_true flags).symm, (statusOf_firing hlong).symm, fun _ => ?_, fun hne =>
      absurd rfl hne, ?_⟩, ?_⟩
    · rw [List.getLast?_concat]
      rfl
    · rw [recoveries_concat]
      exact h.turns.repeat (h.firingAfter_eq hfiring)
    · refine ⟨fun hne => absurd rfl hne, fun _ _ =>
        .inr ⟨result, last, rfl, hlast, ?_⟩, fun _ hne => absurd rfl hne,
        fun hne => absurd rfl hne⟩
      rw [(Prod.mk.inj hpair).1]
      exact hdue
  · simp only [if_true, if_pos hlong, hfiring, ne_eq, not_true_eq_false, if_false, if_neg hdue,
      Option.toList_none,
      List.map_nil, List.append_nil]
    refine ⟨⟨(streak_concat_true flags).symm, (statusOf_firing hlong).symm, fun _ => h.fired hfiring,
      fun hne => absurd rfl hne, h.turns⟩, ?_⟩
    exact ⟨fun hne => absurd rfl hne, fun _ _ => .inl rfl, fun _ hne => absurd rfl hne, fun hne =>
      absurd rfl hne⟩

/-- **One evaluation** tracks the streak and queues what it should. -/
theorem advance (h : Tracks rule flags state sent) (violating : Bool) (time : Float64)
    (result : Option DriftResult) :
    Advances rule flags state sent violating time result := by
  cases violating with
  | false => exact h.clears time result
  | true =>
    by_cases hlong : rule.sustainedWindows ≤ streak flags + 1
    · by_cases hfiring : state.status = .firing
      · exact h.goesOn hlong hfiring time result
      · exact h.opens hlong hfiring time result
    · exact h.waits hlong time result

end Tracks

/-! ## Whole runs

Status and notifications as functions of the flags, by induction on the evaluations. -/

theorem tracks_start (rule : AlertRule) : Tracks rule [] {} [] where
  count := rfl
  status := rfl
  fired h := absurd h (by decide)
  idle _ := rfl
  turns := takeTurns_nil

/-- The step of an `AlertRule`, on a state of its kind. -/
theorem AlertRule.step_eq (rule : AlertRule) (threshold : Float64) (state : AlertState)
    (sent : List (Float64 × Notification)) (e : Evaluation) :
    (Rule.alert rule).step threshold ⟨.alert state, sent⟩ e
      = some ⟨.alert (state.advance (rule.violatingAt threshold e) rule.sustainedWindows e.time).1,
          sent ++ ((state.advance (rule.violatingAt threshold e) rule.sustainedWindows
            e.time).2.toList.map
            fun isRecovery => (e.time,
              ⟨.alert rule, (e.entries threshold).get? rule.dimension, isRecovery⟩))⟩ := by
  unfold Rule.step Rule.evaluate AlertRule.evaluate AlertRule.violatingAt
  simp only [List.map_map, Function.comp_def]

/-- **Every run of a rule tracks its flags.** -/
theorem run_tracks (rule : AlertRule) (threshold : Float64) (evals : List Evaluation) :
    ∃ state sent, run ((Rule.alert rule).step threshold) (Rule.alert rule).start evals
      = some ⟨.alert state, sent⟩
      ∧ Tracks rule (evals.map (rule.violatingAt threshold)) state sent := by
  induction evals using List.reverseRecOn with
  | nil => exact ⟨{}, [], rfl, tracks_start rule⟩
  | append_singleton evals e ih =>
    obtain ⟨state, sent, hrun, htracks⟩ := ih
    have hnext := htracks.advance (rule.violatingAt threshold e) e.time
      ((e.entries threshold).get? rule.dimension)
    refine ⟨_, _, run_append.mpr
      ⟨_, hrun, run_cons.mpr ⟨_, rule.step_eq threshold state sent e, rfl⟩⟩, ?_⟩
    rw [List.map_append]
    exact hnext.1

namespace Monitor

/-- `self.states[rule.name].status`. -/
def status? (s : Monitor) (rule : AlertRule) : Option AlertStatus :=
  match s.entry (.alert rule) with
  | some (.alert state) => some state.status
  | _ => none

theorem Follows.status?_eq {rules : List Rule} {rule : AlertRule} {s : Monitor} {state : AlertState}
    {sent : List (Float64 × Notification)} (h : Follows rules (.alert rule) s ⟨.alert state, sent⟩) :
    s.status? rule = some state.status := by
  unfold status?
  rw [h.entry_eq]

end Monitor

theorem name_map_alert (rules : List AlertRule) :
    (rules.map Rule.alert).map Rule.name = rules.map (·.name) :=
  List.map_map

variable {rules : List AlertRule} {evals : List Evaluation} {rule : AlertRule}

/-- A rule of the engine, and what its run tracks. -/
theorem Monitor.exists_tracks (hnames : ((rules.map Rule.alert).map Rule.name).Nodup) {s : Monitor}
    (hrun : run Monitor.step (Monitor.start (rules.map .alert)) evals = some s) (hmem : rule ∈ rules) :
    ∃ state, Monitor.Follows (rules.map .alert) (.alert rule) s ⟨.alert state, s.sent (.alert rule)⟩
      ∧ Tracks rule (evals.map (rule.violatingAt (AlertEngine.threshold (rules.map .alert)))) state
          (s.sent (.alert rule)) := by
  obtain ⟨r, hrule, hfollows⟩ := Monitor.run_follows_rule hnames (List.mem_map_of_mem hmem) hrun
  obtain ⟨state, sent, hrule', htracks⟩ :=
    run_tracks rule (AlertEngine.threshold (rules.map .alert)) evals
  cases hrule.symm.trans hrule'
  have hsent : s.sent (.alert rule) = sent := hfollows.sent_eq
  rw [hsent]
  exact ⟨state, hfollows, htracks⟩

/-- What one more evaluation queues. -/
theorem Monitor.exists_notified (hnames : ((rules.map Rule.alert).map Rule.name).Nodup)
    {s s' : Monitor} {e : Evaluation}
    (hrun : run Monitor.step (Monitor.start (rules.map .alert)) evals = some s)
    (hstep : s.step e = some s')
    (hmem : rule ∈ rules) :
    ∃ before after, s.status? rule = some before ∧ s'.status? rule = some after
      ∧ Notified rule before after e.time (s.sent (.alert rule)) (s'.sent (.alert rule)) := by
  obtain ⟨state, hfollows, htracks⟩ := Monitor.exists_tracks hnames hrun hmem
  obtain ⟨r, hrule, hfollows'⟩ := hfollows.step hnames (List.mem_map_of_mem hmem) hstep
  rw [rule.step_eq] at hrule
  cases hrule
  have hnotified := (htracks.advance (rule.violatingAt (AlertEngine.threshold (rules.map .alert)) e)
    e.time
    ((e.entries (AlertEngine.threshold (rules.map .alert))).get? rule.dimension)).2
  refine ⟨state.status, _, hfollows.status?_eq, hfollows'.status?_eq, ?_⟩
  rw [hfollows'.sent_eq]
  exact hnotified

/-- **The alert state machine.** After every sequence of evaluations a rule is `FIRING` exactly when
its last `sustained_windows` evaluations were violating, `PENDING` while a shorter streak lasts, and
`OK` otherwise. The last evaluation has queued what the change of status calls for, and over the
whole run initial notifications and recoveries take turns. -/
theorem alert_lifecycle (rules : List AlertRule) (hnodup : (rules.map (·.name)).Nodup)
    (evals : List Evaluation) :
    ∃ s, run Monitor.step (Monitor.start (rules.map .alert)) evals = some s ∧ ∀ rule ∈ rules,
      let flags := evals.map (rule.violatingAt (AlertEngine.threshold (rules.map .alert)))
      (s.status? rule = some .firing ↔ List.replicate rule.sustainedWindows true <:+ flags)
      ∧ (s.status? rule = some .pending ↔ 0 < streak flags ∧ streak flags < rule.sustainedWindows)
      ∧ (s.status? rule = some .ok ↔ streak flags = 0)
      ∧ TakeTurns (recoveries (s.sent (.alert rule)))
      ∧ ∀ past e, evals = past ++ [e] → ∃ s₀ before after,
          run Monitor.step (Monitor.start (rules.map .alert)) past = some s₀
          ∧ s₀.status? rule = some before ∧ s.status? rule = some after
          ∧ Notified rule before after e.time (s₀.sent (.alert rule)) (s.sent (.alert rule)) := by
  have hnames : ((rules.map Rule.alert).map Rule.name).Nodup := by rw [name_map_alert]; exact hnodup
  obtain ⟨s, hrun, -⟩ := Monitor.exists_run hnames evals
  refine ⟨s, hrun, fun rule hmem => ?_⟩
  intro flags
  -- the windows of a rule are at least one, so the three ranges of the streak are disjoint
  have hpos := rule.sustained_pos
  obtain ⟨state, hfollows, htracks⟩ := Monitor.exists_tracks hnames hrun hmem
  have hstatus : s.status? rule = some (statusOf rule.sustainedWindows (streak flags)) := by
    rw [hfollows.status?_eq, htracks.status]
  have hsplit : ∀ status, s.status? rule = some status
    ↔ statusOf rule.sustainedWindows (streak flags) = status := by
    intro status
    rw [hstatus, Option.some.injEq]
  -- the three statuses by the length of the streak
  refine ⟨?_, ?_, ?_, htracks.turns, ?_⟩
  · rw [hsplit, ← le_streak_iff, statusOf]
    split
    · simp only [reduceCtorEq, false_iff]
      omega
    · split <;> simp only [reduceCtorEq, false_iff, true_iff] <;> omega
  · rw [hsplit, statusOf]
    split
    · simp only [reduceCtorEq, false_iff]
      omega
    · split <;> simp only [reduceCtorEq, false_iff, true_iff] <;> omega
  · rw [hsplit, statusOf]
    split
    · simp only [true_iff]
      assumption
    · split <;> simp only [reduceCtorEq, false_iff] <;> assumption
  · -- the last evaluation, split off from the run before it
    rintro past e rfl
    obtain ⟨s₀, hrun₀, hlast⟩ := run_append.mp hrun
    obtain ⟨s₁, hstep, hrun₁⟩ := run_cons.mp hlast
    cases hrun₁
    obtain ⟨before, after, hbefore, hafter, hnotified⟩ :=
      Monitor.exists_notified hnames hrun₀ hstep hmem
    exact ⟨s₀, before, after, hrun₀, hbefore, hafter, hnotified⟩

/-! ## One rule, two evaluations -/

theorem unfiltered : (none : Option Direction) ≠ some .new := by decide

/-- Fires after two windows of drift in any direction. -/
def twoWindows : AlertRule where
  name := "api-drift"
  dimension := "api_latency"
  minDriftPct := .ofInt 20 (by decide)
  minSamples := 10
  sustainedWindows := 2
  directionFilter := none
  sustained_pos := Nat.two_pos
  drift_nonneg := by decide
  direction_ne := unfiltered

/-- Ten samples of a hundred, after a window of zeros. -/
def jump (time : Float64) : Evaluation :=
  ⟨Dict.set ∅ "api_latency"
    ⟨10, 10, .ofInt 100 Binary64.abs_hundred_lt, .ofInt 0 Binary64.abs_zero_lt⟩, time⟩

theorem twoWindows_violatingAt_jump (threshold time : Float64) :
    twoWindows.violatingAt threshold (jump time) = true := by
  unfold AlertRule.violatingAt Evaluation.entries
  rw [get?_driftMap]
  rfl

theorem alert_lifecycle_jump : ∃ s, run Monitor.step (Monitor.start [.alert twoWindows])
    [jump .zero, jump .one] = some s ∧ s.status? twoWindows = some .firing := by
  obtain ⟨s, hrun, hrules⟩ :=
    alert_lifecycle [twoWindows] (List.nodup_singleton _) [jump .zero, jump .one]
  refine ⟨s, hrun, (hrules twoWindows List.mem_cons_self).1.mpr ?_⟩
  simp only [List.map_cons, List.map_nil, twoWindows_violatingAt_jump]
  exact List.suffix_rfl

end Sketchlog.Alerts
