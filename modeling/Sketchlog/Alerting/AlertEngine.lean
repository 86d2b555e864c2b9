import Sketchlog.Alerting.Drift

/-!
# `alerts.py`: rules over the drift report

`AlertEngine.evaluate` reads the drift report once and then goes through the rules in the order in
which they were added. A rule's state stands in `self.states` under the rule's name: an `AlertState`
for an `AlertRule`, a dictionary of `CUSUMState`s by dimension for an `AutoPilotRule`. The
notifications are queued, and sent when all rules have been evaluated.
-/

namespace Sketchlog.Alerts

open Binary64 Otel

inductive AlertStatus where
  | ok
  | pending
  | firing
  deriving DecidableEq, Repr

/-- What `AlertRule.__post_init__` lets through. -/
structure AlertRule where
  name : String
  dimension : String
  minDriftPct : Binary64
  minSamples : ℕ
  sustainedWindows : ℕ
  directionFilter : Option Direction
  sustained_pos : 0 < sustainedWindows
  drift_nonneg : 0 ≤ minDriftPct.val
  direction_ne : directionFilter ≠ some .new

/-- What `AutoPilotRule.__post_init__` lets through. -/
structure AutoPilotRule where
  name : String
  dimension : String
  sensitivity : Binary64
  minSamples : ℕ
  sustainedWindows : ℕ
  directionFilter : Option Direction
  sensitivity_pos : 0 < sensitivity.val
  sustained_pos : 0 < sustainedWindows
  direction_ne : directionFilter ≠ some .new

inductive Rule where
  | alert (rule : AlertRule)
  | autoPilot (rule : AutoPilotRule)

def Rule.name : Rule → String
  | .alert rule => rule.name
  | .autoPilot rule => rule.name

structure AlertState where
  status : AlertStatus := .ok
  violationCount : ℕ := 0
  lastFiredAt : Float64 := .zero

structure CUSUMState extends AlertState where
  n : ℕ := 0
  mean : Float64 := .zero
  M2 : Float64 := .zero
  S_hi : Float64 := .zero
  S_lo : Float64 := .zero

/-- A value of `self.states`. -/
inductive Entry where
  | alert (state : AlertState)
  | autoPilot (states : Dict String CUSUMState)

/-- An entry of `webhooks_to_send`. -/
structure Notification where
  rule : Rule
  result : Option DriftResult
  isRecovery : Bool

structure AlertEngine where
  rules : List Rule
  states : Dict String Entry

/-- What `evaluate` raises. -/
inductive EvaluateError where
  | keyError (name : String)
  /-- `argument of type 'AlertState' is not iterable`. -/
  | typeError
  /-- `'dict' object has no attribute ...`. -/
  | attributeError (missing : String)
  deriving DecidableEq, Repr

/-! ## The state of a rule -/

/-- What follows `is_violating` in both loops: the new state, and the notification that is queued. -/
def AlertState.advance (state : AlertState) (isViolating : Bool) (sustainedWindows : ℕ)
    (currentTime : Float64) :
    AlertState × Option Bool :=
  if isViolating then
    let violationCount := state.violationCount + 1
    if sustainedWindows ≤ violationCount then
      if state.status ≠ .firing then (⟨.firing, violationCount, currentTime⟩, some false)
      else if floatGe (currentTime.sub state.lastFiredAt) (.ofRat 3600) then
        (⟨.firing, violationCount, currentTime⟩, some false)
      else (⟨.firing, violationCount, state.lastFiredAt⟩, none)
    else (⟨.pending, violationCount, state.lastFiredAt⟩, none)
  else (⟨.ok, 0, state.lastFiredAt⟩, if state.status = .firing then some true else none)

/-- The literal `1e-5`, by the exact value of the double it denotes. -/
def tenMicro : Binary64 :=
  ⟨5902958103587057 / 2 ^ 69, 5902958103587057, -69, by norm_num, by norm_num, by norm_num,
  by norm_num⟩

namespace CUSUMState

/-- `update`: the running statistics, and the score of `x` by the statistics before it. -/
def update (self : CUSUMState) (x : Float64) (sensitivity : Binary64) : CUSUMState × Float64 :=
  let variance := if 1 < self.n then self.M2.div (.ofRat (self.n - 1)) else .zero
  let stdDev := if Float64.zero.lt variance then mathSqrt variance else .zero
  let safeStdDev := floatMax stdDev (.fin tenMicro)
  let slack := Float64.div (.fin sensitivity) (.ofRat 2)
  let z := (x.sub self.mean).div safeStdDev
  let S_hi := if 0 < self.n then floatMax .zero ((self.S_hi.add z).sub slack) else self.S_hi
  let S_lo := if 0 < self.n then floatMax .zero ((self.S_lo.add (floatNeg z)).sub slack) else self.S_lo
  let score := if 0 < self.n then if Float64.zero.lt z then S_hi else S_lo else .zero
  if score.lt (Float64.mul (.fin sensitivity) (.ofRat 2)) then
    let n := self.n + 1
    let delta := x.sub self.mean
    let mean := self.mean.add (delta.div (.ofRat n))
    ({ self with n, mean, M2 := self.M2.add (delta.mul (x.sub mean)), S_hi, S_lo }, score)
  else ({ self with S_hi, S_lo }, score)

end CUSUMState

/-- `(not rule.direction_filter) or (result.get("direction") == rule.direction_filter)`. -/
def dirMatch (directionFilter : Option Direction) (result : DriftResult) : Bool :=
  directionFilter.isNone || directionFilter == some result.direction

/-! ## One rule

A rule with one dimension has one state; a rule for all dimensions has one for each. -/

namespace AlertRule

def isViolating (rule : AlertRule) (result : Option DriftResult) : Bool :=
  match result with
  | none => false
  | some result =>
      decide (rule.minSamples ≤ result.currentSamples) && dirMatch rule.directionFilter result
    && floatGe result.driftPct (.fin rule.minDriftPct)

/-- The loop body of `evaluate` for an `AlertRule`. -/
def evaluate (rule : AlertRule) (entry : Entry) (driftMap : Dict String DriftResult)
    (currentTime : Float64) :
    Except EvaluateError (Entry × List Notification) :=
  let result := driftMap.get? rule.dimension
  let violating := rule.isViolating result
  match entry with
  | .alert state =>
    let (state, queued) := state.advance violating rule.sustainedWindows currentTime
    .ok (.alert state, queued.toList.map (⟨.alert rule, result, ·⟩))
  | .autoPilot _ => .error (.attributeError (if violating then "violation_count" else "status"))

end AlertRule

namespace AutoPilotRule

/-- The part of the loop body that computes `is_violating`; the statistics are updated on the way. -/
def isViolating (rule : AutoPilotRule) (state : CUSUMState) (result : Option DriftResult) :
    CUSUMState × Bool :=
  match result with
  | none => (state, false)
  | some result =>
    if rule.minSamples ≤ result.currentSamples then
      let (state, score) := state.update result.currentP99 rule.sensitivity
      (state, dirMatch rule.directionFilter result && Float64.lt (.fin rule.sensitivity) score)
    else (state, false)

/-- The loop body of `evaluate` for one dimension. -/
def evaluateDim (rule : AutoPilotRule) (driftMap : Dict String DriftResult) (currentTime : Float64)
    (states : Dict String CUSUMState) (dim : String) : Dict String CUSUMState × List Notification :=
  let result := driftMap.get? dim
  let (state, violating) := rule.isViolating ((states.get? dim).getD {}) result
  let (alertState, queued) := state.toAlertState.advance violating rule.sustainedWindows currentTime
  (states.set dim { state with toAlertState := alertState },
    queued.toList.map (⟨.autoPilot rule, result, ·⟩))

/-- `list(drift_map.keys()) if rule.dimension == "*" else [rule.dimension]`. -/
def dimsToEval (rule : AutoPilotRule) (driftMap : Dict String DriftResult) : List String :=
  if rule.dimension = "*" then driftMap.keys else [rule.dimension]

def evaluateDims (rule : AutoPilotRule) (driftMap : Dict String DriftResult) (currentTime : Float64) :
    List String → Dict String CUSUMState → Dict String CUSUMState × List Notification
  | [], states => (states, [])
  | dim :: dims, states =>
    let (states, queued) := rule.evaluateDim driftMap currentTime states dim
    let (states, rest) := rule.evaluateDims driftMap currentTime dims states
    (states, queued ++ rest)

/-- The loop body of `evaluate` for an `AutoPilotRule`. -/
def evaluate (rule : AutoPilotRule) (entry : Entry) (driftMap : Dict String DriftResult)
    (currentTime : Float64) :
    Except EvaluateError (Entry × List Notification) :=
  let dims := rule.dimsToEval driftMap
  match entry with
  | .autoPilot states =>
    let (states, queued) := rule.evaluateDims driftMap currentTime dims states
    .ok (.autoPilot states, queued)
  -- `dim not in states_dict` is the first that is asked of the entry
  | .alert state => if dims = [] then .ok (.alert state, []) else .error .typeError

end AutoPilotRule

namespace Rule

/-- `{}` or `AlertState()`. -/
def newEntry : Rule → Entry
  | .alert _ => .alert {}
  | .autoPilot _ => .autoPilot ∅

def evaluate : Rule → Entry → Dict String DriftResult → Float64
    → Except EvaluateError (Entry × List Notification)
  | .alert rule => rule.evaluate
  | .autoPilot rule => rule.evaluate

end Rule

/-! ## The engine

All rules are evaluated over one report, whose threshold is the least of theirs. -/

namespace AlertEngine

def init : AlertEngine := ⟨[], ∅⟩

/-- `add_rule`: the rule is appended; its name keeps the state that it has. -/
def addRule (self : AlertEngine) (rule : Rule) : AlertEngine where
  rules := self.rules ++ [rule]
  states := if (self.states.get? rule.name).isSome then self.states
    else self.states.set rule.name rule.newEntry

/-- An engine with the given rules, added one after another. -/
def withRules (rules : List Rule) : AlertEngine := rules.foldl addRule init

/-- `min_thresh`. -/
def minThresh (rules : List Rule) : Binary64 :=
  let pcts := rules.filterMap fun
    | .alert rule => some rule.minDriftPct
    | .autoPilot _ => none
  if rules.any (fun | .autoPilot _ => true | .alert _ => false) then .ofInt 0 Binary64.abs_zero_lt
  else match pcts with
    | [] => .ofInt 0 Binary64.abs_zero_lt
    | pct :: pcts => pcts.foldl (fun least pct => if pct.val < least.val then pct else least) pct

/-- The argument of `drift`. -/
def threshold (rules : List Rule) : Float64 :=
  if 0 < (minThresh rules).val then Float64.div (.fin (minThresh rules)) (.ofRat 100) else .zero

/-- The loop over `rules_copy`. -/
def evaluateRules (driftMap : Dict String DriftResult) (currentTime : Float64) :
    List Rule → Dict String Entry → Except EvaluateError (Dict String Entry × List Notification)
  | [], states => .ok (states, [])
  | rule :: rules, states =>
    match states.get? rule.name with
    | none => .error (.keyError rule.name)
    | some entry => do
      let (entry, queued) ← rule.evaluate entry driftMap currentTime
      let (states, rest) ← evaluateRules driftMap currentTime rules (states.set rule.name entry)
      .ok (states, queued ++ rest)

/-- `evaluate`, up to the notifications that are to be sent. -/
def evaluate (self : AlertEngine) (current : Dict String Reading) (currentTime : Float64) :
    Except EvaluateError (AlertEngine × List Notification) :=
  if self.rules = [] then .ok (self, [])
  else do
    let entries := driftMap (drift current (threshold self.rules))
    let (states, queued) ← evaluateRules entries currentTime self.rules self.states
    .ok ({ self with states }, queued)

end AlertEngine

end Sketchlog.Alerts
