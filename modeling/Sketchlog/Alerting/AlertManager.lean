import Mathlib.Data.Rat.Defs
import Mathlib.Algebra.Order.Ring.Rat
import Sketchlog.Lib.Dict

/-!
# `alert_manager.py`

Alerts are ingested, checked against silences, routed to channels and delivered; an active alert can
be resolved, which is delivered as well. `_http_post` is outside: what an attempt on a channel comes
to is an argument of the calls that deliver, and so is the clock. The store is kept in memory.
-/

namespace Sketchlog.Alerting

/-- `Severity`. -/
inductive Severity where
  | critical
  | warning
  | info
  deriving DecidableEq

/-- `AlertStatus`. -/
inductive AlertStatus where
  | firing
  | resolved
  | silenced
  deriving DecidableEq

/-- `DeliveryStatus`. -/
inductive DeliveryStatus where
  | pending
  | sent
  | failed
  | skipped
  deriving DecidableEq

/-- `_MAX_RETRY`. -/
def maxRetry : ℕ := 3

/-- `Alert`. -/
structure Alert where
  name : String
  space : String
  stream : String
  severity : Severity
  status : AlertStatus
  labels : Dict String String
  resolvedAt : Option ℚ
  tenant : String
  alertId : String

/-- `Alert.resolve`. -/
def Alert.resolve (self : Alert) (now : ℚ) : Alert :=
  { self with status := .resolved, resolvedAt := some now }

/-- `Alert.silence`. -/
def Alert.silence (self : Alert) : Alert := { self with status := .silenced }

/-! ## Matching -/

/-- The fields of a silence and of a route that an alert is compared with. -/
structure Matcher where
  space : String
  stream : String
  severity : Option Severity
  tenant : String
  labels : Dict String String

/-- The comparisons of `matches`. An empty field matches any. -/
def Matcher.accepts (self : Matcher) (alert : Alert) : Bool :=
  (self.space = "" || self.space = alert.space)
    && (self.stream = "" || self.stream = alert.stream)
    && (self.severity = none || self.severity = some alert.severity)
    && (self.tenant = "" || self.tenant = alert.tenant)
    && self.labels.items.all fun kv => alert.labels.get? kv.1 = some kv.2

/-- `Silence`. -/
structure Silence extends Matcher where
  startsAt : ℚ
  endsAt : ℚ
  silenceId : String
  starts_lt : startsAt < endsAt

/-- `Silence.is_active`. -/
def Silence.isActive (self : Silence) (at' : ℚ) : Bool := self.startsAt ≤ at' && at' < self.endsAt

/-- `Silence.matches`. -/
def Silence.matches (self : Silence) (alert : Alert) (at' : ℚ) : Bool :=
  self.isActive at' && self.accepts alert

/-- `Route`. -/
structure Route extends Matcher where
  channels : List String
  continueMatching : Bool
  channels_ne : channels ≠ []

/-- `Route.matches`. -/
def Route.matches (self : Route) (alert : Alert) : Bool := self.accepts alert

/-! ## Delivery -/

/-- `ChannelConfig`. -/
structure ChannelConfig where
  name : String
  adapter : String
  sendResolved : Bool

/-- `DeliveryRecord`. -/
structure DeliveryRecord where
  alertId : String
  channel : String
  adapter : String
  status : DeliveryStatus
  attempts : ℕ
  lastError : String

/-- What is outside: what the attempts on the channels come to, which is no error or its text, and
`repr`. -/
structure Attempts where
  outcome : String → ℕ → Option String
  reprStr : String → String

/-- The loop of `deliver` over the attempts on a channel. -/
def deliverAttempts (outcome : ℕ → Option String) : List ℕ → DeliveryRecord → DeliveryRecord
  | [], record => record
  | attempt :: rest, record =>
    match outcome attempt with
    | none => { record with attempts := attempt, status := .sent, lastError := "" }
    | some err =>
      let record := { record with
        attempts := attempt
        lastError := String.ofList (err.toList.take 300) }
      if attempt < maxRetry then deliverAttempts outcome rest record
      else { record with status := .failed }

/-- The body of `deliver`, for one channel. -/
def deliverOne (channels : Dict String ChannelConfig) (posts : Attempts) (alert : Alert) (ch : String) :
    DeliveryRecord :=
  match channels.get? ch with
  | none => ⟨alert.alertId, ch, "unknown", .failed, 0, s!"channel {posts.reprStr ch} not configured"⟩
  | some cfg =>
    if alert.status = .resolved ∧ cfg.sendResolved = false then
      ⟨alert.alertId, ch, cfg.adapter, .skipped, 0, ""⟩
    else deliverAttempts (posts.outcome ch) [1, 2, 3] ⟨alert.alertId, ch, cfg.adapter, .pending, 0, ""⟩

/-! ## The manager

Ingestion keeps an active alert under its id, or takes it off when it is silenced or not firing. -/

/-- `AlertManager`, with its store, silences, router and delivery engine. -/
structure AlertManager where
  active : Dict String Alert
  history : List Alert
  silences : Dict String Silence
  routes : List Route
  defaultChannels : List String
  channels : Dict String ChannelConfig
  records : Dict String DeliveryRecord

namespace AlertManager

/-- `AlertStore.upsert`. -/
def upsert (self : AlertManager) (alert : Alert) : AlertManager :=
  if alert.status = .resolved ∨ alert.status = .silenced then
    { self with active := self.active.pop alert.alertId, history := self.history ++ [alert] }
  else { self with active := self.active.set alert.alertId alert }

/-- `SilenceManager.is_silenced`. -/
def isSilenced (self : AlertManager) (alert : Alert) (now : ℚ) : Bool :=
  self.silences.items.any fun s => s.2.matches alert now

/-- The channels of a route that are not matched yet. -/
def extendMatched (matched channels : List String) : List String :=
  channels.foldl (fun matched ch => if ch ∈ matched then matched else matched ++ [ch]) matched

/-- The loop of `AlertRouter.resolve_channels`. -/
def matchRoutes (alert : Alert) (defaultChannels : List String) : List Route → List String → List String
  | [], matched => if matched = [] then defaultChannels else matched
  | route :: routes, matched =>
    if route.matches alert then
      let matched := extendMatched matched route.channels
      if route.continueMatching then matchRoutes alert defaultChannels routes matched else matched
    else matchRoutes alert defaultChannels routes matched

/-- `AlertRouter.resolve_channels`. -/
def resolveChannels (self : AlertManager) (alert : Alert) : List String :=
  matchRoutes alert self.defaultChannels self.routes []

/-- `DeliveryEngine.deliver`. -/
def deliver (self : AlertManager) (posts : Attempts) (alert : Alert) (channelNames : List String) :
    List DeliveryRecord × AlertManager :=
  let records := channelNames.map (deliverOne self.channels posts alert)
  (records, { self with
    records := records.foldl (fun d record =>
      d.set (record.alertId ++ ":" ++ record.channel) record) self.records })

/-- `ingest`. -/
def ingest (self : AlertManager) (alert : Alert) (now : ℚ) (posts : Attempts) :
    List DeliveryRecord × AlertManager :=
  if self.isSilenced alert now then ([], self.upsert alert.silence)
  else
    let self := self.upsert alert
    let channels := self.resolveChannels alert
    if channels = [] then ([], self) else self.deliver posts alert channels

/-- `resolve`. -/
def resolve (self : AlertManager) (alertId : String) (now : ℚ) (posts : Attempts) :
    Option (List DeliveryRecord) × AlertManager :=
  match self.active.get? alertId with
  | none => (none, self)
  | some alert =>
    let resolved := alert.resolve now
    let self := self.upsert resolved
    let channels := self.resolveChannels resolved
    if channels = [] then (some [], self)
    else
      let (records, self) := self.deliver posts resolved channels
      (some records, self)

/-- `add_silence`. -/
def addSilence (self : AlertManager) (silence : Silence) : AlertManager :=
  { self with silences := self.silences.set silence.silenceId silence }

/-- `remove_silence`. -/
def removeSilence (self : AlertManager) (silenceId : String) : Bool × AlertManager :=
  ((self.silences.get? silenceId).isSome, { self with silences := self.silences.pop silenceId })

/-- `add_route`. -/
def addRoute (self : AlertManager) (route : Route) : AlertManager :=
  { self with routes := self.routes ++ [route] }

end AlertManager

end Sketchlog.Alerting
