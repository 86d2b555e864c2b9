import Sketchlog.Agent.Prometheus
import Sketchlog.Lib.Nearest

/-!
# `agent.py`: `SketchLogAgent`

`run_once` scrapes the targets, collects what the mappings make of the samples in one batch for each
stream, and posts the batches in chunks. A scrape or a POST may fail, and then the call raises; the
table of the last counter values is written while the samples are read, and keeps what was written.

An `Environment` is what a call meets: the text that each target returns, and how each of its POSTs
ends.
-/

namespace Sketchlog.Agent

open Otel Binary64

inductive MappingKind where
  | latency
  | event
  | unique

inductive CounterMode where
  | delta
  | absolute

structure PrometheusTarget where
  name : Text
  url : Text

structure StreamMapping where
  metric : Text
  stream : Text
  kind : MappingKind
  eventName : Option Text
  labelFilters : Dict Text Text
  valueScale : Binary64
  counterMode : CounterMode

structure AgentConfig where
  prometheusTargets : List PrometheusTarget
  mappings : List StreamMapping
  maxBatchItems : ℕ

structure EventBatch where
  latencies : List Binary64
  uniques : List Text
  events : Dict Text ℤ

instance : EmptyCollection EventBatch := ⟨⟨[], [], ∅⟩⟩

/-- `item_count`. -/
def EventBatch.itemCount (self : EventBatch) : ℕ :=
  self.latencies.length + self.uniques.length + self.events.size

structure AgentRunStats where
  scrapedTargets : ℕ
  matchedSamples : ℕ
  forwardedBatches : ℕ
  forwardedItems : ℕ
  skippedSamples : ℕ

/-- A key of `_last_counter_values`. -/
structure SeriesKey where
  targetName : Text
  targetUrl : Text
  mappingIndex : ℕ
  metric : Text
  labels : List (Text × Text)
  stream : Text
  eventName : Text
deriving DecidableEq

/-! ## The environment of a call -/

/-- How a POST ends: it is applied and answered, applied without the answer reaching the agent, or
not applied. -/
inductive SendResult where
  | ok
  | lost
  | refused
deriving DecidableEq

/-- What the `i`-th target returns, and how the `j`-th POST of the call ends. -/
structure Environment where
  scrape : ℕ → Option Text
  send : ℕ → SendResult

/-- Why a call raises. -/
inductive Failure where
  | scrape (target : PrometheusTarget)
  | send (stream : Text)

/-- The agent's table, and what the server has applied for it. -/
structure Session where
  lastCounterValues : Dict SeriesKey Binary64
  applied : List (Text × EventBatch)

/-! ## Samples

Each sample runs through the mappings, and the counters of the session go along. -/

variable (showFloat : Binary64 → Text) (config : AgentConfig)

/-- `_mapping_matches`. -/
def mappingMatches (mapping : StreamMapping) (sample : PrometheusSample) : Bool :=
  sample.name = mapping.metric
    && mapping.labelFilters.items.all fun (key, value) => sample.labels.get? key = some value

/-- The key of a sample under a mapping. -/
def seriesKey (target : PrometheusTarget) (mappingIndex : ℕ) (mapping : StreamMapping)
    (sample : PrometheusSample) :
    SeriesKey where
  targetName := target.name
  targetUrl := target.url
  mappingIndex := mappingIndex
  metric := mapping.metric
  labels := sample.labels.items.mergeSort fun a b => a.1 ≤ b.1
  stream := mapping.stream
  eventName := mapping.eventName.getD []

/-- `int(round(value))`, of a finite number. -/
def intRound : Float64 → ℤ
  | .fin x => halfEven x.val
  | _ => 0

/-- `max(0.0, value - previous)`. -/
def positiveDelta (value previous : Binary64) : Float64 :=
  let delta := Float64.sub (.fin value) (.fin previous)
  if Float64.lt .zero delta then delta else .zero

/-- What a call has collected so far. -/
structure Scan where
  lastCounterValues : Dict SeriesKey Binary64
  batches : Dict Text EventBatch
  matched : ℕ
  skipped : ℕ

/-- `str(int(value)) if value.is_integer() else str(value)`. -/
def uniqueText (value : Binary64) : Text :=
  if value.val.den = 1 then (toString value.val.num).toList else showFloat value

/-- The number of events of a sample, and the table: `_apply_event_mapping` up to the count. -/
def countEvents (table : Dict SeriesKey Binary64) (target : PrometheusTarget) (mappingIndex : ℕ)
    (mapping : StreamMapping) (sample : PrometheusSample) (value : Binary64) :
      Option ℤ × Dict SeriesKey Binary64 :=
  match mapping.counterMode with
  | .absolute => (some (intRound (.fin value)), table)
  | .delta =>
    let key := seriesKey target mappingIndex mapping sample
    ((table.get? key).map fun previous => intRound (positiveDelta value previous), table.set key value)

/-- `_apply_event_mapping`, with the batch of the stream. -/
def applyEventMapping (target : PrometheusTarget) (mappingIndex : ℕ) (mapping : StreamMapping)
    (sample : PrometheusSample) (batch : EventBatch) (value : Binary64) (scan : Scan) : Bool × Scan :=
  match mapping.eventName with
  | none => (false, scan)
  | some eventName =>
    if value.val < 0 then (false, scan)
    else
      let (count, table) := countEvents scan.lastCounterValues target mappingIndex mapping sample value
      let scan := { scan with lastCounterValues := table }
      match count with
      | none => (false, scan)
      | some count =>
        if count ≤ 0 then (false, scan)
        else
          let events := batch.events.set eventName ((batch.events.get? eventName).getD 0 + count)
          (true, { scan with
        batches := scan.batches.set mapping.stream { batch with events := events } })

/-- `_apply_mapping`. -/
def applyMapping (target : PrometheusTarget) (mappingIndex : ℕ) (mapping : StreamMapping)
    (sample : PrometheusSample)
    (scan : Scan) : Bool × Scan :=
  match Float64.mul (.fin sample.value) (.fin mapping.valueScale) with
  | .fin value =>
    let batch := (scan.batches.get? mapping.stream).getD ∅
    -- `setdefault` enters the batch
    let scan := { scan with batches := scan.batches.set mapping.stream batch }
    match mapping.kind with
    | .latency =>
      if value.val < 0 then (false, scan)
      else
        let batch := { batch with latencies := batch.latencies ++ [value] }
        (true, { scan with batches := scan.batches.set mapping.stream batch })
    | .unique =>
      let batch := { batch with uniques := batch.uniques ++ [uniqueText showFloat value] }
      (true, { scan with batches := scan.batches.set mapping.stream batch })
    | .event => applyEventMapping target mappingIndex mapping sample batch value scan
  | _ => (false, scan)

/-- One round of the loop over the mappings, with `any_match`. -/
def scanMapping (target : PrometheusTarget) (sample : PrometheusSample) (state : Bool × Scan)
    (mapping : StreamMapping × ℕ) : Bool × Scan :=
  if mappingMatches mapping.1 sample then
    let (applied, scan) := applyMapping showFloat target mapping.2 mapping.1 sample state.2
    (true, if applied then { scan with matched := scan.matched + 1 }
      else { scan with skipped := scan.skipped + 1 })
  else state

/-- One round of the loop over the samples. -/
def scanSample (target : PrometheusTarget) (scan : Scan) (sample : PrometheusSample) : Scan :=
  let (anyMatch, scan) := config.mappings.zipIdx.foldl (scanMapping showFloat target sample)
    (false, scan)
  if anyMatch then scan else { scan with skipped := scan.skipped + 1 }

/-! ## Chunks -/

/-- An entry of a batch. -/
inductive Entry where
  | latency (value : Binary64)
  | unique (value : Text)
  | event (name : Text) (count : ℤ)

namespace EventBatch

/-- The entries in the order of the loops of `_chunk_batch`. -/
def entries (self : EventBatch) : List Entry :=
  self.latencies.map .latency ++ self.uniques.map .unique ++ self.events.items.map
    fun (name, count) => .event name count

def add (self : EventBatch) : Entry → EventBatch
  | .latency value => { self with latencies := self.latencies ++ [value] }
  | .unique value => { self with uniques := self.uniques ++ [value] }
  | .event name count => { self with events := self.events.set name count }

/-- One round of the loops of `_chunk_batch`: the chunks so far, and `current`. -/
def chunkStep (maxItems : ℕ) (state : List EventBatch × EventBatch) (entry : Entry) :
    List EventBatch × EventBatch :=
  if state.2.itemCount ≥ maxItems then (state.1 ++ [state.2], (∅ : EventBatch).add entry)
  else (state.1, state.2.add entry)

/-- `_chunk_batch`. -/
def chunks (self : EventBatch) (maxItems : ℕ) : List EventBatch :=
  let (chunks, current) := self.entries.foldl (chunkStep maxItems) ([], ∅)
  if current.itemCount > 0 then chunks ++ [current] else chunks

end EventBatch

/-- The POSTs of `_flush_batches`, in order. -/
def posts (batches : Dict Text EventBatch) : List (Text × EventBatch) :=
  batches.items.flatMap fun (stream, batch) =>
    if batch.itemCount = 0 then []
    else (batch.chunks config.maxBatchItems).map fun chunk => (stream, chunk)

/-! ## The call -/

variable (env : Environment)

/-- `_send_batch`, of the `j`-th POST. -/
def sendBatch (post : (Text × EventBatch) × ℕ) : EStateM Failure Session Unit :=
  match env.send post.2 with
  | .ok => modify fun self => { self with applied := self.applied ++ [post.1] }
  | .lost => do
    modify fun self => { self with applied := self.applied ++ [post.1] }
    throw (.send post.1.1)
  | .refused => throw (.send post.1.1)

/-- `_flush_batches`. -/
def flushBatches (batches : Dict Text EventBatch) : EStateM Failure Session (ℕ × ℕ) := do
  (posts config batches).zipIdx.forM (sendBatch env)
  pure ((posts config batches).length, ((posts config batches).map fun post => post.2.itemCount).sum)

/-- The batches and the counts of a call. -/
structure Collected where
  batches : Dict Text EventBatch
  matched : ℕ
  skipped : ℕ

/-- One round of the loop over the targets: a scrape, and its samples. -/
def scrapeRound (collected : Collected) (target : PrometheusTarget × ℕ) :
    EStateM Failure Session Collected := do
  match env.scrape target.2 with
  | none => throw (.scrape target.1)
  | some text => do
    let self ← get
    let scan := (parsePrometheusText text).foldl (scanSample showFloat config target.1)
      ⟨self.lastCounterValues, collected.batches, collected.matched, collected.skipped⟩
    set { self with lastCounterValues := scan.lastCounterValues }
    pure ⟨scan.batches, scan.matched, scan.skipped⟩

/-- `run_once`. -/
def runOnce : EStateM Failure Session AgentRunStats := do
  let collected ← config.prometheusTargets.zipIdx.foldlM (scrapeRound showFloat config env) ⟨∅, 0, 0⟩
  let (batchCount, itemCount) ← flushBatches config env collected.batches
  pure ⟨config.prometheusTargets.length, collected.matched, batchCount, itemCount, collected.skipped⟩

end Sketchlog.Agent
