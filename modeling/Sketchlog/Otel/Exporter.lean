import Mathlib.Data.List.Sort
import Sketchlog.Lib.Dict
import Sketchlog.Otel.Float64

/-!
# The Collector exporter: `config.go` and `exporter.go`

`consumeMetrics` turns a payload of metrics into one batch for each stream, with what it keeps of
the cumulative sums it has seen, and posts the batches in chunks. The order in which Go goes through
a map is not specified: it is an argument (`MapOrder`). So is what becomes of each request
(`Reply`).

What lies outside the source is `Runtime`: the text of an attribute value, the formats of `fmt`, the
parser of URLs, and the conversions of floats that Go leaves to the implementation when they are out
of range.
-/

namespace Sketchlog.Otel

open Binary64

/-- `math.Round`, half away from zero. -/
def mathRound (q : ℚ) : ℤ := if q < 0 then -⌊-q + 1 / 2⌋ else ⌊q + 1 / 2⌋

/-! ## The payload: `pmetric` -/

/-- What the exporter uses of code outside it; `V` is the type of attribute values. -/
structure Runtime (V : Type) where
  /-- `pcommon.Value.AsString`. -/
  asString : V → String
  /-- `fmt.Sprintf("%g", v)`. -/
  formatG : Binary64 → String
  /-- The verb `%q`. -/
  quote : String → String
  /-- `url.Parse`: scheme and host. -/
  parseURL : String → Option (String × String)
  /-- `uint64(x)` and `int(x)` for an `x` that is out of range. -/
  uint64OutOfRange : ℤ → UInt64
  intOutOfRange : Float64 → ℤ

/-- A runtime for attributes that are strings, with the default endpoint. -/
def Runtime.plain : Runtime String where
  asString := id
  formatG _ := ""
  quote s := "\"" ++ s ++ "\""
  parseURL _ := some ("http", "localhost:8000")
  uint64OutOfRange _ := 0
  intOutOfRange _ := 0

/-- `pcommon.Map`, in the order of its entries. -/
abbrev Attributes (V : Type) := List (String × V)

inductive NumberValue where
  | empty
  | int (n : ℤ)
  | double (x : Float64)

structure NumberDataPoint (V : Type) where
  attributes : Attributes V
  value : NumberValue

inductive AggregationTemporality where
  | unspecified
  | delta
  | cumulative
  deriving DecidableEq

structure HistogramDataPoint where
  count : UInt64
  sum : Option Float64
  bucketCounts : List UInt64
  explicitBounds : List Float64

structure ValueAtQuantile where
  quantile : Float64
  value : Float64

inductive MetricData (V : Type) where
  | gauge (dataPoints : List (NumberDataPoint V))
  | sum (temporality : AggregationTemporality) (dataPoints : List (NumberDataPoint V))
  | histogram (temporality : AggregationTemporality) (dataPoints : List HistogramDataPoint)
  | summary (dataPoints : List (List ValueAtQuantile))
  /-- Empty metrics and exponential histograms. -/
  | other

structure Metric (V : Type) where
  name : String
  data : MetricData V

structure ResourceMetrics (V : Type) where
  resource : Attributes V
  scopeMetrics : List (List (Metric V))

/-- `pmetric.Metrics`. -/
abbrev Metrics (V : Type) := List (ResourceMetrics V)

/-! ## `config.go` -/

/-- `SignalKind`; the last case is a text that is none of the three. -/
inductive SignalKind where
  | latency
  | event
  | unique
  | unknown (text : String)

structure MetricMapping where
  name : String
  stream : String
  kind : SignalKind
  eventName : String
  scale : Float64

structure Config where
  endpoint : String
  authToken : String
  namespaceName : String
  timeout : ℤ
  maxBatchItems : ℤ
  metrics : List MetricMapping
  spanDurationStream : String
  logEventStream : String

/-- `createDefaultConfig`. -/
def createDefaultConfig : Config where
  endpoint := "http://localhost:8000"
  authToken := ""
  namespaceName := "default"
  timeout := 10 * 1000000000
  maxBatchItems := 1000
  metrics := []
  spanDurationStream := "otel.span.duration"
  logEventStream := "otel.logs"

variable {V : Type} (R : Runtime V)

/-- The checks of the mappings in `Validate`, from the index `i` on. -/
def validateMetrics (i : ℕ) (seen : List String) : List MetricMapping → Except String Unit
  | [] => .ok ()
  | m :: rest =>
    if m.name = "" then .error s!"metrics[{i}].name is required"
    else if m.stream = "" then .error s!"metrics[{i}].stream is required"
    else if m.name ∈ seen then .error ("duplicate metric mapping for " ++ R.quote m.name)
    else
      match m.kind with
      | .unknown _ => .error s!"metrics[{i}].kind must be one of latency, event, unique"
      | .event =>
        if m.eventName = "" then .error s!"metrics[{i}].event_name is required for event mappings"
        else validateMetrics (i + 1) (m.name :: seen) rest
      | _ => validateMetrics (i + 1) (m.name :: seen) rest

/-- `Validate`. -/
def Config.validate (c : Config) : Except String Unit :=
  if c.endpoint = "" then .error "endpoint is required"
  else
    let (scheme, host) := (R.parseURL c.endpoint).getD ("", "")
    if scheme = "" ∨ host = "" then .error ("endpoint must be an absolute URL: " ++ R.quote c.endpoint)
    else if scheme ≠ "http" ∧ scheme ≠ "https" then
      .error ("endpoint scheme must be http or https: " ++ R.quote scheme)
    else if c.namespaceName = "" then .error "namespace is required"
    else if c.timeout ≤ 0 then .error "timeout must be positive"
    else if c.maxBatchItems ≤ 0 then .error "max_batch_items must be positive"
    else if c.spanDurationStream = "" ∧ c.logEventStream = "" ∧ c.metrics = [] then
      .error "at least one metric mapping, span_duration_stream, or log_event_stream must be configured"
    else validateMetrics R 0 [] c.metrics

/-! ## The exporter

What it remembers of cumulative sums, under the key of a series, and how a value turns into a
number. -/

/-- `eventBatch`; a nil map of events is an empty one. -/
structure EventBatch where
  latencies : List Float64 := []
  uniques : List String := []
  events : Dict String UInt64 := ∅

/-- `sketchLogExporter`. -/
structure Exporter where
  cfg : Config
  metricMap : Dict String MetricMapping
  cumulativeSums : Dict String Float64

/-- A scale that was left out is 1. -/
def orOne (scale : Float64) : Float64 := if scale.isZero then Float64.one else scale

/-- `newSketchLogExporter`. -/
def newSketchLogExporter (cfg : Config) : Except String Exporter :=
  match cfg.validate R with
  | .error msg => .error msg
  | .ok () =>
    .ok { cfg
          metricMap := cfg.metrics.foldl (fun metricMap m =>
            metricMap.set m.name { m with scale := orOne m.scale }) ∅
          cumulativeSums := ∅ }

/-- `numberValue`. -/
def numberValue (dp : NumberDataPoint V) : Option Float64 :=
  match dp.value with
  | .int n => some (Float64.ofRat n)
  | .double x => some x
  | .empty => none

/-- `uint64(math.Round(v))`. -/
def roundToUint64 (q : ℚ) : UInt64 :=
  let n := mathRound q
  if 0 ≤ n ∧ n < 2 ^ 64 then UInt64.ofNat n.toNat else R.uint64OutOfRange n

/-- The closure `addNumber` of `collectMetric`. -/
def addNumber (mapping : MetricMapping) (batch : EventBatch) : Float64 → EventBatch
  | .fin x =>
    match mapping.kind with
    | .latency =>
        { batch with latencies := batch.latencies ++ [Float64.mul (.fin x) (orOne mapping.scale)] }
    | .unique => { batch with uniques := batch.uniques ++ [R.formatG x] }
    | .event =>
      if x.val ≤ 0 then batch
      else
        let count := (batch.events.get? mapping.eventName).getD 0
        { batch with events := batch.events.set mapping.eventName (count + roundToUint64 R x.val) }
    | .unknown _ => batch
  | _ => batch

/-- `timeseriesKey`. -/
def timeseriesKey (metricName : String) (attrs : Attributes V) : String :=
  let parts := attrs.map fun kv => kv.1 ++ "=" ++ R.asString kv.2
  String.intercalate "|" (metricName :: parts.insertionSort (· ≤ ·))

/-- What `cumulativeDelta` returns: the delta, and whether it is emitted. -/
def deltaFrom (previous : Option Float64) (current : Float64) : Float64 × Bool :=
  match previous with
  | none => (Float64.zero, false)
  | some previous =>
    if current.lt previous then (current, Float64.zero.lt current)
    else
      let delta := current.sub previous
      (delta, Float64.zero.lt delta)

/-- `cumulativeDelta`. -/
def cumulativeDelta (e : Exporter) (metricName : String) (attrs : Attributes V) (current : Float64) :
    (Float64 × Bool) × Exporter :=
  let key := timeseriesKey R metricName attrs
  (deltaFrom (e.cumulativeSums.get? key) current,
    { e with cumulativeSums := e.cumulativeSums.set key current })

/-! ## Histograms and summaries

Samples that stand for the buckets of a histogram, down-sampled when there are too many. -/

/-- `histogramRepresentative`. -/
def histogramRepresentative (bucket : ℕ) (bounds : List Float64) : Option Float64 :=
  let boundCount := bounds.length
  let two := Float64.add .one .one
  if boundCount = 0 then none
  else if bucket = 0 then some ((bounds.getD 0 .nan).div two)
  else if bucket < boundCount then
    some (((bounds.getD (bucket - 1) .nan).add (bounds.getD bucket .nan)).div two)
  else if bucket = boundCount then some (bounds.getD (boundCount - 1) .nan)
  else none

/-- The value that an `int` keeps of a sum: it wraps. -/
def int64 (n : ℤ) : ℤ := n.bmod (2 ^ 64)

section Callback

-- the callback `addNumber` of the source works on a batch; `β` is its type
variable {β : Type} (add : β → Float64 → β)

/-- `emitHistogramBucket`. -/
def emitHistogramBucket (bucket : ℕ) (count : ℕ) (bounds : List Float64) (b : β) : β :=
  if count = 0 then b
  else
    match histogramRepresentative bucket bounds with
    | none => b
    | some representative => (fun b => add b representative)^[count] b

/-- The share of a bucket in a histogram that is down-sampled: `int(math.Round(c / count *
maxSamples))`. -/
def bucketShare (c count : UInt64) (maxSamples : ℤ) : ℤ :=
  let share := ((Float64.ofRat c.toNat).div (Float64.ofRat count.toNat)).mul (Float64.ofRat maxSamples)
  match share with
  | .fin x =>
    let n := mathRound x.val
    if -2 ^ 63 ≤ n ∧ n < 2 ^ 63 then n else int64 (R.intOutOfRange share)
  | _ => int64 (R.intOutOfRange share)

-- `emitHistogramBucket` with the callback in it; as an argument, so that its calls can be observed
variable (emit : ℕ → ℕ → List Float64 → β → β)

/-- The down-sampling loop of `expandHistogram`; `emitted` and `samples` are of the type `int`. -/
def downSample (count : UInt64) (maxSamples : ℤ) (bounds : List Float64) (emitted : ℤ) :
    List (UInt64 × ℕ) → β → β
  | [], b => b
  | (c, i) :: rest, b =>
    if c = 0 then downSample count maxSamples bounds emitted rest b
    else
      let samples := bucketShare R c count maxSamples
      let samples := if samples = 0 then 1 else samples
      let samples := if maxSamples < int64 (emitted + samples) then int64 (maxSamples - emitted)
        else samples
      if samples ≤ 0 then b
      else downSample count maxSamples bounds (int64 (emitted + samples)) rest
        (emit i samples.toNat bounds b)

/-- `expandHistogram`. -/
def expandHistogram (dp : HistogramDataPoint) (maxSamples : ℤ) (b : β) : β :=
  if dp.count = 0 then b
  else
    let maxSamples := if maxSamples ≤ 0 then 1000 else maxSamples
    if dp.bucketCounts = [] then
      match dp.sum with
      | some sum => add b (sum.div (Float64.ofRat dp.count.toNat))
      | none => b
    else if (dp.count.toNat : ℤ) ≤ maxSamples then
      dp.bucketCounts.zipIdx.foldl (fun b ci => emit ci.2 ci.1.toNat dp.explicitBounds b) b
    else downSample R emit dp.count maxSamples dp.explicitBounds 0 dp.bucketCounts.zipIdx b

end Callback

/-- The literal `0.95`, by the exact value of the double it denotes. -/
def ninetyFive : Float64 := Float64.ofRat (95 / 100)

/-- `summaryQuantile`, after the values before; the pair is the best quantile and its value. -/
def summaryQuantile (threshold : Float64) (best : Option (Float64 × Float64)) :
    List ValueAtQuantile → Option (Float64 × Float64)
  | [] => best
  | qv :: rest =>
    let bestQuantile := (best.map Prod.fst).getD (.inf false)
    let reaches := match qv.quantile, threshold with
      | .nan, _ | _, .nan => false
      | q, t => !q.lt t
    if reaches && qv.quantile.lt bestQuantile then
      summaryQuantile threshold (some (qv.quantile, qv.value)) rest
    else summaryQuantile threshold best rest

/-! ## `consumeMetrics`: collecting -/

/-- A data point of a sum, in `collectMetric`. -/
def collectSumPoint (mapping : MetricMapping) (metricName : String)
    (temporality : AggregationTemporality)
    (acc : Exporter × EventBatch) (dp : NumberDataPoint V) : Exporter × EventBatch :=
  let (e, batch) := acc
  match numberValue dp with
  | none => (e, batch)
  | some v =>
    match temporality with
    | .cumulative =>
      let ((delta, emit), e) := cumulativeDelta R e metricName dp.attributes v
      (e, if emit then addNumber R mapping batch delta else batch)
    | .delta => (e, addNumber R mapping batch v)
    | .unspecified => (e, batch)

/-- `collectMetric`. -/
def collectMetric (e : Exporter) (metric : Metric V) (mapping : MetricMapping) (batch : EventBatch) :
    Exporter × EventBatch :=
  match metric.data with
  | .gauge dps =>
    (e, dps.foldl (fun batch dp => ((numberValue dp).map (addNumber R mapping batch)).getD batch) batch)
  | .sum temporality dps => dps.foldl (collectSumPoint R mapping metric.name temporality) (e, batch)
  | .histogram _ dps =>
    let add := addNumber R mapping
    (e, dps.foldl (fun batch dp =>
      expandHistogram R add (emitHistogramBucket add) dp e.cfg.maxBatchItems batch) batch)
  | .summary dps =>
    (e, dps.foldl (fun batch qvs =>
      ((summaryQuantile ninetyFive none qvs).map fun best =>
        addNumber R mapping batch best.2).getD batch) batch)
  | .other => (e, batch)

/-- The body of the loops of `consumeMetrics`, with `batchFor`. -/
def collectMapped (acc : Exporter × Dict String EventBatch) (metric : Metric V) :
    Exporter × Dict String EventBatch :=
  let (e, batches) := acc
  match e.metricMap.get? metric.name with
  | none => (e, batches)
  | some mapping =>
    let (e, batch) := collectMetric R e metric mapping ((batches.get? mapping.stream).getD {})
    (e, batches.set mapping.stream batch)

/-- The loops of `consumeMetrics`. -/
def collect (e : Exporter) (md : Metrics V) : Exporter × Dict String EventBatch :=
  md.foldl (fun acc rm => rm.scopeMetrics.foldl (fun acc ms => ms.foldl (collectMapped R) acc) acc)
    (e, ∅)

/-! ## `consumeMetrics`: posting

A batch is split into chunks, and these are posted until one fails. -/

/-- `emptyBatch`. -/
def emptyBatch (b : EventBatch) : Bool := b.latencies.isEmpty && b.uniques.isEmpty && b.events.isEmpty

/-- The variables of `splitBatch`. -/
structure Splitter where
  chunks : List EventBatch := []
  current : EventBatch := {}
  currentItems : ℕ := 0

namespace Splitter

/-- The closure `flush`. -/
def flush (s : Splitter) : Splitter where
  chunks := if emptyBatch s.current then s.chunks else s.chunks ++ [s.current]

/-- The closure `ensure`. -/
def ensure (maxItems : ℤ) (s : Splitter) : Splitter := if maxItems ≤ s.currentItems then s.flush else s

def addLatency (maxItems : ℤ) (s : Splitter) (v : Float64) : Splitter :=
  let s := s.ensure maxItems
  { s with
    current := { s.current with latencies := s.current.latencies ++ [v] }
    currentItems := s.currentItems + 1 }

def addUnique (maxItems : ℤ) (s : Splitter) (v : String) : Splitter :=
  let s := s.ensure maxItems
  { s with
    current := { s.current with uniques := s.current.uniques ++ [v] }
    currentItems := s.currentItems + 1 }

def addEvent (maxItems : ℤ) (s : Splitter) (event : String × UInt64) : Splitter :=
  if event.2 = 0 then s
  else
    let s := s.ensure maxItems
    { s with
      current := { s.current with events := s.current.events.set event.1 event.2 }
      currentItems := s.currentItems + 1 }

end Splitter

/-- The order in which one pass over a map visits its entries. -/
structure MapOrder where
  streams : List (String × EventBatch) → List (String × EventBatch)
  streams_perm : ∀ l, (streams l).Perm l
  events : List (String × UInt64) → List (String × UInt64)
  events_perm : ∀ l, (events l).Perm l

/-- The order of insertion. -/
def MapOrder.insertion : MapOrder := ⟨id, fun _ => .rfl, id, fun _ => .rfl⟩

/-- `splitBatch`. -/
def splitBatch (order : MapOrder) (batch : EventBatch) (maxItems : ℤ) : List EventBatch :=
  let maxItems := if maxItems ≤ 0 then 1000 else maxItems
  let s : Splitter := batch.latencies.foldl (Splitter.addLatency maxItems) {}
  let s := batch.uniques.foldl (Splitter.addUnique maxItems) s
  let s := (order.events batch.events.items).foldl (Splitter.addEvent maxItems) s
  s.flush.chunks

/-- What becomes of a request: the status of the response, if there is one, and whether the server
has taken the chunk in. It may have done so without a response, or with one that says otherwise. -/
structure Reply where
  status : Option ℕ
  body : String := ""
  applied : Bool
  applied_of_success : ∀ code, status = some code → 200 ≤ code → code < 300 → applied = true

/-- The requests: what becomes of those to come, how many were sent, and which were taken in. -/
structure Transport where
  replies : ℕ → Reply
  sent : ℕ := 0
  applied : List (String × EventBatch) := []

/-- `e.client.Do`. -/
def Transport.post (t : Transport) (stream : String) (chunk : EventBatch) : Reply × Transport :=
  let reply := t.replies t.sent
  (reply,
    { t with
      sent := t.sent + 1
      applied := if reply.applied then t.applied ++ [(stream, chunk)] else t.applied })

/-- What `consumeMetrics` returns when it fails. -/
inductive ExportError where
  /-- `json.Marshal`: a float that has no JSON. -/
  | unsupportedValue
  | invalidStreamPath (stream : String)
  | invalidSegment (segment stream : String)
  /-- `client.Do` returned an error. -/
  | transport
  /-- `"sketchlog returned HTTP %d for stream %q: %s"`, and whether it is wrapped by
  `consumererror.NewPermanent`. -/
  | http (status : ℕ) (stream body : String) (permanent : Bool)

/-- The collector does not retry a permanent error. -/
def ExportError.retryable : ExportError → Bool
  | .http _ _ _ permanent => !permanent
  | _ => true

/-- `isPermanentHTTPStatus`. -/
def isPermanentHTTPStatus (status : ℕ) : Bool :=
  decide (400 ≤ status) && decide (status < 500) && decide (status ≠ 429) && decide (status ≠ 408)

/-- `validateStreamPath`. -/
def validateStreamPath (stream : String) : Except ExportError Unit :=
  if stream = "" ∨ stream.toList.head? = some '/' ∨ stream.toList.getLast? = some '/' then
    .error (.invalidStreamPath stream)
  else
    match (stream.toList.splitOn '/').find? fun segment =>
      segment = [] ∨ segment = ['.'] ∨ segment = ['.', '.'] with
    | some segment => .error (.invalidSegment (String.ofList segment) stream)
    | none => .ok ()

/-- `json.Marshal` accepts the chunk. -/
def EventBatch.marshals (chunk : EventBatch) : Bool := chunk.latencies.all PyFloat.isFinite

/-- The loop of `postBatch` over the chunks. -/
def postChunks (stream : String) : List EventBatch → Transport → Except ExportError Unit × Transport
  | [], t => (.ok (), t)
  | chunk :: rest, t =>
    if chunk.marshals = false then (.error .unsupportedValue, t)
    else
      match validateStreamPath stream with
      | .error err => (.error err, t)
      | .ok () =>
        let (reply, t) := t.post stream chunk
        match reply.status with
        | none => (.error .transport, t)
        | some code =>
          if code < 200 ∨ 300 ≤ code then
            (.error (.http code stream reply.body (isPermanentHTTPStatus code)), t)
          else postChunks stream rest t

/-- `postBatch`. -/
def postBatch (order : MapOrder) (maxItems : ℤ) (stream : String) (batch : EventBatch) (t : Transport) :
    Except ExportError Unit × Transport :=
  if emptyBatch batch then (.ok (), t) else postChunks stream (splitBatch order batch maxItems) t

/-- The loop of `flushBatches`. -/
def flushEach (order : MapOrder) (maxItems : ℤ) :
    List (String × EventBatch) → Transport → Except ExportError Unit × Transport
  | [], t => (.ok (), t)
  | (stream, batch) :: rest, t =>
    match postBatch order maxItems stream batch t with
    | (.error err, t) => (.error err, t)
    | (.ok (), t) => flushEach order maxItems rest t

/-- `flushBatches`. -/
def flushBatches (order : MapOrder) (maxItems : ℤ) (batches : Dict String EventBatch) (t : Transport) :
    Except ExportError Unit × Transport :=
  flushEach order maxItems (order.streams batches.items) t

/-- `consumeMetrics`: the result, the exporter and the requests. -/
def consumeMetrics (order : MapOrder) (e : Exporter) (md : Metrics V) (t : Transport) :
    Except ExportError Unit × Exporter × Transport :=
  let (e, batches) := collect R e md
  let (result, t) := flushBatches order e.cfg.maxBatchItems batches t
  (result, e, t)

end Sketchlog.Otel
