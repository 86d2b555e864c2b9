import Sketchlog.Lib.Checked
import Sketchlog.Python.StreamLog

/-!
# `facade.py`: `to_dict` and `from_dict`

A document is a Python value, `PyVal`, as `json.loads` or a caller may hand it to `from_dict`.
`from_dict` re-validates the whole state; its checks come in the order of the source, each with its
message, and everything raised inside is re-raised as a `ValueError` (`fromDict`). The parts for the
three sketches are `readLatency`, `readUniques` and `readEvents`.

Numbers of a document are compared by value: `to_dict` writes an extremum as the float of its value,
or as the int where no float has it.
-/

namespace Sketchlog

open Std Checked

/-- A dictionary key. -/
inductive PyKey where
  | int (n : ℤ)
  | str (s : String)
  | other (shown : String)
  deriving DecidableEq

/-- What `f"{k}"` shows. -/
def PyKey.text : PyKey → String
  | .int n => toString n
  | .str s => s
  | .other shown => shown

/-- A Python value as a document holds it; a dictionary is its items, in order. -/
inductive PyVal where
  | none
  | bool (b : Bool)
  | int (n : ℤ)
  | float (x : PyFloat)
  | str (s : String)
  | list (xs : List PyVal)
  | dict (items : List (PyKey × PyVal))

namespace PyVal

/-- `type(x).__name__`. -/
def typeName : PyVal → String
  | .none => "NoneType"
  | .bool _ => "bool"
  | .int _ => "int"
  | .float _ => "float"
  | .str _ => "str"
  | .list _ => "list"
  | .dict _ => "dict"

/-- `f"{x}"` for the values a version is compared with; containers and floats are shown by type. -/
def text : PyVal → String
  | .none => "None"
  | .bool b => if b then "True" else "False"
  | .int n => toString n
  | .str s => s
  | v => v.typeName

def isNone : PyVal → Bool
  | .none => true
  | _ => false

/-- `type(x) in (int, float)`. -/
def isNumber : PyVal → Bool
  | .int _ | .float _ => true
  | _ => false

/-- The value of a finite number. -/
def number : PyVal → ℚ
  | .int n => n
  | .float (.fin x) => x.val
  | _ => 0

end PyVal

abbrev Items := List (PyKey × PyVal)

/-- `d.get(name)`, `None` when absent. -/
def Items.get (d : Items) (name : String) : PyVal := (d.lookup (.str name)).getD .none

/-- `d.get(name, default)`. -/
def Items.getOr (d : Items) (name : String) (default : PyVal) : PyVal :=
  (d.lookup (.str name)).getD default

/-- `d[name]`. -/
def Items.item (d : Items) (name : String) : Except PyError PyVal :=
  match d.lookup (.str name) with
  | some v => .ok v
  | .none => .error (.keyError s!"'{name}'")

/-- The value when `type(x) is int` and `lo <= x <= hi`, else `raise e`. -/
def intIn (lo hi : ℤ) (e : PyError) : PyVal → Except PyError ℤ
  | .int n => if lo ≤ n ∧ n ≤ hi then .ok n else .error e
  | _ => .error e

/-- The value when `type(x) is int` and `lo <= x`, else `raise e`. -/
def intFrom (lo : ℤ) (e : PyError) : PyVal → Except PyError ℤ
  | .int n => if lo ≤ n then .ok n else .error e
  | _ => .error e

/-- The items when `isinstance(x, dict)`, else `raise e`. -/
def asDict (e : PyError) : PyVal → Except PyError Items
  | .dict d => .ok d
  | _ => .error e

/-- The elements when `isinstance(x, list)`, else `raise e`. -/
def asList (e : PyError) : PyVal → Except PyError (List PyVal)
  | .list xs => .ok xs
  | _ => .error e

/-! ## Latency

The reader of the latency part: alpha, the counters, the two stores and the extrema, in the order of
the source, with the texts of its errors. -/

/-- `if not (0 < alpha < 1): raise`, on whatever the document holds. -/
def readAlpha : PyVal → Except PyError Binary64
  | .float (.fin x) =>
    if 0 < x.val ∧ x.val < 1 then .ok x
    else .error (.valueError "DDSketch alpha must be in (0, 1)")
  | .float _ | .int _ | .bool _ => .error (.valueError "DDSketch alpha must be in (0, 1)")
  | v => .error (.typeError s!"'<' not supported between instances of 'int' and '{v.typeName}'")

/-- A bucket key: an int, or a string that is the canonical decimal of one. -/
def bucketIndex : PyKey → Except PyError ℤ
  | .int n => .ok n
  | .str s =>
    match s.toInt? with
    | some n =>
      if toString n = s then .ok n
      else .error (.valueError s!"DDSketch bucket keys must be convertible to int: {s}")
    | .none => .error (.valueError s!"DDSketch bucket keys must be convertible to int: {s}")
  | .other shown => .error (.valueError s!"DDSketch bucket keys must be int or str: {shown}")

/-- One iteration of `validate_buckets`. -/
def validateBucket (minIdx maxIdx : ℤ) (res : Bins) (kv : PyKey × PyVal) : Except PyError Bins := do
  let ik ← bucketIndex kv.1
  failIf (ik ∈ res) (.valueError s!"Duplicate canonical bucket index: {ik}")
  let v ← intIn 1 maxInt64 (.valueError "DDSketch bucket counts must be positive int64 values") kv.2
  failIf (ik < minIdx ∨ ik > maxIdx)
    (.valueError s!"DDSketch bucket index out of valid range: {ik}")
  .ok (res.insert ik v)

/-- `validate_buckets`. -/
def validateBuckets (minIdx maxIdx : ℤ) (items : Items) : Except PyError Bins :=
  items.foldlM (validateBucket minIdx maxIdx) ∅

/-- `sum(store.values())`. -/
def sumValues (store : Bins) : ℤ := (store.toList.map Prod.snd).sum

/-- `math.isfinite` of a number: an int too large for a float raises. -/
def isFiniteNumber : PyVal → Except PyError Bool
  | .int n =>
    if n.natAbs < floatLimit then .ok true
    else .error (.overflowError "int too large to convert to float")
  | .float x => .ok x.isFinite
  | _ => .ok false

/-- `if not math.isfinite(lat_min) or not math.isfinite(lat_max): raise`. -/
def checkFinite (latMin latMax : PyVal) : Except PyError Unit := do
  let minFinite ← isFiniteNumber latMin
  failIf (minFinite = false) (.valueError "DDSketch min/max must be finite numbers")
  let maxFinite ← isFiniteNumber latMax
  failIf (maxFinite = false) (.valueError "DDSketch min/max must be finite numbers")

/-- `if positive:`, the extrema against the positive buckets. -/
def checkPositive (M : IndexMapping) (alpha : ℚ) (positive : Bins) (lo hi : ℚ) :
    Except PyError Unit :=
  if positive.isEmpty then .ok ()
  else do
    failIf (hi ≤ 0) (.valueError "DDSketch extrema contradict positive buckets")
    failIf (positive.maxKey? ≠ some (M.key alpha hi))
      (.valueError "DDSketch max contradicts positive buckets")
    failIf (lo > 0 ∧ positive.minKey? ≠ some (M.key alpha lo))
      (.valueError "DDSketch min contradicts positive buckets")

/-- `if negative:`, the extrema against the negative buckets. -/
def checkNegative (M : IndexMapping) (alpha : ℚ) (negative : Bins) (lo hi : ℚ) :
    Except PyError Unit :=
  if negative.isEmpty then .ok ()
  else do
    failIf (lo ≥ 0) (.valueError "DDSketch extrema contradict negative buckets")
    failIf (negative.maxKey? ≠ some (M.key alpha (-lo)))
      (.valueError "DDSketch min contradicts negative buckets")
    failIf (hi < 0 ∧ negative.minKey? ≠ some (M.key alpha (-hi)))
      (.valueError "DDSketch max contradicts negative buckets")

/-- The checks of the extrema against the buckets. -/
def checkExtrema (M : IndexMapping) (alpha : ℚ) (positive negative : Bins) (zeroCount : ℤ)
    (lo hi : ℚ) : Except PyError Unit := do
  failIf (lo > hi) (.valueError "DDSketch min cannot be greater than max")
  checkPositive M alpha positive lo hi
  checkNegative M alpha negative lo hi
  failIf (zeroCount > 0 ∧ (lo > 0 ∨ hi < 0))
    (.valueError "DDSketch extrema contradict zero buckets")
  failIf (positive.isEmpty ∧ hi > 0) (.valueError "DDSketch max > 0 but no positive buckets")
  failIf (negative.isEmpty ∧ lo < 0) (.valueError "DDSketch min < 0 but no negative buckets")
  failIf (hi = 0 ∧ zeroCount = 0) (.valueError "DDSketch max is 0 but zero_count is 0")
  failIf (lo = 0 ∧ zeroCount = 0) (.valueError "DDSketch min is 0 but zero_count is 0")

/-- The extrema of a non-empty sketch. -/
def readExtrema (M : IndexMapping) (alpha : ℚ) (positive negative : Bins) (zeroCount : ℤ)
    (latMin latMax : PyVal) : Except PyError (ERat × ERat) := do
  failIf (latMin.isNone = true ∨ latMax.isNone = true)
    (.valueError "DDSketch min/max cannot be None when count > 0")
  failIf (latMin.isNumber = false ∨ latMax.isNumber = false)
    (.valueError "DDSketch min/max must be numeric")
  checkFinite latMin latMax
  checkExtrema M alpha positive negative zeroCount latMin.number latMax.number
  .ok ((latMin.number : ERat), (latMax.number : ERat))

/-- The latency part of `from_dict`: the accuracy, and the sketch to restore. -/
def readLatency (M : IndexMapping) (d : Items) : Except PyError (Binary64 × DDSketch) := do
  let accuracy ← readAlpha (← d.item "alpha")
  let alpha := accuracy.val
  let zeroCountData ← d.item "zero_count"
  let countData ← d.item "count"
  let zeroCount ← intIn 0 maxInt64
    (.valueError "DDSketch zero_count must be a non-negative int64") zeroCountData
  let count ← intIn 0 maxUInt64
    (.valueError "DDSketch count must be a non-negative integer within the uint64 range") countData
  let posData ← asDict (.valueError "DDSketch positive/negative buckets must be dictionaries")
    (d.get "positive")
  let negData ← asDict (.valueError "DDSketch positive/negative buckets must be dictionaries")
    (d.get "negative")
  -- `gamma` rounds to 1.0 and its logarithm is 0.0
  failIf (alpha ≤ (2 : ℚ) ^ (-54 : ℤ)) (.zeroDivisionError "float division by zero")
  let maxIdx := M.key alpha Binary64.maxFinite
  let minIdx := M.key alpha Binary64.minSubnormal
  let positive ← validateBuckets minIdx maxIdx posData
  let negative ← validateBuckets minIdx maxIdx negData
  failIf (positive.size > DDSketch.maxBins)
    (.valueError "DDSketch positive buckets exceed bounded capacity")
  failIf (negative.size > DDSketch.maxBins)
    (.valueError "DDSketch negative buckets exceed bounded capacity")
  failIf (count ≠ zeroCount + sumValues positive + sumValues negative)
    (.valueError "DDSketch bucket counts do not sum to total count")
  let latMin := d.get "min"
  let latMax := d.get "max"
  if count > 0 then do
    let (lo, hi) ← readExtrema M alpha positive negative zeroCount latMin latMax
    .ok (accuracy, ⟨alpha, positive, negative, zeroCount, count, lo, hi⟩)
  else do
    failIf (latMin.isNone = false ∨ latMax.isNone = false)
      (.valueError "Empty DDSketch must have None for extrema")
    .ok (accuracy, ⟨alpha, positive, negative, zeroCount, count, ⊤, ⊥⟩)

/-! ## Uniques and events -/

/-- The uniques part of `from_dict`. -/
def readUniques (d : Items) : Except PyError HyperLogLog := do
  let precision ← intIn 4 18
    (.valueError "HyperLogLog precision must be an integer in [4, 18]") (← d.item "precision")
  let p := precision.toNat
  let registers ← asList (.valueError "HyperLogLog registers must be a list") (← d.item "registers")
  failIf (registers.length ≠ 1 <<< p)
    (.valueError s!"HyperLogLog registers length must be {1 <<< p}")
  let maxRegVal := 64 - p + 1
  let values ← registers.mapM (intIn 0 maxRegVal
    (.valueError s!"HyperLogLog register values must be integers in [0, {maxRegVal}]"))
  .ok ⟨p, values.map Int.toNat⟩

/-- One row of the table. -/
def readRow (width : ℕ) (eventsTotal : ℤ) (row : PyVal) : Except PyError (List ℤ) := do
  let cells ← asList
    (.valueError s!"CountMinSketch table row must be a list of {width} columns") row
  failIf (cells.length ≠ width)
    (.valueError s!"CountMinSketch table row must be a list of {width} columns")
  let values ← cells.mapM (intIn 0 maxInt64
    (.valueError "CountMinSketch cell values must be non-negative int64 values"))
  failIf (values.sum ≠ eventsTotal)
    (.valueError "CountMinSketch row sum does not match events total")
  .ok values

/-- The events part of `from_dict`. -/
def readEvents (d : Items) : Except PyError CountMinSketch := do
  let widthData ← d.item "width"
  let depthData ← d.item "depth"
  let width ← intFrom 1 (.valueError "CountMinSketch width must be >= 1") widthData
  let depth ← intFrom 1 (.valueError "CountMinSketch depth must be >= 1") depthData
  failIf (width > StreamLog.maxCmsCells / depth)
    (.valueError s!"CountMinSketch dimensions exceed {StreamLog.maxCmsCells} cells")
  let eventsTotal ← intIn 0 maxInt64
    (.valueError "CountMinSketch total must be a non-negative int64") (← d.item "total")
  let rows ← asList (.valueError s!"CountMinSketch table must be a list of {depth} rows")
    (← d.item "table")
  failIf (rows.length ≠ depth.toNat)
    (.valueError s!"CountMinSketch table must be a list of {depth} rows")
  let table ← rows.mapM (readRow width.toNat eventsTotal)
  .ok ⟨width.toNat, depth.toNat, table, eventsTotal⟩

/-! ## The log -/

/-- `if type(version) is not int or version != 1: raise`. -/
def checkVersion (version : PyVal) : Except PyError Unit :=
  match version with
  | .int 1 => .ok ()
  | v => .error (.valueError s!"Unsupported serialization version: {v.text}")

/-- `if type(deterministic) is not bool: raise`. -/
def readDeterministic : PyVal → Except PyError Bool
  | .bool b => .ok b
  | _ => .error (.valueError "deterministic must be a boolean")

namespace StreamLog

/-- The body of the `try` in `from_dict`. -/
def readDict (M : IndexMapping) (d : Items) : Except PyError StreamLog := do
  checkVersion (d.get "version")
  let total ← intIn 0 maxUInt64
    (.valueError "StreamLog total must be an unsigned 64-bit integer") (← d.item "total")
  let deterministic ← readDeterministic (d.getOr "deterministic" (.bool false))
  let latencyData ← asDict (.valueError "latency data must be a dictionary") (← d.item "latency")
  let (accuracy, latency) ← readLatency M latencyData
  let uniquesData ← asDict (.valueError "uniques data must be a dictionary") (← d.item "uniques")
  let uniques ← readUniques uniquesData
  let eventsData ← asDict (.valueError "events data must be a dictionary") (← d.item "events")
  let events ← readEvents eventsData
  failIf (total ≠ latency.count + events.total)
    (.valueError "StreamLog total does not match latency count + events total")
  let log ← new ⟨.fin accuracy, uniques.p, events.width, events.depth, deterministic⟩
  .ok
    { log with
      latency := { latency with alpha := log.latency.alpha }
      uniques := { log.uniques with registers := uniques.registers }
      events := { log.events with table := events.table, total := events.total }
      total := total }

/-- `from_dict`. -/
def fromDict (M : IndexMapping) (data : PyVal) : Except PyError StreamLog :=
  match data with
  | .dict d =>
    match readDict M d with
    | .ok log => .ok log
    | .error e => .error (.valueError s!"Malformed StreamLog state: {e.text}")
  | _ => .error (.valueError "StreamLog data must be a dictionary")

end StreamLog

/-! ## `to_dict`

The document that a log writes. Keys of the bins are written as integers, which JSON turns to
strings. -/

/-- A finite number, by value: the float, or the int where no float has that value. -/
def PyVal.ofRat (q : ℚ) : PyVal :=
  if h : IsBinary64 q then .float (.fin ⟨q, h⟩) else .int q.num

/-- An extremum of a non-empty sketch. -/
def PyVal.ofERat : ERat → PyVal
  | WithBot.some (WithTop.some q) => .ofRat q
  | WithBot.some ⊤ => .float (.inf false)
  | ⊥ => .float (.inf true)

/-- A bin dictionary. -/
def binsDict (store : Bins) : PyVal := .dict (store.toList.map fun kv => (.int kv.1, .int kv.2))

/-- The latency part of `to_dict`. -/
def latencyDict (l : DDSketch) : PyVal :=
  .dict [(.str "alpha", .ofRat l.alpha),
    (.str "positive", binsDict l.positive),
    (.str "negative", binsDict l.negative),
    (.str "zero_count", .int l.zeroCount),
    (.str "count", .int l.count),
    (.str "min", if l.count > 0 then .ofERat l.min else .none),
    (.str "max", if l.count > 0 then .ofERat l.max else .none)]

/-- The uniques part of `to_dict`. -/
def uniquesDict (u : HyperLogLog) : PyVal :=
  .dict [(.str "precision", .int u.p),
    (.str "registers", .list (u.registers.map fun r : ℕ => .int r))]

/-- The events part of `to_dict`. -/
def eventsDict (e : CountMinSketch) : PyVal :=
  .dict [(.str "width", .int e.width),
    (.str "depth", .int e.depth),
    (.str "table", .list (e.table.map fun row => .list (row.map .int))),
    (.str "total", .int e.total)]

/-- `to_dict`. -/
def StreamLog.toDict (self : StreamLog) : PyVal :=
  .dict [(.str "version", .int 1),
    (.str "total", .int self.total),
    (.str "deterministic", .bool self.deterministic),
    (.str "latency", latencyDict self.latency),
    (.str "uniques", uniquesDict self.uniques),
    (.str "events", eventsDict self.events)]

/-! ## JSON

What a document becomes on its way through JSON text: every key is a string, and keys that collide
keep the last value. -/

/-- `d[k] = v`. -/
def Items.set (d : Items) (k : PyKey) (v : PyVal) : Items :=
  if d.any (·.1 == k) then d.map fun e => if e.1 = k then (k, v) else e else d ++ [(k, v)]

mutual

/-- `json.loads(json.dumps(x))`: numbers, strings and lists come back, keys come back as strings. -/
def throughJson : PyVal → PyVal
  | .list xs => .list (listThroughJson xs)
  | .dict d => .dict (itemsThroughJson [] d)
  | v => v

def listThroughJson : List PyVal → List PyVal
  | [] => []
  | x :: xs => throughJson x :: listThroughJson xs

def itemsThroughJson (acc : Items) : Items → Items
  | [] => acc
  | (k, v) :: rest => itemsThroughJson (Items.set acc (.str k.text) (throughJson v)) rest

end

end Sketchlog
