import Sketchlog.Lib.Rounding
import Sketchlog.Cpp.StreamLog
import Sketchlog.Python.Document

/-!
# `bindings.cpp`: `to_dict` and `from_dict`

`to_dict` writes the states of the three sketches; bucket indexes are decimal strings. `from_dict`
runs the Python validator, casts every entry of the validated log's own document to its C++ type, and
restores the three sketches with `set_state`. The entries of that document are the fields of the
validated log, and its bucket entries are sorted by index.
-/

namespace Sketchlog.Cpp

open Imperative Checked

/-! ## `to_dict`

The native dictionaries: the keys of the bins are strings, and the table is a list of rows. -/

/-- A dictionary of positive bins. -/
def binsDict (indices bins : List ℤ) : PyVal :=
  .dict (((indices.zip bins).filter fun kc => kc.2 > 0).map fun kc =>
    (.str (toString kc.1), .int kc.2))

def latencyDict (lat : DDSketch.State) : PyVal :=
  .dict [(.str "alpha", .float lat.alpha),
    (.str "zero_count", .int lat.zeroCount),
    (.str "count", .int lat.count),
    (.str "min", if lat.count > 0 then .float lat.minValue else .none),
    (.str "max", if lat.count > 0 then .float lat.maxValue else .none),
    (.str "positive", binsDict lat.posIndices lat.posBins),
    (.str "negative", binsDict lat.negIndices lat.negBins)]

def uniquesDict (uni : HyperLogLog.State) : PyVal :=
  .dict [(.str "precision", .int uni.precision),
    (.str "registers", .list (uni.registers.map fun r : ℕ => .int r))]

/-- The flat table, row by row. -/
def tableRows (width depth : ℕ) (table : List ℤ) : List (List ℤ) :=
  (List.range depth).map fun d => (List.range width).map fun w => table.getD (d * width + w) 0

def eventsDict (ev : CountMinSketch.State) : PyVal :=
  .dict [(.str "width", .int ev.width),
    (.str "depth", .int ev.depth),
    (.str "total", .int ev.totalCount),
    (.str "table", .list ((tableRows ev.width ev.depth ev.table).map fun row =>
      .list (row.map .int)))]

/-- `to_dict`. -/
def StreamLog.toDict (self : StreamLog) : PyVal :=
  .dict [(.str "version", .int 1),
    (.str "total", .int self.totalEvents),
    (.str "deterministic", .bool false),
    (.str "latency", latencyDict self.latency.getState),
    (.str "uniques", uniquesDict self.uniques.getState),
    (.str "events", eventsDict self.events.getState)]

/-! ## Casts -/

/-- `value.cast<T>()` of an int, where the values of `T` are those from `lo` to `hi`. -/
def castInt (lo hi n : ℤ) : Except PyError ℤ := do
  failIf (¬ (lo ≤ n ∧ n ≤ hi)) (.runtimeError "Unable to cast Python instance to C++ type")
  .ok n

/-- `cast<int>`. -/
def castInt32 : ℤ → Except PyError ℤ := castInt (-2 ^ 31) (2 ^ 31 - 1)

/-- `cast<int64_t>`. -/
def castInt64 : ℤ → Except PyError ℤ := castInt (-2 ^ 63) maxInt64

/-- `cast<size_t>` and `cast<uint64_t>`. -/
def castUInt64 : ℤ → Except PyError ℤ := castInt 0 maxUInt64

/-- `cast<uint8_t>`. -/
def castUInt8 : ℤ → Except PyError ℤ := castInt 0 (2 ^ 8 - 1)

/-- `cast<double>`: a float is itself, and an int is rounded unless it is too large. -/
def castDouble : ERat → Except PyError PyFloat
  | ⊥ => .ok (.inf true)
  | WithBot.some ⊤ => .ok (.inf false)
  | WithBot.some (WithTop.some q) =>
    if h : IsBinary64 q then .ok (.fin ⟨q, h⟩)
    else if h : q.num.natAbs < floatLimit then
      .ok (.fin ⟨Binary64.roundInt q.num, Binary64.isBinary64_roundInt h⟩)
    else .error (.runtimeError "Unable to cast Python instance to C++ type")

/-! ## `from_dict`

The binding casts the document field by field and hands three states to the parts. -/

/-- The sorted entries of a bucket dictionary. -/
def castEntries (store : Bins) : Except PyError (List (ℤ × ℤ)) :=
  store.toList.mapM fun kv => do
    let index ← castInt32 kv.1
    let count ← castInt64 kv.2
    .ok (index, count)

/-- An extremum: `0.0` when nothing has been counted. -/
def castExtremum (count : ℤ) (x : ERat) : Except PyError PyFloat :=
  if count > 0 then castDouble x else .ok (.fin zero)

/-- `lat`. -/
def latencyState (l : Sketchlog.DDSketch) : Except PyError DDSketch.State := do
  let alpha ← castDouble l.alpha
  let zeroCount ← castInt64 l.zeroCount
  let count ← castUInt64 l.count
  let minValue ← castExtremum count l.min
  let maxValue ← castExtremum count l.max
  let pos ← castEntries l.positive
  let neg ← castEntries l.negative
  .ok
    { alpha := alpha
      zeroCount := zeroCount
      count := count
      minValue := minValue
      maxValue := maxValue
      posIndices := pos.map Prod.fst
      posBins := pos.map Prod.snd
      posMinIndex := (pos.head?.map Prod.fst).getD 0
      posMaxIndex := (pos.getLast?.map Prod.fst).getD 0
      posEmpty := pos.isEmpty
      negIndices := neg.map Prod.fst
      negBins := neg.map Prod.snd
      negMinIndex := (neg.head?.map Prod.fst).getD 0
      negMaxIndex := (neg.getLast?.map Prod.fst).getD 0
      negEmpty := neg.isEmpty }

/-- `uni`. -/
def uniquesState (u : Sketchlog.HyperLogLog) : Except PyError HyperLogLog.State := do
  let precision ← castUInt8 u.p
  failIf (u.registers.length ≠ 1 <<< precision.toNat)
    (.valueError "HyperLogLog register count mismatch")
  let registers ← u.registers.mapM fun r : ℕ => do
    let value ← castInt32 (r : ℤ)
    failIf (value < 0 ∨ value > 64 - precision + 1)
      (.valueError "HyperLogLog register value out of range")
    .ok (value.toNat % 2 ^ 8)
  .ok ⟨precision.toNat, registers⟩

/-- `ev`. -/
def eventsState (e : Sketchlog.CountMinSketch) : Except PyError CountMinSketch.State := do
  let width ← castUInt64 e.width
  let depth ← castUInt64 e.depth
  let totalCount ← castInt64 e.total
  failIf (e.table.length ≠ depth.toNat) (.valueError "CountMinSketch row count mismatch")
  let rows ← e.table.mapM fun row => do
    failIf (row.length ≠ width.toNat) (.valueError "CountMinSketch column count mismatch")
    row.mapM castInt64
  .ok ⟨width.toNat, depth.toNat, totalCount, rows.flatten⟩

/-- A call on a local object: what it is left as, or the exception. -/
def exec {σ : Type} (x : EStateM PyError σ Unit) (s : σ) : Except PyError σ :=
  match x.run s with
  | .ok _ t => .ok t
  | .error e _ => .error e

namespace StreamLog

/-- `MAX_CMS_CELLS`. -/
def maxCmsCells : ℤ := 1000000

/-- `from_dict` after the validator. -/
def restore (validated : Sketchlog.StreamLog) : Except PyError StreamLog := do
  failIf (validated.deterministic = true)
    (.valueError "Deterministic serialized state must use the Python backend")
  let width ← castUInt64 validated.events.width
  let depth ← castUInt64 validated.events.depth
  failIf (depth = 0 ∨ width = 0 ∨ width > maxCmsCells / depth)
    (.valueError "CountMinSketch dimensions exceed bounded capacity")
  let alpha ← castDouble validated.latency.alpha
  let precision ← castUInt8 validated.uniques.p
  let log ← new alpha precision width depth
  let lat ← latencyState validated.latency
  let latency ← exec (DDSketch.setState lat) log.latency
  let uni ← uniquesState validated.uniques
  let uniques ← exec (HyperLogLog.setState uni) log.uniques
  let ev ← eventsState validated.events
  let events ← exec (CountMinSketch.setState ev) log.events
  let total ← castUInt64 validated.total
  failIf (ev.totalCount < 0 ∨ u64 (maxUInt64 - lat.count) < u64 ev.totalCount
      ∨ total ≠ u64 (lat.count + u64 ev.totalCount))
    (.valueError "StreamLog total does not match latency and event totals")
  .ok ⟨latency, events, uniques, total⟩

/-- `from_dict`; the binding takes a dictionary. -/
def fromDict (M : IndexMapping) (data : PyVal) : Except PyError StreamLog :=
  match data with
  | .dict d => do
    let validated ← Sketchlog.StreamLog.fromDict M (.dict d)
    restore validated
  | _ => .error (.typeError "incompatible function arguments")

end StreamLog

end Sketchlog.Cpp
