import Sketchlog.Python.DriftSketch
import Sketchlog.Server.Handlers

/-!
# `server.py`: `ingest_events`

A request is checked, its stream is looked up or made, and the batch is written to it call by call.
Between the check of the capacity and the first write the handler awaits the registry; the writes
themselves await nothing.
-/

namespace Sketchlog.Server

open Imperative Checked

/-- `ValidName`. -/
def ValidName (name : String) : Prop := 1 ≤ name.length ∧ name.length ≤ 255

/-- `EventBatch`, as the checks of its fields leave it; a field that is `None` is an empty one. -/
structure EventBatch where
  latencies : List PyFloat
  uniques : List String
  events : Dict String ℤ
  latencies_finite : ∀ v ∈ latencies, v.isFinite = true
  uniques_valid : ∀ item ∈ uniques, ValidName item
  events_valid : ∀ e ∈ events.items, ValidName e.1 ∧ 0 < e.2 ∧ e.2 < 9223372036854775808

namespace EventBatch

/-- `new_events`. -/
def newEvents (batch : EventBatch) : ℤ := batch.latencies.length + (batch.events.items.map Prod.snd).sum

/-- The preflight of the counter capacity. -/
def preflight (currentTotal : ℤ) (batch : EventBatch) : Except HttpError Unit :=
  failIf (currentTotal + batch.newEvents > 9223372036854775807)
    ⟨422, "Total stream event capacity exceeded"⟩

/-- `if batch.latencies: stream.add_batch(batch.latencies)`. -/
def writeLatencies (M : IndexMapping) (batch : EventBatch) : EStateM PyError Facade.StreamLog Unit :=
  if batch.latencies ≠ [] then Facade.StreamLog.addBatch M batch.latencies else pure ()

/-- The writes of `ingest_events` to its stream. -/
def write (M : IndexMapping) (batch : EventBatch) : EStateM PyError Facade.StreamLog Unit := do
  batch.writeLatencies M
  batch.uniques.forM fun uniqueItem => Facade.StreamLog.add M (.unique (.str uniqueItem))
  batch.events.items.forM fun e => Facade.StreamLog.add M (.event (.str e.1) e.2)

end EventBatch

end Sketchlog.Server
