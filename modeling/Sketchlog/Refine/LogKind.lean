import Sketchlog.Python.Concurrent
import Sketchlog.Refine.CppReachable

/-!
# The two log types, with their documents and their reachable states

The server keeps logs of either backend and knows them by their updating calls and their documents. A
`LogKind` bundles both with the reachable states, which the calls keep.
-/

namespace Sketchlog

open Imperative

/-- A log type as the server uses it. -/
structure LogKind (M : IndexMapping) where
  backend : Backend M
  toDict : backend.Log → PyVal
  fromDict : PyVal → Except PyError backend.Log
  Reachable : backend.Log → Prop
  reachable_ingest : ∀ {log} op, Reachable log → Reachable (after (backend.ingest op) log)
  reachable_merge : ∀ {log other}, Reachable log → Reachable other
    → Reachable (after (backend.merge other) log)
  reachable_reset : ∀ {log}, Reachable log → Reachable (after backend.reset log)
  holds : ∀ {log}, Reachable log → backend.Holds log

namespace LogKind

variable {M : IndexMapping}

abbrev Log (K : LogKind M) : Type := K.backend.Log

def codec (K : LogKind M) : LogCodec := ⟨K.Log, K.toDict, K.fromDict⟩

/-- An updating call of a log. What is merged is a log of the same type, in a reachable state. -/
inductive Update (K : LogKind M) where
  | ingest (op : Ingest K.backend.Item)
  | merge (other : K.Log) (h : K.Reachable other)
  | reset

/-- The call on the log itself. -/
def Update.call {K : LogKind M} : K.Update → EStateM PyError K.Log Unit
  | .ingest op => K.backend.ingest op
  | .merge other _ => K.backend.merge other
  | .reset => K.backend.reset

theorem Update.reachable {K : LogKind M} (u : K.Update) {log : K.Log} (h : K.Reachable log) :
    K.Reachable (after u.call log) := by
  cases u with
  | ingest op => exact K.reachable_ingest op h
  | merge other h' => exact K.reachable_merge h h'
  | reset => exact K.reachable_reset h

/-- A call that raises leaves the log as it was. -/
theorem Update.error_state {K : LogKind M} (u : K.Update) {log t : K.Log} (h : K.Reachable log)
    {e : PyError} (herr : u.call.run log = .error e t) : t = log := by
  cases u with
  | ingest op => exact Backend.error_state (K.holds h) op herr
  | merge other h' => exact Backend.merge_error_state (K.holds h) (K.holds h') herr
  | reset =>
    obtain ⟨S, c, hrep, -⟩ := K.holds h
    obtain ⟨log', hrun, -⟩ := K.backend.run_reset hrep
    rw [call, hrun] at herr
    cases herr

/-- Logs of the Python backend. -/
def python (M : IndexMapping) : LogKind M where
  backend := StreamLog.backend M
  toDict := StreamLog.toDict
  fromDict := StreamLog.fromDict M
  Reachable := StreamLog.Reachable M
  reachable_ingest op h := .ingest op h
  reachable_merge h h' := .merge h h'
  reachable_reset h := .reset h
  holds h := by
    obtain ⟨S, c, -, hrep, hfits⟩ := h.holds
    exact ⟨S, c, hrep, hfits⟩

/-- Logs of the C++ backend. -/
def cpp (M : IndexMapping) : LogKind M where
  backend := Cpp.StreamLog.backend M
  toDict := Cpp.StreamLog.toDict
  fromDict := Cpp.StreamLog.fromDict M
  Reachable := Cpp.StreamLog.Reachable M
  reachable_ingest op h := .ingest op h
  reachable_merge h h' := .merge h h'
  reachable_reset h := .reset h
  holds h := h.holds

end LogKind

end Sketchlog
