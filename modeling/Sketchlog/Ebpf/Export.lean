import Sketchlog.Python.DriftSketch

/-!
# `ebpf/collector.py`: the export loop of `main`

The loop drains the log, posts what it held, and merges it back when the post raises an `OSError` or
a `RuntimeError`, while `_poll_loop` goes on adding batches to the same `ThreadSafeStreamLog`. The
stop event ends the loop at its next `wait`, and every other exception ends it where it is. An
action is one call that holds the lock of the log, an answer to the post, or the stop event; a post
whose answer is lost has failed. The batches that the log has accepted are on record.
-/

namespace Sketchlog.Ebpf

/-- Where the loop is. -/
inductive ExportLoop where
  /-- `stop_event.wait`. -/
  | waiting
  /-- `urlopen`. -/
  | posting (snapshot : Facade.StreamLog)
  /-- The stop event is set. -/
  | stopped
  /-- An exception that is not caught has ended the loop: `drain` has raised, or the post. -/
  | escaped (snapshot : Option Facade.StreamLog)
  /-- The exception handler has raised: `log.merge` does not take the snapshot back. -/
  | refused (snapshot : Facade.StreamLog)

/-- The snapshot that is neither exported nor merged back. -/
def ExportLoop.inFlight : ExportLoop → Option Facade.StreamLog
  | waiting | stopped => none
  | posting snapshot | refused snapshot => some snapshot
  | escaped snapshot => snapshot

structure Exporter where
  log : Facade.StreamLog
  loop : ExportLoop
  /-- The snapshots that the server has accepted. -/
  exported : List Facade.StreamLog
  added : List (List PyFloat)

inductive ExportAction where
  | addBatch (values : List PyFloat)
  | drain
  | accept
  /-- The post raises; the exception is an `OSError` or a `RuntimeError`, or another one. -/
  | fail (caught : Bool)
  | stop

namespace Exporter

def start (log : Facade.StreamLog) : Exporter := ⟨log, .waiting, [], []⟩

variable (M : IndexMapping) (cppAvailable : Bool)

/-- `add_batch` of `_poll_loop`. -/
def addBatch (values : List PyFloat) (s : Exporter) : Exporter :=
  match (Facade.StreamLog.addBatch M values).run s.log with
  | .ok () log => { s with log := log, added := s.added ++ [values] }
  | .error _ log => { s with log := log }

/-- `log.drain()`, and `continue` when nothing was counted. -/
def drain (s : Exporter) : Option Exporter :=
  match s.loop with
  | .waiting =>
    match s.log.cloneEmpty cppAvailable with
    | .ok log =>
      let loop := if s.log.totalEvents = 0 then .waiting else .posting s.log
      some { s with log := log, loop := loop }
    | .error _ => some { s with loop := .escaped none }
  | _ => none

/-- The server answers 202. -/
def accept (s : Exporter) : Option Exporter :=
  match s.loop with
  | .posting snapshot => some { s with loop := .waiting, exported := s.exported ++ [snapshot] }
  | _ => none

/-- An `OSError` or a `RuntimeError`, and `log.merge(snapshot)`. -/
def mergeBack (s : Exporter) : Option Exporter :=
  match s.loop with
  | .posting snapshot =>
    match (Facade.StreamLog.merge M cppAvailable snapshot).run s.log with
    | .ok () log => some { s with log := log, loop := .waiting }
    | .error _ log => some { s with log := log, loop := .refused snapshot }
  | _ => none

/-- Any other exception, such as the `http.client.HTTPException` of a bad status line. -/
def escape (s : Exporter) : Option Exporter :=
  match s.loop with
  | .posting snapshot => some { s with loop := .escaped (some snapshot) }
  | _ => none

/-- The loop sees the stop event. -/
def stop (s : Exporter) : Option Exporter :=
  match s.loop with
  | .waiting => some { s with loop := .stopped }
  | _ => none

def step (s : Exporter) : ExportAction → Option Exporter
  | .addBatch values => some (s.addBatch M values)
  | .drain => s.drain cppAvailable
  | .accept => s.accept
  | .fail caught => if caught then s.mergeBack M cppAvailable else s.escape
  | .stop => s.stop

end Exporter

end Sketchlog.Ebpf
