import Sketchlog.Cpp.Document
import Sketchlog.Python.Concurrent

/-!
# `facade.py`: `StreamLog`

The log that a program uses: a log of either backend, and the configuration it was made with. The
C++ backend is used where its extension is installed (`cppAvailable`), unless the log is to be
deterministic. A merge first brings the other log to the backend of the receiver, through its
document where the two differ.
-/

namespace Sketchlog.Facade

open Imperative Checked

/-- `0.01`. -/
def defaultAccuracy : Binary64 := 
  ⟨5764607523034235 / 2 ^ 59, 5764607523034235, -59, by norm_num, by norm_num, by norm_num, by norm_num⟩

/-- The defaults of `StreamLog.__init__`. -/
def defaults (deterministic : Bool) : Config := ⟨.fin defaultAccuracy, 10, 2048, 5, deterministic⟩

/-- `self._backend`. -/
inductive Backend where
  | python (log : Sketchlog.StreamLog)
  | cpp (log : Cpp.StreamLog)

/-- `StreamLog`. -/
structure StreamLog where
  config : Config
  backend : Backend

variable (M : IndexMapping) (cppAvailable : Bool)

namespace Backend

/-- `_cpp is not None and not deterministic`. -/
def usesCpp (deterministic : Bool) : Bool := cppAvailable && !deterministic

/-- The backend of a new log. -/
def new (cfg : Config) : Except PyError Backend :=
  if usesCpp cppAvailable cfg.deterministic then
    (Cpp.StreamLog.new cfg.relativeAccuracy cfg.hllPrecision cfg.cmsWidth cfg.cmsDepth).map .cpp
  else (Sketchlog.StreamLog.new cfg).map .python

/-- The backend of a validated document. -/
def restore (validated : Sketchlog.StreamLog) : Except PyError Backend :=
  if usesCpp cppAvailable validated.deterministic then (Cpp.StreamLog.restore validated).map .cpp
  else .ok (.python validated)

def toDict : Backend → PyVal
  | .python log => log.toDict
  | .cpp log => log.toDict

/-- The other log, as the Python backend merges it. -/
def asPython : Backend → Except PyError Sketchlog.StreamLog
  | .python log => .ok log
  | .cpp log => Sketchlog.StreamLog.fromDict M log.toDict

/-- The other log, as the C++ backend merges it. -/
def asCpp : Backend → Except PyError Cpp.StreamLog
  | .python log => do
    failIf (cppAvailable = false) (.runtimeError "C++ backend is unavailable")
    let validated ← Sketchlog.StreamLog.fromDict M { log with deterministic := false }.toDict
    Cpp.StreamLog.restore { validated with deterministic := false }
  | .cpp log => .ok log

end Backend

namespace StreamLog

/-- `StreamLog.__init__`. -/
def new (cfg : Config) : Except PyError StreamLog :=
  (Backend.new cppAvailable cfg).map fun backend => ⟨cfg, backend⟩

/-- `clone_empty`. -/
def cloneEmpty (self : StreamLog) : Except PyError StreamLog := new cppAvailable self.config

def toDict (self : StreamLog) : PyVal := self.backend.toDict

/-- A call on the backend, which is `log`. -/
def onBackend {τ : Type} (log : τ) (backend : τ → Backend) (x : EStateM PyError τ Unit) :
    EStateM PyError StreamLog Unit :=
  zoom (fun _ => log) (fun log self => { self with backend := backend log }) x

/-- `merge`. -/
def merge (other : StreamLog) : EStateM PyError StreamLog Unit := do
  let self ← get
  match self.backend with
  | .python log => do
    let compatibleOther ← liftExcept (other.backend.asPython M)
    onBackend log .python (Sketchlog.StreamLog.merge compatibleOther)
  | .cpp log => do
    let compatibleOther ← liftExcept (other.backend.asCpp M cppAvailable)
    onBackend log .cpp (Cpp.StreamLog.merge compatibleOther)

/-- A float of a document, as an argument. -/
def floatOf (q : ℚ) : PyFloat := if h : IsBinary64 q then .fin ⟨q, h⟩ else .nan

/-- The configuration that a validated document describes. -/
def configOf (validated : Sketchlog.StreamLog) : Config :=
  ⟨floatOf validated.latency.alpha, validated.uniques.p, validated.events.width, validated.events.depth,
    validated.deterministic⟩

/-- `from_dict`. -/
def fromDict (data : PyVal) : Except PyError StreamLog := do
  let validated ← Sketchlog.StreamLog.fromDict M data
  let backend ← Backend.restore cppAvailable validated
  let log ← new cppAvailable (configOf validated)
  .ok { log with backend := backend }

/-- `get_snapshot` of `ThreadSafeStreamLog`: a copy of the log. -/
def getSnapshot (self : StreamLog) : Except PyError StreamLog := do
  let snapshot ← self.cloneEmpty cppAvailable
  Cpp.exec (merge M cppAvailable self) snapshot

end StreamLog

/-- Logs, by their documents. -/
abbrev codec : LogCodec := ⟨StreamLog, StreamLog.toDict, StreamLog.fromDict M cppAvailable⟩

end Sketchlog.Facade
