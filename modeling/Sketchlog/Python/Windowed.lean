import Sketchlog.Lib.SlidingWindow
import Sketchlog.Python.Facade

/-!
# `windowed.py`: `WindowedStreamLog`

A ring of logs, each for a part of a window of time, and a log in which those that are young enough
are merged. The clock is injected: a rotation reads it once, and once more when it merges the logs
again. Both reads come under the lock, so that a call is one step.

`unique_count` is computed with a logarithm of libm. `Estimator` stands for it; of its values
nothing is used but that they are positive when a register is.
-/

namespace Sketchlog

open Imperative SlidingWindow

/-- `int(estimate() + 0.5)`, of the registers of a HyperLogLog. -/
structure Estimator where
  count : List ℕ → ℤ
  count_pos_iff : ∀ registers, 0 < count registers ↔ ∃ r ∈ registers, r ≠ 0

/-- What can be added to a log: `add_latency`, `add_event`, `add_unique`. -/
inductive Addition where
  | latency (value : PyFloat)
  | event (name : EventKey) (count : ℤ)
  | unique (item : EventKey)

namespace Facade.StreamLog

variable (M : IndexMapping) (E : Estimator)

/-- A call on the backend, whichever it is. -/
def dispatch (python : EStateM PyError Sketchlog.StreamLog Unit)
    (cpp : EStateM PyError Cpp.StreamLog Unit) :
    EStateM PyError StreamLog Unit := do
  let self ← get
  match self.backend with
  | .python log => onBackend log .python python
  | .cpp log => onBackend log .cpp cpp

/-- A `TypeError` of the bindings becomes a `ValueError`. -/
def renameTypeError (x : EStateM PyError StreamLog Unit) : EStateM PyError StreamLog Unit := fun self =>
  match x.run self with
  | .error (.typeError msg) t =>
    if msg = "incompatible function arguments" then
      .error (.valueError "Unique integer out of range for 64-bit unsigned") t
    else .error (.typeError msg) t
  | r => r

/-- `add_latency`, `add_event` and `add_unique` of the facade. -/
def add : Addition → EStateM PyError StreamLog Unit
  | .latency value =>
      dispatch (Sketchlog.StreamLog.addLatency M value) (Cpp.StreamLog.addLatency M value)
  | .event name count => do
    raiseIf (count ≤ 0) (.valueError "Event count must be strictly positive")
    raiseIf (count > maxInt64) (.overflowError "Event count exceeds int64 capacity")
    raiseIf (Sketchlog.StreamLog.keyOutOfRange name)
      (.valueError "Event integer key out of range for 64-bit unsigned")
    dispatch (Sketchlog.StreamLog.addEvent name count) (Cpp.StreamLog.addEvent name count)
  | .unique item =>
    renameTypeError (dispatch (Sketchlog.StreamLog.addUnique (.key item))
      (Cpp.StreamLog.addUnique item))

/-- `reset`. -/
def reset : EStateM PyError StreamLog Unit := dispatch Sketchlog.StreamLog.reset Cpp.StreamLog.reset

/-- `total_events`. -/
def totalEvents (self : StreamLog) : ℤ :=
  match self.backend with
  | .python log => log.total
  | .cpp log => log.totalEvents

/-- `unique_count`. -/
def uniqueCount (self : StreamLog) : ℤ :=
  match self.backend with
  | .python log => max 0 (E.count log.uniques.registers)
  | .cpp log => E.count log.uniques.registers

end Facade.StreamLog

/-- The length of the window in nanoseconds, cut into `n` parts. -/
structure Span (n : ℕ) where
  windowNs : ℕ
  window_pos : 0 < windowNs

/-- `(window_ns + n_buckets - 1) // n_buckets`. -/
def Span.bucketDurationNs {n : ℕ} (span : Span n) : ℕ := (span.windowNs + n - 1) / n

theorem Span.bucketDuration_pos {n : ℕ} [NeZero n] (span : Span n) : 0 < span.bucketDurationNs := by
  have hn : 0 < n := NeZero.pos n
  have hw := span.window_pos
  exact Nat.div_pos (by omega) hn

/-- `WindowedStreamLog`, with `n` buckets. -/
structure WindowedStreamLog (n : ℕ) where
  buckets : Fin n → Facade.StreamLog
  bucketStartTimes : Fin n → ℤ
  currentBucket : Fin n
  merged : Facade.StreamLog
  /-- `float('inf')` is `none`. -/
  mergedExpiresAt : Option ℤ

namespace WindowedStreamLog

variable (M : IndexMapping) (E : Estimator) (cppAvailable : Bool) {n : ℕ} [NeZero n] (span : Span n)

/-- `__init__`, with the arguments of the sketches. -/
def new (cfg : Config) (now : ℤ) : Except PyError (WindowedStreamLog n) := do
  let log ← Facade.StreamLog.new cppAvailable { cfg with deterministic := false }
  .ok { buckets := fun _ => log
        bucketStartTimes := fun _ => now
        currentBucket := 0
        merged := log
        mergedExpiresAt := none }

/-- A call on a bucket. -/
def onBucket (i : Fin n) : EStateM PyError Facade.StreamLog Unit
    → EStateM PyError (WindowedStreamLog n) Unit :=
  zoom (fun self => self.buckets i) fun log self =>
    { self with buckets := Function.update self.buckets i log }

/-- A call on `self._merged`. -/
def onMerged : EStateM PyError Facade.StreamLog Unit → EStateM PyError (WindowedStreamLog n) Unit :=
  zoom merged fun log self => { self with merged := log }

/-- A bucket is merged again: it is young enough, and not empty. -/
def contributes (self : WindowedStreamLog n) (now : ℤ) (i : Fin n) : Prop :=
  now - self.bucketStartTimes i ≤ span.windowNs
    ∧ (0 < (self.buckets i).totalEvents ∨ 0 < (self.buckets i).uniqueCount E)

instance (self : WindowedStreamLog n) (now : ℤ) (i : Fin n) :
    Decidable (self.contributes E span now i) :=
  inferInstanceAs (Decidable (_ ∧ (_ ∨ _)))

/-- The body of the loop of `_rebuild_merged`, with `expires_at`. -/
def mergeBucket (now : ℤ) (expiresAt : Option ℤ) (i : Fin n) :
    EStateM PyError (WindowedStreamLog n) (Option ℤ) := do
  let self ← get
  if self.contributes E span now i then do
    onMerged (Facade.StreamLog.merge M cppAvailable (self.buckets i))
    pure (earlier expiresAt (self.bucketStartTimes i + span.windowNs))
  else pure expiresAt

/-- `_rebuild_merged`. -/
def rebuildMerged (now : ℤ) : EStateM PyError (WindowedStreamLog n) Unit := do
  onMerged Facade.StreamLog.reset
  let expiresAt ← (List.finRange n).foldlM (mergeBucket M E cppAvailable span now) none
  modify fun self => { self with mergedExpiresAt := expiresAt }

/-- The body of the loop of `_rotate`. -/
def nextBucket : EStateM PyError (WindowedStreamLog n) Unit := do
  let self ← get
  let prevStart := self.bucketStartTimes self.currentBucket
  let next := self.currentBucket + 1
  modify fun self => { self with currentBucket := next }
  onBucket next Facade.StreamLog.reset
  modify fun self =>
    { self with
      bucketStartTimes :=
        Function.update self.bucketStartTimes next (prevStart + span.bucketDurationNs) }

/-- The loop of `_rotate`, with `rotated`. -/
def rotateLoop (elapsed : ℤ) (rotated : Bool) : EStateM PyError (WindowedStreamLog n) Bool :=
  if _h : (span.bucketDurationNs : ℤ) ≤ elapsed then do
    nextBucket span
    rotateLoop (elapsed - span.bucketDurationNs) true
  else pure rotated
termination_by elapsed.toNat
decreasing_by
  have hpos := span.bucketDuration_pos
  omega

/-- A bucket is emptied, in the shortcut of `_rotate`. -/
def clearBucket (now : ℤ) (i : Fin n) : EStateM PyError (WindowedStreamLog n) Unit := do
  onBucket i Facade.StreamLog.reset
  modify fun self => { self with bucketStartTimes := Function.update self.bucketStartTimes i now }

/-- `_rotate`, which reads the clock at `now`, and at `now'` when it rebuilds. -/
def rotate (now now' : ℤ) : EStateM PyError (WindowedStreamLog n) Unit := do
  let self ← get
  let elapsed := now - self.bucketStartTimes self.currentBucket
  let rotated := expired self.mergedExpiresAt now
  if (n : ℤ) * span.bucketDurationNs ≤ elapsed then do
    (List.finRange n).forM (clearBucket now)
    rebuildMerged M E cppAvailable span now'
  else do
    let rotated ← rotateLoop span elapsed rotated
    if rotated then rebuildMerged M E cppAvailable span now' else pure ()

/-- `add_latency`, `add_event` and `add_unique`. -/
def add (a : Addition) (now now' : ℤ) : EStateM PyError (WindowedStreamLog n) Unit := do
  rotate M E cppAvailable span now now'
  let self ← get
  onBucket self.currentBucket (Facade.StreamLog.add M a)
  onMerged (Facade.StreamLog.add M a)

/-- `reset`. -/
def reset (now : ℤ) : EStateM PyError (WindowedStreamLog n) Unit := do
  (List.finRange n).forM fun i => onBucket i Facade.StreamLog.reset
  onMerged Facade.StreamLog.reset
  modify fun self =>
    { self with mergedExpiresAt := none, bucketStartTimes := fun _ => now, currentBucket := 0 }

end WindowedStreamLog

end Sketchlog
