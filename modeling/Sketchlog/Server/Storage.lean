import Sketchlog.Lib.Rounding
import Sketchlog.Python.Concurrent

/-!
# `storage.py`: saving and loading a stream

A stream is stored as its document, written as JSON and compressed, beside its stamp `last_updated`:
`SQLAlchemyStorage` keeps both in a row, `OmniKVEmbeddedStorage` puts an envelope with both under
one key. Both skip a save whose stamp is not newer than the stored one. JSON, zlib and base64 are
the standard library's, and parameters (`Encodings`); the checks around them are the source's.
-/

namespace Sketchlog.Storage

open Checked

/-- `MAX_SERIALIZED_STATE_BYTES`. -/
def maxSerializedStateBytes : ℕ := 32 * 1024 * 1024

abbrev Bytes := List UInt8

/-- A `zlib.decompressobj` after `decompress(payload, limit)`, and what `flush()` then returns. -/
structure Inflated where
  output : Bytes
  unconsumedTail : Bytes
  flushed : Bytes
  eof : Bool
  unusedData : Bytes
  deriving DecidableEq

/-- The encodings of the standard library; a JSON text is its UTF-8 bytes. -/
structure Encodings where
  dumps : PyVal → Bytes
  loads : Bytes → Except PyError PyVal
  compress : Bytes → Bytes
  decompress : Bytes → ℕ → Except PyError Inflated
  b64encode : Bytes → String
  b64decode : String → Except PyError Bytes
  /-- `float(s)`, for a string. -/
  parseFloat : String → Except PyError PyFloat

variable (E : Encodings) (C : LogCodec)

/-- `_serialize_and_compress_stream`. -/
def serializeAndCompressStream (log : C.Log) : Except PyError Bytes :=
  let jsonBytes := E.dumps (C.toDict log)
  if maxSerializedStateBytes < jsonBytes.length then
    .error (.valueError "Serialized state exceeds the 32 MiB limit")
  else .ok (E.compress jsonBytes)

variable {E C} in
theorem serializeAndCompressStream_eq_ok {log : C.Log} {payload : Bytes} :
    serializeAndCompressStream E C log = .ok payload
      ↔ (E.dumps (C.toDict log)).length ≤ maxSerializedStateBytes
        ∧ E.compress (E.dumps (C.toDict log)) = payload := by
  show (if _ then _ else _) = _ ↔ _
  by_cases hlimit : maxSerializedStateBytes < (E.dumps (C.toDict log)).length
  · rw [if_pos hlimit]
    exact iff_of_false (fun h => by cases h) fun h => absurd h.1 (not_le.mpr hlimit)
  · rw [if_neg hlimit, Except.ok.injEq]
    exact (and_iff_right (not_lt.mp hlimit)).symm

/-- `_decompress_and_deserialize_stream`. -/
def decompressAndDeserializeStream (payload : Bytes) : Except PyError PyVal := do
  failIf (maxSerializedStateBytes < payload.length)
    (.valueError "Compressed state exceeds the 32 MiB limit")
  let d ← E.decompress payload (maxSerializedStateBytes + 1)
  failIf (maxSerializedStateBytes < d.output.length ∨ d.unconsumedTail ≠ [])
    (.valueError "Decompressed state exceeds the 32 MiB limit")
  failIf (maxSerializedStateBytes < (d.output ++ d.flushed).length)
    (.valueError "Decompressed state exceeds the 32 MiB limit")
  failIf (d.eof = false ∨ d.unusedData ≠ [])
    (.valueError "Compressed state is truncated or has trailing data")
  E.loads (d.output ++ d.flushed)

/-! ## Envelopes

The text that is stored: a JSON object with the payload in base64, its stamp, and a version. -/

/-- `float(x)`. -/
def toFloat : PyVal → Except PyError PyFloat
  | .float x => .ok x
  | .int n =>
    if h : n.natAbs < floatLimit then .ok (.fin ⟨Binary64.roundInt n, Binary64.isBinary64_roundInt h⟩)
    else .error (.overflowError "int too large to convert to float")
  | .bool b => .ok (.fin (if b then .ofInt 1 Binary64.abs_one_lt else .ofInt 0 Binary64.abs_zero_lt))
  | .str s => E.parseFloat s
  | v => .error (.typeError s!"float() argument must be a string or a real number, not '{v.typeName}'")

/-- The document of an envelope; its keys are sorted. -/
def envelopeDict (payload : Bytes) (lastUpdated : Binary64) : PyVal :=
  .dict [(.str "last_updated", .float (.fin lastUpdated)), (.str "payload", .str (E.b64encode payload)),
    (.str "payload_encoding", .str "zlib+base64"), (.str "schema", .int 1)]

/-- `_state_envelope`. -/
def stateEnvelope (log : C.Log) (lastUpdated : Binary64) : Except PyError Bytes := do
  let payload ← serializeAndCompressStream E C log
  .ok (E.dumps (envelopeDict E payload lastUpdated))

/-- `x == 1`. -/
def equalsOne : PyVal → Bool
  | .int n => n = 1
  | .float (.fin x) => x.val = 1
  | .bool b => b
  | _ => false

/-- The checks of an envelope, and its payload and stamp. -/
def readEnvelope (envelope : Items) : Except PyError (Bytes × PyFloat) := do
  failIf (equalsOne (envelope.get "schema") = false) (.valueError "unsupported state envelope schema")
  match envelope.get "payload_encoding" with
  | .str "zlib+base64" =>
    let lastUpdated ← toFloat E (← envelope.item "last_updated")
    match ← envelope.item "payload" with
    | .str rawPayload =>
      let payload ← E.b64decode rawPayload
      .ok (payload, lastUpdated)
    | _ => .error (.valueError "state payload must be a string")
  | _ => .error (.valueError "unsupported state payload encoding")

/-- The body of the `try` of `_parse_state_envelope`. -/
def loadEnvelope (value : Bytes) : Except PyError (Bytes × PyFloat) := do
  match ← E.loads value with
  | .dict envelope => readEnvelope E envelope
  | _ => .error (.valueError "state envelope must be a JSON object")

/-- `_parse_state_envelope`; an `OverflowError` is not among the exceptions it converts. -/
def parseStateEnvelope (value : Bytes) : Except PyError (PyVal × PyFloat) :=
  match loadEnvelope E value with
  | .ok (payload, lastUpdated) => do
    let data ← decompressAndDeserializeStream E payload
    .ok (data, lastUpdated)
  | .error (.overflowError msg) => .error (.overflowError msg)
  | .error e => .error (.valueError s!"Malformed storage state envelope: {e.text}")

/-! ## The two backends

What is stored for one stream is `none` or a value of the backend's own type. A call holds the
stream's lock from the read of the stored value to the write, so the write is one step. -/

/-- `SketchState`, the row of one stream. -/
structure Row where
  payload : Bytes
  lastUpdated : Binary64

/-- The transaction of `SQLAlchemyStorage.save`. -/
def upsert (payload : Bytes) (lastUpdated : Binary64) : Option Row → Option Row
  | none => some ⟨payload, lastUpdated⟩
  | some state =>
    if state.lastUpdated.val < lastUpdated.val then some ⟨payload, lastUpdated⟩ else some state

/-- A storage backend, as one stream sees it. -/
structure Durable (Log : Type) where
  Stored : Type
  save : ThreadSafeStreamLog Log → Option Stored → Except PyError (Option Stored)
  load : Option Stored → Option (Log × PyFloat)

/-- `SQLAlchemyStorage`, when no update runs beside a save. -/
def sqlAlchemy : Durable C.Log where
  Stored := Row
  save log state := do
    let compressedPayload ← serializeAndCompressStream E C log.log
    .ok (upsert compressedPayload log.lastUpdated state)
  load
    | none => none
    | some state =>
      match decompressAndDeserializeStream E state.payload >>= C.fromDict with
      | .ok log => some (log, .fin state.lastUpdated)
      | .error _ => none

/-- `existing >= last_updated`, for a finite `last_updated`. -/
def atLeast : PyFloat → Binary64 → Bool
  | .nan, _ => false
  | .inf negative, _ => !negative
  | .fin x, lastUpdated => lastUpdated.val ≤ x.val

/-- `OmniKVEmbeddedStorage`. -/
def omniKV : Durable C.Log where
  Stored := Bytes
  save log existing := do
    let value ← stateEnvelope E C log.log log.lastUpdated
    match existing with
    | none => .ok (some value)
    | some existing =>
      match parseStateEnvelope E existing with
      | .ok (_, existingUpdated) =>
        if atLeast existingUpdated log.lastUpdated then .ok (some existing) else .ok (some value)
      | .error (.valueError _) => .ok (some value)
      | .error e => .error e
  load
    | none => none
    | some value =>
      match parseStateEnvelope E value with
      | .ok (data, lastUpdated) =>
        match C.fromDict data with
        | .ok log => some (log, lastUpdated)
        | .error _ => none
      | .error _ => none

end Sketchlog.Storage
