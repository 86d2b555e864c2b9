import Sketchlog.Lib.Base64
import Sketchlog.Lib.Dict
import Sketchlog.Server.Storage

/-!
# `storage.py`: tombstones in OmniKV

`OmniKVEmbeddedStorage` keeps states and tombstones under keys of one store. The names in a key are
written in base64, and the version of a tombstone in an envelope. `save_tombstone` reads the stored
version and puts its own when that is higher; `delete_with_tombstone` does so first and then deletes
the state. Each holds the lock stripes of the keys it works on from its first to its last client
call, and every client call is a step of its own.

The client is a dictionary. Python's `hash` of a pair of strings is a parameter, and so is `str` of
a value that is not a string.
-/

namespace Sketchlog.Storage

open Checked

/-! ## Keys -/

/-- `STATE_KEY_PREFIX`. -/
def stateKeys : List Char := "sketchlog/v1/streams".toList

/-- `TOMBSTONE_KEY_PREFIX`. -/
def tombstoneKeys : List Char := "sketchlog/v1/tombstones".toList

/-- `_encode_key_part`. -/
def encodeKeyPart (value : String) : List Char := Base64.encode value.toUTF8.data.toList

/-- `_state_key`. -/
def stateKey (space streamId : String) : String :=
  String.ofList (stateKeys ++ '/' :: encodeKeyPart space ++ '/' :: encodeKeyPart streamId)

/-- The characters of `_tombstone_prefix`. -/
def nodeTombstones (nodeId : String) : List Char :=
  tombstoneKeys ++ '/' :: encodeKeyPart nodeId ++ ['/']

/-- `_tombstone_key`. -/
def tombstoneKey (nodeId streamKey : String) : String :=
  String.ofList (nodeTombstones nodeId ++ encodeKeyPart streamKey)

/-! ## Envelopes -/

variable (E : Encodings)

/-- The document of a tombstone; its keys are sorted. -/
def tombstoneDict (streamKey : String) (version : Binary64) : Items :=
  [(.str "schema", .int 1), (.str "stream_key", .str streamKey),
    (.str "version", .float (.fin version))]

/-- `_tombstone_envelope`. -/
def tombstoneEnvelope (streamKey : String) (version : Binary64) : Bytes :=
  E.dumps (.dict (tombstoneDict streamKey version))

/-- `x[name]`, of a JSON value. -/
def subscript (name : String) : PyVal → Except PyError PyVal
  | .dict d => Items.item d name
  | v => .error (.typeError s!"'{v.typeName}' object is not subscriptable")

/-- `float(json.loads(value)["version"])`. -/
def readTombstone (value : Bytes) : Except PyError PyFloat := do
  let payload ← E.loads value
  toFloat E (← subscript "version" payload)

/-- The exceptions that a reader of tombstones catches. -/
def caughtByReader : PyError → Bool
  | .keyError _ | .typeError _ | .valueError _ => true
  | _ => false

/-- `_tombstone_version`. -/
def tombstoneVersion : Option Bytes → Except PyError PyFloat
  | none => .ok (.inf true)
  | some value =>
    match readTombstone E value with
    | .ok version => .ok version
    | .error e => if caughtByReader e then .ok (.inf true) else .error e

/-! ## `load_tombstones`

The rows under the prefix of the node are read one after another, and the newest version of each key
is kept. -/

/-- `x > y`. -/
def floatGt : PyFloat → PyFloat → Bool
  | .inf false, .inf true => true
  | .inf false, .fin _ => true
  | .fin _, .inf true => true
  | .fin x, .fin y => y.val < x.val
  | _, _ => false

/-- `max(x, y)`. -/
def floatMax (x y : PyFloat) : PyFloat := if floatGt y x then y else x

variable (str : PyVal → String)

/-- `str(x)`. -/
def toStr : PyVal → String
  | .str s => s
  | v => str v

/-- The stream key and the version of a row. -/
def readRow (value : Bytes) : Except PyError (String × PyFloat) := do
  let payload ← E.loads value
  let streamKey := toStr str (← subscript "stream_key" payload)
  let version ← toFloat E (← subscript "version" payload)
  .ok (streamKey, version)

/-- One row of `load_tombstones`; a row that cannot be read is left out. -/
def loadRow (tombstones : Dict String PyFloat) (row : String × Bytes) :
    Except PyError (Dict String PyFloat) :=
  match readRow E str row.2 with
  | .ok (streamKey, version) =>
    .ok (tombstones.set streamKey (floatMax version ((tombstones.get? streamKey).getD version)))
  | .error e => if caughtByReader e then .ok tombstones else .error e

/-- `client.scan_prefix(prefix, None)`. -/
def scanPrefix (store : Dict String Bytes) (chars : List Char) : List (String × Bytes) :=
  store.items.filter fun row => chars.isPrefixOf row.1.toList

/-- `load_tombstones`. -/
def loadTombstones (store : Dict String Bytes) (nodeId : String) :
    Except PyError (Dict String PyFloat) :=
  (scanPrefix store (nodeTombstones nodeId)).foldlM (loadRow E str) ∅

/-! ## Lock stripes -/

variable (hash : String → String → ℤ)

/-- `_lock_index_for`. -/
def lockIndexFor (keyA keyB : String) : ℕ := (hash keyA keyB % 64).toNat

/-- The stripes of `_lock_pair_for`, in the order in which they are taken. -/
def lockPairFor (firstKeyA firstKeyB secondKeyA secondKeyB : String) : List ℕ :=
  let firstIndex := lockIndexFor hash firstKeyA firstKeyB
  let secondIndex := lockIndexFor hash secondKeyA secondKeyB
  if firstIndex = secondIndex then [firstIndex]
    else [min firstIndex secondIndex, max firstIndex secondIndex]

/-! ## Calls

Calls of `save_tombstone` and `delete_with_tombstone` run at the same time. Each takes its stripes
in order, speaks to the store step by step, and ends. -/

inductive Request where
  | saveTombstone
  /-- The state that `delete_with_tombstone` deletes. -/
  | deleteWithTombstone (space streamId : String)
  deriving DecidableEq

/-- How far a call has got: what it does next. -/
inductive Phase where
  /-- It has taken some of its stripes. -/
  | locking (taken : ℕ)
  | getting
  | putting
  | syncing
  | gettingState
  | deleting
  | syncingState
  /-- It has returned; `delete_with_tombstone` returns whether there was a state. -/
  | done (deleted : Option Bool)
  /-- It was stopped, or raised. -/
  | stopped
  deriving DecidableEq

/-- A call of `save_tombstone` or `delete_with_tombstone`. -/
structure Call where
  request : Request
  nodeId : String
  streamKey : String
  version : Binary64
  phase : Phase

namespace Call

def tombstoneKey (call : Call) : String := Storage.tombstoneKey call.nodeId call.streamKey

/-- The stripes that the call takes. -/
def locks (call : Call) : List ℕ :=
  match call.request with
  | .saveTombstone => [lockIndexFor hash call.nodeId call.streamKey]
  | .deleteWithTombstone space streamId => lockPairFor hash space streamId call.nodeId call.streamKey

/-- How many stripes the call holds. -/
def taken (call : Call) : ℕ :=
  match call.phase with
  | .locking taken => taken
  | .done _ | .stopped => 0
  | _ => (call.locks hash).length

/-- The stripes that the call holds. -/
def held (call : Call) : List ℕ := (call.locks hash).take (call.taken hash)

/-- What follows the tombstone. -/
def afterTombstone (call : Call) : Phase :=
  match call.request with
  | .saveTombstone => .done none
  | .deleteWithTombstone _ _ => .gettingState

/-- A call that has not returned when the process stops. -/
def stop (call : Call) : Call :=
  match call.phase with
  | .done _ => call
  | _ => { call with phase := .stopped }

end Call

/-- The store, and the calls so far. -/
structure Running where
  store : Dict String Bytes
  calls : List Call

namespace Running

inductive Action where
  | start (request : Request) (nodeId streamKey : String) (version : Binary64)
  /-- A call takes its next stripe, or makes its next client call. -/
  | advance (i : ℕ)
  /-- The process stops. -/
  | stop
  /-- `save` puts the state of a stream. -/
  | putState (space streamId : String) (value : Bytes)

/-- A call in its next phase. -/
def moveTo (s : Running) (i : ℕ) (call : Call) (phase : Phase) : Running :=
  { s with calls := s.calls.set i { call with phase := phase } }

/-- `async with lock`: the next stripe is taken when no call holds it. -/
def lock (s : Running) (i : ℕ) (call : Call) (taken : ℕ) : Option Running :=
  match (call.locks hash)[taken]? with
  | some index =>
    if s.calls.any fun other => decide (index ∈ other.held hash) then none
    else some (s.moveTo i call (if taken + 1 < (call.locks hash).length then .locking (taken + 1)
      else .getting))
  | none => none

/-- The read and the comparison of `_put_tombstone_if_newer`. -/
def getTombstone (s : Running) (i : ℕ) (call : Call) : Running :=
  match tombstoneVersion E (s.store.get? call.tombstoneKey) with
  | .ok current =>
      s.moveTo i call (if atLeast current call.version then call.afterTombstone else .putting)
  | .error _ => s.moveTo i call .stopped

/-- The client call that a call is at. -/
def clientCall (s : Running) (i : ℕ) (call : Call) : Option Running :=
  match call.phase, call.request with
  | .getting, _ => some (s.getTombstone E i call)
  | .putting, _ =>
    some ({ s with
      store := s.store.set call.tombstoneKey (tombstoneEnvelope E call.streamKey call.version)
        }.moveTo i call .syncing)
  | .syncing, _ => some (s.moveTo i call call.afterTombstone)
  | .gettingState, .deleteWithTombstone space streamId =>
    some (s.moveTo i call
      (if s.store.get? (stateKey space streamId) = none then .done (some false) else .deleting))
  | .deleting, .deleteWithTombstone space streamId =>
    some ({ s with store := s.store.pop (stateKey space streamId) }.moveTo i call .syncingState)
  | .syncingState, _ => some (s.moveTo i call (.done (some true)))
  | _, _ => none

/-- One step; `none` when it is not possible. -/
def step (s : Running) : Action → Option Running
  | .start request nodeId streamKey version =>
    some { s with calls := s.calls ++ [⟨request, nodeId, streamKey, version, .locking 0⟩] }
  | .advance i =>
    match s.calls[i]? with
    | some call =>
      match call.phase with
      | .locking taken => s.lock hash i call taken
      | _ => s.clientCall E i call
    | none => none
  | .stop => some { s with calls := s.calls.map Call.stop }
  | .putState space streamId value =>
      some { s with store := s.store.set (stateKey space streamId) value }

/-- Nothing is stored, and nothing was called. -/
def init : Running := ⟨∅, []⟩

end Running

end Sketchlog.Storage
