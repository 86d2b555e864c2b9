import Sketchlog.Lib.Dict
import Sketchlog.Lib.FloatSum
import Sketchlog.Python.Concurrent
import Sketchlog.Python.Json

/-!
# `cluster.py`: the replicated state of a mesh node

What a node knows of the streams of its peers, `receive_snapshot`, and the reservations of deletions of
its own streams. The mesh handles logs of either backend, through `to_dict` and `from_dict` alone, so it
is modelled for every `LogCodec`.

The version of an entry is a clock reading, a float, or the number that a peer has sent; versions are
compared by value.
-/

namespace Sketchlog.Mesh

open Imperative Checked

/-- The version of an entry, as it is held. -/
inductive Version where
  | int (n : ℤ)
  | float (x : Binary64)

namespace Version

def val : Version → ℚ
  | .int n => n
  | .float x => x.val

def toPyVal : Version → PyVal
  | .int n => .int n
  | .float x => .float (.fin x)

end Version

/-- `ClusterManager`, the fields of its state that are replicated or bound it, and how deep the
interpreter lets `json.loads` nest lists and objects inside an outermost one. -/
structure ClusterManager (Log : Type) where
  nodeId : String
  maxPayloadBytes : ℕ
  maxLocalTombstones : ℕ
  maxNesting : ℕ
  peerSnapshots : Dict String (Dict String (Log × Version))
  peerTombstones : Dict String (Dict String Version)
  localTombstones : Dict String ℚ

/-- `MAX_PEER_STREAMS`. -/
def maxPeerStreams : ℕ := 10000

/-- `MAX_ORIGINS_PER_STREAM`. -/
def maxOriginsPerStream : ℕ := 50

/-- `MAX_IDENTIFIER_LENGTH`. -/
def maxIdentifierLength : ℕ := 255

/-- `isinstance(x, str) and 0 < len(x) <= MAX_IDENTIFIER_LENGTH`, for a string. -/
def validIdentifier (s : String) : Prop := s ≠ "" ∧ s.length ≤ maxIdentifierLength

instance (s : String) : Decidable (validIdentifier s) := inferInstanceAs (Decidable (_ ∧ _))

/-- Whether a text is the canonical one of a list of two identifiers, and not too long. -/
def canonicalKey (streamId : String) : Bool :=
  streamId.length ≤ 1024
    && match Json.loadPair streamId.toList with
      | some (a, b) =>
        streamId.toList = Json.dumpPair a b
          && 0 < a.length && a.length ≤ maxIdentifierLength
          && 0 < b.length && b.length ≤ maxIdentifierLength
      | none => false

/-- `_valid_stream_key`, for a string. It catches the syntax errors of `json.loads`, and not the
`RecursionError` of a text that is nested too deeply. -/
def validStreamKey (maxNesting : ℕ) (streamId : String) : Except PyError Bool :=
  if 1024 < streamId.length then .ok false
  else if Json.tooDeep maxNesting streamId.toList then
    .error (.runtimeError "maximum recursion depth exceeded")
  else .ok (canonicalKey streamId)

/-! ## `receive_snapshot`

One entry after another: it is checked, read, compared with the version that is known, and stored.
An error while reading one entry skips that entry. -/

/-- The version of an entry, and its check. An int that no float can hold makes `math.isfinite`
raise. -/
def readVersion (timestamp : Binary64) (data : Items) : Except PyError Version :=
  match data.getOr "__version__" (.float (.fin timestamp)) with
  | .int n =>
    if floatLimit ≤ n.natAbs then .error (.overflowError "int too large to convert to float")
    else if n < 0 then .error (.valueError "invalid origin version")
    else .ok (.int n)
  | .float (.fin x) =>
    if x.val < 0 then .error (.valueError "invalid origin version") else .ok (.float x)
  | _ => .error (.valueError "invalid origin version")

/-- An update of what one origin has of one stream: its version and its log, or no log for a
tombstone. -/
structure Update (Log : Type) where
  stream : String
  origin : String
  version : Version
  log : Option Log

variable {C : LogCodec}

/-- The data of a tombstone, as a node sends it. -/
def tombstoneData (version : PyVal) : Items :=
  [(.str "__tombstone__", .bool true), (.str "__version__", version)]

/-- The data of a snapshot, as a node sends it. -/
def snapshotData (version state : PyVal) : Items :=
  [(.str "__version__", version), (.str "state", state)]

/-- `data.get("__tombstone__") is True`. -/
def isTombstone (data : Items) : Bool :=
  match data.get "__tombstone__" with
  | .bool b => b
  | _ => false

/-- The body of the `try`, up to the lock. -/
def readEntry (C : LogCodec) (timestamp : Binary64) (streamId nid : String) (data : Items) :
    Except PyError (Update C.Log) := do
  let version ← readVersion timestamp data
  if isTombstone data then .ok ⟨streamId, nid, version, none⟩
  else do
    let log ← C.fromDict (data.getOr "state" (.dict data))
    .ok ⟨streamId, nid, version, some log⟩

namespace ClusterManager

variable {Log : Type}

/-- The origins known of a stream, with snapshots. -/
def existingOrigins (self : ClusterManager Log) (streamId : String) : Dict String (Log × Version) :=
  (self.peerSnapshots.get? streamId).getD ∅

/-- The origins known of a stream, with tombstones. -/
def tombstoneOrigins (self : ClusterManager Log) (streamId : String) : Dict String Version :=
  (self.peerTombstones.get? streamId).getD ∅

/-- `len(d.keys() | e.keys())`. -/
def unionSize {β γ : Type} (d : Dict String β) (e : Dict String γ) : ℕ :=
  (d.keys ++ e.keys).toFinset.card

/-- A new stream or a new origin beyond the limits. -/
def exceedsLimits (self : ClusterManager Log) (streamId nid : String) : Prop :=
  (streamId ∉ self.peerSnapshots.keys ++ self.peerTombstones.keys
      ∧ maxPeerStreams ≤ unionSize self.peerSnapshots self.peerTombstones)
    ∨ (nid ∉ (self.existingOrigins streamId).keys ++ (self.tombstoneOrigins streamId).keys
      ∧ maxOriginsPerStream
        ≤ unionSize (self.existingOrigins streamId) (self.tombstoneOrigins streamId))

instance (self : ClusterManager Log) (streamId nid : String) :
    Decidable (self.exceedsLimits streamId nid) :=
  inferInstanceAs (Decidable ((_ ∧ _) ∨ (_ ∧ _)))

/-- `max(existing_snapshot, existing_tombstone)`. -/
def knownVersion (self : ClusterManager Log) (streamId nid : String) : ℚ :=
  max (((self.existingOrigins streamId).get? nid).elim 0 fun kept => kept.2.val)
    (((self.tombstoneOrigins streamId).get? nid).elim 0 Version.val)

/-- A group with an origin removed; an empty group is dropped. -/
def dropOrigin {β : Type} (groups : Dict String (Dict String β)) (streamId nid : String) :
    Dict String (Dict String β) :=
  match groups.get? streamId with
  | some group =>
    if (group.pop nid).isEmpty then groups.pop streamId else groups.set streamId (group.pop nid)
  | none => groups

/-- `groups.setdefault(stream_id, {})[nid] = value`. -/
def setOrigin {β : Type} (groups : Dict String (Dict String β)) (streamId nid : String) (value : β) :
    Dict String (Dict String β) :=
  groups.set streamId (((groups.get? streamId).getD ∅).set nid value)

/-- The section of `receive_snapshot` that holds the lock. -/
def store (self : ClusterManager Log) (u : Update Log) : ClusterManager Log :=
  if self.exceedsLimits u.stream u.origin then self
  else if u.version.val ≤ self.knownVersion u.stream u.origin then self
  else
    match u.log with
    | none =>
      { self with
        peerSnapshots := dropOrigin self.peerSnapshots u.stream u.origin
        peerTombstones := setOrigin self.peerTombstones u.stream u.origin u.version }
    | some log =>
      { self with
        peerSnapshots := setOrigin self.peerSnapshots u.stream u.origin (log, u.version)
        peerTombstones := dropOrigin self.peerTombstones u.stream u.origin }

/-- One entry of a group: skipped unless its origin is another node and it can be read. -/
def receiveEntry (C : LogCodec) (timestamp : Binary64) (streamId : String)
    (self : ClusterManager C.Log) (entry : PyKey × PyVal) : ClusterManager C.Log :=
  match entry with
  | (.str nid, .dict data) =>
    if validIdentifier nid ∧ nid ≠ self.nodeId then
      match readEntry C timestamp streamId nid data with
      | .ok u => self.store u
      | .error _ => self
    else self
  | _ => self

/-- One stream of a batch. -/
def receiveStream (C : LogCodec) (timestamp : Binary64) :
    PyKey × PyVal → EStateM PyError (ClusterManager C.Log) Unit
  | (.str streamId, nodeData) => do
    let self ← get
    let valid ← liftExcept (validStreamKey self.maxNesting streamId)
    match valid, nodeData with
    | true, .dict nodeData =>
      modify fun self => nodeData.foldl (receiveEntry C timestamp streamId) self
    | _, _ => pure ()
  | _ => pure ()

/-- `receive_snapshot`. What raises at a stream leaves the streams before it as they were stored. -/
def receiveSnapshot (C : LogCodec) (senderNodeId streamsData : PyVal) (timestamp : Binary64) :
    EStateM PyError (ClusterManager C.Log) Unit :=
  match senderNodeId with
  | .str sender => do
    raiseIf (¬ validIdentifier sender) (.valueError "invalid sender node ID")
    match streamsData with
    | .dict groups => groups.forM (receiveStream C timestamp)
    | _ => throw (.valueError "streams must be an object")
  | _ => throw (.valueError "invalid sender node ID")

/-! ## Deletions of local streams

A deletion reserves a tombstone first and may take it back when the commit fails. -/

/-- `json.dumps([namespace, stream_id])`. -/
def streamKey (space streamId : String) : String :=
  String.ofList (Json.dumpPair (space.toList.map Char.toNat) (streamId.toList.map Char.toNat))

/-- `begin_deletion`, at the clock reading `now`: the key, the committed and the previous version. -/
def beginDeletion (now : ℚ) (fullId : String) :
    EStateM PyError (ClusterManager Log) (String × ℚ × Option ℚ) := do
  let self ← get
  let previous := self.localTombstones.get? fullId
  raiseIf (previous = none ∧ self.maxLocalTombstones ≤ self.localTombstones.size)
    (.runtimeError "local mesh tombstone capacity exhausted")
  let committed := max now (Binary64.floatAdd (previous.getD 0) oneMicro)
  modify fun self => { self with localTombstones := self.localTombstones.set fullId committed }
  return (fullId, committed, previous)

/-- `rollback_deletion`. -/
def rollbackDeletion (streamKey : String) (version : ℚ) (previous : Option ℚ) :
    EStateM PyError (ClusterManager Log) Unit :=
  modify fun self =>
    if self.localTombstones.get? streamKey ≠ some version then self
    else
      match previous with
      | none => { self with localTombstones := self.localTombstones.pop streamKey }
      | some previous =>
        { self with localTombstones := self.localTombstones.set streamKey previous }

end ClusterManager

end Sketchlog.Mesh
