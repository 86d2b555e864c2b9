import Sketchlog.Mesh.Cluster

/-!
# `cluster.py`: digests

`handle_gossip_digest` compares the versions a peer has sent with its own state and answers with the
updates the peer lacks and the requests for what it has and the node lacks. The answer is built
entry by entry under a budget of bytes; its size is not computed anew but kept up by the difference
that each entry makes.

A node reads its registry as a list of streams. `getSnapshot` stands for `get_snapshot`, a copy of a
log, and `reprFloat` for the shortest decimal text of a float.
-/

namespace Sketchlog.Mesh

open Checked

variable (reprFloat : Binary64 → List Char)

/-- `len(self._json_bytes(x))`; the text is ASCII. -/
def jsonSize (x : PyVal) : Except PyError ℕ := (Json.text reprFloat x).map List.length

/-- A stream of the registry. -/
structure LocalStream (Log : Type) where
  space : String
  streamId : String
  stream : ThreadSafeStreamLog Log

namespace LocalStream

variable {Log : Type}

/-- `json.dumps([ns, sid])`. -/
def key (l : LocalStream Log) : String := ClusterManager.streamKey l.space l.streamId

/-- `registry.peek(namespace, stream_name)`, of the names that a key stands for. -/
def peek (registry : List (LocalStream Log)) (names : List ℕ × List ℕ) : Option (LocalStream Log) :=
  registry.find? fun l => (l.space.toList.map Char.toNat, l.streamId.toList.map Char.toNat) = names

end LocalStream

/-! ## The versions of the peer

A digest names streams, origins and versions. What is malformed is skipped or raises, as in the
source. -/

/-- A version of a digest; `none` when it is not valid. An int that no float can hold makes
`math.isfinite` raise. -/
def readDigestVersion : PyVal → Except PyError (Option Binary64)
  | .int n =>
    if h : n.natAbs < floatLimit then
      .ok (if 0 ≤ n then some ⟨Binary64.roundInt n, Binary64.isBinary64_roundInt h⟩ else none)
    else .error (.overflowError "int too large to convert to float")
  | .float (.fin x) => .ok (if 0 ≤ x.val then some x else none)
  | _ => .ok none

/-- One origin of a stream; `none` when it is left out. -/
def readOrigin : PyKey × PyVal → Except PyError (Option (String × Binary64))
  | (.str nid, version) =>
    if validIdentifier nid then (readDigestVersion version).map (Option.map fun v => (nid, v))
      else .ok none
  | _ => .ok none

/-- The loop over the origins of a stream. -/
def normalizeOrigins : Items → Dict String Binary64 → Except PyError (Dict String Binary64)
  | [], normalized => .ok normalized
  | entry :: rest, normalized => do
    let read ← readOrigin entry
    let normalized := read.elim normalized fun origin => normalized.set origin.1 origin.2
    if maxOriginsPerStream ≤ normalized.size then .ok normalized else normalizeOrigins rest normalized

/-- One stream of a digest; `none` when it is left out. -/
def readStream (maxNesting : ℕ) :
    PyKey × PyVal → Except PyError (Option (String × Dict String Binary64))
  | (.str streamId, origins) => do
    let valid ← validStreamKey maxNesting streamId
    match valid, origins with
    | true, .dict origins =>
      let normalizedOrigins ← normalizeOrigins origins ∅
      .ok (some (streamId, normalizedOrigins))
    | _, _ => .ok none
  | _ => .ok none

/-- The loop over the streams of a digest. -/
def normalizeVersions (maxNesting : ℕ) : Items → Dict String (Dict String Binary64) →
    Except PyError (Dict String (Dict String Binary64))
  | [], normalized => .ok normalized
  | entry :: rest, normalized => do
    match ← readStream maxNesting entry with
    | none => normalizeVersions maxNesting rest normalized
    | some (streamId, normalizedOrigins) =>
      let normalized := normalized.set streamId normalizedOrigins
      if maxPeerStreams ≤ normalized.size then .ok normalized
      else normalizeVersions maxNesting rest normalized

/-- The versions that a digest says the peer has. -/
def readDigest (maxNesting : ℕ) (payload : Items) :
    Except PyError (Dict String (Dict String Binary64)) :=
  match payload.getOr "versions" (.dict []) with
  | .dict versions => normalizeVersions maxNesting versions ∅
  | _ => .error (.valueError "versions must be an object")

/-- `remote_versions.get(stream_id, {}).get(nid, 0)`. -/
def remoteVersion (remote : Dict String (Dict String Binary64)) (streamId nid : String) : ℚ :=
  (((remote.get? streamId).getD ∅).get? nid).elim 0 Binary64.val

/-! ## The response

Requests first, within a quarter of the payload; then the local streams, tombstones and snapshots,
each kind until the first update that does not fit. -/

/-- `updates_to_send`, `requests_to_make` and `response_size`. -/
structure Response where
  updates : Dict String (Dict String PyVal)
  requests : Dict String (List String)
  size : ℤ

/-- A dictionary with string keys, as a value. -/
def dictVal {β : Type} (value : β → PyVal) (d : Dict String β) : PyVal :=
  .dict (d.items.map fun kv => (.str kv.1, value kv.2))

/-- The updates of one stream. -/
def groupVal (group : Dict String PyVal) : PyVal := dictVal id group

/-- A list of node identifiers. -/
def nidsVal (nids : List String) : PyVal := .list (nids.map .str)

namespace Response

/-- The response, as it is sent. -/
def toPyVal (nodeId : String) (r : Response) : PyVal :=
  .dict [(.str "node_id", .str nodeId), (.str "updates", dictVal groupVal r.updates),
    (.str "requests", dictVal nidsVal r.requests)]

/-- Nothing yet. -/
def empty (nodeId : String) : Except PyError Response := do
  let size ← jsonSize reprFloat
    (.dict [(.str "node_id", .str nodeId), (.str "updates", .dict []), (.str "requests", .dict [])])
  .ok ⟨∅, ∅, size⟩

end Response

namespace ClusterManager

variable {C : LogCodec} {Log : Type}

/-- The difference that an entry makes. What stands under its key becomes `candidate`; it was
`current`, or nothing. -/
def entryDelta {β : Type} (d : Dict String β) (key : String) (present : Bool)
    (current candidate : PyVal) :
    Except PyError ℤ := do
  let candidateSize ← jsonSize reprFloat candidate
  if present then do
    let currentSize ← jsonSize reprFloat current
    .ok (candidateSize - currentSize)
  else do
    let keySize ← jsonSize reprFloat (.str key)
    .ok (candidateSize + ((if d.isEmpty then 0 else 1) + keySize + 1))

/-- `add_request`; its callers do not look at the result. -/
def addRequest (self : ClusterManager C.Log) (r : Response) (streamId nid : String) :
    Except PyError Response :=
  let current := (r.requests.get? streamId).getD []
  if nid ∈ current then .ok r
  else do
    let candidate := current ++ [nid]
    let delta ← entryDelta reprFloat r.requests streamId (!current.isEmpty) (nidsVal current)
      (nidsVal candidate)
    if r.size + delta > (self.maxPayloadBytes / 4 : ℕ) then .ok r
    else .ok { r with requests := r.requests.set streamId candidate, size := r.size + delta }

/-- `add_update`; `none` when the update does not fit. -/
def addUpdate (self : ClusterManager C.Log) (r : Response) (streamId nid : String) (data : Items) :
    Except PyError (Option Response) := do
  let current := (r.updates.get? streamId).getD ∅
  let candidate := current.set nid (.dict data)
  let delta ← entryDelta reprFloat r.updates streamId (!current.isEmpty) (groupVal current)
    (groupVal candidate)
  if r.size + delta > self.maxPayloadBytes then .ok none
  else .ok (some { r with updates := r.updates.set streamId candidate, size := r.size + delta })

/-- 1. The requests for newer origins of one stream. -/
def requestOrigins (self : ClusterManager C.Log) (r : Response)
    (group : String × Dict String Binary64) :
    Except PyError Response :=
  group.2.items.foldlM (fun r origin =>
    if origin.1 = self.nodeId then .ok r
    else if self.knownVersion group.1 origin.1 < origin.2.val then
      self.addRequest reprFloat r group.1 origin.1
    else .ok r) r

variable (getSnapshot : C.Log → Except PyError C.Log)

/-- The update for a local stream. -/
def localUpdate (l : LocalStream C.Log) : Except PyError Items := do
  let log ← getSnapshot l.stream.log
  .ok (snapshotData (.float (.fin l.stream.lastUpdated)) (C.toDict log))

/-- 2.A. The local streams; the first one that does not fit ends the loop, one that raises is left
out. -/
def sendLocalStreams (self : ClusterManager C.Log) (remote : Dict String (Dict String Binary64)) :
    List (LocalStream C.Log) → Response → Response
  | [], r => r
  | l :: rest, r =>
    if remoteVersion remote l.key self.nodeId < l.stream.lastUpdated.val then
      match localUpdate getSnapshot l >>= self.addUpdate reprFloat r l.key self.nodeId with
      | .ok (some r) => sendLocalStreams self remote rest r
      | .ok none => r
      | .error _ => sendLocalStreams self remote rest r
    else sendLocalStreams self remote rest r

/-- A local tombstone whose stream is not newer. -/
def liveTombstone (registry : List (LocalStream Log)) (tombstone : String × ℚ) : Bool :=
  match Json.loadPair tombstone.1.toList with
  | none => false
  | some names =>
    match LocalStream.peek registry names with
    | some l => decide (l.stream.lastUpdated.val ≤ tombstone.2)
    | none => true

/-- A loop over entries that are to be sent; the first one that does not fit ends it. -/
def sendAll (self : ClusterManager C.Log) {β : Type} (streamId : β → String) (nid : β → String)
    (data : β → Items) :
    List β → Response → Except PyError Response
  | [], r => .ok r
  | entry :: rest, r => do
    match ← self.addUpdate reprFloat r (streamId entry) (nid entry) (data entry) with
    | some r => sendAll self streamId nid data rest r
    | none => .ok r

/-- 2.A. The local tombstones. -/
def sendLocalTombstones (self : ClusterManager C.Log) (remote : Dict String (Dict String Binary64))
    (registry : List (LocalStream C.Log)) (r : Response) : Except PyError Response :=
  self.sendAll reprFloat (fun t : String × ℚ => t.1) (fun _ => self.nodeId)
    (fun t => tombstoneData (.ofRat t.2))
    (self.localTombstones.items.filter fun t =>
      liveTombstone registry t && decide (remoteVersion remote t.1 self.nodeId < t.2)) r

/-- 2.B. The snapshots of one stream; the first one that does not fit ends the loop over its origins. -/
def sendPeerSnapshots (self : ClusterManager C.Log) (remote : Dict String (Dict String Binary64))
    (r : Response)
    (group : String × Dict String (C.Log × Version)) : Except PyError Response :=
  self.sendAll reprFloat (fun _ => group.1) (fun p : String × (C.Log × Version) => p.1)
    (fun p => snapshotData p.2.2.toPyVal (C.toDict p.2.1))
    (group.2.items.filter fun p => remoteVersion remote group.1 p.1 < p.2.2.val) r

/-- `snapshot_versions.get((stream_id, nid), 0)`. -/
def snapshotVersion (self : ClusterManager C.Log) (streamId nid : String) : ℚ :=
  ((self.existingOrigins streamId).get? nid).elim 0 fun kept => kept.2.val

/-- 2.B. The tombstones of one stream. -/
def sendPeerTombstones (self : ClusterManager C.Log) (remote : Dict String (Dict String Binary64))
    (r : Response)
    (group : String × Dict String Version) : Except PyError Response :=
  self.sendAll reprFloat (fun _ => group.1) (fun t : String × Version => t.1)
    (fun t => tombstoneData t.2.toPyVal)
    (group.2.items.filter fun t =>
      self.snapshotVersion group.1 t.1 ≤ t.2.val ∧ remoteVersion remote group.1 t.1 < t.2.val) r

/-- The requests that are placed. -/
def placeRequests (self : ClusterManager C.Log) (remote : Dict String (Dict String Binary64))
    (r : Response) :
    Except PyError Response :=
  remote.items.foldlM (self.requestOrigins reprFloat) r

/-- The updates that are placed. -/
def placeUpdates (self : ClusterManager C.Log) (remote : Dict String (Dict String Binary64))
    (registry : List (LocalStream C.Log)) (r : Response) : Except PyError Response := do
  let r := self.sendLocalStreams reprFloat getSnapshot remote registry r
  let r ← self.sendLocalTombstones reprFloat remote registry r
  let r ← self.peerSnapshots.items.foldlM (self.sendPeerSnapshots reprFloat remote) r
  self.peerTombstones.items.foldlM (self.sendPeerTombstones reprFloat remote) r

/-- `handle_gossip_digest`. -/
def handleGossipDigest (self : ClusterManager C.Log) (registry : List (LocalStream C.Log))
    (payload : Items) :
    Except PyError Response := do
  let remote ← readDigest self.maxNesting payload
  let r ← Response.empty reprFloat self.nodeId
  let r ← self.placeRequests reprFloat remote r
  self.placeUpdates reprFloat getSnapshot remote registry r

end ClusterManager

end Sketchlog.Mesh
