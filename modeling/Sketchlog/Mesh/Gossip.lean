import Sketchlog.Mesh.Digest

/-!
# `cluster.py`: gossip rounds

A round sends a digest, which `_bounded_version_vector` keeps within the limit of a payload: entries
that do not fit wait for the next rounds, which go on where this one has stopped. The peer answers
with updates and requests; `_gossip_state` fulfils the requests in as many payloads as it takes.
-/

namespace Sketchlog.Mesh

open Checked

variable (reprFloat : Binary64 → List Char) {C : LogCodec}

/-! ## The digest

The vector of known versions, in whole or from a cursor on, as far as it fits the payload. -/

/-- The versions of one stream. -/
def originsVal (origins : Dict String Version) : PyVal := dictVal Version.toPyVal origins

/-- A digest, as it is sent. -/
def versionsVal (nodeId : String) (versions : Dict String (Dict String Version)) : PyVal :=
  .dict [(.str "node_id", .str nodeId), (.str "versions", dictVal originsVal versions)]

namespace ClusterManager

/-- The loop of `_bounded_version_vector`: what is selected and how many entries were considered. An
entry that does not fit beside others ends it; one that does not fit alone is passed over. -/
def selectVersions (self : ClusterManager C.Log) : List (String × Dict String Version) →
    Dict String (Dict String Version) → (used considered : ℕ)
      → Except PyError (Dict String (Dict String Version) × ℕ)
  | [], selected, _, considered => .ok (selected, considered)
  | (streamId, origins) :: rest, selected, used, considered => do
    let keySize ← jsonSize reprFloat (.str streamId)
    let originsSize ← jsonSize reprFloat (originsVal origins)
    let contribution := (if selected.isEmpty then 0 else 1) + keySize + 1 + originsSize
    if used + contribution ≤ self.maxPayloadBytes then
      selectVersions self rest (selected.set streamId origins) (used + contribution) (considered + 1)
    else if selected.isEmpty then selectVersions self rest selected used (considered + 1)
    else .ok (selected, considered)

/-- `_bounded_version_vector`, at a value of `_digest_cursor`: the versions to send and the cursor
afterwards. The loop considers the entries in the order of the vector, from the cursor on and around
its end. -/
def boundedVersionVector (self : ClusterManager C.Log)
    (versionVector : Dict String (Dict String Version)) (cursor : ℤ) :
    Except PyError (Dict String (Dict String Version) × ℤ) := do
  let size ← jsonSize reprFloat (versionsVal self.nodeId versionVector)
  if size ≤ self.maxPayloadBytes then .ok (versionVector, cursor)
  else if versionVector.isEmpty then .ok (∅, cursor)
  else do
    let base ← jsonSize reprFloat (versionsVal self.nodeId ∅)
    let start := (cursor % versionVector.size).toNat
    let (selected, considered) ← self.selectVersions reprFloat (versionVector.items.rotate start) ∅
      base 0
    .ok (selected, ((start + considered) % versionVector.size : ℕ))

end ClusterManager

/-! ## The requested updates

The answer to the requests of a peer: each update is put in the pending batch, in a batch of its
own, or nowhere if it does not fit even alone. -/

/-- The streams of one sync payload. -/
abbrev Streams : Type := Dict String (Dict String PyVal)

/-- A sync payload, as it is sent. -/
def syncVal (nodeId : String) (streams : Streams) : PyVal :=
  .dict [(.str "node_id", .str nodeId), (.str "streams", dictVal groupVal streams)]

/-- `sync_payload["streams"]`, and what was posted before. -/
structure Batch where
  sent : List Streams
  pending : Streams

/-- `flush_sync_payload`. -/
def Batch.flush (b : Batch) : Batch := if b.pending.isEmpty then b else ⟨b.sent ++ [b.pending], ∅⟩

/-- The streams of a payload with one update. -/
def singleUpdate (streamId nid : String) (data : Items) : Streams :=
  (∅ : Streams).set streamId ((∅ : Dict String PyVal).set nid (.dict data))

namespace ClusterManager

/-- `queue_sync_update`. -/
def queueSyncUpdate (self : ClusterManager C.Log) (b : Batch) (streamId nid : String) (data : Items) :
    Except PyError Batch := do
  let candidate := setOrigin b.pending streamId nid (.dict data)
  let size ← jsonSize reprFloat (syncVal self.nodeId candidate)
  if size > self.maxPayloadBytes then do
    let size ← jsonSize reprFloat (syncVal self.nodeId (singleUpdate streamId nid data))
    if size > self.maxPayloadBytes then .ok b.flush
    else .ok { b.flush with pending := singleUpdate streamId nid data }
  else .ok { b with pending := candidate }

variable (getSnapshot : C.Log → Except PyError C.Log)

/-- The update for a stream of the node itself. -/
def requestedLocal (self : ClusterManager C.Log) (registry : List (LocalStream C.Log))
    (streamId : String) :
    Except PyError (Option Items) :=
  match Json.loadPair streamId.toList with
  | none => .error (.valueError "not a stream key")
  | some names =>
    let stream := LocalStream.peek registry names
    let streamVersion := stream.elim 0 fun l => l.stream.lastUpdated.val
    let tombstone := self.localTombstones.get? streamId
    if streamVersion ≤ tombstone.getD 0 then .ok (some (tombstoneData (tombstone.elim (.int 0) .ofRat)))
    else
      match stream with
      | some l => (localUpdate getSnapshot l).map some
      | none => .ok none

/-- The update for a stream of another node. -/
def requestedPeer (self : ClusterManager C.Log) (streamId nid : String) : Option Items :=
  let kept := (self.existingOrigins streamId).get? nid
  let tombstone := (self.tombstoneOrigins streamId).get? nid
  if kept.elim 0 (fun k => k.2.val) ≤ tombstone.elim 0 Version.val then
    some (tombstoneData (tombstone.elim (.int 0) Version.toPyVal))
  else kept.map fun k => snapshotData k.2.toPyVal (C.toDict k.1)

/-- One requested origin. What raises is left out if the stream is local. -/
def syncOrigin (self : ClusterManager C.Log) (registry : List (LocalStream C.Log)) (b : Batch)
    (request : String × String) : Except PyError Batch :=
  if request.2 = self.nodeId then
    let queued := do
      match ← self.requestedLocal getSnapshot registry request.1 with
      | some data => self.queueSyncUpdate reprFloat b request.1 request.2 data
      | none => .ok b
    match queued with
    | .ok b => .ok b
    | .error _ => .ok b
  else
    match self.requestedPeer request.1 request.2 with
    | some data => self.queueSyncUpdate reprFloat b request.1 request.2 data
    | none => .ok b

/-- One entry of the list of a stream. -/
def readRequest (streamId : String) : PyVal → Option (String × String)
  | .str nid => if validIdentifier nid then some (streamId, nid) else none
  | _ => none

/-- The origins that are requested of a stream; malformed entries are passed over. -/
def requestedOrigins (maxNesting : ℕ) : PyKey × PyVal → Except PyError (List (String × String))
  | (.str streamId, nids) => do
    let valid ← validStreamKey maxNesting streamId
    match valid, nids with
    | true, .list nids => .ok (nids.filterMap (readRequest streamId))
    | _, _ => .ok []
  | _ => .ok []

/-- The payloads that are posted to fulfil the requests. -/
def syncPayloads (self : ClusterManager C.Log) (registry : List (LocalStream C.Log))
    (requests : Items) :
    Except PyError (List Streams) := do
  let b ← requests.foldlM (fun b entry => do
    let origins ← requestedOrigins self.maxNesting entry
    origins.foldlM (self.syncOrigin reprFloat getSnapshot registry) b) ⟨[], ∅⟩
  .ok b.flush.sent

end ClusterManager

end Sketchlog.Mesh
