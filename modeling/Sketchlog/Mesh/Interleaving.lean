import Sketchlog.Mesh.Streams
import Sketchlog.Python.DriftSketch
import Sketchlog.Refine.MeshRegisters

/-!
# Gossip between nodes whose streams are written

A node sends a stream in two steps: it reads `last_updated` without the lock, and then takes a
snapshot under it. Both `handle_gossip_digest` and the requests that `_gossip_state` fulfils do so,
and other threads write to the stream before, between and after. What was sent can come late, again
or in another order, in batches of any composition, and a node that has got it sends it on.

`Network` is what all nodes and the messages between them are between two steps. A batch is received
entry by entry, each under the lock of the node; since a batch can have any composition, its entries
can as well be received apart.
-/

namespace Sketchlog.Mesh

open Imperative ClusterManager

/-- An object that holds a stream, in the memory of the node `origin`. A stream that is deleted or
evicted, and comes again, has another one. -/
structure StreamObject where
  stream : String
  origin : String
  timeline : Timeline Facade.StreamLog

/-- A thread between its two steps: the object, and the version it has read. -/
structure Reading where
  object : ℕ
  version : Binary64

/-- What was sent of one stream of one origin. -/
structure Message where
  stream : String
  origin : String
  data : Items

structure Network where
  objects : List StreamObject
  readings : List Reading
  sent : List Message
  nodes : List (ClusterManager Facade.StreamLog)

/-- The updating calls of a stream; a posted state is restored before it is merged. -/
inductive Write where
  | add (a : Addition)
  | addBatch (values : List PyFloat)
  | merge (state : PyVal)
  | reset

/-- The call on the log. -/
def Write.call (M : IndexMapping) (cppAvailable : Bool) : Write → EStateM PyError Facade.StreamLog Unit
  | .add a => Facade.StreamLog.add M a
  | .addBatch values => Facade.StreamLog.addBatch M values
  | .merge state => do
    let incoming ← liftExcept (Facade.StreamLog.fromDict M cppAvailable state)
    Facade.StreamLog.merge M cppAvailable incoming
  | .reset => Facade.StreamLog.reset

namespace Network

inductive Action where
  /-- A node gets a stream: a new one, or one that was stored. -/
  | create (stream origin : String) (deterministic : Bool) (now : Binary64)
  | load (stream origin : String) (state : PyVal) (lastUpdated : Binary64)
  /-- The two halves of an updating call. -/
  | write (object : ℕ) (w : Write)
  | stamp (object : ℕ) (now : Binary64)
  /-- The two steps of sending a local stream. -/
  | readVersion (object : ℕ)
  | sendSnapshot (reading : ℕ)
  /-- A node sends on what it has of another one. -/
  | relay (node : ℕ) (stream origin : String)
  | sendTombstone (stream origin : String) (version : Version)
  | deliver (node : ℕ) (d : Delivery)
  /-- A member is removed, and its snapshots with it. -/
  | removeMember (node : ℕ) (origin : String)

variable (M : IndexMapping) (cppAvailable : Bool)

/-- A mesh before any stream is made. -/
def start (nodes : List (ClusterManager Facade.StreamLog)) : Network := ⟨[], [], [], nodes⟩

/-- A new object. -/
def enter (s : Network) (stream origin : String) (log : Facade.StreamLog) (lastUpdated : Binary64) :
    Network :=
  { s with objects := s.objects ++ [⟨stream, origin, .start ⟨log, lastUpdated⟩⟩] }

/-- A step of the timeline of an object. -/
def onTimeline (s : Network) (object : ℕ)
    (x : Timeline Facade.StreamLog → Option (Timeline Facade.StreamLog)) : Option Network :=
  match s.objects[object]? with
  | some o => (x o.timeline).map fun timeline =>
      { s with objects := s.objects.set object { o with timeline } }
  | none => none

def send (s : Network) (stream origin : String) (data : Items) : Network :=
  { s with sent := s.sent ++ [⟨stream, origin, data⟩] }

/-- The snapshot of a stream whose version was read before. It waits for the lock; one that raises
is not sent. -/
def sendSnapshot (s : Network) (reading : Reading) : Option Network :=
  match s.objects[reading.object]? with
  | some o =>
    if o.timeline.locked then none
    else
      match o.timeline.log.getSnapshot M cppAvailable with
      | .ok log =>
          some (s.send o.stream o.origin (snapshotData (.float (.fin reading.version)) log.toDict))
      | .error _ => some s
  | none => none

def step (s : Network) : Action → Option Network
  | .create stream origin deterministic now =>
    match Facade.StreamLog.new cppAvailable (Facade.defaults deterministic) with
    | .ok log => some (s.enter stream origin log now)
    | .error _ => none
  | .load stream origin state lastUpdated =>
    match Facade.StreamLog.fromDict M cppAvailable state with
    | .ok log => some (s.enter stream origin log lastUpdated)
    | .error _ => none
  | .write object w => s.onTimeline object fun timeline => timeline.apply (w.call M cppAvailable)
  | .stamp object now => s.onTimeline object fun timeline => timeline.stamp now
  | .readVersion object =>
    s.objects[object]?.map fun o =>
      { s with readings := s.readings ++ [⟨object, o.timeline.lastUpdated⟩] }
  | .sendSnapshot reading => s.readings[reading]? >>= s.sendSnapshot M cppAvailable
  | .relay node stream origin => do
    let manager ← s.nodes[node]?
    let (log, version) ← (manager.existingOrigins stream).get? origin
    some (s.send stream origin (snapshotData version.toPyVal log.toDict))
  | .sendTombstone stream origin version => some (s.send stream origin (tombstoneData version.toPyVal))
  | .deliver node d =>
    some { s with nodes := s.nodes.modify node fun manager =>
      manager.receive (Facade.codec M cppAvailable) d }
  | .removeMember node origin =>
    some { s with
      nodes := s.nodes.modify node fun manager =>
        { manager with peerSnapshots := manager.peerSnapshots.mapVal fun peers => peers.pop origin } }

/-- What is delivered was sent: each entry of a batch, as JSON brings it. -/
def Carried (s : Network) (d : Delivery) : Prop :=
  ∀ groups, d.streamsData = .dict groups → ∀ stream nodeData,
    (PyKey.str stream, PyVal.dict nodeData) ∈ groups →
    ∀ origin data, (PyKey.str origin, PyVal.dict data) ∈ nodeData →
      ∃ m ∈ s.sent, m.stream = stream ∧ m.origin = origin ∧ data = itemsThroughJson [] m.data

/-- Nothing is delivered that was not sent. -/
def Delivers (s : Network) : Action → Prop
  | .deliver _ d => s.Carried d
  | _ => True

end Network

end Sketchlog.Mesh
