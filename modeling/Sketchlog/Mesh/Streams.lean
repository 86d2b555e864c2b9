import Sketchlog.Mesh.Digest
import Sketchlog.Python.Facade

/-!
# `cluster.py`: streams

`restore_local_tombstones` reads the deletions that were stored. An entry that is not one is left
out; a stored number of deletions that exceeds the configured capacity stops the start of the node.
`get_merged_stream` is what a read of a stream reports: a copy of the node's own log, or a default
log, with the snapshots of the peers merged into it.
-/

namespace Sketchlog.Mesh

open Imperative

namespace ClusterManager

variable {Log : Type}

/-- One entry of `restore_local_tombstones`. -/
def restoreTombstone : PyKey × PyVal → EStateM PyError (ClusterManager Log) Unit
  | (.str streamId, version) => do
    let self ← get
    if ← liftExcept (validStreamKey self.maxNesting streamId) then
      match ← liftExcept (readDigestVersion version) with
      | none => pure ()
      | some version =>
        raiseIf (self.localTombstones.get? streamId = none
            ∧ self.maxLocalTombstones ≤ self.localTombstones.size)
          (.runtimeError "stored mesh tombstones exceed configured capacity")
        let previous := (self.localTombstones.get? streamId).getD 0
        modify fun self =>
          { self with localTombstones :=
              self.localTombstones.set streamId (max version.val previous) }
    else pure ()
  | _ => pure ()

/-- `restore_local_tombstones`. -/
def restoreLocalTombstones (tombstones : Items) : EStateM PyError (ClusterManager Log) Unit :=
  tombstones.forM restoreTombstone

/-- `has_peer_data`. -/
def hasPeerData (self : ClusterManager Log) (space streamId : String) : Bool :=
  !(self.existingOrigins (streamKey space streamId)).isEmpty

/-- `get_merged_stream`. -/
def getMergedStream (M : IndexMapping) (cppAvailable : Bool) (self : ClusterManager Facade.StreamLog)
    (space streamId : String) (localStream : Option (ThreadSafeStreamLog Facade.StreamLog)) :
    Except PyError Facade.StreamLog := do
  let merged ←
    match localStream with
    | some stream => stream.log.getSnapshot M cppAvailable
    | none => Facade.StreamLog.new cppAvailable (Facade.defaults true)
  (self.existingOrigins (streamKey space streamId)).items.foldlM
    (fun merged kept => Cpp.exec (Facade.StreamLog.merge M cppAvailable kept.2.1) merged) merged

end ClusterManager

end Sketchlog.Mesh
