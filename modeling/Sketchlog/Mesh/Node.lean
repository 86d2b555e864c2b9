import Sketchlog.Mesh.Membership
import Sketchlog.Refine.MeshRegisters

/-!
# `cluster.py`: a running node

`ClusterManager` as a whole: its replicated state and its membership, which meet in
`_check_timeouts`, where a member that is removed takes its snapshots with it. Request handlers and
the two background threads change it in sections that hold its lock. `_ping_random_member` holds the
lock several times and waits for the answer in between, so it is several steps, and other steps come
between them.
-/

namespace Sketchlog.Mesh

open Imperative

/-- `ClusterManager`, with its membership. -/
structure Node (Log : Type) extends ClusterManager Log, Membership

namespace Node

variable {Log : Type}

/-- The node with another membership. -/
def withMembership (self : Node Log) (m : Membership) : Node Log :=
  { self with incarnation := m.incarnation, members := m.members }

/-- The node with another replicated state. -/
def withCluster (self : Node Log) (cm : ClusterManager Log) : Node Log :=
  { self with peerSnapshots := cm.peerSnapshots, peerTombstones := cm.peerTombstones }

/-! ## `_check_timeouts` -/

/-- The removal of a member: its snapshots go with it. -/
def removeMember (self : Node Log) (nid : String) : Node Log :=
  { self with
    members := self.members.pop nid
    peerSnapshots := self.peerSnapshots.mapVal fun peers => peers.pop nid }

/-- One entry of `_check_timeouts`. -/
def checkTimeout (now : Binary64) (self : Node Log) (entry : String × Member) : Node Log :=
  if entry.1 = self.nodeId then self
  else
    match Membership.timeOut self.heartbeatTimeout now entry.2 with
    | some info => { self with members := self.members.set entry.1 info }
    | none => self.removeMember entry.1

/-- `_check_timeouts`. -/
def checkTimeouts (self : Node Log) (now : Binary64) : Node Log :=
  self.members.items.foldl (checkTimeout now) self

end Node

/-! ## Steps

One node in its environment: payloads arrive, rounds of pings begin and end, timeouts run. -/

/-- A call of `_ping_random_member` that has chosen whom to ping. `answered` says that the answer
has been merged and the end of the call is left. -/
structure Ping where
  nid : String
  isSeed : PyVal
  answered : Bool

/-- A node, and its pings in flight. -/
structure Running (Log : Type) where
  node : Node Log
  pings : List Ping

namespace Running

inductive Action where
  | handlePing (payload : PyVal) (now : String → Binary64)
  | sendPing (nid : String)
  /-- The answer to a ping is merged, if it has members. -/
  | mergeAnswer (i : ℕ) (answer : Items) (now : String → Binary64)
  /-- The end of a ping: a seed is dropped. -/
  | endPing (i : ℕ)
  /-- No answer, or one that raised. -/
  | failPing (i : ℕ) (now : Binary64)
  | checkTimeouts (now : Binary64)
  | receive (delivery : ClusterManager.Delivery)

variable (urlsplit : String → Except PyError SplitResult) (C : LogCodec)

/-- One section that holds the lock; `none` when it is not possible. -/
def step (s : Running C.Log) : Action → Option (Running C.Log)
  | .handlePing payload now =>
    some { s with
      node := s.node.withMembership
        (after (Membership.handlePing urlsplit now payload) s.node.toMembership) }
  | .sendPing nid =>
    match (s.node.toMembership.pingCandidates).lookup nid with
    | some info =>
      match Membership.addressOf info with
      | .ok address =>
          if truthy address then some { s with pings := s.pings ++ [⟨nid, info.isSeed, false⟩] }
          else none
      | .error _ => none
    | none => none
  | .mergeAnswer i answer now =>
    match s.pings[i]?, answer.lookup (.str "members") with
    | some ⟨nid, isSeed, false⟩, some (.dict members) =>
      some ⟨s.node.withMembership
        (after (Membership.mergeMembership urlsplit now (.dict members)) s.node.toMembership),
        s.pings.set i ⟨nid, isSeed, true⟩⟩
    | some ⟨_, _, false⟩, none => some { s with pings := s.pings.eraseIdx i }
    | _, _ => none
  | .endPing i =>
    match s.pings[i]? with
    | some ⟨nid, isSeed, true⟩ =>
      some ⟨if truthy isSeed then s.node.withMembership (s.node.toMembership.dropSeed nid) else s.node,
        s.pings.eraseIdx i⟩
    | _ => none
  | .failPing i now =>
    match s.pings[i]? with
    | some ⟨nid, _, false⟩ =>
      some ⟨s.node.withMembership (s.node.toMembership.suspectMember nid now), s.pings.eraseIdx i⟩
    | _ => none
  | .checkTimeouts now => some { s with node := s.node.checkTimeouts now }
  | .receive delivery =>
    some { s with node := s.node.withCluster (s.node.toClusterManager.receive C delivery) }

end Running

end Sketchlog.Mesh
