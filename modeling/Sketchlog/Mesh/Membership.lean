import Sketchlog.Mesh.Cluster

/-!
# `cluster.py`: membership

A node keeps a table of the nodes it has heard of. The table is merged with the tables that pings
and their replies carry, its entries are suspected when a ping fails, and die and are removed when
they time out. What is kept of an entry is what the node reads of it again: a status and an
incarnation, which were checked, the time of its last change, which the node sets itself, and the
address, which may be missing.

`urllib.parse.urlsplit` is the standard library's and a parameter; what the node makes of its result
is the source's.
-/

namespace Sketchlog.Mesh

open Imperative

/-- `MAX_MEMBERS`. -/
def maxMembers : ℕ := 256

inductive Status where
  | alive
  | suspect
  | dead
  deriving DecidableEq, Repr

namespace Status

/-- `status in ("alive", "suspect", "dead")`, and which one. -/
def read : PyVal → Option Status
  | .str "alive" => some .alive
  | .str "suspect" => some .suspect
  | .str "dead" => some .dead
  | _ => none

end Status

/-- An entry of the table. `address` is `none` when the entry has no such key. -/
structure Member where
  address : Option PyVal
  status : Status
  incarnation : ℤ
  lastUpdated : Binary64
  isSeed : PyVal

/-- `bool(x)`. -/
def truthy : PyVal → Bool
  | .none => false
  | .bool b => b
  | .int n => n ≠ 0
  | .float (.fin x) => x.val ≠ 0
  | .float _ => true
  | .str s => s ≠ ""
  | .list xs => !xs.isEmpty
  | .dict d => !d.isEmpty

/-! ## Addresses -/

/-- What `urlsplit` gives. Its scheme and host name are in lower case; reading an invalid `port`
raises. -/
structure SplitResult where
  scheme : String
  hostname : Option String
  username : Option String
  password : Option String
  port : Except PyError (Option ℕ)
  path : String
  query : String
  fragment : String

/-- A field of the result that is set and not empty. -/
def isSet : Option String → Bool
  | some s => s ≠ ""
  | none => false

variable (urlsplit : String → Except PyError SplitResult)

/-- `_canonical_base_url`, of a string; `none` is a `ValueError`. -/
def canonicalBaseUrl (address : String) : Option String :=
  match urlsplit address with
  | .error _ => none
  | .ok parsed =>
    if ¬ (parsed.scheme = "http" ∨ parsed.scheme = "https") ∨ isSet parsed.hostname = false then none
    else if isSet parsed.username ∨ isSet parsed.password then none
    else if parsed.query ≠ "" ∨ parsed.fragment ≠ "" ∨ ¬ (parsed.path = "" ∨ parsed.path = "/") then
      none
    else
      match parsed.port with
      | .error _ => none
      | .ok port =>
        let host := parsed.hostname.getD ""
        let host := if ':' ∈ host.toList then s!"[{host}]" else host
        let defaultPort := if parsed.scheme = "http" then 80 else 443
        let authority :=
          match port with
          | none => host
          | some port => if port = defaultPort then host else s!"{host}:{port}"
        some s!"{parsed.scheme}://{authority}"

/-- `ClusterManager`, the fields of its state that membership is about. -/
structure Membership where
  nodeId : String
  advertisedAddress : Option String
  heartbeatTimeout : Binary64
  allowedPeerOrigins : List String
  incarnation : ℤ
  members : Dict String Member

namespace Membership

/-- `_validate_peer_address`; `none` is a `ValueError`. -/
def validatePeerAddress (self : Membership) : PyVal → Option String
  | .str address => (canonicalBaseUrl urlsplit address).filter (· ∈ self.allowedPeerOrigins)
  | _ => none

/-- `self.members[nid]` with a new entry. -/
def setMember (self : Membership) (nid : String) (info : Member) : Membership :=
  { self with members := self.members.set nid info }

/-! ## Construction -/

/-- One seed of the constructor. -/
def addSeed (now : String → Binary64) (self : Membership) (p : String) : Membership :=
  match canonicalBaseUrl urlsplit p with
  | some baseUrl =>
    if p ≠ "" ∧ baseUrl ≠ "" ∧ baseUrl ∈ self.allowedPeerOrigins then
      self.setMember s!"seed-{p}" ⟨some (.str baseUrl), .alive, 0, now s!"seed-{p}", .bool true⟩
    else self
  | none => self

/-- The membership part of `__init__`. `now` is the clock, by the entry it is read for. -/
def new (nodeId : String) (peers : List String) (advertisedAddress : Option String)
    (peerAllowlist : Option (List String)) (heartbeatTimeout : Binary64) (now : String → Binary64) :
    Membership :=
  let self : Membership :=
    { nodeId := nodeId
      advertisedAddress := advertisedAddress
      heartbeatTimeout := heartbeatTimeout
      allowedPeerOrigins := (peerAllowlist.getD peers).filterMap (canonicalBaseUrl urlsplit)
      incarnation := 0
      members := ∅ }
  let address := advertisedAddress.getD ""
  peers.foldl (addSeed urlsplit now)
    (self.setMember nodeId ⟨some (.str address), .alive, 0, now nodeId, .none⟩)

/-! ## `_merge_membership`

Each entry of a payload is skipped, refutes a rumour about the node itself, or is taken over. -/

/-- The address an entry is kept with: its own one when that is empty or missing, the canonical one
otherwise; `none` when the entry is rejected for it. -/
def entryAddress (self : Membership) (info : Items) : Option (Option PyVal) :=
  let remoteAddr := info.getOr "address" (.str "")
  if truthy remoteAddr then (self.validatePeerAddress urlsplit remoteAddr).map fun a => some (.str a)
  else some (info.lookup (.str "address"))

/-- What an entry of a payload says, when its status and its incarnation are valid. -/
def readInfo (info : Items) : Option (Status × ℤ) :=
  match Status.read (info.get "status"), info.get "incarnation" with
  | some status, .int incarnation => if incarnation < 0 then none else some (status, incarnation)
  | _, _ => none

/-- An entry about the node itself: a rumour that is not older is refuted. -/
def refute (self : Membership) (now : Binary64) (status : Status) (incarnation : ℤ) : Membership :=
  if (status = .suspect ∨ status = .dead) ∧ self.incarnation ≤ incarnation then
    { self with
      incarnation := incarnation + 1
      members :=
        match self.members.get? self.nodeId with
        | some own => self.members.set self.nodeId
          { own with incarnation := incarnation + 1, lastUpdated := now }
        | none => self.members }
  else self

/-- An entry about another node that is known: one of a higher incarnation replaces it, one of the same
incarnation may make it worse. -/
def update (self : Membership) (nid : String) (localInfo info : Member) : Membership :=
  if localInfo.incarnation < info.incarnation then self.setMember nid info
  else if info.incarnation = localInfo.incarnation then
    if localInfo.status = .alive ∧ (info.status = .suspect ∨ info.status = .dead) then
      self.setMember nid { localInfo with status := info.status, lastUpdated := info.lastUpdated }
    else self
  else self

/-- A valid entry about another node. -/
def adopt (self : Membership) (nid : String) (info : Member) : Membership :=
  match self.members.get? nid with
  | none => if maxMembers ≤ self.members.size then self else self.setMember nid info
  | some localInfo => self.update nid localInfo info

/-- One entry of a payload. -/
def mergeEntry (now : String → Binary64) (self : Membership) (entry : PyKey × PyVal) : Membership :=
  match entry with
  | (.str nid, .dict info) =>
    if nid = "" ∨ 255 < nid.length then self
    else
      match readInfo info with
      | none => self
      | some (status, incarnation) =>
        if nid = self.nodeId then self.refute (now nid) status incarnation
        else
          match self.entryAddress urlsplit info with
          | none => self
          | some address =>
              self.adopt nid ⟨address, status, incarnation, now nid, Items.get info "is_seed"⟩
  | _ => self

/-- `_merge_membership`. -/
def mergeMembership (now : String → Binary64) (incomingMembers : PyVal) :
    EStateM PyError Membership Unit :=
  match incomingMembers with
  | .dict entries => modify fun self => entries.foldl (mergeEntry urlsplit now) self
  | _ => throw (.valueError "Membership payload must be an object")

/-! ## Pings

What a node sends, what it does with a payload it receives, and whom it calls next. -/

/-- The ten entries that changed last. -/
def gossipList (self : Membership) : List (String × Member) :=
  (self.members.items.mergeSort fun x y => y.2.lastUpdated.val ≤ x.2.lastUpdated.val).take 10

/-- `"members" in payload`, and `payload["members"]` then. -/
def payloadMembers : PyVal → Except PyError (Option PyVal)
  | .dict payload => .ok (payload.lookup (.str "members"))
  | .list xs =>
    if xs.any (fun x => match x with | .str s => s = "members" | _ => false) then
      .error (.typeError "list indices must be integers or slices, not str")
    else .ok none
  | .str s =>
    if "members".toList <:+: s.toList then
      .error (.typeError "string indices must be integers, not 'str'")
    else .ok none
  | v => .error (.typeError s!"argument of type '{v.typeName}' is not iterable")

/-- `self.members[self.node_id]["last_updated"] = now`. -/
def touchSelf (self : Membership) (now : Binary64) : Membership :=
  match self.members.get? self.nodeId with
  | some own => self.setMember self.nodeId { own with lastUpdated := now }
  | none => self

/-- `handle_ping`. -/
def handlePing (now : String → Binary64) (payload : PyVal) :
    EStateM PyError Membership (List (String × Member)) := do
  modify fun self => self.touchSelf (now self.nodeId)
  match ← liftExcept (payloadMembers payload) with
  | some members => mergeMembership urlsplit now members
  | none => pure ()
  return (← get).gossipList

/-- `info["address"]`. -/
def addressOf (info : Member) : Except PyError PyVal :=
  match info.address with
  | some address => .ok address
  | none => .error (.keyError "'address'")

/-- The candidates of `_ping_random_member`. -/
def pingCandidates (self : Membership) : List (String × Member) :=
  self.members.items.filter fun m => m.1 ≠ self.nodeId ∧ (m.2.status = .alive ∨ m.2.status = .suspect)

/-- The candidates of `_gossip_state`, by their addresses. -/
def gossipCandidates (self : Membership) : Except PyError (List PyVal) := do
  let alive := self.members.items.filter fun m => m.1 ≠ self.nodeId ∧ m.2.status = .alive
  let addresses ← alive.mapM fun m => addressOf m.2
  .ok (addresses.filter truthy)

/-- The end of a ping of `nid` that was answered, for a seed. -/
def dropSeed (self : Membership) (nid : String) : Membership :=
  { self with members := self.members.pop nid }

/-- The end of a ping of `nid` that failed. -/
def suspectMember (self : Membership) (nid : String) (now : Binary64) : Membership :=
  match self.members.get? nid with
  | some info =>
    if info.status = .alive then self.setMember nid { info with status := .suspect, lastUpdated := now }
    else self
  | none => self

/-! ## `_check_timeouts` -/

/-- What a check makes of an entry: `none` when it is removed. -/
def timeOut (heartbeatTimeout now : Binary64) (info : Member) : Option Member :=
  let info :=
    if info.status = .suspect ∧ heartbeatTimeout.val
      < Binary64.floatSub now.val info.lastUpdated.val then
      { info with status := .dead, lastUpdated := now }
    else info
  if info.status = .dead
      ∧ Binary64.floatScale 5 heartbeatTimeout.val
        < Binary64.floatSub now.val info.lastUpdated.val then none
  else some info

end Membership

end Sketchlog.Mesh
