import Sketchlog.Properties.DigestBudget
import Sketchlog.Refine.RestoredLogs

/-!
# The entries of a node

What a node may send in a response are the entries of its streams, its tombstones and those of its
peers. The four loops of `handle_gossip_digest` over them are one loop over groups of entries
(`placeUpdates_eq`): in each group, the entries that are current and newer are added one by one up
to the first that does not fit.
-/

namespace Sketchlog.Mesh

open Checked

/-- What a node has of one origin of one stream, and what it would send of it. A tombstone that a
newer stream has superseded is not current. -/
structure Entry where
  streamId : String
  nid : String
  version : ℚ
  current : Bool
  update : Except PyError Items

namespace Entry

/-- The entry is newer than the digest says. -/
def Newer (remote : Dict String (Dict String Binary64)) (e : Entry) : Prop :=
  remoteVersion remote e.streamId e.nid < e.version

instance (remote : Dict String (Dict String Binary64)) (e : Entry) : Decidable (e.Newer remote) :=
  inferInstanceAs (Decidable (_ < _))

/-- The loops take the entry up. -/
def toSend (remote : Dict String (Dict String Binary64)) (e : Entry) : Bool :=
  e.current && decide (e.Newer remote)

end Entry

namespace ClusterManager

variable {C : LogCodec} (getSnapshot : C.Log → Except PyError C.Log) (self : ClusterManager C.Log)
  (registry : List (LocalStream C.Log))

def localStreamEntries : List Entry :=
  registry.map fun l => ⟨l.key, self.nodeId, l.stream.lastUpdated.val, true, localUpdate getSnapshot l⟩

def localTombstoneEntries : List Entry :=
  self.localTombstones.items.map fun t =>
    ⟨t.1, self.nodeId, t.2, liveTombstone registry t, .ok (tombstoneData (.ofRat t.2))⟩

/-- The snapshots of one stream. -/
def snapshotEntries (group : String × Dict String (C.Log × Version)) : List Entry :=
  group.2.items.map fun p =>
    ⟨group.1, p.1, p.2.2.val, true, .ok (snapshotData p.2.2.toPyVal (C.toDict p.2.1))⟩

/-- The tombstones of one stream. -/
def tombstoneEntries (group : String × Dict String Version) : List Entry :=
  group.2.items.map fun t =>
    ⟨group.1, t.1, t.2.val, decide (self.snapshotVersion group.1 t.1 ≤ t.2.val),
      .ok (tombstoneData t.2.toPyVal)⟩

/-- The entries in the order of the loops. An entry that does not fit ends the loop over its group. -/
def entryGroups : List (List Entry) :=
  self.localStreamEntries getSnapshot registry :: self.localTombstoneEntries registry ::
    (self.peerSnapshots.items.map snapshotEntries ++ self.peerTombstones.items.map
      self.tombstoneEntries)

/-- Every entry of a node. -/
def allEntries : List Entry := (self.entryGroups getSnapshot registry).flatten

variable (reprFloat : Binary64 → List Char)

/-- The loop over a group, of the entries that it takes up. -/
def sendEntries : List Entry → Response → Response
  | [], r => r
  | e :: rest, r =>
    match e.update >>= self.addUpdate reprFloat r e.streamId e.nid with
    | .ok (some r) => sendEntries rest r
    | .ok none => r
    | .error _ => sendEntries rest r

end ClusterManager

variable {reprFloat : Binary64 → List Char} {C : LogCodec} {getSnapshot : C.Log → Except PyError C.Log}
  {self : ClusterManager C.Log} {registry : List (LocalStream C.Log)}
  {remote : Dict String (Dict String Binary64)}
  {r : Response}

/-! ## The loops

Each loop of the handler tries its entries in order and stops at the first one that does not fit. -/

theorem exact_sendEntries (entries : List Entry) (h : r.Exact reprFloat self.nodeId) :
    (self.sendEntries reprFloat entries r).Exact reprFloat self.nodeId := by
  induction entries generalizing r with
  | nil => exact h
  | cons e rest ih =>
    unfold ClusterManager.sendEntries
    split
    · next r₁ hadd =>
      obtain ⟨data, -, hadd⟩ := bind_eq_ok.mp hadd
      obtain ⟨hs, rfl, -⟩ := addUpdate_eq_some h hadd
      exact ih (exact_withUpdate h hs)
    · exact h
    · exact ih h

theorem sendLocalStreams_eq : self.sendLocalStreams reprFloat getSnapshot remote registry r
    = self.sendEntries reprFloat
      ((self.localStreamEntries getSnapshot registry).filter (Entry.toSend remote)) r := by
  induction registry generalizing r with
  | nil => rfl
  | cons l rest ih =>
    have htoSend : Entry.toSend remote
      ⟨l.key, self.nodeId, l.stream.lastUpdated.val, true, ClusterManager.localUpdate getSnapshot l⟩
      = decide (remoteVersion remote l.key self.nodeId < l.stream.lastUpdated.val) := rfl
    unfold ClusterManager.sendLocalStreams ClusterManager.localStreamEntries
    rw [List.map_cons, List.filter_cons, htoSend]
    by_cases hnewer : remoteVersion remote l.key self.nodeId < l.stream.lastUpdated.val
    · rw [if_pos hnewer, if_pos (decide_eq_true hnewer)]
      rw [ClusterManager.sendEntries]
      cases hadd : ClusterManager.localUpdate getSnapshot l >>= self.addUpdate reprFloat r l.key
        self.nodeId with
      | error e => exact ih
      | ok placed =>
        cases placed with
        | none => rfl
        | some r₁ => exact ih
    · rw [if_neg hnewer, if_neg (by simpa using hnewer)]
      exact ih

/-- A loop that raises nothing is a loop over entries. -/
theorem sendAll_eq {β : Type} {streamId nid : β → String} {data : β → Items} {entry : β → Entry}
    {l : List β}
    (hentry : ∀ b, (entry b).streamId = streamId b ∧ (entry b).nid = nid b ∧ (entry b).update
      = .ok (data b))
    (hs : ∀ b ∈ l, Sizable reprFloat (.dict (data b))) (h : r.Exact reprFloat self.nodeId) :
    self.sendAll reprFloat streamId nid data l r
      = .ok (self.sendEntries reprFloat (l.map entry) r) := by
  induction l generalizing r with
  | nil => rfl
  | cons b rest ih =>
    obtain ⟨hstream, hnid, hupdate⟩ := hentry b
    have hsb := hs b List.mem_cons_self
    have hadd : self.addUpdate reprFloat r (streamId b) (nid b) (data b) = _ := addUpdate_eq h hsb
    rw [List.map_cons, ClusterManager.sendEntries, hstream, hnid, hupdate]
    show (self.addUpdate reprFloat r (streamId b) (nid b) (data b) >>= fun placed => _) = Except.ok
      (match self.addUpdate reprFloat r (streamId b) (nid b) (data b) with
        | .ok (some r) => _
        | .ok none => _
        | .error _ => _)
    rw [hadd]
    split
    · exact ih (fun b' hb' => hs b' (List.mem_cons_of_mem _ hb')) (exact_withUpdate h hsb)
    · rfl

/-! ## The groups

The four kinds of entries as lists, so that the handler is one fold over them. -/

/-- The documents of the logs that a node holds have texts. -/
def ClusterManager.HasTexts (reprFloat : Binary64 → List Char) (self : ClusterManager C.Log) : Prop :=
  ∀ streamId group nid kept, self.peerSnapshots.get? streamId = some group
    → group.get? nid = some kept →
    Sizable reprFloat (C.toDict kept.1)

theorem sizable_version (v : Version) : Sizable reprFloat v.toPyVal := by
  cases v with
  | int n => exact ⟨_, rfl⟩
  | float x => exact ⟨_, rfl⟩

theorem sizable_tombstoneData {v : PyVal} (h : Sizable reprFloat v) :
    Sizable reprFloat (.dict (tombstoneData v)) :=
  sizable_cons (sizable_bool true) (sizable_cons h sizable_nil)

/-- One group of entries. -/
def ClusterManager.sendGroup (reprFloat : Binary64 → List Char) (self : ClusterManager C.Log)
    (remote : Dict String (Dict String Binary64)) (r : Response) (group : List Entry) : Response :=
  self.sendEntries reprFloat (group.filter (Entry.toSend remote)) r

theorem exact_sendGroup (remote : Dict String (Dict String Binary64)) (group : List Entry)
    (h : r.Exact reprFloat self.nodeId) :
    (self.sendGroup reprFloat remote r group).Exact reprFloat self.nodeId :=
  exact_sendEntries _ h

theorem sendLocalTombstones_eq (h : r.Exact reprFloat self.nodeId) :
    self.sendLocalTombstones reprFloat remote registry r
      = .ok (self.sendGroup reprFloat remote r (self.localTombstoneEntries registry)) := by
  unfold ClusterManager.sendGroup ClusterManager.localTombstoneEntries
  rw [List.filter_map]
  exact sendAll_eq (fun _ => ⟨rfl, rfl, rfl⟩) (fun t _ => sizable_tombstoneData (sizable_ofRat t.2)) h

theorem sendPeerSnapshots_eq {group : String × Dict String (C.Log × Version)}
    (htexts : self.HasTexts reprFloat)
    (hmem : group ∈ self.peerSnapshots.items) (h : r.Exact reprFloat self.nodeId) :
    self.sendPeerSnapshots reprFloat remote r group
      = .ok (self.sendGroup reprFloat remote r (ClusterManager.snapshotEntries group)) := by
  unfold ClusterManager.sendGroup ClusterManager.snapshotEntries
  rw [List.filter_map]
  refine sendAll_eq (fun _ => ⟨rfl, rfl, rfl⟩) (fun p hp => ?_) h
  have hget := Dict.get?_eq_some_iff.mpr (List.mem_of_mem_filter hp)
  have hdoc := htexts group.1 group.2 p.1 p.2 (Dict.get?_eq_some_iff.mpr hmem) hget
  exact sizable_cons (sizable_version p.2.2) (sizable_cons hdoc sizable_nil)

theorem sendPeerTombstones_eq {group : String × Dict String Version}
    (h : r.Exact reprFloat self.nodeId) :
    self.sendPeerTombstones reprFloat remote r group
      = .ok (self.sendGroup reprFloat remote r (self.tombstoneEntries group)) := by
  have hfilter : (group.2.items.filter fun t =>
      decide (self.snapshotVersion group.1 t.1 ≤ t.2.val ∧ remoteVersion remote group.1 t.1 < t.2.val))
      = group.2.items.filter fun t =>
        decide (self.snapshotVersion group.1 t.1 ≤ t.2.val)
          && decide (remoteVersion remote group.1 t.1 < t.2.val) := by
    simp only [Bool.decide_and]
  unfold ClusterManager.sendGroup ClusterManager.tombstoneEntries ClusterManager.sendPeerTombstones
  rw [List.filter_map, hfilter]
  exact sendAll_eq (fun _ => ⟨rfl, rfl, rfl⟩) (fun t _ => sizable_tombstoneData (sizable_version t.2)) h

/-- **The loops are one loop over the groups.** -/
theorem placeUpdates_eq (htexts : self.HasTexts reprFloat) (h : r.Exact reprFloat self.nodeId) :
    self.placeUpdates reprFloat getSnapshot remote registry r
      = .ok ((self.entryGroups getSnapshot registry).foldl (self.sendGroup reprFloat remote) r) := by
  have hexact₁ := exact_sendGroup remote (self.localStreamEntries getSnapshot registry) h
  have hexact₂ := exact_sendGroup remote (self.localTombstoneEntries registry) hexact₁
  have hsnapshots : ∀ r group, group ∈ self.peerSnapshots.items → r.Exact reprFloat self.nodeId →
      self.sendPeerSnapshots reprFloat remote r group
          = .ok (self.sendGroup reprFloat remote r (ClusterManager.snapshotEntries group))
        ∧ (self.sendGroup reprFloat remote r (ClusterManager.snapshotEntries group)).Exact reprFloat
          self.nodeId :=
    fun r group hmem hr => ⟨sendPeerSnapshots_eq htexts hmem hr, exact_sendGroup remote _ hr⟩
  have htombstones : ∀ r group, group ∈ self.peerTombstones.items → r.Exact reprFloat self.nodeId →
      self.sendPeerTombstones reprFloat remote r group
          = .ok (self.sendGroup reprFloat remote r (self.tombstoneEntries group))
        ∧ (self.sendGroup reprFloat remote r (self.tombstoneEntries group)).Exact reprFloat
          self.nodeId :=
    fun r group _ hr => ⟨sendPeerTombstones_eq hr, exact_sendGroup remote _ hr⟩
  obtain ⟨hrun₃, hexact₃⟩ := foldlM_eq_foldl hsnapshots hexact₂
  obtain ⟨hrun₄, -⟩ := foldlM_eq_foldl htombstones hexact₃
  unfold ClusterManager.placeUpdates ClusterManager.entryGroups
  rw [List.foldl_cons, List.foldl_cons, List.foldl_append, List.foldl_map, List.foldl_map,
    sendLocalStreams_eq]
  refine bind_eq_ok.mpr ⟨_, sendLocalTombstones_eq hexact₁, ?_⟩
  exact bind_eq_ok.mpr ⟨_, hrun₃, hrun₄⟩

end Sketchlog.Mesh
