import Sketchlog.Lib.LastWriter
import Sketchlog.Refine.StreamKeys

/-!
# What a node knows of its peers is last-writer-wins registers

For a stream and an origin a node keeps one register, spread over two dictionaries of groups (`view`): a
snapshot or a tombstone, never both, and no group empty (`WellFormed`). Storing an update is one
write to its register and leaves the others alone (`view_store`). A call of `receive_snapshot`
stores the updates that can be read from its batch, one after the other, up to the first key whose
check raises (`receive_eq`).
-/

namespace Sketchlog.Mesh

open Imperative

namespace ClusterManager

/-! ## Groups

Snapshots and tombstones are dictionaries of dictionaries. `known?` looks up both levels, and what
is proved of it is all that the later proofs use. -/

section Groups

variable {β : Type} {groups : Dict String (Dict String β)} {s s' n n' : String} {value : β}

/-- The entry of an origin, in the group of a stream. -/
def known? (groups : Dict String (Dict String β)) (s n : String) : Option β :=
  ((groups.get? s).getD ∅).get? n

def NoEmptyGroup (groups : Dict String (Dict String β)) : Prop :=
  ∀ s group, groups.get? s = some group → group.isEmpty = false

theorem known?_setOrigin :
    known? (setOrigin groups s n value) s' n'
      = if s' = s ∧ n' = n then some value else known? groups s' n' := by
  unfold known? setOrigin
  rw [Dict.get?_set]
  by_cases hs : s' = s
  · rw [if_pos hs, Option.getD_some, Dict.get?_set, hs]
    by_cases hn : n' = n
    · rw [if_pos hn, if_pos ⟨rfl, hn⟩]
    · rw [if_neg hn, if_neg fun h => hn h.2]
  · rw [if_neg hs, if_neg fun h => hs h.1]

theorem known?_dropOrigin :
    known? (dropOrigin groups s n) s' n' = if s' = s ∧ n' = n then none else known? groups s' n' := by
  unfold known? dropOrigin
  cases hg : groups.get? s with
  | none =>
    by_cases h : s' = s ∧ n' = n
    · rw [if_pos h, h.1, hg]
      rfl
    · rw [if_neg h]
  | some group =>
    by_cases hempty : (group.pop n).isEmpty = true
    · -- the group held this origin at most, and is dropped
      have hnone := Dict.isEmpty_iff_get?.mp hempty
      simp only [if_pos hempty, Dict.get?_pop]
      by_cases hs : s' = s
      · rw [if_pos hs, hs, hg, Option.getD_none, Option.getD_some, Dict.get?_empty]
        by_cases hn : n' = n
        · rw [if_pos ⟨rfl, hn⟩]
        · have hgroup := hnone n'
          rw [Dict.get?_pop, if_neg hn] at hgroup
          rw [if_neg fun h => hn h.2, hgroup]
      · rw [if_neg hs, if_neg fun h => hs h.1]
    · simp only [if_neg hempty, Dict.get?_set]
      by_cases hs : s' = s
      · rw [if_pos hs, hs, hg, Option.getD_some, Option.getD_some, Dict.get?_pop]
        by_cases hn : n' = n
        · rw [if_pos hn, if_pos ⟨rfl, hn⟩]
        · rw [if_neg hn, if_neg fun h => hn h.2]
      · rw [if_neg hs, if_neg fun h => hs h.1]

theorem noEmptyGroup_setOrigin (h : NoEmptyGroup groups) :
    NoEmptyGroup (setOrigin groups s n value) := by
  intro s' group hg
  unfold setOrigin at hg
  rw [Dict.get?_set] at hg
  by_cases hs : s' = s
  · rw [if_pos hs, Option.some.injEq] at hg
    by_contra hempty
    have hnone := Dict.isEmpty_iff_get?.mp (Bool.not_eq_false _ ▸ hempty) n
    rw [← hg, Dict.get?_set_self] at hnone
    cases hnone
  · rw [if_neg hs] at hg
    exact h s' group hg

theorem noEmptyGroup_dropOrigin (h : NoEmptyGroup groups) : NoEmptyGroup (dropOrigin groups s n) := by
  intro s' group hg
  unfold dropOrigin at hg
  cases hs : groups.get? s with
  | none =>
    rw [hs] at hg
    exact h s' group hg
  | some old =>
    rw [hs] at hg
    by_cases hempty : (old.pop n).isEmpty = true
    · simp only [if_pos hempty, Dict.get?_pop] at hg
      by_cases hs' : s' = s
      · rw [if_pos hs'] at hg
        cases hg
      · rw [if_neg hs'] at hg
        exact h s' group hg
    · simp only [if_neg hempty, Dict.get?_set] at hg
      by_cases hs' : s' = s
      · rw [if_pos hs', Option.some.injEq] at hg
        rw [← hg]
        exact Bool.not_eq_true _ ▸ hempty
      · rw [if_neg hs'] at hg
        exact h s' group hg

theorem forall_known?_setOrigin {P : β → Prop} (h : ∀ s n x, known? groups s n = some x → P x)
    (hvalue : P value) : ∀ s' n' x, known? (setOrigin groups s n value) s' n' = some x → P x := by
  intro s' n' x hx
  rw [known?_setOrigin] at hx
  by_cases hu : s' = s ∧ n' = n
  · rw [if_pos hu, Option.some.injEq] at hx
    exact hx ▸ hvalue
  · rw [if_neg hu] at hx
    exact h s' n' x hx

theorem forall_known?_dropOrigin {P : β → Prop} (h : ∀ s n x, known? groups s n = some x → P x) :
    ∀ s' n' x, known? (dropOrigin groups s n) s' n' = some x → P x := by
  intro s' n' x hx
  rw [known?_dropOrigin] at hx
  by_cases hu : s' = s ∧ n' = n
  · rw [if_pos hu] at hx
    cases hx
  · rw [if_neg hu] at hx
    exact h s' n' x hx

/-- An origin set in one dictionary and dropped from the other. -/
theorem exclusive_write {γ : Type} {others : Dict String (Dict String γ)}
    (h : ∀ s n, known? groups s n = none ∨ known? others s n = none) (s' n' : String) :
    known? (setOrigin groups s n value) s' n' = none ∨ known? (dropOrigin others s n) s' n' = none := by
  rw [known?_setOrigin, known?_dropOrigin]
  by_cases hu : s' = s ∧ n' = n
  · exact .inr (if_pos hu)
  · rw [if_neg hu, if_neg hu]
    exact h s' n'

/-- A stream with a group has an origin in it. -/
theorem exists_known?_of_mem_keys (h : NoEmptyGroup groups) (hs : s ∈ groups.keys) :
    ∃ n value, known? groups s n = some value := by
  obtain ⟨group, hg⟩ := Option.isSome_iff_exists.mp (Dict.get?_isSome_iff.mpr hs)
  have hne := h s group hg
  by_contra hnone
  have hempty : group.isEmpty = true := by
    refine Dict.isEmpty_iff_get?.mpr fun n => ?_
    by_contra hn
    obtain ⟨value, hv⟩ := Option.ne_none_iff_exists'.mp hn
    refine hnone ⟨n, value, ?_⟩
    rw [known?, hg]
    exact hv
  rw [hempty] at hne
  cases hne

end Groups

/-! ## Registers

A node knows of each stream and origin nothing, a snapshot or a tombstone, with a version. `store`
moves to the update if its version is larger, which makes the view a last-writer-wins register. -/

variable {Log : Type} {self : ClusterManager Log} {s n : String}

/-- What is known of a stream and an origin: the version, and the log unless it is deleted. -/
def view (self : ClusterManager Log) (s n : String) : Option (Version × Option Log) :=
  match known? self.peerSnapshots s n, known? self.peerTombstones s n with
  | some (log, version), _ => some (version, some log)
  | none, some version => some (version, none)
  | none, none => none

/-- Snapshots and tombstones exclude each other, versions are positive, no group is empty. -/
structure WellFormed (cm : ClusterManager Log) : Prop where
  exclusive : ∀ s n, known? cm.peerSnapshots s n = none ∨ known? cm.peerTombstones s n = none
  snapshot_pos : ∀ s n kept, known? cm.peerSnapshots s n = some kept → 0 < kept.2.val
  tombstone_pos : ∀ s n v, known? cm.peerTombstones s n = some v → 0 < v.val
  snapshots : NoEmptyGroup cm.peerSnapshots
  tombstones : NoEmptyGroup cm.peerTombstones

theorem knownVersion_eq (self : ClusterManager Log) (s n : String) :
    self.knownVersion s n = max ((known? self.peerSnapshots s n).elim 0 fun kept => kept.2.val)
      ((known? self.peerTombstones s n).elim 0 Version.val) := rfl

/-- The comparison in front of the writes is the one of the register. -/
theorem knownVersion_eq_view (h : self.WellFormed) (s n : String) :
    self.knownVersion s n = (self.view s n).elim 0 fun kept => kept.1.val := by
  rw [knownVersion_eq, view]
  have hex := h.exclusive s n
  cases hsnap : known? self.peerSnapshots s n with
  | none =>
    cases htomb : known? self.peerTombstones s n with
    | none => exact max_self 0
    | some v => exact max_eq_right (h.tombstone_pos s n v htomb).le
  | some kept =>
    rw [hsnap] at hex
    rw [hex.resolve_left (by simp)]
    exact max_eq_left (h.snapshot_pos s n kept hsnap).le

theorem view_eq_none_iff :
    self.view s n = none
      ↔ known? self.peerSnapshots s n = none ∧ known? self.peerTombstones s n = none := by
  unfold view
  cases known? self.peerSnapshots s n <;> cases known? self.peerTombstones s n <;> simp

/-- Storing a tombstone that is newer. -/
theorem view_of_tombstone {u : Update Log} (s n : String) :
    view { self with
        peerSnapshots := dropOrigin self.peerSnapshots u.stream u.origin
        peerTombstones := setOrigin self.peerTombstones u.stream u.origin u.version } s n
      = if s = u.stream ∧ n = u.origin then some (u.version, none) else self.view s n := by
  simp only [view, known?_dropOrigin, known?_setOrigin]
  by_cases hu : s = u.stream ∧ n = u.origin
  · rw [if_pos hu, if_pos hu, if_pos hu]
  · rw [if_neg hu, if_neg hu, if_neg hu]

/-- Storing a snapshot that is newer. -/
theorem view_of_snapshot {u : Update Log} {log : Log} (s n : String) :
    view { self with
        peerSnapshots := setOrigin self.peerSnapshots u.stream u.origin (log, u.version)
        peerTombstones := dropOrigin self.peerTombstones u.stream u.origin } s n
      = if s = u.stream ∧ n = u.origin then some (u.version, some log) else self.view s n := by
  simp only [view, known?_dropOrigin, known?_setOrigin]
  by_cases hu : s = u.stream ∧ n = u.origin
  · rw [if_pos hu, if_pos hu, if_pos hu]
  · rw [if_neg hu, if_neg hu, if_neg hu]

/-- An update that is not newer is dropped. -/
theorem store_of_le {u : Update Log} (h : u.version.val ≤ self.knownVersion u.stream u.origin) :
    self.store u = self := by
  unfold store
  rw [if_pos h, ite_self]

/-- A newer tombstone takes the place of what is known. -/
theorem store_tombstone {v : Version} (hlimits : ¬ self.exceedsLimits s n)
    (hnew : self.knownVersion s n < v.val) :
    self.store ⟨s, n, v, none⟩
      = { self with
          peerSnapshots := dropOrigin self.peerSnapshots s n
          peerTombstones := setOrigin self.peerTombstones s n v } := by
  show (if self.exceedsLimits s n then _ else if v.val ≤ self.knownVersion s n then _ else _) = _
  rw [if_neg hlimits, if_neg (not_le.mpr hnew)]

/-- **Storing an update within the limits is a write to its register.** -/
theorem view_store (h : self.WellFormed) {u : Update Log} (hpos : 0 < u.version.val)
    (hlimits : ¬ self.exceedsLimits u.stream u.origin) (s n : String) :
    (self.store u).view s n
      = if s = u.stream ∧ n = u.origin then LastWriter.write (fun w => w.1.val) (self.view s n)
        (u.version, u.log)
        else self.view s n := by
  have hknown := knownVersion_eq_view h u.stream u.origin
  unfold store
  rw [if_neg hlimits]
  by_cases hold : u.version.val ≤ self.knownVersion u.stream u.origin
  · -- an empty register would have the version 0, which is below
    rw [if_pos hold]
    by_cases hu : s = u.stream ∧ n = u.origin
    · rw [if_pos hu, hu.1, hu.2]
      rw [hknown] at hold
      cases hview : self.view u.stream u.origin with
      | none =>
        rw [hview] at hold
        exact absurd hold (not_le.mpr hpos)
      | some kept =>
        rw [hview] at hold
        exact (if_pos hold).symm
    · rw [if_neg hu]
  · rw [if_neg hold]
    have hwrite : LastWriter.write (fun w => w.1.val) (self.view u.stream u.origin) (u.version, u.log)
        = some (u.version, u.log) := by
      rw [hknown] at hold
      cases hview : self.view u.stream u.origin with
      | none => rfl
      | some kept =>
        rw [hview] at hold
        exact if_neg hold
    cases hlog : u.log with
    | none =>
      refine (view_of_tombstone s n).trans ?_
      by_cases hu : s = u.stream ∧ n = u.origin
      · rw [if_pos hu, if_pos hu, hu.1, hu.2, ← hlog, hwrite]
      · rw [if_neg hu, if_neg hu]
    | some log =>
      refine (view_of_snapshot s n).trans ?_
      by_cases hu : s = u.stream ∧ n = u.origin
      · rw [if_pos hu, if_pos hu, hu.1, hu.2, ← hlog, hwrite]
      · rw [if_neg hu, if_neg hu]

theorem store_wellFormed (h : self.WellFormed) {u : Update Log} (hpos : 0 < u.version.val) :
    (self.store u).WellFormed := by
  unfold store
  by_cases hlimits : self.exceedsLimits u.stream u.origin
  · rwa [if_pos hlimits]
  rw [if_neg hlimits]
  by_cases hold : u.version.val ≤ self.knownVersion u.stream u.origin
  · rwa [if_pos hold]
  rw [if_neg hold]
  cases u.log with
  | none =>
    exact
      { exclusive := fun s n => (exclusive_write (fun s n => (h.exclusive s n).symm) s n).symm
        snapshot_pos := forall_known?_dropOrigin h.snapshot_pos
        tombstone_pos := forall_known?_setOrigin h.tombstone_pos hpos
        snapshots := noEmptyGroup_dropOrigin h.snapshots
        tombstones := noEmptyGroup_setOrigin h.tombstones }
  | some log =>
    exact
      { exclusive := exclusive_write h.exclusive
        snapshot_pos := forall_known?_setOrigin h.snapshot_pos hpos
        tombstone_pos := forall_known?_dropOrigin h.tombstone_pos
        snapshots := noEmptyGroup_setOrigin h.snapshots
        tombstones := noEmptyGroup_dropOrigin h.tombstones }

/-! ## Batches

`receive` is the fold of `store` over the updates that can be read, up to the first key that is
nested too deep. `receive_eq` is the form in which the handler is used from here on. -/

variable {C : LogCodec} {timestamp : Binary64} {nodeId : String}

/-- The update an entry of a group can be read as. -/
def entryUpdate (C : LogCodec) (nodeId : String) (timestamp : Binary64) (streamId : String) :
    PyKey × PyVal → Option (Update C.Log)
  | (.str nid, .dict data) =>
    if validIdentifier nid ∧ nid ≠ nodeId then (readEntry C timestamp streamId nid data).toOption
    else none
  | _ => none

/-- The updates of a group. -/
def groupUpdates (C : LogCodec) (nodeId : String) (timestamp : Binary64) :
    PyKey × PyVal → List (Update C.Log)
  | (.str streamId, .dict nodeData) =>
    if canonicalKey streamId then nodeData.filterMap (entryUpdate C nodeId timestamp streamId) else []
  | _ => []

/-- A call of `receive_snapshot`, by its arguments. -/
structure Delivery where
  senderNodeId : PyVal
  streamsData : PyVal
  timestamp : Binary64

/-- The check of the group's key does not raise. -/
def keyShallow (maxNesting : ℕ) : PyKey × PyVal → Bool
  | (.str streamId, _) => decide (Shallow maxNesting streamId)
  | _ => true

/-- The streams of a batch, if the sender is one. -/
def Delivery.groups (d : Delivery) : Items :=
  match d.senderNodeId, d.streamsData with
  | .str sender, .dict groups => if validIdentifier sender then groups else []
  | _, _ => []

/-- The well-formed updates that stand in a delivery to a node. -/
def Delivery.entries (C : LogCodec) (nodeId : String) (d : Delivery) : List (Update C.Log) :=
  d.groups.flatMap (groupUpdates C nodeId d.timestamp)

/-- Those of them that are read: the ones in front of the first key whose check raises. -/
def Delivery.updates (C : LogCodec) (nodeId : String) (maxNesting : ℕ) (d : Delivery) :
    List (Update C.Log) :=
  (d.groups.takeWhile (keyShallow maxNesting)).flatMap (groupUpdates C nodeId d.timestamp)

/-- The node after a delivery. -/
def receive (C : LogCodec) (self : ClusterManager C.Log) (d : Delivery) : ClusterManager C.Log :=
  after (receiveSnapshot C d.senderNodeId d.streamsData d.timestamp) self

theorem store_nodeId (self : ClusterManager Log) (u : Update Log) :
    (self.store u).nodeId = self.nodeId := by
  unfold store
  split_ifs
  · rfl
  · rfl
  · cases u.log <;> rfl

theorem store_maxNesting (self : ClusterManager Log) (u : Update Log) :
    (self.store u).maxNesting = self.maxNesting := by
  unfold store
  split_ifs
  · rfl
  · rfl
  · cases u.log <;> rfl

theorem receiveEntry_eq (self : ClusterManager C.Log) (streamId : String) (entry : PyKey × PyVal) :
    receiveEntry C timestamp streamId self entry
      = ((entryUpdate C self.nodeId timestamp streamId entry).elim self self.store) := by
  obtain ⟨key, value⟩ := entry
  cases key with
  | str nid =>
    cases value with
    | dict data =>
      simp only [receiveEntry, entryUpdate]
      by_cases hnid : validIdentifier nid ∧ nid ≠ self.nodeId
      · rw [if_pos hnid, if_pos hnid]
        cases readEntry C timestamp streamId nid data <;> rfl
      · rw [if_neg hnid, if_neg hnid]
        rfl
    | _ => rfl
  | _ => rfl

theorem foldl_store_nodeId (us : List (Update Log)) (self : ClusterManager Log) :
    (us.foldl store self).nodeId = self.nodeId := by
  induction us generalizing self with
  | nil => rfl
  | cons u us ih => rw [List.foldl_cons, ih, store_nodeId]

theorem foldl_store_maxNesting (us : List (Update Log)) (self : ClusterManager Log) :
    (us.foldl store self).maxNesting = self.maxNesting := by
  induction us generalizing self with
  | nil => rfl
  | cons u us ih => rw [List.foldl_cons, ih, store_maxNesting]

theorem foldl_receiveEntry (streamId : String) (entries : Items) (self : ClusterManager C.Log) :
    entries.foldl (receiveEntry C timestamp streamId) self
      = (entries.filterMap (entryUpdate C self.nodeId timestamp streamId)).foldl store self := by
  induction entries generalizing self with
  | nil => rfl
  | cons entry entries ih =>
    rw [List.foldl_cons, ih, receiveEntry_eq, List.filterMap_cons]
    cases entryUpdate C self.nodeId timestamp streamId entry with
    | none => rfl
    | some u =>
      show (entries.filterMap (entryUpdate C (self.store u).nodeId timestamp streamId)).foldl store
        (self.store u) = _
      rw [store_nodeId]
      rfl

/-- A group is stored, or the check of its key raises. -/
theorem run_receiveStream (timestamp : Binary64) (self : ClusterManager C.Log)
    (group : PyKey × PyVal) :
    (keyShallow self.maxNesting group = true ∧ (receiveStream C timestamp group).run self
        = .ok () ((groupUpdates C self.nodeId timestamp group).foldl store self))
      ∨ (keyShallow self.maxNesting group = false
        ∧ ∃ e, (receiveStream C timestamp group).run self = .error e self) := by
  obtain ⟨key, value⟩ := group
  -- only a string is checked as a key; any other key is skipped
  cases key with
  | str streamId =>
    by_cases hshallow : Shallow self.maxNesting streamId
    · left
      refine ⟨decide_eq_true hshallow, ?_⟩
      simp only [receiveStream, EStateM.run_bind, EStateM.run_get, hshallow.validStreamKey,
        run_liftExcept_ok, groupUpdates]
      cases value with
      -- a value that is no dictionary is skipped after the key was checked
      | dict nodeData =>
        cases hkey : canonicalKey streamId with
        | false =>
          simp only [hkey, Bool.false_eq_true, if_false]
          rfl
        | true =>
          simp only [hkey, if_true, EStateM.run_modify, foldl_receiveEntry]
      | _ => cases canonicalKey streamId <;> rfl
    · -- a key nested too deep raises before anything is stored
      right
      obtain ⟨e, he⟩ := exists_error_of_not_shallow hshallow
      refine ⟨decide_eq_false hshallow, e, ?_⟩
      simp only [receiveStream, EStateM.run_bind, EStateM.run_get, he]
      rfl
  | _ => exact .inl ⟨rfl, rfl⟩

theorem after_receiveStreams (groups : Items) (self : ClusterManager C.Log) :
    after (groups.forM (receiveStream C timestamp)) self
      = ((groups.takeWhile (keyShallow self.maxNesting)).flatMap
        (groupUpdates C self.nodeId timestamp)).foldl store self := by
  induction groups generalizing self with
  | nil => rfl
  | cons group groups ih =>
    have hcons : (group :: groups).forM (receiveStream C timestamp)
        = receiveStream C timestamp group >>= fun _ => groups.forM (receiveStream C timestamp) := rfl
    obtain ⟨hshallow, hrun⟩ | ⟨hdeep, e, hrun⟩ := run_receiveStream timestamp self group
    · have hrest := ih ((groupUpdates C self.nodeId timestamp group).foldl store self)
      rw [foldl_store_nodeId, foldl_store_maxNesting] at hrest
      rw [List.takeWhile_cons_of_pos hshallow, List.flatMap_cons, List.foldl_append, ← hrest]
      simp only [after, hcons, EStateM.run_bind, hrun]
    · rw [List.takeWhile_cons_of_neg (by rw [hdeep]; exact Bool.false_ne_true), List.flatMap_nil]
      simp only [after, hcons, EStateM.run_bind, hrun, List.foldl_nil]

/-- **A delivery stores its well-formed updates in turn**, up to the first key whose check raises.
Any other malformed entry stores nothing and stops nothing; a call that raises at once stores
nothing. -/
theorem receive_eq (self : ClusterManager C.Log) (d : Delivery) :
    self.receive C d = (d.updates C self.nodeId self.maxNesting).foldl store self := by
  obtain ⟨sender, streams, timestamp⟩ := d
  unfold receive receiveSnapshot Delivery.updates Delivery.groups
  cases sender with
  | str sender =>
    by_cases hsender : validIdentifier sender
    · cases streams with
      | dict groups =>
        rw [← after_receiveStreams]
        simp only [after, EStateM.run_bind, run_raiseIf, hsender, not_true, if_false, if_true]
      | _ =>
        simp only [after, EStateM.run_bind, run_raiseIf, hsender, not_true, if_false]
        rfl
    · simp only [after, EStateM.run_bind, run_raiseIf, hsender, not_false_eq_true, if_true]
      cases streams with
      | dict groups => simp [hsender]
      | _ => rfl
  | _ => rfl

/-- What is read stands in the delivery. -/
theorem Delivery.entries_of_updates {d : Delivery} {maxNesting : ℕ} {u : Update C.Log}
    (h : u ∈ d.updates C nodeId maxNesting) : u ∈ d.entries C nodeId := by
  obtain ⟨group, hgroup, hu⟩ := List.mem_flatMap.mp h
  exact List.mem_flatMap.mpr ⟨group, (List.takeWhile_prefix _).subset hgroup, hu⟩

/-! ## The entries that nodes send

What a node sends of one tombstone or snapshot is read back as that update. -/

theorem readVersion_of_lookup {data : Items} {v : Version}
    (h : data.lookup (.str "__version__") = some v.toPyVal)
    (hv : 0 ≤ v.val) (hlimit : ∀ n, v = .int n → n.natAbs < floatLimit) :
    readVersion timestamp data = .ok v := by
  unfold readVersion Items.getOr
  rw [h]
  cases v with
  | int n =>
    have hn : ¬ n < 0 := not_lt.mpr (Int.cast_nonneg_iff.mp hv)
    show (if floatLimit ≤ n.natAbs then _ else if n < 0 then _ else _) = _
    rw [if_neg (not_le.mpr (hlimit n rfl)), if_neg hn]
  | float x =>
    have hx : ¬ x.val < 0 := not_lt.mpr hv
    show (if x.val < 0 then _ else _) = _
    rw [if_neg hx]

/-- A delivery of one entry. -/
def Delivery.single (sender stream origin : String) (data : Items) (timestamp : Binary64) : Delivery :=
  ⟨.str sender, .dict [(.str stream, .dict [(.str origin, .dict data)])], timestamp⟩

theorem entryUpdate_eq {stream origin : String} {data : Items} {u : Update C.Log}
    (horigin : validIdentifier origin) (hne : origin ≠ nodeId)
    (hread : readEntry C timestamp stream origin data = .ok u) :
    entryUpdate C nodeId timestamp stream (.str origin, .dict data) = some u := by
  rw [entryUpdate, if_pos ⟨horigin, hne⟩, hread]
  rfl

theorem groups_single {sender stream origin : String} {data : Items}
    (hsender : validIdentifier sender) :
    (Delivery.single sender stream origin data timestamp).groups
      = [(.str stream, .dict [(.str origin, .dict data)])] :=
  if_pos hsender

theorem entries_single {sender stream origin : String} {data : Items} {u : Update C.Log}
    (hsender : validIdentifier sender) (hstream : canonicalKey stream = true)
    (horigin : validIdentifier origin) (hne : origin ≠ nodeId)
    (hread : readEntry C timestamp stream origin data = .ok u) :
    (Delivery.single sender stream origin data timestamp).entries C nodeId = [u] := by
  rw [Delivery.entries, groups_single hsender, List.flatMap_cons, List.flatMap_nil, List.append_nil,
    groupUpdates, if_pos hstream]
  show [(_ : PyKey × PyVal)].filterMap (entryUpdate C nodeId timestamp stream) = [u]
  rw [List.filterMap_cons, entryUpdate_eq horigin hne hread]
  rfl

theorem updates_single {sender stream origin : String} {data : Items} {u : Update C.Log}
    {maxNesting : ℕ} (hsender : validIdentifier sender) (hstream : canonicalKey stream = true)
    (horigin : validIdentifier origin) (hne : origin ≠ nodeId)
    (hread : readEntry C timestamp stream origin data = .ok u) :
    (Delivery.single sender stream origin data timestamp).updates C nodeId maxNesting = [u] := by
  have hshallow : keyShallow maxNesting (.str stream, .dict [(.str origin, .dict data)]) = true :=
    decide_eq_true (shallow_of_canonicalKey hstream)
  rw [← entries_single hsender hstream horigin hne hread, Delivery.updates, Delivery.entries,
    groups_single hsender, List.takeWhile_cons_of_pos hshallow, List.takeWhile_nil]

/-- What a tombstone is read as. -/
theorem readEntry_tombstoneData {stream origin : String} {v : Version} (hv : 0 ≤ v.val)
    (hlimit : ∀ n, v = .int n → n.natAbs < floatLimit) :
    readEntry C timestamp stream origin (tombstoneData v.toPyVal) = .ok ⟨stream, origin, v, none⟩ := by
  unfold readEntry
  rw [readVersion_of_lookup rfl hv hlimit]
  rfl

/-- What a snapshot is read as. -/
theorem readEntry_snapshotData {stream origin : String} {v : Version} {state : PyVal} {log : C.Log}
    (hv : 0 ≤ v.val) (hlimit : ∀ n, v = .int n → n.natAbs < floatLimit)
    (hstate : C.fromDict state = .ok log) :
    readEntry C timestamp stream origin (snapshotData v.toPyVal state)
      = .ok ⟨stream, origin, v, some log⟩ := by
  unfold readEntry
  rw [readVersion_of_lookup rfl hv hlimit]
  show (C.fromDict state >>= _) = _
  rw [hstate]
  rfl

end ClusterManager

end Sketchlog.Mesh
