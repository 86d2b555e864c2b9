import Sketchlog.Refine.MeshRegisters

/-!
# The mesh converges, last writer wins

However a finite set of updates is delivered, in which order, in which batches, how often and beside
which malformed entries, a node ends up knowing the newest update of every stream and origin, as
long as each of these is read from some delivery. What stands in a batch behind a key whose check
raises is not read.
-/

namespace Sketchlog.Mesh

open LastWriter

namespace ClusterManager

variable {Log : Type} {self : ClusterManager Log}

/-- The writes of a list of updates to one register. -/
def writesOf (us : List (Update Log)) (s n : String) : List (Version × Option Log) :=
  (us.filter fun u => u.stream = s ∧ u.origin = n).map fun u => (u.version, u.log)

theorem mem_writesOf {us : List (Update Log)} {s n : String} {w : Version × Option Log} :
    w ∈ writesOf us s n ↔ (⟨s, n, w.1, w.2⟩ : Update Log) ∈ us := by
  rw [writesOf, List.mem_map]
  constructor
  · intro ⟨u, hu, hw⟩
    obtain ⟨hmem, hkey⟩ := List.mem_filter.mp hu
    obtain ⟨hs, hn⟩ := of_decide_eq_true hkey
    obtain ⟨stream, origin, version, log⟩ := u
    subst hs hn hw
    exact hmem
  · intro hmem
    exact ⟨_, List.mem_filter.mpr ⟨hmem, decide_eq_true ⟨rfl, rfl⟩⟩, rfl⟩

/-- The updates of a mesh: positive versions, distinct for one stream and origin, and fewer streams and
origins than a node is willing to hold. -/
structure Admissible (U : List (Update Log)) : Prop where
  positive : ∀ u ∈ U, 0 < u.version.val
  distinct : ∀ u ∈ U, ∀ v ∈ U, u.stream = v.stream → u.origin = v.origin →
    u.version.val = v.version.val → u = v
  streams : (U.map Update.stream).toFinset.card < maxPeerStreams
  origins : ∀ s, ((U.filter fun u => u.stream = s).map Update.origin).toFinset.card
    < maxOriginsPerStream

variable {U us : List (Update Log)}

/-- A node that has stored the updates `us`, all of which are among `U`. -/
structure Stored (U us : List (Update Log)) (cm : ClusterManager Log) : Prop where
  wellFormed : cm.WellFormed
  subset : ∀ u ∈ us, u ∈ U
  view_eq : ∀ s n, cm.view s n = (writesOf us s n).foldl (write fun w => w.1.val) none

/-- What is known was stored. -/
theorem Stored.mem_of_view (h : Stored U us self) {s n : String} (hv : self.view s n ≠ none) :
    ∃ u ∈ U, u.stream = s ∧ u.origin = n := by
  cases hwrites : writesOf us s n with
  | nil =>
    rw [h.view_eq, hwrites] at hv
    exact absurd rfl hv
  | cons w ws =>
    have hmem : w ∈ writesOf us s n := by rw [hwrites]; exact List.mem_cons_self
    exact ⟨_, h.subset _ (mem_writesOf.mp hmem), rfl, rfl⟩

/-- The limits are never reached. -/
theorem Stored.not_exceedsLimits (hU : Admissible U) (h : Stored U us self) (s n : String) :
    ¬ self.exceedsLimits s n := by
  have hstreams : unionSize self.peerSnapshots self.peerTombstones < maxPeerStreams := by
    refine lt_of_le_of_lt (Finset.card_le_card fun s' hs' => ?_) hU.streams
    -- a known stream has a known origin
    have hview : ∃ n', self.view s' n' ≠ none := by
      rcases List.mem_append.mp (List.mem_toFinset.mp hs') with hkey | hkey
      · obtain ⟨n', value, hn'⟩ := exists_known?_of_mem_keys h.wellFormed.snapshots hkey
        exact ⟨n', fun hnone => by rw [(view_eq_none_iff.mp hnone).1] at hn'; cases hn'⟩
      · obtain ⟨n', value, hn'⟩ := exists_known?_of_mem_keys h.wellFormed.tombstones hkey
        exact ⟨n', fun hnone => by rw [(view_eq_none_iff.mp hnone).2] at hn'; cases hn'⟩
    obtain ⟨n', hn'⟩ := hview
    obtain ⟨u, hu, hstream, -⟩ := h.mem_of_view hn'
    exact List.mem_toFinset.mpr (List.mem_map.mpr ⟨u, hu, hstream⟩)
  have horigins : unionSize (self.existingOrigins s) (self.tombstoneOrigins s)
    < maxOriginsPerStream := by
    refine lt_of_le_of_lt (Finset.card_le_card fun n' hn' => ?_) (hU.origins s)
    have hview : self.view s n' ≠ none := by
      intro hnone
      obtain ⟨hsnap, htomb⟩ := view_eq_none_iff.mp hnone
      rcases List.mem_append.mp (List.mem_toFinset.mp hn') with hkey | hkey
      · exact Dict.get?_eq_none_iff.mp hsnap hkey
      · exact Dict.get?_eq_none_iff.mp htomb hkey
    obtain ⟨u, hu, hstream, horigin⟩ := h.mem_of_view hview
    exact List.mem_toFinset.mpr
      (List.mem_map.mpr ⟨u, List.mem_filter.mpr ⟨hu, decide_eq_true hstream⟩, horigin⟩)
  intro hexceeds
  rcases hexceeds with ⟨-, hmax⟩ | ⟨-, hmax⟩
  · exact absurd hmax (not_le.mpr hstreams)
  · exact absurd hmax (not_le.mpr horigins)

/-- One more update. -/
theorem Stored.store (hU : Admissible U) (h : Stored U us self) {u : Update Log} (hu : u ∈ U) :
    Stored U (us ++ [u]) (self.store u) where
  wellFormed := store_wellFormed h.wellFormed (hU.positive u hu)
  subset := by
    intro v hv
    rcases List.mem_append.mp hv with hv | hv
    · exact h.subset v hv
    · rw [List.mem_singleton.mp hv]
      exact hu
  view_eq := by
    intro s n
    rw [view_store h.wellFormed (hU.positive u hu) (h.not_exceedsLimits hU _ _), h.view_eq, writesOf,
      writesOf, List.filter_append, List.map_append, List.foldl_append]
    by_cases hkey : s = u.stream ∧ n = u.origin
    · obtain ⟨rfl, rfl⟩ := hkey
      simp
    · rw [if_neg hkey]
      have hnone : [u].filter (fun u => u.stream = s ∧ u.origin = n) = [] := by
        refine List.filter_eq_nil_iff.mpr fun v hv => ?_
        rw [List.mem_singleton.mp hv, decide_eq_true_eq]
        exact fun h => hkey ⟨h.1.symm, h.2.symm⟩
      rw [hnone]
      rfl

/-- What is not known has the version 0, so an update of that version is never newer. -/
theorem Stored.skip (h : Stored U us self) {u : Update Log} (hu : ¬ 0 < u.version.val) :
    self.store u = self := by
  refine store_of_le ((not_lt.mp hu).trans ?_)
  rw [knownVersion_eq]
  refine le_max_of_le_left ?_
  cases hsnap : known? self.peerSnapshots u.stream u.origin with
  | none => exact le_rfl
  | some kept => exact (h.wellFormed.snapshot_pos _ _ kept hsnap).le

/-- The updates of a list that have a version. -/
def versioned (us : List (Update Log)) : List (Update Log) :=
  us.filter fun u => 0 < u.version.val

/-- All updates of a list. -/
theorem Stored.storeAll (hU : Admissible U) (h : Stored U us self) {vs : List (Update Log)}
    (hvs : ∀ u ∈ vs, 0 < u.version.val → u ∈ U) :
    Stored U (us ++ versioned vs) (vs.foldl ClusterManager.store self) := by
  induction vs generalizing us self with
  | nil => rwa [versioned, List.filter_nil, List.append_nil]
  | cons v vs ih =>
    have hrest : ∀ u ∈ vs, 0 < u.version.val → u ∈ U :=
      fun u hu => hvs u (List.mem_cons_of_mem v hu)
    rw [List.foldl_cons]
    by_cases hv : 0 < v.version.val
    · have hstep := ih (h.store hU (hvs v List.mem_cons_self hv)) hrest
      rw [List.append_assoc] at hstep
      rwa [versioned, List.filter_cons, if_pos (decide_eq_true hv)]
    · rw [h.skip hv, versioned, List.filter_cons, if_neg (by simpa using hv)]
      exact ih h hrest

variable {C : LogCodec} {cm : ClusterManager C.Log} {U us : List (Update C.Log)}

theorem receive_nodeId (cm : ClusterManager C.Log) (d : Delivery) :
    (cm.receive C d).nodeId = cm.nodeId := by
  rw [receive_eq, foldl_store_nodeId]

theorem receive_maxNesting (cm : ClusterManager C.Log) (d : Delivery) :
    (cm.receive C d).maxNesting = cm.maxNesting := by
  rw [receive_eq, foldl_store_maxNesting]

/-- What a node reads of some deliveries. -/
def readOf (C : LogCodec) (nodeId : String) (maxNesting : ℕ) (ds : List Delivery) :
    List (Update C.Log) :=
  ds.flatMap fun d => versioned (d.updates C nodeId maxNesting)

/-- All deliveries. -/
theorem Stored.receiveAll (hU : Admissible U) (h : Stored U us cm) {ds : List Delivery}
    (hds : ∀ d ∈ ds, ∀ u ∈ d.entries C cm.nodeId, 0 < u.version.val → u ∈ U) :
    Stored U (us ++ readOf C cm.nodeId cm.maxNesting ds) (ds.foldl (receive C) cm) := by
  induction ds generalizing us cm with
  | nil => rwa [readOf, List.flatMap_nil, List.append_nil]
  | cons d ds ih =>
    have hreads : ∀ u ∈ d.updates C cm.nodeId cm.maxNesting, 0 < u.version.val → u ∈ U :=
      fun u hu => hds d List.mem_cons_self u (Delivery.entries_of_updates hu)
    have hfirst := h.storeAll hU hreads
    rw [← receive_eq] at hfirst
    have hrest := ih hfirst (by
      rw [receive_nodeId]
      exact fun d' hd' => hds d' (List.mem_cons_of_mem d hd'))
    rw [receive_nodeId, receive_maxNesting, List.append_assoc] at hrest
    exact hrest

/-- A node that knows nothing of its peers. -/
def Fresh (cm : ClusterManager Log) : Prop := cm.peerSnapshots = ∅ ∧ cm.peerTombstones = ∅

theorem stored_nil (h : Fresh cm) : Stored U [] cm where
  wellFormed := by
    constructor
    · intro s n
      left
      rw [h.1]
      rfl
    · intro s n kept hkept
      rw [h.1] at hkept
      cases hkept
    · intro s n v hv
      rw [h.2] at hv
      cases hv
    · intro s group hg
      rw [h.1] at hg
      cases hg
    · intro s group hg
      rw [h.2] at hg
      cases hg
  subset := fun u hu => absurd hu List.not_mem_nil
  view_eq := by
    intro s n
    rw [view, h.1, h.2]
    rfl

/-- `u` is the newest of the updates of its stream and origin. -/
def NewestOf (U : List (Update Log)) (u : Update Log) : Prop :=
  u ∈ U ∧ ∀ v ∈ U, v.stream = u.stream → v.origin = u.origin → v.version.val ≤ u.version.val

/-- What a node holds when it has converged on the updates `U`: for each stream and origin the newest
update, as a snapshot or as a tombstone, and nothing else. -/
structure Converged (U : List (Update Log)) (cm : ClusterManager Log) : Prop where
  snapshot : ∀ s n log v, known? cm.peerSnapshots s n = some (log, v) ↔ NewestOf U ⟨s, n, v, some log⟩
  tombstone : ∀ s n v, known? cm.peerTombstones s n = some v ↔ NewestOf U ⟨s, n, v, none⟩
  exclusive : ∀ s n, known? cm.peerSnapshots s n = none ∨ known? cm.peerTombstones s n = none
  snapshots : NoEmptyGroup cm.peerSnapshots
  tombstones : NoEmptyGroup cm.peerTombstones

/-- Every update has a newest one of its stream and origin. -/
theorem exists_newestOf {u : Update Log} {U : List (Update Log)} (hu : u ∈ U) :
    ∃ m, NewestOf U m ∧ m.stream = u.stream ∧ m.origin = u.origin := by
  set same := U.filter fun v => v.stream = u.stream ∧ v.origin = u.origin with hsame_def
  have hmem : u ∈ same := List.mem_filter.mpr ⟨hu, decide_eq_true ⟨rfl, rfl⟩⟩
  cases hmax : same.argmax fun v => v.version.val with
  | none =>
    rw [List.argmax_eq_none.mp hmax] at hmem
    exact absurd hmem List.not_mem_nil
  | some m =>
    obtain ⟨hm, hkey⟩ := List.mem_filter.mp (List.argmax_mem hmax)
    obtain ⟨hs, hn⟩ := of_decide_eq_true hkey
    refine ⟨m, ⟨hm, fun v hv hvs hvn => ?_⟩, hs, hn⟩
    have hsame : v ∈ same :=
      List.mem_filter.mpr ⟨hv, decide_eq_true ⟨hvs.trans hs, hvn.trans hn⟩⟩
    exact List.le_of_mem_argmax (f := fun v : Update Log => v.version.val) hsame hmax

/-- The register of a stream and an origin holds the newest of the updates that were stored. -/
theorem Stored.view_eq_some (hU : Admissible U) (h : Stored U us cm) {s n : String}
    {w : Version × Option C.Log} :
    cm.view s n = some w ↔ (⟨s, n, w.1, w.2⟩ : Update C.Log) ∈ us
      ∧ ∀ v ∈ us, v.stream = s → v.origin = n → v.version.val ≤ w.1.val := by
  have hdistinct : Distinct (fun w => w.1.val) (writesOf us s n) := by
    intro x hx y hy hxy
    have heq := hU.distinct _ (h.subset _ (mem_writesOf.mp hx)) _ (h.subset _ (mem_writesOf.mp hy))
      rfl rfl hxy
    exact Prod.ext (congrArg Update.version heq) (congrArg Update.log heq)
  rw [h.view_eq, foldl_write_eq_some_iff hdistinct]
  refine and_congr mem_writesOf ⟨fun hle v hv hs hn => ?_, fun hle x hx => ?_⟩
  · refine hle (v.version, v.log) (mem_writesOf.mpr ?_)
    obtain ⟨stream, origin, version, log⟩ := v
    cases hs
    cases hn
    exact hv
  · exact hle _ (mem_writesOf.mp hx) rfl rfl

/-- It holds the newest of all if and only if that one was stored. -/
theorem Stored.view_eq_some_iff (hU : Admissible U) (h : Stored U us cm)
    (hall : ∀ u, NewestOf U u → u ∈ us) {s n : String} {w : Version × Option C.Log} :
    cm.view s n = some w ↔ NewestOf U ⟨s, n, w.1, w.2⟩ := by
  rw [h.view_eq_some hU]
  constructor
  · rintro ⟨hw, hle⟩
    obtain ⟨m, hm, hs, hn⟩ := exists_newestOf (h.subset _ hw)
    refine ⟨h.subset _ hw, fun v hv hvs hvn => ?_⟩
    exact (hm.2 v hv (hvs.trans hs.symm) (hvn.trans hn.symm)).trans (hle m (hall m hm) hs hn)
  · rintro hnewest
    exact ⟨hall _ hnewest, fun v hv hs hn => hnewest.2 v (h.subset v hv) hs hn⟩

theorem Stored.converged (hU : Admissible U) (h : Stored U us cm)
    (hall : ∀ u, NewestOf U u → u ∈ us) : Converged U cm where
  snapshot := by
    intro s n log v
    rw [← h.view_eq_some_iff hU hall (w := (v, some log)), view]
    cases known? cm.peerSnapshots s n <;> cases known? cm.peerTombstones s n
      <;> simp [Prod.ext_iff, and_comm]
  tombstone := by
    intro s n v
    rw [← h.view_eq_some_iff hU hall (w := (v, none)), view]
    have hex := h.wellFormed.exclusive s n
    cases hsnap : known? cm.peerSnapshots s n with
    | none => cases known? cm.peerTombstones s n <;> simp
    | some kept =>
      rw [hsnap] at hex
      rw [hex.resolve_left (by simp)]
      simp
  exclusive := h.wellFormed.exclusive
  snapshots := h.wellFormed.snapshots
  tombstones := h.wellFormed.tombstones

/-- What a node that has converged holds was stored. -/
theorem Stored.mem_of_converged (hU : Admissible U) (h : Stored U us cm) (hc : Converged U cm)
    {u : Update C.Log} (hu : NewestOf U u) : u ∈ us := by
  obtain ⟨s, n, v, log⟩ := u
  refine ((h.view_eq_some hU (w := (v, log))).mp ?_).1
  cases log with
  | some log => rw [view, (hc.snapshot s n log v).mpr hu]
  | none =>
    have htomb := (hc.tombstone s n v).mpr hu
    have hsnap := (hc.exclusive s n).resolve_right (by rw [htomb]; exact Option.some_ne_none v)
    rw [view, hsnap, htomb]

end ClusterManager

open ClusterManager

/-- **The mesh converges, last writer wins.** A node that knows nothing of its peers is handed a finite
set `U` of updates, in any deliveries: every well-formed entry with a version is one of them, and
malformed entries may stand beside them. It ends up with exactly the newest update of every stream
and origin if and only if each of these is read from some delivery. -/
theorem receive_snapshot_converges_iff (C : LogCodec) (cm : ClusterManager C.Log)
    (hfresh : Fresh cm) (U : List (Update C.Log)) (hU : Admissible U) (ds : List Delivery)
    (hsound : ∀ d ∈ ds, ∀ u ∈ d.entries C cm.nodeId, 0 < u.version.val → u ∈ U) :
    Converged U (ds.foldl (receive C) cm)
      ↔ ∀ u, NewestOf U u → ∃ d ∈ ds, u ∈ d.updates C cm.nodeId cm.maxNesting := by
  have hstored := (stored_nil (U := U) hfresh).receiveAll hU hsound
  rw [List.nil_append] at hstored
  constructor
  · intro hconverged u hu
    obtain ⟨d, hd, hread⟩ := List.mem_flatMap.mp (hstored.mem_of_converged hU hconverged hu)
    exact ⟨d, hd, (List.mem_filter.mp hread).1⟩
  · intro hall
    refine hstored.converged hU fun u hu => ?_
    obtain ⟨d, hd, hread⟩ := hall u hu
    exact List.mem_flatMap.mpr
      ⟨d, hd, List.mem_filter.mpr ⟨hread, decide_eq_true (hU.positive u hu.1)⟩⟩

/-! ## Batches of tombstones

Tombstones of one stream in two orders and in batches, beside a malformed entry and a batch that is
given up. A batch with a nested key in front shows why the condition on nesting is needed. -/

namespace Converging

abbrev codec : LogCodec := .python .ternary

/-- The tombstone of a stream that is gone. -/
def update (version : ℤ) : Update codec.Log :=
  ⟨"[\"default\", \"gone\"]", "node2", .int version, none⟩

def timestamp : Binary64 := .ofInt 9 (by decide)

/-- It is delivered on its own, under some identifier. -/
def tombstone (origin : String) (version : ℤ) : Delivery :=
  .single "node3" "[\"default\", \"gone\"]" origin (tombstoneData (.int version)) timestamp

/-- It is delivered behind a key of a thousand brackets. -/
def nested (version : ℤ) : Delivery where
  senderNodeId := .str "node3"
  streamsData := .dict [(.str (brackets 1000), .dict []),
    (.str "[\"default\", \"gone\"]", .dict [(.str "node2", .dict (tombstoneData (.int version)))])]
  timestamp := timestamp

/-- A node whose interpreter gives up at 990 calls. -/
def node : ClusterManager codec.Log := ⟨"node1", 1024, 1, 990, ∅, ∅, ∅⟩

theorem canonicalKey_gone : canonicalKey "[\"default\", \"gone\"]" = true := by decide +kernel

theorem readEntry_tombstone {version : ℤ} (h : 0 ≤ version) (hle : version ≤ 2) :
    readEntry codec timestamp "[\"default\", \"gone\"]" "node2"
      (tombstoneData (.int version)) = .ok (update version) := by
  refine readEntry_tombstoneData (v := .int version) (Int.cast_nonneg_iff.mpr h) fun n hn => ?_
  cases hn
  exact lt_of_le_of_lt (by omega : version.natAbs ≤ 2) (by decide +kernel)

theorem updates_tombstone {version : ℤ} (h : 0 ≤ version) (hle : version ≤ 2) :
    (tombstone "node2" version).updates codec "node1" 990 = [update version] :=
  updates_single (by decide) canonicalKey_gone (by decide) (by decide) (readEntry_tombstone h hle)

theorem entries_tombstone {version : ℤ} (h : 0 ≤ version) (hle : version ≤ 2) :
    (tombstone "node2" version).entries codec "node1" = [update version] :=
  entries_single (by decide) canonicalKey_gone (by decide) (by decide) (readEntry_tombstone h hle)

/-- An empty identifier is none. -/
theorem entries_malformed : (tombstone "" 1).entries codec "node1" = [] := by
  rw [Delivery.entries, tombstone, groups_single (by decide), List.flatMap_cons, List.flatMap_nil,
    List.append_nil, groupUpdates, if_pos canonicalKey_gone]
  rfl

theorem groups_nested (version : ℤ) :
    (nested version).groups = [(.str (brackets 1000), .dict []),
      (.str "[\"default\", \"gone\"]",
        .dict [(.str "node2", .dict (tombstoneData (.int version)))])] :=
  if_pos (e := []) (by decide : validIdentifier "node3")

theorem entries_nested {version : ℤ} (h : 0 ≤ version) (hle : version ≤ 2) :
    (nested version).entries codec "node1" = [update version] := by
  rw [Delivery.entries, groups_nested, List.flatMap_cons, List.flatMap_cons, List.flatMap_nil,
    List.append_nil, groupUpdates, List.filterMap_nil, ite_self, List.nil_append, groupUpdates,
    if_pos canonicalKey_gone]
  show [(_ : PyKey × PyVal)].filterMap (entryUpdate codec "node1" timestamp _) = _
  rw [List.filterMap_cons, entryUpdate_eq (by decide) (by decide) (readEntry_tombstone h hle)]
  rfl

/-- The brackets are one too many for the interpreter. -/
theorem updates_nested (version : ℤ) :
    (nested version).updates codec "node1" 990 = [] := by
  have hdeep : ¬ keyShallow 990 (.str (brackets 1000), .dict []) = true := by
    rw [keyShallow, decide_eq_true_eq, shallow_brackets_iff (by norm_num)]
    norm_num
  rw [Delivery.updates, groups_nested, List.takeWhile_cons_of_neg hdeep, List.flatMap_nil]

theorem admissible {us : List (Update codec.Log)}
    (h : us = [update 2, update 1] ∨ us = [update 2]) : Admissible us := by
  have hstreams : (us.map Update.stream).toFinset.card < maxPeerStreams := by
    rcases h with rfl | rfl <;> decide
  refine ⟨?_, ?_, hstreams, fun s => ?_⟩
  · rcases h with rfl | rfl <;> simp [update, Version.val]
  · rcases h with rfl | rfl <;> simp [update, Version.val]
  · by_cases hs : "[\"default\", \"gone\"]" = s
    · subst hs
      rcases h with rfl | rfl <;> decide
    · rcases h with rfl | rfl <;> simp [update, hs, maxOriginsPerStream]

/-- The one of version 2 is the newest. -/
theorem eq_of_newestOf {u : Update codec.Log} (h : NewestOf [update 2, update 1] u) : u = update 2 := by
  have hle := h.2 (update 2) List.mem_cons_self
  rcases List.mem_cons.mp h.1 with rfl | hone
  · rfl
  · rw [List.mem_singleton.mp hone] at hle
    exact absurd (hle rfl rfl) (by norm_num [update, Version.val])

end Converging

open Converging

/-- A tombstone of version 2, a malformed one, an older one and one of version 0. The last batch is
given up, and holds nothing new. -/
theorem receive_snapshot_converges_tombstones :
    Converged [update 2, update 1]
      ([tombstone "node2" 2, tombstone "" 1, tombstone "node2" 1, tombstone "node2" 0, nested 2].foldl
        (receive codec) node) := by
  refine (receive_snapshot_converges_iff codec node ⟨rfl, rfl⟩ _
    (admissible (.inl rfl)) _ ?_).mpr ?_
  · simp only [List.forall_mem_cons, node, entries_tombstone (by decide : (0 : ℤ) ≤ 2) (by decide),
      entries_malformed, entries_tombstone (by decide : (0 : ℤ) ≤ 1) (by decide),
      entries_tombstone (by decide : (0 : ℤ) ≤ 0) (by decide),
      entries_nested (by decide : (0 : ℤ) ≤ 2) (by decide)]
    simp [update, Version.val]
  · intro u hu
    refine ⟨tombstone "node2" 2, List.mem_cons_self, ?_⟩
    rw [eq_of_newestOf hu, node, updates_tombstone (by decide) (by decide)]
    exact List.mem_cons_self

/-- **A batch that is lost behind a nested key**: the one tombstone that is delivered is not
stored. -/
theorem batch_lost_behind_nesting :
    Admissible [update 2] ∧ Fresh node
    ∧ (∀ u, u ∈ (nested 2).entries codec node.nodeId ↔ u ∈ [update 2])
    ∧ ¬ Converged [update 2] (node.receive codec (nested 2)) := by
  refine ⟨admissible (.inr rfl), ⟨rfl, rfl⟩, fun u => ?_, fun hconverged => ?_⟩
  · show u ∈ (nested 2).entries codec "node1" ↔ _
    rw [entries_nested (by decide) (by decide)]
  · have hsame : node.receive codec (nested 2) = node := by
      rw [receive_eq, node, updates_nested]
      rfl
    have hnewest : NewestOf [update 2] (update 2) :=
      ⟨List.mem_cons_self, fun v hv _ _ => by rw [List.mem_singleton.mp hv]⟩
    have htomb := (hconverged.tombstone _ _ _).mpr hnewest
    rw [hsame] at htomb
    cases htomb

end Sketchlog.Mesh
