import Sketchlog.Mesh.Streams
import Sketchlog.Refine.MeshRegisters
import Sketchlog.Refine.StreamKeys
import Sketchlog.Server.Handlers

/-!
# Which streams can be replicated

A stream is replicated under the key of its two names, and whatever a node reads of a peer or of its
storage goes by `_valid_stream_key`. The API limits the characters of each name, the key is limited
in the characters of its escapes: a stream that the API accepts can be replicated exactly when the
escapes of its names have at most 1016 characters together (`replicates_iff`).
-/

namespace Sketchlog.Mesh

open Checked Imperative ClusterManager

/-! ## `receive_snapshot` -/

/-- What can be read of a valid stream is an update, whatever else a delivery holds under keys that
can be checked. -/
theorem mem_updates {C : LogCodec} {nodeId sender key nid : String} {maxNesting : ℕ} {d : Delivery}
    {groups nodeData data : Items} {u : Update C.Log} (hkey : canonicalKey key = true)
    (hsender : d.senderNodeId = .str sender) (hvalid : validIdentifier sender)
    (hstreams : d.streamsData = .dict groups)
    (hshallow : ∀ group ∈ groups, keyShallow maxNesting group = true)
    (hgroup : (.str key, .dict nodeData) ∈ groups) (hentry : (.str nid, .dict data) ∈ nodeData)
    (hnid : validIdentifier nid) (hne : nid ≠ nodeId)
    (hread : readEntry C d.timestamp key nid data = .ok u) :
    u ∈ d.updates C nodeId maxNesting := by
  have hgroups : d.groups = groups := by
    rw [Delivery.groups, hsender, hstreams]
    exact if_pos hvalid
  rw [Delivery.updates, hgroups, List.takeWhile_eq_self_iff.mpr hshallow]
  apply List.mem_flatMap.mpr
  refine ⟨_, hgroup, ?_⟩
  rw [groupUpdates, if_pos hkey]
  apply List.mem_filterMap.mpr
  refine ⟨_, hentry, ?_⟩
  rw [entryUpdate, if_pos ⟨hnid, hne⟩, hread]
  rfl

/-! ## `handle_gossip_digest`

The versions of a digest are recorded under the canonical keys, and no later entry undoes one. -/

/-- An entry of a digest that can be read, or is left out. -/
def DigestReadable (maxNesting : ℕ) (entry : PyKey × PyVal) : Prop :=
  ∃ read, readStream maxNesting entry = .ok read

theorem readStream_of_canonical {maxNesting : ℕ} {key : String} {origins : Items}
    {o : Dict String Binary64} (hkey : canonicalKey key = true)
    (ho : normalizeOrigins origins ∅ = .ok o) :
    readStream maxNesting (.str key, .dict origins) = .ok (some (key, o)) := by
  simp only [readStream, (shallow_of_canonicalKey hkey).validStreamKey, hkey, bind, Except.bind, ho]

theorem normalizeVersions_of_none {maxNesting : ℕ} {entry : PyKey × PyVal}
    (h : readStream maxNesting entry = .ok none) (rest : Items)
    (normalized : Dict String (Dict String Binary64)) :
    normalizeVersions maxNesting (entry :: rest) normalized
      = normalizeVersions maxNesting rest normalized := by
  rw [normalizeVersions, h]
  rfl

theorem normalizeVersions_of_some {maxNesting : ℕ} {entry : PyKey × PyVal} {key : String}
    {o : Dict String Binary64} (h : readStream maxNesting entry = .ok (some (key, o)))
    (rest : Items) (normalized : Dict String (Dict String Binary64)) :
    normalizeVersions maxNesting (entry :: rest) normalized
      = if maxPeerStreams ≤ (normalized.set key o).size then .ok (normalized.set key o)
        else normalizeVersions maxNesting rest (normalized.set key o) := by
  rw [normalizeVersions, h]
  rfl

/-- A stream is recorded under its own key. -/
theorem key_of_readStream {maxNesting : ℕ} {entry : PyKey × PyVal} {key : String}
    {o : Dict String Binary64} (h : readStream maxNesting entry = .ok (some (key, o))) :
    entry.1 = .str key := by
  unfold readStream at h
  split at h
  · obtain ⟨valid, -, h⟩ := bind_eq_ok.mp h
    split at h
    · obtain ⟨origins, -, h⟩ := bind_eq_ok.mp h
      cases h
      rfl
    · cases h
  · cases h

/-- A stream that is recorded, and is not listed again, stays as it is. -/
theorem normalizeVersions_keeps {maxNesting : ℕ} {key : String} {versions : Items}
    {normalized : Dict String (Dict String Binary64)} {o : Dict String Binary64}
    (hread : ∀ entry ∈ versions, DigestReadable maxNesting entry)
    (hfresh : PyKey.str key ∉ versions.map Prod.fst) (hkept : normalized.get? key = some o) :
    ∃ remote, normalizeVersions maxNesting versions normalized = .ok remote
      ∧ remote.get? key = some o := by
  -- the key occurs once, so no later entry replaces what was read for it
  induction versions generalizing normalized with
  | nil => exact ⟨normalized, rfl, hkept⟩
  | cons entry rest ih =>
    rw [List.map_cons, List.mem_cons, not_or] at hfresh
    have hrest : ∀ entry ∈ rest, DigestReadable maxNesting entry :=
      fun e he => hread e (List.mem_cons_of_mem _ he)
    obtain ⟨read, hfirst⟩ := hread entry List.mem_cons_self
    cases read with
    | none =>
      rw [normalizeVersions_of_none hfirst]
      exact ih hrest hfresh.2 hkept
    | some stream =>
      -- the entry read has another key
      have hne : key ≠ stream.1 := fun h =>
        hfresh.1 ((congrArg PyKey.str h).trans (key_of_readStream hfirst).symm)
      have hkept' : (normalized.set stream.1 stream.2).get? key = some o := by
        rw [Dict.get?_set_of_ne hne]
        exact hkept
      rw [normalizeVersions_of_some hfirst]
      split
      · exact ⟨_, rfl, hkept'⟩
      · exact ih hrest hfresh.2 hkept'

/-- A valid stream of a digest is recorded, with the origins that can be read. -/
theorem normalizeVersions_records {maxNesting : ℕ} {key : String} {origins versions : Items}
    {normalized : Dict String (Dict String Binary64)} {o : Dict String Binary64}
    (hkey : canonicalKey key = true)
    (hread : ∀ entry ∈ versions, DigestReadable maxNesting entry)
    (hnodup : (versions.map Prod.fst).Nodup)
    (hroom : normalized.size + versions.length ≤ maxPeerStreams)
    (hmem : (.str key, .dict origins) ∈ versions)
    (ho : normalizeOrigins origins ∅ = .ok o) :
    ∃ remote, normalizeVersions maxNesting versions normalized = .ok remote
      ∧ remote.get? key = some o := by
  induction versions generalizing normalized with
  | nil => cases hmem
  | cons entry rest ih =>
    rw [List.map_cons, List.nodup_cons] at hnodup
    rw [List.length_cons] at hroom
    have hrest : ∀ entry ∈ rest, DigestReadable maxNesting entry :=
      fun e he => hread e (List.mem_cons_of_mem _ he)
    rcases List.mem_cons.mp hmem with rfl | hlater
    · -- the stream itself: it is recorded, and no later entry has its key
      rw [normalizeVersions_of_some (readStream_of_canonical hkey ho)]
      split
      · exact ⟨_, rfl, Dict.get?_set_self⟩
      · exact normalizeVersions_keeps hrest hnodup.1 Dict.get?_set_self
    · obtain ⟨read, hfirst⟩ := hread entry List.mem_cons_self
      cases read with
      | none =>
        rw [normalizeVersions_of_none hfirst]
        exact ih hrest hnodup.2 (by omega) hlater
      | some stream =>
        have hlength : 0 < rest.length := List.length_pos_of_mem hlater
        have hsize : (normalized.set stream.1 stream.2).size ≤ normalized.size + 1 := by
          rw [Dict.size_set]
          split <;> omega
        have hopen : ¬ maxPeerStreams ≤ (normalized.set stream.1 stream.2).size := by omega
        rw [normalizeVersions_of_some hfirst, if_neg hopen]
        exact ih hrest hnodup.2 (by omega) hlater

/-! ## `restore_local_tombstones`

A row is restored if its key is canonical and of the length allowed; what is restored is kept. -/

section Restore

variable {Log : Type} {node : ClusterManager Log} {entry : PyKey × PyVal} {key : String}

/-- What a recorded deletion is raised to. -/
def ClusterManager.withTombstone (node : ClusterManager Log) (key : String) (v : Binary64) :
    ClusterManager Log :=
  { node with localTombstones :=
      node.localTombstones.set key (max v.val ((node.localTombstones.get? key).getD 0)) }

/-- A stored entry that can be read, or is left out. -/
def TombstoneReadable (maxNesting : ℕ) (entry : PyKey × PyVal) : Prop :=
  keyShallow maxNesting entry = true ∧ ∃ v, readDigestVersion entry.2 = .ok v

theorem run_restoreTombstone {version : PyVal} {v : Binary64} (hkey : canonicalKey key = true)
    (hv : readDigestVersion version = .ok (some v))
    (hroom : node.localTombstones.size < node.maxLocalTombstones) :
    (restoreTombstone (.str key, version)).run node = .ok () (node.withTombstone key v) := by
  have hfull : ¬ (node.localTombstones.get? key = none
      ∧ node.maxLocalTombstones ≤ node.localTombstones.size) :=
    fun h => absurd h.2 (by omega)
  simp only [restoreTombstone, (shallow_of_canonicalKey hkey).validStreamKey, hkey, if_true, hv,
    EStateM.run_bind, run_liftExcept_ok, EStateM.run_get, run_raiseIf, hfull, if_false,
    EStateM.run_modify]
  rfl

/-- An entry is recorded or left out. -/
theorem run_restoreTombstone_cases (node : ClusterManager Log)
    (hread : TombstoneReadable node.maxNesting entry)
    (hroom : node.localTombstones.size < node.maxLocalTombstones) :
    (restoreTombstone entry).run node = .ok () node
      ∨ ∃ key v, (restoreTombstone entry).run node = .ok () (node.withTombstone key v) := by
  obtain ⟨key, version⟩ := entry
  obtain ⟨hshallow, read, hread⟩ := hread
  -- only a string key that is canonical records anything
  cases key with
  | str key =>
    have hcheck : Shallow node.maxNesting key := of_decide_eq_true hshallow
    cases hkey : canonicalKey key with
    | true =>
      cases read with
      | none =>
        refine .inl ?_
        simp only [restoreTombstone, EStateM.run_bind, EStateM.run_get, hcheck.validStreamKey, hkey,
          if_true, hread, run_liftExcept_ok]
        rfl
      | some v => exact .inr ⟨key, v, run_restoreTombstone hkey hread hroom⟩
    | false =>
      refine .inl ?_
      simp only [restoreTombstone, EStateM.run_bind, EStateM.run_get, hcheck.validStreamKey, hkey,
        Bool.false_eq_true, if_false, run_liftExcept_ok]
      rfl
  | _ => exact .inl rfl

/-- A deletion is raised at most by what is recorded next. -/
theorem le_withTombstone (key' : String) (v : Binary64) {bound w : ℚ}
    (hw : node.localTombstones.get? key = some w) (hle : bound ≤ w) :
    ∃ w, (node.withTombstone key' v).localTombstones.get? key = some w ∧ bound ≤ w := by
  unfold ClusterManager.withTombstone
  show ∃ w, (node.localTombstones.set key' _).get? key = some w ∧ bound ≤ w
  rw [Dict.get?_set]
  split
  · next heq =>
    refine ⟨_, rfl, hle.trans ?_⟩
    rw [← heq, hw]
    exact le_max_right _ _
  · exact ⟨w, hw, hle⟩

theorem size_withTombstone (node : ClusterManager Log) (key' : String) (v : Binary64) :
    (node.withTombstone key' v).localTombstones.size ≤ node.localTombstones.size + 1 := by
  unfold ClusterManager.withTombstone
  show (node.localTombstones.set key' _).size ≤ _
  rw [Dict.size_set]
  split <;> omega

theorem run_restore_cons {rest : Items} {s : ClusterManager Log}
    (h : (restoreTombstone entry).run node = .ok () s) :
    (restoreLocalTombstones (entry :: rest)).run node = (restoreLocalTombstones rest).run s := by
  show (restoreTombstone entry >>= fun _ => restoreLocalTombstones rest).run node = _
  rw [EStateM.run_bind, h]

/-- The deletions are restored when there is room for all of them, and none goes back. -/
theorem restore_keeps {tombstones : Items} {bound w : ℚ}
    (hread : ∀ entry ∈ tombstones, TombstoneReadable node.maxNesting entry)
    (hroom : node.localTombstones.size + tombstones.length ≤ node.maxLocalTombstones)
    (hw : node.localTombstones.get? key = some w) (hle : bound ≤ w) :
    ∃ node', (restoreLocalTombstones tombstones).run node = .ok () node'
      ∧ ∃ w, node'.localTombstones.get? key = some w ∧ bound ≤ w := by
  induction tombstones generalizing node w with
  | nil => exact ⟨node, rfl, w, hw, hle⟩
  | cons entry rest ih =>
    rw [List.length_cons] at hroom
    have hrest : ∀ entry ∈ rest, TombstoneReadable node.maxNesting entry :=
      fun e he => hread e (List.mem_cons_of_mem _ he)
    rcases run_restoreTombstone_cases node (hread entry List.mem_cons_self) (by omega)
      with hsame | ⟨key', v, hset⟩
    · rw [run_restore_cons hsame]
      exact ih hrest (by omega) hw hle
    · have hsize := size_withTombstone node key' v
      obtain ⟨w', hw', hle'⟩ := le_withTombstone key' v hw hle
      rw [run_restore_cons hset]
      exact ih hrest (by show _ ≤ node.maxLocalTombstones; omega) hw' hle'

/-- A stored deletion of a valid stream is restored. -/
theorem restore_records {tombstones : Items} {version : PyVal} {v : Binary64}
    (hkey : canonicalKey key = true)
    (hread : ∀ entry ∈ tombstones, TombstoneReadable node.maxNesting entry)
    (hroom : node.localTombstones.size + tombstones.length ≤ node.maxLocalTombstones)
    (hmem : (.str key, version) ∈ tombstones) (hv : readDigestVersion version = .ok (some v)) :
    ∃ node', (restoreLocalTombstones tombstones).run node = .ok () node'
      ∧ ∃ w, node'.localTombstones.get? key = some w ∧ v.val ≤ w := by
  -- the entry is the first one, or the first one is restored or skipped
  induction tombstones generalizing node with
  | nil => cases hmem
  | cons entry rest ih =>
    rw [List.length_cons] at hroom
    have hrest : ∀ entry ∈ rest, TombstoneReadable node.maxNesting entry :=
      fun e he => hread e (List.mem_cons_of_mem _ he)
    rcases List.mem_cons.mp hmem with rfl | hmem
    · have hsize := size_withTombstone node key v
      rw [run_restore_cons (run_restoreTombstone hkey hv (by omega))]
      exact restore_keeps hrest (by show _ ≤ node.maxLocalTombstones; omega) Dict.get?_set_self
        (le_max_left _ _)
    · rcases run_restoreTombstone_cases node (hread entry List.mem_cons_self) (by omega)
        with hsame | ⟨key', v', hset⟩
      · rw [run_restore_cons hsame]
        exact ih hrest (by omega) hmem
      · have hsize := size_withTombstone node key' v'
        rw [run_restore_cons hset]
        exact ih hrest (by show _ ≤ node.maxLocalTombstones; omega) hmem

end Restore

/-! ## Streams that the API accepts

The checks of the API against the checks of the mesh: names that the API takes make a key that the
mesh takes exactly when its escaped length is within the limit. -/

/-- A stream whose snapshots and deletions every node takes, from an input without keys that cannot
be checked. -/
structure Replicates (space streamId : String) : Prop where
  valid : ∀ maxNesting, validStreamKey maxNesting (streamKey space streamId) = .ok true
  /-- The key stands for the two names. -/
  decodes : Json.loadPair (streamKey space streamId).toList
    = some (space.toList.map Char.toNat, streamId.toList.map Char.toNat)
  /-- Whatever can be read of the stream in a delivery is stored in its turn. -/
  received : ∀ (C : LogCodec) (nodeId sender nid : String) (maxNesting : ℕ) (d : Delivery)
    (groups nodeData data : Items) (u : Update C.Log), d.senderNodeId = .str sender →
    validIdentifier sender → d.streamsData = .dict groups →
    (∀ group ∈ groups, keyShallow maxNesting group = true) →
    (.str (streamKey space streamId), .dict nodeData) ∈ groups → (.str nid, .dict data) ∈ nodeData →
    validIdentifier nid → nid ≠ nodeId →
    readEntry C d.timestamp (streamKey space streamId) nid data = .ok u →
    u ∈ d.updates C nodeId maxNesting
  /-- The origins of the stream in a digest are compared. -/
  digested : ∀ (maxNesting : ℕ) (versions origins : Items) (o : Dict String Binary64),
    (∀ entry ∈ versions, DigestReadable maxNesting entry) → (versions.map Prod.fst).Nodup →
    versions.length ≤ maxPeerStreams →
    (.str (streamKey space streamId), .dict origins) ∈ versions →
    normalizeOrigins origins ∅ = .ok o →
    ∃ remote, readDigest maxNesting [(.str "versions", .dict versions)] = .ok remote
      ∧ remote.get? (streamKey space streamId) = some o
  /-- A stored deletion of the stream is restored. -/
  restored : ∀ (Log : Type) (node : ClusterManager Log) (tombstones : Items) (version : PyVal)
    (v : Binary64),
    (∀ entry ∈ tombstones, TombstoneReadable node.maxNesting entry) →
    node.localTombstones.size + tombstones.length ≤ node.maxLocalTombstones →
    (.str (streamKey space streamId), version) ∈ tombstones →
    readDigestVersion version = .ok (some v) →
    ∃ node', (restoreLocalTombstones tombstones).run node = .ok () node'
      ∧ ∃ w, node'.localTombstones.get? (streamKey space streamId) = some w ∧ v.val ≤ w

/-- The key of two names is checked without an error. -/
theorem validStreamKey_streamKey (maxNesting : ℕ) (space streamId : String) :
    validStreamKey maxNesting (streamKey space streamId)
      = .ok (canonicalKey (streamKey space streamId)) :=
  Shallow.validStreamKey (.inr (Json.tooDeep_of_loadPair (Json.loadPair_streamKey space streamId)))

theorem replicates_of_valid {space streamId : String}
    (h : canonicalKey (streamKey space streamId) = true) :
    Replicates space streamId where
  valid maxNesting := (validStreamKey_streamKey maxNesting space streamId).trans (congrArg _ h)
  decodes := Json.loadPair_streamKey space streamId
  received _ _ _ _ _ _ _ _ _ _ := mem_updates h
  digested _ _ _ _ hread hnodup hroom hmem ho := by
    have hroom' : (∅ : Dict String (Dict String Binary64)).size + _ ≤ maxPeerStreams :=
      (Nat.zero_add _).trans_le hroom
    exact normalizeVersions_records h hread hnodup hroom' hmem ho
  restored _ _ _ _ _ hread hroom hmem hv := restore_records h hread hroom hmem hv

theorem checkNames_eq_ok {space streamId : String} :
    Server.checkNames streamId space = .ok () ↔ streamId.length ≤ 255 ∧ space.length ≤ 255 := by
  unfold Server.checkNames
  simp only [bind_eq_ok, failIf_eq_ok, exists_unit, not_lt]

/-- **Which accepted streams can be replicated.** -/
theorem replicates_iff {space streamId : String} (hspace : 0 < space.length)
    (hstream : 0 < streamId.length)
    (haccepted : Server.checkNames streamId space = .ok ()) :
    Replicates space streamId ↔ nameWidth space + nameWidth streamId ≤ 1016 := by
  obtain ⟨hstream', hspace'⟩ := checkNames_eq_ok.mp haccepted
  have hvalid := canonicalKey_streamKey space streamId
  rw [validIdentifier_iff, validIdentifier_iff] at hvalid
  constructor
  · intro h
    have hkey := (validStreamKey_streamKey 0 space streamId).symm.trans (h.valid 0)
    exact (hvalid.mp (Except.ok.inj hkey)).2.2
  · intro hwidth
    exact replicates_of_valid (hvalid.mpr ⟨⟨hspace, hspace'⟩, ⟨hstream, hstream'⟩, hwidth⟩)

/-- A stream with plain names. -/
theorem replicates_plain : Replicates "default" "checkout" :=
  (replicates_iff (by decide) (by decide) (checkNames_eq_ok.mpr ⟨by decide, by decide⟩)).mpr
    (by decide +kernel)

/-- A namespace of accents, which are written with six characters each. -/
theorem accents_do_not_replicate :
    ¬ ∀ (maxNesting : ℕ) (space streamId : String), 1 ≤ space.length → 1 ≤ streamId.length →
      Server.checkNames streamId space = .ok () →
      validStreamKey maxNesting (streamKey space streamId) = .ok true := by
  intro hall
  have hlength : (String.ofList (List.replicate 255 'é')).length = 255 := by
    rw [String.length_ofList, List.length_replicate]
  have hwide : nameWidth (String.ofList (List.replicate 255 'é')) = 255 * 6 := by
    unfold nameWidth
    rw [String.toList_ofList, List.map_replicate, List.map_replicate, List.sum_replicate]
    decide
  have hvalid := hall 990 (String.ofList (List.replicate 255 'é')) "s" (by rw [hlength]; decide)
    (by decide) (checkNames_eq_ok.mpr ⟨by decide, hlength.le⟩)
  rw [validStreamKey_streamKey, Except.ok.injEq] at hvalid
  have hwidth := ((canonicalKey_streamKey _ _).mp hvalid).2.2
  rw [hwide] at hwidth
  omega

end Sketchlog.Mesh
