import Sketchlog.Properties.PeerState
import Sketchlog.Refine.DocumentTexts
import Sketchlog.Refine.LogKind

/-!
# The logs that a node holds for its peers

Every snapshot a node holds was restored by `from_dict` from what a peer has sent: this is kept by
`receive_snapshot` (`Restored.receive`) and by the removal of dead members. So what `from_dict`
checks is true of it, and its document has a text.
-/

namespace Sketchlog.Mesh

open Checked ClusterManager

variable {C : LogCodec} {self : ClusterManager C.Log}

/-- Every log that is held was restored from a document. -/
def ClusterManager.Restored (self : ClusterManager C.Log) : Prop :=
  ∀ s n kept, known? self.peerSnapshots s n = some kept → ∃ data, C.fromDict data = .ok kept.1

theorem restored_of_readEntry {timestamp : Binary64} {stream origin : String} {data : Items}
    {u : Update C.Log} {log : C.Log}
    (h : readEntry C timestamp stream origin data = .ok u) (hlog : u.log = some log) :
    ∃ state, C.fromDict state = .ok log := by
  obtain ⟨version, -, h⟩ := bind_eq_ok.mp h
  split at h
  · cases h
    cases hlog
  · obtain ⟨log', hread, h⟩ := bind_eq_ok.mp h
    cases h
    cases hlog
    exact ⟨_, hread⟩

/-- The logs of a delivery are restored. -/
theorem restored_of_mem_updates {nodeId : String} {maxNesting : ℕ} {d : Delivery}
    {u : Update C.Log} {log : C.Log} (hmem : u ∈ d.updates C nodeId maxNesting)
    (hlog : u.log = some log) : ∃ state, C.fromDict state = .ok log := by
  obtain ⟨group, -, hmem⟩ := List.mem_flatMap.mp (Delivery.entries_of_updates hmem)
  unfold groupUpdates at hmem
  split at hmem
  · split at hmem
    · obtain ⟨entry, -, hentry⟩ := List.mem_filterMap.mp hmem
      unfold entryUpdate at hentry
      split at hentry
      · split at hentry
        · cases hread : readEntry C d.timestamp _ _ _ with
          | ok u' =>
            rw [hread] at hentry
            cases hentry
            exact restored_of_readEntry hread hlog
          | error e =>
            rw [hread] at hentry
            cases hentry
        · cases hentry
      · cases hentry
    · cases hmem
  · cases hmem

theorem ClusterManager.Restored.store (h : self.Restored) {u : Update C.Log}
    (hlog : ∀ log, u.log = some log → ∃ state, C.fromDict state = .ok log) :
    (self.store u).Restored := by
  rcases store_cases self u with hsame | ⟨-, -, ⟨-, hstore⟩ | ⟨log, hsome, hstore⟩⟩
  · rw [hsame]
    exact h
  · rw [hstore]
    exact forall_known?_dropOrigin h
  · rw [hstore]
    exact forall_known?_setOrigin h (hlog log hsome)

/-- **A delivery leaves restored logs only.** -/
theorem ClusterManager.Restored.receive (h : self.Restored) (d : Delivery) :
    (self.receive C d).Restored := by
  have hlogs : ∀ u ∈ d.updates C self.nodeId self.maxNesting, ∀ log, u.log = some log →
      ∃ state, C.fromDict state = .ok log :=
    fun u hu log => restored_of_mem_updates hu
  rw [receive_eq]
  generalize d.updates C self.nodeId self.maxNesting = us at hlogs
  induction us generalizing self with
  | nil => exact h
  | cons u us ih =>
    exact ih (h.store (hlogs u List.mem_cons_self))
      fun u' hu' => hlogs u' (List.mem_cons_of_mem _ hu')

/-! ## Texts -/

/-- The documents of restored logs have texts. -/
def LogCodec.HasTexts (reprFloat : Binary64 → List Char) (C : LogCodec) : Prop :=
  ∀ data log, C.fromDict data = .ok log → Sizable reprFloat (C.toDict log)

theorem hasTexts_python (reprFloat : Binary64 → List Char) (M : IndexMapping) :
    LogCodec.HasTexts reprFloat (.python M) :=
  fun _ _ h => sizable_python h

theorem hasTexts_cpp (reprFloat : Binary64 → List Char) (M : IndexMapping) :
    LogCodec.HasTexts reprFloat (LogKind.cpp M).codec :=
  fun _ log _ => sizable_cpp log

end Sketchlog.Mesh
