import Sketchlog.Lib.RoundRobin
import Sketchlog.Mesh.Gossip
import Sketchlog.Refine.DocumentTexts

/-!
# Bounded version vectors

A digest that does not fit as a whole is cut to what fits, from the cursor on. The loop keeps the
size of the payload exactly (`selectVersions_spec`), and it passes over an entry only if the entry
does not fit alone. Each call considers an entry at least and moves the cursor past what it has
considered, so as many calls as there are entries consider every entry.
-/

namespace Sketchlog.Mesh

open Checked

variable {reprFloat : Binary64 → List Char} {C : LogCodec} {self : ClusterManager C.Log}

theorem sizable_originsVal (origins : Dict String Version) :
    Sizable reprFloat (originsVal origins) := by
  refine sizable_dictVal.mpr fun nid v _ => ?_
  cases v with
  | int n => exact sizable_int n
  | float x => exact sizable_fin x

/-- The size of the versions of one stream. -/
def originsSize (reprFloat : Binary64 → List Char) (origins : Dict String Version) : ℕ :=
  sizeOf reprFloat (originsVal origins)

/-- The size of a digest. -/
def versionsSize (reprFloat : Binary64 → List Char) (nodeId : String)
    (versions : Dict String (Dict String Version)) : ℕ :=
  payloadBase "versions" nodeId + content (originsSize reprFloat) versions

theorem jsonSize_versionsVal (reprFloat : Binary64 → List Char) (nodeId : String)
    (versions : Dict String (Dict String Version)) :
    jsonSize reprFloat (versionsVal nodeId versions) = .ok (versionsSize reprFloat nodeId versions) :=
  jsonSize_payload "versions" nodeId fun _ origins _ => sizable_originsVal origins

/-- The entry, as the only one, fits. -/
def FitsAlone (reprFloat : Binary64 → List Char) (self : ClusterManager C.Log)
    (entry : String × Dict String Version) : Prop :=
  ∃ n, jsonSize reprFloat (versionsVal self.nodeId
    ((∅ : Dict String (Dict String Version)).set entry.1 entry.2)) = .ok n
    ∧ n ≤ self.maxPayloadBytes

theorem fitsAlone_iff {entry : String × Dict String Version} : FitsAlone reprFloat self entry
    ↔ payloadBase "versions" self.nodeId + (quoteLen entry.1 + 1 + originsSize reprFloat entry.2)
      ≤ self.maxPayloadBytes := by
  have hsize := jsonSize_versionsVal reprFloat self.nodeId
    ((∅ : Dict String (Dict String Version)).set entry.1 entry.2)
  rw [versionsSize, content_singleton] at hsize
  unfold FitsAlone
  rw [hsize]
  simp

/-! ## The loop

The loop goes along the entries from the cursor. One that does not fit alone is passed over, and the
first that does not fit beside the others ends it. Induction on the entries, with the size that is
carried along. -/

/-- What a run of the loop over `entries` yields, from what is selected before. -/
structure Selects (reprFloat : Binary64 → List Char) (node : ClusterManager C.Log)
    (entries : List (String × Dict String Version)) (before : Dict String (Dict String Version))
    (after : Dict String (Dict String Version)) (count : ℕ) : Prop where
  size_le : versionsSize reprFloat node.nodeId before ≤ node.maxPayloadBytes →
    versionsSize reprFloat node.nodeId after ≤ node.maxPayloadBytes
  keeps : ∀ k origins, before.get? k = some origins → after.get? k = some origins
  takes : ∀ entry ∈ entries.take count, FitsAlone reprFloat node entry
    → after.get? entry.1 = some entry.2
  first : before.isEmpty = true → entries ≠ [] → 1 ≤ count

theorem versionsSize_set (reprFloat : Binary64 → List Char)
    {selected : Dict String (Dict String Version)}
    {streamId : String} (origins : Dict String Version)
    (h : selected.get? streamId = none) (nodeId : String) :
    versionsSize reprFloat nodeId (selected.set streamId origins)
      = versionsSize reprFloat nodeId selected
        + ((if selected.isEmpty then 0 else 1) + quoteLen streamId + 1 + originsSize reprFloat
          origins) := by
  rw [versionsSize, versionsSize, content_set_of_none _ _ h]
  omega

theorem versionsSize_of_isEmpty {selected : Dict String (Dict String Version)}
    (h : selected.isEmpty = true) (nodeId : String) :
    versionsSize reprFloat nodeId selected = payloadBase "versions" nodeId := by
  have hitems := Dict.isEmpty_iff.mp h
  rw [versionsSize, content, hitems]
  rfl

/-- **The loop.** -/
theorem selectVersions_spec (reprFloat : Binary64 → List Char) (self : ClusterManager C.Log)
    (entries : List (String × Dict String Version)) (selected : Dict String (Dict String Version))
    (considered : ℕ) (hnodup : (entries.map Prod.fst).Nodup)
    (hnew : ∀ entry ∈ entries, selected.get? entry.1 = none) :
    ∃ after count, self.selectVersions reprFloat entries selected
      (versionsSize reprFloat self.nodeId selected) considered
        = .ok (after, considered + count)
      ∧ Selects reprFloat self entries selected after count := by
  induction entries generalizing selected considered with
  | nil => exact ⟨selected, 0, rfl, id, fun _ _ h => h, fun _ h => (by cases h), fun _ h =>
      absurd rfl h⟩
  | cons entry rest ih =>
    obtain ⟨streamId, origins⟩ := entry
    rw [List.map_cons, List.nodup_cons] at hnodup
    have hnone := hnew (streamId, origins) List.mem_cons_self
    have hsize := versionsSize_set reprFloat origins hnone self.nodeId
    have hrun : self.selectVersions reprFloat ((streamId, origins) :: rest) selected
        (versionsSize reprFloat self.nodeId selected) considered
        = if versionsSize reprFloat self.nodeId (selected.set streamId origins)
          ≤ self.maxPayloadBytes then
            self.selectVersions reprFloat rest (selected.set streamId origins)
              (versionsSize reprFloat self.nodeId (selected.set streamId origins)) (considered + 1)
          else if selected.isEmpty then
            self.selectVersions reprFloat rest selected
              (versionsSize reprFloat self.nodeId selected) (considered + 1)
          else .ok (selected, considered) := by
      rw [hsize, ClusterManager.selectVersions, jsonSize_str, (sizable_originsVal origins).jsonSize_eq]
      rfl
    rw [hrun]
    split
    · next hfits =>
      -- the entry is selected
      have hnew' : ∀ entry ∈ rest, (selected.set streamId origins).get? entry.1 = none := by
        intro entry hentry
        rw [Dict.get?_set, if_neg]
        · exact hnew entry (List.mem_cons_of_mem _ hentry)
        · intro heq
          have hkey : entry.1 ∈ rest.map Prod.fst := List.mem_map_of_mem hentry
          exact hnodup.1 (heq ▸ hkey)
      obtain ⟨after, count, hafter, hsel⟩ :=
        ih (selected.set streamId origins) (considered + 1) hnodup.2 hnew'
      refine ⟨after, count + 1, ?_, fun _ => hsel.size_le hfits, ?_, ?_, fun _ _ => by omega⟩
      · rw [hafter, Nat.add_assoc, Nat.add_comm 1]
      · intro k o hk
        refine hsel.keeps k o ?_
        rw [Dict.get?_set, if_neg]
        · exact hk
        · rintro rfl
          rw [hnone] at hk
          cases hk
      · intro entry hentry halone
        rw [List.take_succ_cons] at hentry
        rcases List.mem_cons.mp hentry with rfl | hentry
        · exact hsel.keeps _ _ Dict.get?_set_self
        · exact hsel.takes entry hentry halone
    · next hfits =>
      split
      · next hempty =>
        -- nothing is selected yet, so the entry does not fit alone
        obtain ⟨after, count, hafter, hsel⟩ := ih selected (considered + 1) hnodup.2
          fun entry hentry => hnew entry (List.mem_cons_of_mem _ hentry)
        refine ⟨after, count + 1, ?_, hsel.size_le, hsel.keeps, ?_, fun _ _ => by omega⟩
        · rw [hafter, Nat.add_assoc, Nat.add_comm 1]
        · intro entry hentry halone
          rw [List.take_succ_cons] at hentry
          rcases List.mem_cons.mp hentry with rfl | hentry
          · rw [hsize, versionsSize_of_isEmpty hempty, if_pos hempty, Nat.zero_add] at hfits
            exact absurd (fitsAlone_iff.mp halone) hfits
          · exact hsel.takes entry hentry halone
      · next hempty =>
        exact ⟨selected, 0, rfl, id, fun _ _ h => h, fun _ h => (by cases h), fun h => absurd h hempty⟩

/-! ## Calls

A vector that fits is sent whole. Otherwise the cursor moves past what was considered, at least one
entry, so as many calls as there are entries come round to every one that fits alone. -/

variable {vector : Dict String (Dict String Version)}

/-- The digest with the whole vector fits. -/
def FitsWhole (reprFloat : Binary64 → List Char) (self : ClusterManager C.Log)
    (vector : Dict String (Dict String Version)) : Prop :=
  ∃ n, jsonSize reprFloat (versionsVal self.nodeId vector) = .ok n ∧ n ≤ self.maxPayloadBytes

theorem fitsWhole_iff :
    FitsWhole reprFloat self vector ↔ versionsSize reprFloat self.nodeId vector
      ≤ self.maxPayloadBytes := by
  unfold FitsWhole
  rw [jsonSize_versionsVal]
  simp

theorem boundedVersionVector_of_fits (h : FitsWhole reprFloat self vector) (cursor : ℤ) :
    self.boundedVersionVector reprFloat vector cursor = .ok (vector, cursor) := by
  unfold ClusterManager.boundedVersionVector
  rw [jsonSize_versionsVal]
  exact if_pos (fitsWhole_iff.mp h)

/-- **A call that has to cut.** It considers an entry at least, from the cursor on, and moves the
cursor past what it has considered. -/
theorem boundedVersionVector_of_not_fits (h : ¬ FitsWhole reprFloat self vector)
    (hne : vector.isEmpty = false) (cursor : ℤ) :
    ∃ selected count, self.boundedVersionVector reprFloat vector cursor
        = .ok (selected, (((cursor % vector.size).toNat + count) % vector.size : ℕ))
      ∧ self.selectVersions reprFloat (vector.items.rotate (cursor % vector.size).toNat) ∅
          (versionsSize reprFloat self.nodeId ∅) 0 = .ok (selected, count)
      ∧ 1 ≤ count
      ∧ Selects reprFloat self (vector.items.rotate (cursor % vector.size).toNat) ∅ selected count := by
  have hnodup : ((vector.items.rotate (cursor % vector.size).toNat).map Prod.fst).Nodup := by
    rw [List.map_rotate]
    exact List.nodup_rotate.mpr vector.nodup
  obtain ⟨selected, count, hselect, hsel⟩ :=
    selectVersions_spec reprFloat self _ ∅ 0 hnodup fun _ _ => Dict.get?_empty
  rw [Nat.zero_add] at hselect
  have hitems : vector.items.rotate (cursor % vector.size).toNat ≠ [] := by
    intro hnil
    have hempty := Dict.isEmpty_iff.mpr (List.rotate_eq_nil_iff.mp hnil)
    rw [hne] at hempty
    cases hempty
  refine ⟨selected, count, ?_, hselect, hsel.first rfl hitems, hsel⟩
  unfold ClusterManager.boundedVersionVector
  rw [jsonSize_versionsVal, jsonSize_versionsVal]
  refine (if_neg (mt fitsWhole_iff.mpr h)).trans ((if_neg (by simp [hne])).trans ?_)
  exact bind_eq_ok.mpr ⟨_, rfl, bind_eq_ok.mpr ⟨_, hselect, rfl⟩⟩

/-- An empty vector that does not fit. -/
theorem boundedVersionVector_of_isEmpty (h : ¬ FitsWhole reprFloat self vector)
    (hempty : vector.isEmpty = true)
    (cursor : ℤ) : self.boundedVersionVector reprFloat vector cursor = .ok (∅, cursor) := by
  unfold ClusterManager.boundedVersionVector
  rw [jsonSize_versionsVal]
  exact (if_neg (mt fitsWhole_iff.mpr h)).trans (if_pos hempty)

/-- Every call returns, and what it returns fits if an empty digest does. -/
theorem boundedVersionVector_fits (reprFloat : Binary64 → List Char) (self : ClusterManager C.Log)
    (vector : Dict String (Dict String Version)) (cursor : ℤ) :
    ∃ selected cursor', self.boundedVersionVector reprFloat vector cursor = .ok (selected, cursor')
      ∧ (versionsSize reprFloat self.nodeId ∅ ≤ self.maxPayloadBytes →
        versionsSize reprFloat self.nodeId selected ≤ self.maxPayloadBytes) := by
  by_cases hwhole : FitsWhole reprFloat self vector
  · exact ⟨vector, cursor, boundedVersionVector_of_fits hwhole cursor, fun _ => fitsWhole_iff.mp hwhole⟩
  · cases hempty : vector.isEmpty with
    | true => exact ⟨∅, cursor, boundedVersionVector_of_isEmpty hwhole hempty cursor, id⟩
    | false =>
      obtain ⟨selected, count, hrun, -, -, hsel⟩ :=
        boundedVersionVector_of_not_fits hwhole hempty cursor
      exact ⟨selected, _, hrun, hsel.size_le⟩

/-- Calls that follow one another include every entry that fits alone. -/
theorem boundedVersionVector_covers {cursors : ℕ → ℤ} {sent : ℕ → Dict String (Dict String Version)}
    (hcalls : ∀ i, self.boundedVersionVector reprFloat vector (cursors i)
      = .ok (sent i, cursors (i + 1)))
    {streamId : String} {origins : Dict String Version} (hentry : vector.get? streamId = some origins)
    (halone : FitsAlone reprFloat self (streamId, origins)) :
    ∃ i < vector.size, (sent i).get? streamId = some origins := by
  have hmem : (streamId, origins) ∈ vector.items := Dict.get?_eq_some_iff.mp hentry
  by_cases hwhole : FitsWhole reprFloat self vector
  · have hsent := hcalls 0
    rw [boundedVersionVector_of_fits hwhole, Except.ok.injEq, Prod.mk.injEq] at hsent
    exact ⟨0, List.length_pos_of_mem hmem, hsent.1 ▸ hentry⟩
  · have hne : vector.isEmpty = false := by
      rw [Bool.eq_false_iff]
      intro hempty
      rw [Dict.isEmpty_iff.mp hempty] at hmem
      cases hmem
    -- the width of each scan, and where the next one starts
    have hscan : ∀ i, ∃ count, 1 ≤ count
        ∧ (cursors (i + 1) % vector.size).toNat = ((cursors i % vector.size).toNat + count) %
          vector.size
        ∧ Selects reprFloat self (vector.items.rotate (cursors i % vector.size).toNat) ∅
          (sent i) count := by
      intro i
      obtain ⟨selected, count, hrun, -, hcount, hsel⟩ :=
        boundedVersionVector_of_not_fits hwhole hne (cursors i)
      rw [hcalls i, Except.ok.injEq, Prod.mk.injEq] at hrun
      refine ⟨count, hcount, ?_, hrun.1 ▸ hsel⟩
      rw [hrun.2, ← Int.natCast_emod, Int.toNat_natCast, Nat.mod_mod]
    choose count hcount hnext hsel using hscan
    obtain ⟨i, hi, htaken⟩ :=
      RoundRobin.exists_scan vector.items (fun i => (cursors i % vector.size).toNat) hcount hnext
      hmem
    exact ⟨i, hi, (hsel i).takes _ htaken halone⟩

/-- **Bounded version vectors are exact and fair.** What is sent fits whenever an empty digest does.
Every call returns; one that has to cut considers an entry at least. Calls with the same vector that
follow one another, from any value of the cursor on, send every entry that fits alone within as many
calls as there are entries. -/
theorem bounded_version_vector_fair (reprFloat : Binary64 → List Char) (self : ClusterManager C.Log)
    (vector : Dict String (Dict String Version)) :
    (∀ cursor, ∃ selected cursor', self.boundedVersionVector reprFloat vector cursor
      = .ok (selected, cursor')
        ∧ ∀ empty, jsonSize reprFloat (versionsVal self.nodeId ∅) = .ok empty
          → empty ≤ self.maxPayloadBytes →
          ∃ n, jsonSize reprFloat (versionsVal self.nodeId selected) = .ok n ∧ n ≤ self.maxPayloadBytes)
      ∧ (∀ (cursor : ℤ) base, ¬ FitsWhole reprFloat self vector → vector.isEmpty = false →
        jsonSize reprFloat (versionsVal self.nodeId ∅) = .ok base →
        ∃ selected considered, self.selectVersions reprFloat
          (vector.items.rotate (cursor % vector.size).toNat) ∅ base 0
            = .ok (selected, considered) ∧ 1 ≤ considered)
      ∧ ∀ (cursors : ℕ → ℤ) (sent : ℕ → Dict String (Dict String Version)),
        (∀ i, self.boundedVersionVector reprFloat vector (cursors i) = .ok (sent i, cursors (i + 1))) →
        ∀ streamId origins, vector.get? streamId = some origins
          → FitsAlone reprFloat self (streamId, origins) →
          ∃ i < vector.size, (sent i).get? streamId = some origins := by
  -- the size, the progress of one call, and the coverage of successive calls are separate lemmas
  refine ⟨fun cursor => ?_, fun cursor base hwhole hne hbase => ?_, ?_⟩
  · obtain ⟨selected, cursor', hrun, hfits⟩ := boundedVersionVector_fits reprFloat self vector cursor
    refine ⟨selected, cursor', hrun, fun empty hempty hle => ?_⟩
    rw [jsonSize_versionsVal, Except.ok.injEq] at hempty
    exact ⟨_, jsonSize_versionsVal reprFloat self.nodeId selected, hfits (hempty ▸ hle)⟩
  · obtain ⟨selected, count, -, hselect, hcount, -⟩ :=
      boundedVersionVector_of_not_fits hwhole hne cursor
    rw [jsonSize_versionsVal, Except.ok.injEq] at hbase
    exact ⟨selected, count, hbase ▸ hselect, hcount⟩
  · intro cursors sent hcalls streamId origins hentry halone
    exact boundedVersionVector_covers hcalls hentry halone

end Sketchlog.Mesh
