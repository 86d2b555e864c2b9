import Sketchlog.Refine.DigestEntries
import Sketchlog.Refine.StreamKeys

/-!
# Progress of digests

Each group of entries is sent up to the first that does not fit. While the response has no update
yet, an entry is added exactly when it fits alone beside the requests (`fits_iff`), so the response
gets an update exactly when the first entry of some group does (`updates_placed_iff`). An entry
behind one that is too large waits forever. Where every round meets that condition, an exchange with
a peer that records what it receives delivers whatever fits (`exchange_delivers`).
-/

namespace Sketchlog.Mesh

open Checked

variable {reprFloat : Binary64 → List Char} {C : LogCodec} {getSnapshot : C.Log → Except PyError C.Log}
  {self : ClusterManager C.Log} {registry : List (LocalStream C.Log)}
  {remote : Dict String (Dict String Binary64)}
  {r : Response} {e : Entry} {entries : List Entry}

/-- The updates of a response that has one only. -/
def onlyUpdate (streamId nid : String) (data : Items) : Dict String (Dict String PyVal) :=
  (∅ : Dict String (Dict String PyVal)).set streamId ((∅ : Dict String PyVal).set nid (.dict data))

namespace Entry

/-- The update of the entry, as the only one, fits in the response beside the requests. -/
def Fits (reprFloat : Binary64 → List Char) (self : ClusterManager C.Log)
    (requests : Dict String (List String))
    (e : Entry) : Prop :=
  ∃ data n, e.update = .ok data
    ∧ jsonSize reprFloat (Response.toPyVal self.nodeId
      ⟨onlyUpdate e.streamId e.nid data, requests, 0⟩) = .ok n
    ∧ n ≤ self.maxPayloadBytes

/-- The update of the entry has a text. -/
def hasText (reprFloat : Binary64 → List Char) (e : Entry) : Bool :=
  match e.update with
  | .ok data => (jsonSize reprFloat (.dict data)).isOk
  | .error _ => false

end Entry

theorem hasText_iff : e.hasText reprFloat = true ↔ ∃ data, e.update = .ok data
    ∧ Sizable reprFloat (.dict data) := by
  unfold Entry.hasText
  cases e.update with
  | error err => simp
  | ok data =>
    cases hsize : jsonSize reprFloat (.dict data) with
    | ok n => simp [Sizable, hsize, Except.isOk, Except.toBool]
    | error err => simp [Sizable, hsize, Except.isOk, Except.toBool]

/-! ## A response without updates

As long as nothing is placed, the response has one shape, and an entry fits or not by its own size. -/

theorem withUpdate_of_empty (hempty : r.updates = ∅) (nodeId streamId nid : String) (data : Items) :
    r.withUpdate reprFloat nodeId streamId nid data = ⟨onlyUpdate streamId nid data, r.requests,
      responseSize reprFloat nodeId (onlyUpdate streamId nid data) r.requests⟩ := by
  unfold Response.withUpdate
  rw [hempty]
  rfl

/-- An update that is the only one fits when the response with it does. -/
theorem fits_iff (h : r.Exact reprFloat self.nodeId) (hempty : r.updates = ∅) {data : Items}
    (hupdate : e.update = .ok data) (hs : Sizable reprFloat (.dict data)) :
    e.Fits reprFloat self r.requests
      ↔ (r.withUpdate reprFloat self.nodeId e.streamId e.nid data).size ≤ self.maxPayloadBytes := by
  have hexact : (r.withUpdate reprFloat self.nodeId e.streamId e.nid data).Exact reprFloat
    self.nodeId :=
    exact_withUpdate h hs
  have hsize := hexact.jsonSize_eq
  rw [withUpdate_of_empty hempty] at hsize ⊢
  constructor
  · rintro ⟨data', n, hupdate', hn, hle⟩
    rw [hupdate, Except.ok.injEq] at hupdate'
    subst hupdate'
    have hn' := hsize.symm.trans hn
    rw [Except.ok.injEq] at hn'
    show ((responseSize reprFloat self.nodeId _ r.requests : ℕ) : ℤ) ≤ _
    exact_mod_cast hn'.trans_le hle
  · intro hle
    exact ⟨data, _, hupdate, hsize, Int.ofNat_le.mp hle⟩

/-- The outcome for one entry. -/
theorem addUpdate_of_empty (h : r.Exact reprFloat self.nodeId) (hempty : r.updates = ∅) :
    (e.hasText reprFloat = false ∧ ∃ err, (e.update >>= self.addUpdate reprFloat r e.streamId e.nid)
      = .error err)
      ∨ (e.hasText reprFloat = true ∧ e.Fits reprFloat self r.requests
        ∧ ∃ r', (e.update >>= self.addUpdate reprFloat r e.streamId e.nid) = .ok (some r')
          ∧ r'.updates.isEmpty = false)
      ∨ (e.hasText reprFloat = true ∧ ¬ e.Fits reprFloat self r.requests
        ∧ (e.update >>= self.addUpdate reprFloat r e.streamId e.nid) = .ok none) := by
  -- an entry without a text raises; one with a text is placed or stops the loop
  cases htext : e.hasText reprFloat with
  | false =>
    refine .inl ⟨rfl, ?_⟩
    cases hupdate : e.update with
    | error err => exact ⟨err, rfl⟩
    | ok data =>
      have hs : ¬ Sizable reprFloat (.dict data) := fun hs => by
        rw [hasText_iff.mpr ⟨data, hupdate, hs⟩] at htext
        cases htext
      exact addUpdate_error h hs
  | true =>
    refine .inr ?_
    obtain ⟨data, hupdate, hs⟩ := hasText_iff.mp htext
    have hadd : (e.update >>= self.addUpdate reprFloat r e.streamId e.nid)
        = self.addUpdate reprFloat r e.streamId e.nid data := by
      rw [hupdate]
      rfl
    rw [hadd, addUpdate_eq h hs, fits_iff h hempty hupdate hs]
    split
    · next hfits => exact .inl ⟨rfl, hfits, _, rfl, isEmpty_set _ _ _⟩
    · next hfits => exact .inr ⟨rfl, hfits, rfl⟩

/-- The updates that are there stay. -/
theorem sendEntries_keeps (hne : r.updates.isEmpty = false) :
    (self.sendEntries reprFloat entries r).updates.isEmpty = false := by
  induction entries generalizing r with
  | nil => exact hne
  | cons e rest ih =>
    unfold ClusterManager.sendEntries
    split
    · next r₁ hadd =>
      obtain ⟨data, -, hadd⟩ := bind_eq_ok.mp hadd
      obtain ⟨delta, -, hadd⟩ := bind_eq_ok.mp hadd
      split at hadd
      · cases hadd
      · cases hadd
        exact ih (isEmpty_set _ _ _)
    · exact hne
    · exact ih hne

/-- The first entry with a text decides. -/
theorem sendEntries_of_empty (entries : List Entry) (h : r.Exact reprFloat self.nodeId)
    (hempty : r.updates = ∅) :
    ((∃ e, entries.find? (Entry.hasText reprFloat) = some e ∧ e.Fits reprFloat self r.requests)
        ∧ (self.sendEntries reprFloat entries r).updates.isEmpty = false)
      ∨ ((∀ e, entries.find? (Entry.hasText reprFloat) = some e → ¬ e.Fits reprFloat self r.requests)
        ∧ self.sendEntries reprFloat entries r = r) := by
  induction entries with
  | nil => exact .inr ⟨fun e he => (nomatch he), rfl⟩
  | cons e rest ih =>
    rw [List.find?_cons, ClusterManager.sendEntries]
    rcases addUpdate_of_empty (e := e) h hempty with ⟨htext, err, herr⟩ | ⟨htext, hfits, r', hadd,
      hne⟩ | ⟨htext, hfits, hadd⟩
    · rw [htext, herr]
      exact ih
    · rw [htext, hadd]
      exact .inl ⟨⟨e, rfl, hfits⟩, sendEntries_keeps hne⟩
    · rw [htext, hadd]
      refine .inr ⟨fun e' he' => ?_, rfl⟩
      cases he'
      exact hfits

/-! ## The groups

An update is placed exactly when the first entry of some group fits. -/

/-- The first entry of a group that the loop tries to add. -/
def firstToSend (reprFloat : Binary64 → List Char) (remote : Dict String (Dict String Binary64))
    (group : List Entry) :
    Option Entry :=
  (group.filter (Entry.toSend remote)).find? (Entry.hasText reprFloat)

theorem foldl_sendGroup_keeps (groups : List (List Entry)) (hne : r.updates.isEmpty = false) :
    (groups.foldl (self.sendGroup reprFloat remote) r).updates.isEmpty = false := by
  induction groups generalizing r with
  | nil => exact hne
  | cons group rest ih => exact ih (sendEntries_keeps hne)

/-- **When an update is placed**: the first entry of some group fits. -/
theorem updates_placed_iff (remote : Dict String (Dict String Binary64))
    (groups : List (List Entry)) (h : r.Exact reprFloat self.nodeId) (hempty : r.updates = ∅) :
    (groups.foldl (self.sendGroup reprFloat remote) r).updates.isEmpty = false
      ↔ ∃ group ∈ groups, ∃ e, firstToSend reprFloat remote group = some e
        ∧ e.Fits reprFloat self r.requests := by
  induction groups with
  | nil =>
    rw [List.foldl_nil, hempty]
    simp [show (∅ : Dict String (Dict String PyVal)).isEmpty = true from rfl]
  | cons group rest ih =>
    rw [List.foldl_cons]
    rcases sendEntries_of_empty (group.filter (Entry.toSend remote)) h hempty with
      ⟨hfirst, hne⟩ | ⟨hnone, hsame⟩
    · exact ⟨fun _ => ⟨group, List.mem_cons_self, hfirst⟩, fun _ => foldl_sendGroup_keeps rest hne⟩
    · have hsend : self.sendGroup reprFloat remote r group = r := hsame
      rw [hsend, ih]
      constructor
      · rintro ⟨group', hmem, hfirst⟩
        exact ⟨group', List.mem_cons_of_mem _ hmem, hfirst⟩
      · rintro ⟨group', hmem, e, hfirst, hfits⟩
        rcases List.mem_cons.mp hmem with rfl | hmem
        · exact absurd hfits (hnone e hfirst)
        · exact ⟨group', hmem, e, hfirst, hfits⟩

/-! ## The requests -/

/-- The requests that are placed before the updates. -/
def ClusterManager.placedRequests (reprFloat : Binary64 → List Char) (self : ClusterManager C.Log)
    (remote : Dict String (Dict String Binary64)) : Dict String (List String) :=
  match Response.empty reprFloat self.nodeId >>= self.placeRequests reprFloat remote with
  | .ok r => r.requests
  | .error _ => ∅

/-- An exact response without updates. -/
def Bare (reprFloat : Binary64 → List Char) (nodeId : String) (r : Response) : Prop :=
  r.Exact reprFloat nodeId ∧ r.updates = ∅

theorem addRequest_bare {streamId nid : String} (h : Bare reprFloat self.nodeId r) :
    ∃ r', self.addRequest reprFloat r streamId nid = .ok r' ∧ Bare reprFloat self.nodeId r' := by
  rw [addRequest_eq h.1]
  split
  · exact ⟨_, rfl, exact_withRequest h.1, h.2⟩
  · exact ⟨_, rfl, h⟩

theorem requestOrigins_bare (group : String × Dict String Binary64) (h : Bare reprFloat self.nodeId r) :
    ∃ r', self.requestOrigins reprFloat r group = .ok r' ∧ Bare reprFloat self.nodeId r' := by
  refine foldlM_ok (I := Bare reprFloat self.nodeId) group.2.items (fun r origin _ hr => ?_) h
  split
  · exact ⟨r, rfl, hr⟩
  · split
    · exact addRequest_bare hr
    · exact ⟨r, rfl, hr⟩

/-- The requests are placed without an error, and no updates with them. -/
theorem placeRequests_bare (reprFloat : Binary64 → List Char) (self : ClusterManager C.Log)
    (remote : Dict String (Dict String Binary64)) :
    ∃ r, (Response.empty reprFloat self.nodeId >>= self.placeRequests reprFloat remote) = .ok r
      ∧ Bare reprFloat self.nodeId r ∧ r.requests = self.placedRequests reprFloat remote := by
  obtain ⟨r, hrun, hbare⟩ := foldlM_ok (I := Bare reprFloat self.nodeId) remote.items
    (fun r group _ hr => requestOrigins_bare group hr) ⟨exact_empty self.nodeId, rfl⟩
  have hplaced : (Response.empty reprFloat self.nodeId >>= self.placeRequests reprFloat remote)
    = .ok r :=
    bind_eq_ok.mpr ⟨_, empty_eq self.nodeId, hrun⟩
  refine ⟨r, hplaced, hbare, ?_⟩
  rw [ClusterManager.placedRequests, hplaced]

/-- **The response to a digest.** It is answered, and an update is in it exactly when the first
entry of some group fits alone beside the requests. -/
theorem handleGossipDigest_ok (getSnapshot : C.Log → Except PyError C.Log)
    (registry : List (LocalStream C.Log))
    (htexts : self.HasTexts reprFloat) {payload : Items}
    (hread : readDigest self.maxNesting payload = .ok remote) :
    ∃ r₁, Bare reprFloat self.nodeId r₁ ∧ r₁.requests = self.placedRequests reprFloat remote
      ∧ self.handleGossipDigest reprFloat getSnapshot registry payload
        = .ok ((self.entryGroups getSnapshot registry).foldl (self.sendGroup reprFloat remote) r₁) := by
  obtain ⟨r₁, hplaced, hbare, hrequests⟩ := placeRequests_bare reprFloat self remote
  obtain ⟨r₀, hempty, hplaced⟩ := bind_eq_ok.mp hplaced
  refine ⟨r₁, hbare, hrequests, ?_⟩
  refine bind_eq_ok.mpr ⟨remote, hread, bind_eq_ok.mpr ⟨r₀, hempty, bind_eq_ok.mpr ⟨r₁, hplaced, ?_⟩⟩⟩
  exact placeUpdates_eq htexts hbare.1

/-! ## What a response holds

Whatever is placed stems from an entry of the node's own tables. -/

/-- The response has the update of the entry. -/
def Response.Has (r : Response) (e : Entry) : Prop :=
  ∃ group data, r.updates.get? e.streamId = some group ∧ group.get? e.nid = some (.dict data)
    ∧ e.update = .ok data

/-- Every update of the response is that of one of the entries. -/
def StemsFrom (entries : List Entry) (r : Response) : Prop :=
  ∀ streamId group nid v, r.updates.get? streamId = some group → group.get? nid = some v →
    ∃ e ∈ entries, e.streamId = streamId ∧ e.nid = nid ∧ ∃ data, e.update = .ok data ∧ v = .dict data

theorem stemsFrom_withUpdate {data : Items} {nodeId : String} (h : StemsFrom entries r)
    (hmem : e ∈ entries)
    (hupdate : e.update = .ok data) :
    StemsFrom entries (r.withUpdate reprFloat nodeId e.streamId e.nid data) := by
  intro streamId group nid v hgroup hv
  change (r.updates.set e.streamId (candidateGroup r e.streamId e.nid data)).get? streamId
    = some group at hgroup
  rw [Dict.get?_set] at hgroup
  split at hgroup
  · next hstream =>
    cases hgroup
    rw [candidateGroup, Dict.get?_set] at hv
    split at hv
    · next hnid =>
      cases hv
      exact ⟨e, hmem, hstream.symm, hnid.symm, data, hupdate, rfl⟩
    · cases hcurrent : r.updates.get? e.streamId with
      | none =>
        rw [hcurrent, Option.getD_none, Dict.get?_empty] at hv
        cases hv
      | some current =>
        rw [hcurrent, Option.getD_some] at hv
        exact h streamId current nid v (hstream ▸ hcurrent) hv
  · exact h streamId group nid v hgroup hv

theorem stemsFrom_sendEntries {sent : List Entry} (hexact : r.Exact reprFloat self.nodeId)
    (h : StemsFrom entries r)
    (hsub : ∀ e ∈ sent, e ∈ entries) : StemsFrom entries (self.sendEntries reprFloat sent r) := by
  induction sent generalizing r with
  | nil => exact h
  | cons e rest ih =>
    have hrest : ∀ e ∈ rest, e ∈ entries := fun e' he' => hsub e' (List.mem_cons_of_mem _ he')
    unfold ClusterManager.sendEntries
    split
    · next r₁ hadd =>
      obtain ⟨data, hupdate, hadd⟩ := bind_eq_ok.mp hadd
      obtain ⟨hs, rfl, -⟩ := addUpdate_eq_some hexact hadd
      exact ih (exact_withUpdate hexact hs)
        (stemsFrom_withUpdate h (hsub e List.mem_cons_self) hupdate) hrest
    · exact h
    · exact ih hexact h hrest

theorem stemsFrom_foldl_sendGroup (groups : List (List Entry)) (hexact : r.Exact reprFloat self.nodeId)
    (h : StemsFrom entries r) (hsub : ∀ group ∈ groups, ∀ e ∈ group, e.toSend remote = true
      → e ∈ entries) :
    (groups.foldl (self.sendGroup reprFloat remote) r).Exact reprFloat self.nodeId
      ∧ StemsFrom entries (groups.foldl (self.sendGroup reprFloat remote) r) := by
  induction groups generalizing r with
  | nil => exact ⟨hexact, h⟩
  | cons group rest ih =>
    have hgroup : ∀ e ∈ group.filter (Entry.toSend remote), e ∈ entries := fun e he =>
      hsub group List.mem_cons_self e (List.mem_of_mem_filter he) (List.of_mem_filter he)
    exact ih (exact_sendGroup remote group hexact) (stemsFrom_sendEntries hexact h hgroup)
      fun group' hmem => hsub group' (List.mem_cons_of_mem _ hmem)

/-- A response with an update has that of an entry. -/
theorem exists_entry (hexact : r.Exact reprFloat self.nodeId) (h : StemsFrom entries r)
    (hne : r.updates.isEmpty = false) : ∃ e ∈ entries, r.Has e := by
  obtain ⟨streamId, group, hgroup⟩ := exists_get?_of_isEmpty hne
  obtain ⟨nid, v, hv⟩ := exists_get?_of_isEmpty (hexact.groups streamId group hgroup).1
  obtain ⟨e, hmem, rfl, rfl, data, hupdate, rfl⟩ := h streamId group nid v hgroup hv
  exact ⟨e, hmem, group, data, hgroup, hv, hupdate⟩

/-! ## Versions

The versions that are read from a digest are doubles and not negative, as are the node's own. -/

/-- The value of a number. -/
def numberOf : PyVal → Option ℚ
  | .int n => some n
  | .float (.fin x) => some x.val
  | _ => none

theorem numberOf_version (v : Version) : numberOf v.toPyVal = some v.val := by
  cases v with
  | int n => rfl
  | float x => rfl

theorem numberOf_ofRat {q : ℚ} (h : 0 ≤ q) : ∃ v, numberOf (.ofRat q) = some v ∧ q ≤ v := by
  unfold PyVal.ofRat
  split
  · exact ⟨q, rfl, le_rfl⟩
  · refine ⟨q.num, rfl, ?_⟩
    have hnum : (0 : ℚ) ≤ q.num := by exact_mod_cast Rat.num_nonneg.mpr h
    have hden : (1 : ℚ) ≤ q.den := by exact_mod_cast q.den_pos
    calc q = q.num / q.den := (Rat.num_div_den q).symm
      _ ≤ q.num := div_le_self hnum hden

theorem nonneg_of_readDigestVersion {version : PyVal} {v : Binary64}
    (h : readDigestVersion version = .ok (some v)) :
    0 ≤ v.val := by
  unfold readDigestVersion at h
  split at h
  · next n =>
    split at h
    · rw [Except.ok.injEq] at h
      split at h
      · next hn =>
        cases h
        show (0 : ℚ) ≤ Binary64.roundInt n
        rw [Binary64.roundInt_of_nonneg hn]
        exact_mod_cast Nat.zero_le _
      · cases h
    · cases h
  · rw [Except.ok.injEq] at h
    split at h
    · next hx =>
      cases h
      exact hx
    · cases h
  · cases h

theorem nonneg_of_readOrigin {entry : PyKey × PyVal} {origin : String × Binary64}
    (h : readOrigin entry = .ok (some origin)) : 0 ≤ origin.2.val := by
  unfold readOrigin at h
  split at h
  · next nid version =>
    split at h
    · cases hread : readDigestVersion version with
      | error e =>
        rw [hread] at h
        cases h
      | ok read =>
        rw [hread] at h
        cases read with
        | none => cases h
        | some v =>
          cases h
          exact nonneg_of_readDigestVersion hread
    · cases h
  · cases h

/-- The versions that are read from a digest are not negative. -/
theorem nonneg_of_normalizeOrigins {items : Items} {normalized result : Dict String Binary64}
    (h : ∀ nid v, normalized.get? nid = some v → 0 ≤ v.val)
    (hrun : normalizeOrigins items normalized = .ok result) :
    ∀ nid v, result.get? nid = some v → 0 ≤ v.val := by
  -- a number is read as a double that is not negative, and nothing else is written
  induction items generalizing normalized with
  | nil =>
    cases hrun
    exact h
  | cons entry rest ih =>
    obtain ⟨read, hread, hrun⟩ := bind_eq_ok.mp hrun
    have hnext : ∀ nid v, (read.elim normalized fun origin =>
      normalized.set origin.1 origin.2).get? nid = some v →
        0 ≤ v.val := by
      cases read with
      | none => exact h
      | some origin =>
        intro nid v hget
        rw [Option.elim_some, Dict.get?_set] at hget
        split at hget
        · cases hget
          exact nonneg_of_readOrigin hread
        · exact h nid v hget
    dsimp only at hrun
    split at hrun
    · cases hrun
      exact hnext
    · exact ih hnext hrun

theorem nonneg_of_readStream {maxNesting : ℕ} {entry : PyKey × PyVal}
    {stream : String × Dict String Binary64}
    (h : readStream maxNesting entry = .ok (some stream)) :
    ∀ nid v, stream.2.get? nid = some v → 0 ≤ v.val := by
  unfold readStream at h
  split at h
  · obtain ⟨valid, -, h⟩ := bind_eq_ok.mp h
    split at h
    · obtain ⟨origins, horigins, h⟩ := bind_eq_ok.mp h
      cases h
      exact nonneg_of_normalizeOrigins (by simp) horigins
    · cases h
  · cases h

theorem nonneg_of_normalizeVersions {maxNesting : ℕ} {items : Items}
    {normalized result : Dict String (Dict String Binary64)}
    (h : ∀ s group nid v, normalized.get? s = some group → group.get? nid = some v → 0 ≤ v.val)
    (hrun : normalizeVersions maxNesting items normalized = .ok result) :
    ∀ s group nid v, result.get? s = some group → group.get? nid = some v → 0 ≤ v.val := by
  -- the streams that are read replace each other; those skipped change nothing
  induction items generalizing normalized with
  | nil =>
    cases hrun
    exact h
  | cons entry rest ih =>
    obtain ⟨read, hread, hrun⟩ := bind_eq_ok.mp hrun
    cases read with
    | none => exact ih h hrun
    | some stream =>
      have hnext : ∀ s group nid v, (normalized.set stream.1 stream.2).get? s = some group →
          group.get? nid = some v → 0 ≤ v.val := by
        intro s group nid v hgroup hget
        rw [Dict.get?_set] at hgroup
        split at hgroup
        · cases hgroup
          exact nonneg_of_readStream hread nid v hget
        · exact h s group nid v hgroup hget
      dsimp only at hrun
      split at hrun
      · cases hrun
        exact hnext
      · exact ih hnext hrun

theorem remoteVersion_nonneg {maxNesting : ℕ} {payload : Items}
    (h : readDigest maxNesting payload = .ok remote) (streamId nid : String) :
    0 ≤ remoteVersion remote streamId nid := by
  have hnonneg : ∀ s group nid v, remote.get? s = some group → group.get? nid = some v →
      0 ≤ v.val := by
    unfold readDigest at h
    split at h
    · exact nonneg_of_normalizeVersions (by simp) h
    · cases h
  unfold remoteVersion
  cases hgroup : remote.get? streamId with
  | none => exact le_rfl
  | some group =>
    cases hget : group.get? nid with
    | none =>
      rw [Option.getD_some, hget]
      exact le_rfl
    | some v =>
      rw [Option.getD_some, hget]
      exact hnonneg streamId group nid v hgroup hget

theorem get_version_tombstoneData (v : PyVal) : (tombstoneData v).get "__version__" = v := rfl

theorem get_version_snapshotData (v state : PyVal) : (snapshotData v state).get "__version__" = v := rfl

/-- An update says the version of its entry. -/
theorem version_of_update {data : Items} (hmem : e ∈ self.allEntries getSnapshot registry)
    (hpos : 0 ≤ e.version)
    (hupdate : e.update = .ok data) : ∃ v, numberOf (data.get "__version__") = some v ∧ e.version
      ≤ v := by
  obtain ⟨group, hgroup, hmem⟩ := List.mem_flatten.mp hmem
  rw [ClusterManager.entryGroups, List.mem_cons, List.mem_cons, List.mem_append, List.mem_map,
    List.mem_map] at hgroup
  -- an entry is a local stream, a local tombstone, a peer's snapshot, or a peer's tombstone
  rcases hgroup with rfl | rfl | ⟨origins, -, rfl⟩ | ⟨origins, -, rfl⟩
  · obtain ⟨l, -, rfl⟩ := List.mem_map.mp hmem
    obtain ⟨log, -, hupdate⟩ := bind_eq_ok.mp hupdate
    cases hupdate
    rw [get_version_snapshotData]
    exact ⟨l.stream.lastUpdated.val, rfl, le_rfl⟩
  · obtain ⟨t, -, rfl⟩ := List.mem_map.mp hmem
    cases hupdate
    rw [get_version_tombstoneData]
    exact numberOf_ofRat hpos
  · obtain ⟨p, -, rfl⟩ := List.mem_map.mp hmem
    cases hupdate
    rw [get_version_snapshotData]
    exact ⟨p.2.2.val, numberOf_version p.2.2, le_rfl⟩
  · obtain ⟨t, -, rfl⟩ := List.mem_map.mp hmem
    cases hupdate
    rw [get_version_tombstoneData]
    exact ⟨t.2.val, numberOf_version t.2, le_rfl⟩

/-! ## Rounds

A round that places an update makes the peer's next digest record it, so the number of pending
updates falls. It stays where every group begins with an entry that does not fit. -/

/-- A peer that records what it receives: its next digest is no older than the last one, nor than
the updates it was sent in between. -/
def Records (remote next : Dict String (Dict String Binary64)) (r : Response) : Prop :=
  (∀ streamId nid, remoteVersion remote streamId nid ≤ remoteVersion next streamId nid)
    ∧ ∀ streamId group nid (data : Items) v, r.updates.get? streamId = some group
      → group.get? nid = some (.dict data) →
      numberOf (data.get "__version__") = some v → v ≤ remoteVersion next streamId nid

/-- The entries that the peer lacks. -/
def ClusterManager.pending (getSnapshot : C.Log → Except PyError C.Log) (self : ClusterManager C.Log)
    (registry : List (LocalStream C.Log)) (remote : Dict String (Dict String Binary64)) : List Entry :=
  (self.allEntries getSnapshot registry).filter fun e => e.Newer remote

/-- **A round with an update leaves fewer entries.** -/
theorem pending_lt {payload : Items} {next : Dict String (Dict String Binary64)}
    (htexts : self.HasTexts reprFloat)
    (hread : readDigest self.maxNesting payload = .ok remote)
    (hrun : self.handleGossipDigest reprFloat getSnapshot registry payload = .ok r)
    (hne : r.updates.isEmpty = false)
    (hrec : Records remote next r) :
    (self.pending getSnapshot registry next).length
      < (self.pending getSnapshot registry remote).length := by
  -- some newer entry was sent, and the peer has it now
  obtain ⟨r₁, hbare, -, hrun'⟩ := handleGossipDigest_ok getSnapshot registry htexts hread
  rw [hrun, Except.ok.injEq] at hrun'
  have hnone : StemsFrom (self.pending getSnapshot registry remote) r₁ := by
    intro streamId group nid v hgroup
    rw [hbare.2, Dict.get?_empty] at hgroup
    cases hgroup
  have hsent : ∀ group ∈ self.entryGroups getSnapshot registry, ∀ e ∈ group, e.toSend remote = true →
      e ∈ self.pending getSnapshot registry remote := fun group hgroup e he hsend =>
    List.mem_filter.mpr ⟨List.mem_flatten.mpr ⟨group, hgroup, he⟩, (Bool.and_eq_true_iff.mp hsend).2⟩
  obtain ⟨hexact, hstems⟩ :=
    stemsFrom_foldl_sendGroup (self.entryGroups getSnapshot registry) hbare.1 hnone hsent
  rw [← hrun'] at hexact hstems
  obtain ⟨e, hmem, group, data, hgroup, hdata, hupdate⟩ := exists_entry hexact hstems hne
  obtain ⟨hentry, hnewer⟩ := List.mem_filter.mp hmem
  have hnewer : remoteVersion remote e.streamId e.nid < e.version := of_decide_eq_true hnewer
  have hpos : 0 ≤ e.version := (remoteVersion_nonneg hread e.streamId e.nid).trans hnewer.le
  obtain ⟨v, hv, hle⟩ := version_of_update hentry hpos hupdate
  have hold : ¬ e.Newer next := not_lt.mpr (hle.trans (hrec.2 _ _ _ _ _ hgroup hdata hv))
  -- and what it lacks now it lacked before
  have hsub : self.pending getSnapshot registry next
      = (self.pending getSnapshot registry remote).filter fun e => e.Newer next := by
    unfold ClusterManager.pending
    rw [List.filter_filter]
    refine List.filter_congr fun e' _ => ?_
    have himp : e'.Newer next → e'.Newer remote := fun h => (hrec.1 e'.streamId e'.nid).trans_lt h
    by_cases h : e'.Newer next
    · simp [h, himp h]
    · simp [h]
  rw [hsub]
  exact List.length_filter_lt_length_iff_exists.mpr ⟨e, hmem, by simpa using hold⟩

/-- What the digest and the state have to meet: nothing that the peer lacks fits, or the first entry
of some group does. -/
def Unblocked (reprFloat : Binary64 → List Char) (getSnapshot : C.Log → Except PyError C.Log)
    (self : ClusterManager C.Log) (registry : List (LocalStream C.Log))
    (remote : Dict String (Dict String Binary64)) :
    Prop :=
  (∀ e ∈ self.allEntries getSnapshot registry, e.Newer remote →
      ¬ e.Fits reprFloat self (self.placedRequests reprFloat remote))
    ∨ ∃ group ∈ self.entryGroups getSnapshot registry, ∃ e, firstToSend reprFloat remote group = some e
      ∧ e.Fits reprFloat self (self.placedRequests reprFloat remote)

/-- What is claimed of one digest: if some entry that the peer lacks fits, an update is sent. -/
def Progresses (reprFloat : Binary64 → List Char) (getSnapshot : C.Log → Except PyError C.Log)
    (self : ClusterManager C.Log) (registry : List (LocalStream C.Log)) (payload : Items)
    (remote : Dict String (Dict String Binary64)) : Prop :=
  (∃ e ∈ self.allEntries getSnapshot registry, e.Newer remote
      ∧ e.Fits reprFloat self (self.placedRequests reprFloat remote)) →
    ∃ r, self.handleGossipDigest reprFloat getSnapshot registry payload = .ok r ∧ r.updates.isEmpty
      = false

theorem progresses_iff {payload : Items} (htexts : self.HasTexts reprFloat)
    (hread : readDigest self.maxNesting payload = .ok remote) :
    Progresses reprFloat getSnapshot self registry payload remote
      ↔ Unblocked reprFloat getSnapshot self registry remote := by
  obtain ⟨r₁, hbare, hrequests, hrun⟩ :=
    handleGossipDigest_ok getSnapshot registry htexts hread
  have hplaced := updates_placed_iff remote (self.entryGroups getSnapshot registry) hbare.1 hbare.2
  rw [hrequests] at hplaced
  constructor
  · intro h
    by_cases hfits : ∃ e ∈ self.allEntries getSnapshot registry, e.Newer remote
        ∧ e.Fits reprFloat self (self.placedRequests reprFloat remote)
    · obtain ⟨r, hr, hne⟩ := h hfits
      rw [hrun, Except.ok.injEq] at hr
      exact .inr (hplaced.mp (hr ▸ hne))
    · refine .inl fun e he hnewer hfit => hfits ⟨e, he, hnewer, hfit⟩
  · rintro (hnone | hfirst) ⟨e, he, hnewer, hfit⟩
    · exact absurd hfit (hnone e he hnewer)
    · exact ⟨_, hrun, hplaced.mpr hfirst⟩

/-- **Rounds deliver what fits.** Where every round meets the condition, after as many rounds as
there are entries at most, nothing that the peer lacks fits. -/
theorem exchange_delivers {payload : ℕ → Items} {remotes : ℕ → Dict String (Dict String Binary64)}
    {answers : ℕ → Response} (htexts : self.HasTexts reprFloat)
    (hread : ∀ i, readDigest self.maxNesting (payload i) = .ok (remotes i))
    (hanswer : ∀ i, self.handleGossipDigest reprFloat getSnapshot registry (payload i)
      = .ok (answers i))
    (hrec : ∀ i, Records (remotes i) (remotes (i + 1)) (answers i))
    (hcond : ∀ i, Unblocked reprFloat getSnapshot self registry (remotes i)) :
    ∃ i ≤ (self.allEntries getSnapshot registry).length, ∀ e ∈ self.allEntries getSnapshot registry,
      e.Newer (remotes i) → ¬ e.Fits reprFloat self (self.placedRequests reprFloat (remotes i)) := by
  by_contra hnever
  push Not at hnever
  -- each of these rounds sends an update, so it leaves fewer entries than the one before
  have hdrop : ∀ i ≤ (self.allEntries getSnapshot registry).length,
      (self.pending getSnapshot registry (remotes (i + 1))).length
        < (self.pending getSnapshot registry (remotes i)).length := by
    intro i hi
    obtain ⟨e, he, hnewer, hfits⟩ := hnever i hi
    obtain ⟨r, hr, hne⟩ := (progresses_iff htexts (hread i)).mpr (hcond i) ⟨e, he, hnewer, hfits⟩
    rw [hanswer i, Except.ok.injEq] at hr
    exact pending_lt htexts (hread i) (hanswer i) (hr ▸ hne) (hrec i)
  have hcount : ∀ i ≤ (self.allEntries getSnapshot registry).length + 1,
      (self.pending getSnapshot registry (remotes i)).length + i
        ≤ (self.allEntries getSnapshot registry).length := by
    intro i hi
    induction i with
    | zero => exact List.length_filter_le _ _
    | succ i ih =>
      have hbefore := ih (by omega)
      have hstep := hdrop i (by omega)
      omega
  have htoo := hcount _ le_rfl
  omega

theorem hasTexts_of_restored (hC : LogCodec.HasTexts reprFloat C) (h : self.Restored) :
    self.HasTexts reprFloat := by
  intro streamId group nid kept hgroup hkept
  have hknown : ClusterManager.known? self.peerSnapshots streamId nid = some kept := by
    rw [ClusterManager.known?, hgroup]
    exact hkept
  obtain ⟨data, hdata⟩ := h streamId nid kept hknown
  exact hC data kept.1 hdata

/-- **When digests make progress.** An exchange sends an update whenever something that the peer
lacks fits alone, exactly when it is unblocked: no such entry fits, or the first entry of some group
does. A peer that records what it receives gets everything that fits in finitely many unblocked
rounds. -/
theorem digest_progress_iff (hC : LogCodec.HasTexts reprFloat C) (hheld : self.Restored) :
    (∀ payload remote, readDigest self.maxNesting payload = .ok remote →
        (Progresses reprFloat getSnapshot self registry payload remote
          ↔ Unblocked reprFloat getSnapshot self registry remote))
      ∧ ∀ (payload : ℕ → Items) (remotes : ℕ → Dict String (Dict String Binary64))
        (answers : ℕ → Response),
        (∀ i, readDigest self.maxNesting (payload i) = .ok (remotes i)) →
        (∀ i, self.handleGossipDigest reprFloat getSnapshot registry (payload i) = .ok (answers i)) →
        (∀ i, Records (remotes i) (remotes (i + 1)) (answers i)) →
        (∀ i, Unblocked reprFloat getSnapshot self registry (remotes i)) →
        ∃ i ≤ (self.allEntries getSnapshot registry).length, ∀ e ∈ self.allEntries getSnapshot registry,
          e.Newer (remotes i) → ¬ e.Fits reprFloat self
            (self.placedRequests reprFloat (remotes i)) := by
  have htexts := hasTexts_of_restored hC hheld
  exact ⟨fun payload remote hread => progresses_iff htexts hread,
    fun payload remotes answers hread hanswer hrec hcond =>
      exchange_delivers htexts hread hanswer hrec hcond⟩

/-! ## A wide tombstone in front

A tombstone with a key of 1539 characters stands before a small one and keeps it back in every
round. -/

/-- The size of a response with one update. -/
theorem jsonSize_onlyUpdate (nodeId streamId nid : String) {data : Items}
    (hs : Sizable reprFloat (.dict data)) :
    jsonSize reprFloat (Response.toPyVal nodeId ⟨onlyUpdate streamId nid data, ∅, 0⟩)
      = .ok (envelopeSize nodeId
        + (quoteLen streamId + 1 + (2 + (quoteLen nid + 1 + sizeOf reprFloat (.dict data))))) := by
  -- one stream with one origin: the sizes of the nested dictionaries, from the inside out
  have hentry : ∀ k v, ((∅ : Dict String PyVal).set nid (.dict data)).get? k = some v
    → Sizable reprFloat (id v) := by
    intro k v hv
    rw [Dict.get?_set] at hv
    split at hv
    · cases hv
      exact hs
    · cases hv
  have hgroups : ∀ k group, (onlyUpdate streamId nid data).get? k = some group
    → Sizable reprFloat (groupVal group) := by
    intro k group hgroup
    rw [onlyUpdate, Dict.get?_set] at hgroup
    split at hgroup
    · cases hgroup
      exact sizable_dictVal.mpr hentry
    · cases hgroup
  have hgroup : groupSize reprFloat ((∅ : Dict String PyVal).set nid (.dict data))
      = 2 + (quoteLen nid + 1 + sizeOf reprFloat (.dict data)) := by
    refine (sizeOf_eq (jsonSize_dictVal hentry)).trans ?_
    rw [content_singleton]
    rfl
  rw [jsonSize_toPyVal hgroups, responseSize, onlyUpdate, content_singleton, hgroup, content_empty,
    Nat.add_zero]

/-- A tombstone is current when there is no stream. -/
theorem liveTombstone_nil (Log : Type) {key : String} {names : List ℕ × List ℕ} {q : ℚ}
    (h : Json.loadPair key.toList = some names) :
    ClusterManager.liveTombstone ([] : List (LocalStream Log)) (key, q) = true := by
  unfold ClusterManager.liveTombstone
  rw [h]
  rfl

namespace Starved

/-- The deletion of a stream whose namespace is all accents. -/
@[irreducible] def wideKey : String :=
  ClusterManager.streamKey (String.ofList (List.replicate 255 'é')) "s"

/-- The deletion of a stream with a short name. -/
def goneKey : String := "[\"default\", \"gone\"]"

theorem length_wideKey : wideKey.length = 1539 := by
  have hwide : (List.replicate 255 'é').map Char.toNat = List.replicate 255 0xe9 := List.map_replicate
  have hs : "s".toList.map Char.toNat = [0x73] := by decide
  unfold wideKey ClusterManager.streamKey
  rw [String.length_ofList, Json.length_dumpPair, String.toList_ofList, hwide, hs, List.map_replicate,
    List.sum_replicate]
  decide

theorem wideKey_ne_goneKey : wideKey ≠ goneKey := by
  intro heq
  have hlength := congrArg String.length heq
  rw [length_wideKey] at hlength
  exact absurd hlength (by decide)

/-- The version of both. -/
def five : Binary64 := .ofInt 5 Binary64.abs_five_lt

/-- A node that has deleted both, with the least limit that is allowed. -/
def node : ClusterManager (LogCodec.python .ternary).Log where
  nodeId := "node1"
  maxPayloadBytes := 1024
  maxLocalTombstones := 2
  maxNesting := 990
  peerSnapshots := ∅
  peerTombstones := ∅
  localTombstones := ⟨[(wideKey, five.val), (goneKey, five.val)], by simp [wideKey_ne_goneKey]⟩

/-- `repr(5.0)`. -/
def reprFive : Binary64 → List Char := fun _ => "5.0".toList

/-- The tombstone of a key. -/
def entry (key : String) : Entry :=
  ⟨key, "node1", five.val,
    ClusterManager.liveTombstone ([] : List (LocalStream (LogCodec.python .ternary).Log))
      (key, five.val),
    .ok (tombstoneData (.ofRat five.val))⟩

theorem entryGroups_node : node.entryGroups .ok [] = [[], [entry wideKey, entry goneKey]] := rfl

theorem placedRequests_node : node.placedRequests reprFive ∅ = ∅ := by
  unfold ClusterManager.placedRequests
  rw [empty_eq]
  rfl

theorem sizeOf_data : sizeOf reprFive (.dict (tombstoneData (.float (.fin five)))) = 40 := by
  have hsizable : ∀ kv ∈ [("__tombstone__", PyVal.bool true), ("__version__", PyVal.float (.fin five))],
      Sizable reprFive (id kv.2) := by
    intro kv hkv
    simp only [List.mem_cons, List.not_mem_nil, or_false] at hkv
    rcases hkv with rfl | rfl
    · exact sizable_bool true
    · exact sizable_fin five
  have htrue : jsonSize reprFive (.bool true) = .ok 4 := rfl
  have hfive : jsonSize reprFive (.float (.fin five)) = .ok 3 := rfl
  refine sizeOf_eq ((jsonSize_items id _ hsizable).trans (congrArg Except.ok ?_))
  simp only [List.map_cons, List.map_nil, id, sizeOf_eq htrue, sizeOf_eq hfive]
  decide +kernel

theorem data_eq : tombstoneData (.ofRat five.val) = tombstoneData (.float (.fin five)) :=
  congrArg tombstoneData (dif_pos five.isBinary64)

/-- The size of a response with one tombstone. -/
theorem fits_iff_le (key : String) :
    (entry key).Fits reprFive node ∅
      ↔ envelopeSize "node1" + (quoteLen key + 1 + (2 + (quoteLen "node1" + 1 + 40))) ≤ 1024 := by
  have hs : Sizable reprFive (.dict (tombstoneData (.float (.fin five)))) :=
    sizable_tombstoneData (sizable_fin _)
  have hsize := jsonSize_onlyUpdate "node1" key "node1" hs
  rw [sizeOf_data, ← data_eq] at hsize
  constructor
  · rintro ⟨data, n, hupdate, hn, hle⟩
    cases hupdate
    have hn' := hsize.symm.trans hn
    rw [Except.ok.injEq] at hn'
    exact hn'.trans_le hle
  · intro hle
    exact ⟨_, _, rfl, hsize, hle⟩

theorem fits_goneKey : (entry goneKey).Fits reprFive node ∅ :=
  (fits_iff_le goneKey).mpr (by decide +kernel)

theorem not_fits_wideKey : ¬ (entry wideKey).Fits reprFive node ∅ := by
  rw [fits_iff_le]
  have hquote : wideKey.length + 2 ≤ quoteLen wideKey := Json.length_le_quote wideKey
  rw [length_wideKey] at hquote
  omega

theorem current_of_loadPair {key : String} {names : List ℕ × List ℕ}
    (h : Json.loadPair key.toList = some names) :
    (entry key).current = true :=
  liveTombstone_nil (LogCodec.python .ternary).Log h

theorem loadPair_wideKey : ∃ names, Json.loadPair wideKey.toList = some names := by
  unfold wideKey
  exact ⟨_, Json.loadPair_streamKey _ _⟩

theorem newer_entry (key : String) : (entry key).Newer ∅ := by
  show (0 : ℚ) < ((5 : ℤ) : ℚ)
  norm_num

end Starved

theorem Starved.restored_node : Starved.node.Restored := by
  intro s n kept hkept
  cases hkept

/-- The node makes progress in answer to a digest without versions exactly if it is unblocked. -/
theorem digest_progress_deletions : Starved.node.Restored
    ∧ (Progresses Starved.reprFive .ok Starved.node [] [] ∅
      ↔ Unblocked Starved.reprFive .ok Starved.node [] ∅) :=
  ⟨Starved.restored_node,
    (digest_progress_iff (hasTexts_python Starved.reprFive .ternary) Starved.restored_node).1 [] ∅ rfl⟩

/-- **A tombstone that is too large starves those behind it.** The node has deleted two streams and
is asked for both; the second deletion fits, but no update is sent. -/
theorem digest_starves :
    readDigest Starved.node.maxNesting [] = .ok ∅
      ∧ ¬ Progresses Starved.reprFive .ok Starved.node [] [] ∅ := by
  refine ⟨rfl, fun hprogress => ?_⟩
  have htexts : Starved.node.HasTexts Starved.reprFive := by
    intro streamId group nid kept hgroup
    cases hgroup
  rw [progresses_iff htexts rfl, Unblocked, Starved.placedRequests_node,
    Starved.entryGroups_node] at hprogress
  -- neither the key that fits comes first, nor does the first one fit
  rcases hprogress with hnone | ⟨group, hgroup, e, hfirst, hfits⟩
  · refine hnone (Starved.entry Starved.goneKey) ?_ (Starved.newer_entry _) Starved.fits_goneKey
    rw [ClusterManager.allEntries, Starved.entryGroups_node]
    simp
  · rw [List.mem_cons, List.mem_singleton] at hgroup
    rcases hgroup with rfl | rfl
    · cases hfirst
    · have hsend : (Starved.entry Starved.wideKey).toSend ∅ = true := by
        rw [Entry.toSend, decide_eq_true (Starved.newer_entry _), Bool.and_true]
        obtain ⟨names, hload⟩ := Starved.loadPair_wideKey
        exact Starved.current_of_loadPair hload
      have htext : (Starved.entry Starved.wideKey).hasText Starved.reprFive = true :=
        hasText_iff.mpr ⟨_, rfl, sizable_tombstoneData (sizable_ofRat _)⟩
      rw [firstToSend, List.filter_cons, if_pos hsend, List.find?_cons, htext] at hfirst
      have he : Starved.entry Starved.wideKey = e := Option.some.inj hfirst
      exact Starved.not_fits_wideKey (he ▸ hfits)

end Sketchlog.Mesh
