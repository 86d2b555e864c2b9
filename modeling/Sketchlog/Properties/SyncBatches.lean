import Sketchlog.Mesh.Gossip
import Sketchlog.Properties.DigestProgress

/-!
# Requested updates are sent once

A batch collects updates until one more does not fit, and is then posted. What a batch carries of an
origin, in the payloads that were posted and in the one that is pending, grows by the update of each
request, if it fits alone, and by nothing else (`queueSyncUpdate_spec`). So after all requests, each
origin has its update in exactly one payload.
-/

namespace Sketchlog.Mesh

open Checked ClusterManager

variable {reprFloat : Binary64 → List Char} {C : LogCodec} {getSnapshot : C.Log → Except PyError C.Log}
  {self : ClusterManager C.Log} {registry : List (LocalStream C.Log)} {b b' : Batch} {s n : String}
  {data : Items}

/-! ## Sizes -/

/-- Every group has a text. -/
def Streams.HasTexts (reprFloat : Binary64 → List Char) (streams : Streams) : Prop :=
  ∀ streamId group, streams.get? streamId = some group → Sizable reprFloat (groupVal group)

/-- The size of a payload. -/
def streamsSize (reprFloat : Binary64 → List Char) (nodeId : String) (streams : Streams) : ℕ :=
  payloadBase "streams" nodeId + content (groupSize reprFloat) streams

theorem jsonSize_syncVal {streams : Streams} (nodeId : String)
    (h : Streams.HasTexts reprFloat streams) :
    jsonSize reprFloat (syncVal nodeId streams) = .ok (streamsSize reprFloat nodeId streams) :=
  jsonSize_payload "streams" nodeId h

theorem hasTexts_of_jsonSize {streams : Streams} {nodeId : String} {size : ℕ}
    (h : jsonSize reprFloat (syncVal nodeId streams) = .ok size) : Streams.HasTexts reprFloat streams :=
  sizable_dictVal.mp (sizable_of_dict ⟨size, h⟩ (.str "streams", dictVal groupVal streams) (by simp))

/-- A payload with one more update has texts exactly when the update has one. -/
theorem hasTexts_setOrigin {streams : Streams} (h : Streams.HasTexts reprFloat streams)
    (s n : String) (data : Items) :
    Streams.HasTexts reprFloat (setOrigin streams s n (.dict data))
      ↔ Sizable reprFloat (.dict data) := by
  have hcurrent : Sizable reprFloat (groupVal ((streams.get? s).getD ∅)) := by
    cases hget : streams.get? s with
    | none => exact sizable_dictVal.mpr (by simp)
    | some group => exact h s group hget
  have hgroup := sizable_group_set hcurrent n (.dict data)
  constructor
  · intro hset
    exact hgroup.mp (hset s _ Dict.get?_set_self)
  · intro hs streamId group hget
    rw [setOrigin, Dict.get?_set] at hget
    split at hget
    · cases hget
      exact hgroup.mpr hs
    · exact h streamId group hget

theorem hasTexts_empty : Streams.HasTexts reprFloat ∅ := by
  intro streamId group hget
  cases hget

theorem hasTexts_singleUpdate (hs : Sizable reprFloat (.dict data)) :
    Streams.HasTexts reprFloat (singleUpdate s n data) :=
  (hasTexts_setOrigin hasTexts_empty s n data).mpr hs

/-- What one entry adds is part of the whole. -/
theorem le_content {β : Type} (weight : β → ℕ) {d : Dict String β} {k : String} {v : β}
    (h : d.get? k = some v) :
    quoteLen k + 1 + weight v ≤ content weight d := by
  rw [content_eq]
  have hmem := List.mem_map_of_mem (f := fun kv : String × β => quoteLen kv.1 + 1 + weight kv.2)
    (Dict.get?_eq_some_iff.mp h)
  exact (List.single_le_sum (fun _ _ => Nat.zero_le _) _ hmem).trans (Nat.le_add_right _ _)

theorem groupSize_eq {group : Dict String PyVal} (h : Sizable reprFloat (groupVal group)) :
    groupSize reprFloat group = 2 + content (fun v => sizeOf reprFloat v) group :=
  sizeOf_eq (jsonSize_dictVal (sizable_dictVal.mp h))

/-- The size of a payload with one update. -/
theorem streamsSize_single (nodeId s n : String) (hs : Sizable reprFloat (.dict data)) :
    streamsSize reprFloat nodeId (singleUpdate s n data)
      = payloadBase "streams" nodeId
        + (quoteLen s + 1 + (2 + (quoteLen n + 1 + sizeOf reprFloat (.dict data)))) := by
  have htexts : Streams.HasTexts reprFloat (singleUpdate s n data) := hasTexts_singleUpdate hs
  unfold streamsSize
  rw [singleUpdate, content_singleton, groupSize_eq (htexts s _ Dict.get?_set_self), content_singleton]

/-- An update that fits beside others fits alone. -/
theorem streamsSize_single_le {streams : Streams} (nodeId : String)
    (h : Streams.HasTexts reprFloat streams)
    (hs : Sizable reprFloat (.dict data)) :
    streamsSize reprFloat nodeId (singleUpdate s n data)
      ≤ streamsSize reprFloat nodeId (setOrigin streams s n (.dict data)) := by
  have hset := (hasTexts_setOrigin h s n data).mpr hs s _ Dict.get?_set_self
  have hgroup := le_content (groupSize reprFloat) (d := setOrigin streams s n (.dict data))
    Dict.get?_set_self
  have hentry := le_content (fun v => sizeOf reprFloat v)
    (d := ((streams.get? s).getD ∅).set n (.dict data))
    Dict.get?_set_self
  rw [groupSize_eq hset] at hgroup
  rw [streamsSize_single nodeId s n hs, streamsSize]
  omega

/-! ## One update

A call leaves the update in the pending batch, flushes the batch first, or drops the update.
`carried` follows one stream and origin through all payloads. -/

namespace Batch

/-- What the payloads carry of an origin, in the order in which they are posted. -/
def carried (b : Batch) (s n : String) : List PyVal :=
  (b.sent ++ [b.pending]).filterMap fun p => known? p s n

/-- Everything has a text and fits. -/
structure Fits (reprFloat : Binary64 → List Char) (node : ClusterManager C.Log) (b : Batch) : Prop where
  sent : ∀ p ∈ b.sent, Streams.HasTexts reprFloat p ∧ streamsSize reprFloat node.nodeId p
    ≤ node.maxPayloadBytes
  pending : Streams.HasTexts reprFloat b.pending
  pending_le : b.pending.isEmpty = false → streamsSize reprFloat node.nodeId b.pending
    ≤ node.maxPayloadBytes

theorem known?_of_isEmpty {p : Streams} (h : p.isEmpty = true) (s n : String) :
    known? p s n = none := by
  rw [known?, Dict.isEmpty_iff_get?.mp h s]
  rfl

theorem carried_flush (b : Batch) (s n : String) : b.flush.carried s n = b.carried s n := by
  unfold flush
  split
  · rfl
  · show ((b.sent ++ [b.pending]) ++ [∅]).filterMap _ = _
    rw [List.filterMap_append]
    exact List.append_nil _

/-- What is posted after the last flush is what was carried. -/
theorem sent_flush (b : Batch) (s n : String) : (b.flush.sent.filterMap fun p => known? p s n)
    = b.carried s n := by
  unfold flush carried
  split
  · next hempty =>
    rw [List.filterMap_append, List.filterMap_cons, known?_of_isEmpty hempty]
    exact (List.append_nil _).symm
  · rfl

theorem fits_flush (h : b.Fits reprFloat self) : b.flush.Fits reprFloat self := by
  unfold flush
  split
  · exact h
  · next hne =>
    refine ⟨fun p hp => ?_, hasTexts_empty, fun hne' => by cases hne'⟩
    rcases List.mem_append.mp hp with hp | hp
    · exact h.sent p hp
    · cases List.mem_singleton.mp hp
      exact ⟨h.pending, h.pending_le (by simpa using hne)⟩

theorem carried_pending (b : Batch) (p : Streams) (s n : String) :
    (Batch.mk b.sent p).carried s n = (b.sent.filterMap fun p =>
      known? p s n) ++ (known? p s n).toList := by
  unfold carried
  rw [List.filterMap_append]
  cases hp : known? p s n with
  | none => simp [hp]
  | some v => simp [hp]

end Batch

/-- The update, as the only one, fits in a payload. -/
def fitsSync (reprFloat : Binary64 → List Char) (self : ClusterManager C.Log) (s n : String)
    (data : Items) : Bool :=
  match jsonSize reprFloat (syncVal self.nodeId (singleUpdate s n data)) with
  | .ok size => size ≤ self.maxPayloadBytes
  | .error _ => false

theorem fitsSync_iff (hs : Sizable reprFloat (.dict data)) : fitsSync reprFloat self s n data = true
    ↔ streamsSize reprFloat self.nodeId (singleUpdate s n data) ≤ self.maxPayloadBytes := by
  unfold fitsSync
  rw [jsonSize_syncVal self.nodeId (hasTexts_singleUpdate hs)]
  simp

/-- An update without a text fits nowhere. -/
theorem fitsSync_eq_false (hs : ¬ Sizable reprFloat (.dict data)) :
    fitsSync reprFloat self s n data = false := by
  unfold fitsSync
  split
  · next size hsize =>
    exact absurd ((hasTexts_setOrigin hasTexts_empty s n data).mp (hasTexts_of_jsonSize hsize)) hs
  · rfl

theorem queueSyncUpdate_eq (h : Streams.HasTexts reprFloat b.pending)
    (hs : Sizable reprFloat (.dict data)) :
    self.queueSyncUpdate reprFloat b s n data
      = .ok (if streamsSize reprFloat self.nodeId (setOrigin b.pending s n (.dict data))
        ≤ self.maxPayloadBytes then
          ⟨b.sent, setOrigin b.pending s n (.dict data)⟩
        else if fitsSync reprFloat self s n data then ⟨b.flush.sent, singleUpdate s n data⟩
          else b.flush) := by
  have hcandidate := jsonSize_syncVal self.nodeId ((hasTexts_setOrigin h s n data).mpr hs)
  have hsingle : jsonSize reprFloat (syncVal self.nodeId (singleUpdate s n data)) = _ :=
    jsonSize_syncVal self.nodeId (hasTexts_singleUpdate hs)
  have hiff : fitsSync reprFloat self s n data = true ↔ _ := fitsSync_iff hs
  refine bind_eq_ok.mpr ⟨_, hcandidate, ?_⟩
  by_cases hfits : streamsSize reprFloat self.nodeId (setOrigin b.pending s n (.dict data))
    ≤ self.maxPayloadBytes
  · rw [if_neg (not_lt.mpr hfits), if_pos hfits]
  · rw [if_pos (not_le.mp hfits), if_neg hfits]
    refine bind_eq_ok.mpr ⟨_, hsingle, ?_⟩
    by_cases halone : fitsSync reprFloat self s n data = true
    · rw [if_neg (not_lt.mpr (hiff.mp halone)), if_pos halone]
    · rw [if_pos (not_le.mp (mt hiff.mpr halone)), if_neg halone]

/-- What an update adds to what is carried of an origin. -/
def addedTo (s n : String) (updates : List PyVal) (s' n' : String) : List PyVal :=
  if s' = s ∧ n' = n then updates else []

/-- A payload that carries nothing but what was pending before and one update. -/
theorem carried_of_pending {sent : List Streams} {p : Streams} {v : PyVal}
    (hsent : ∀ s' n', (sent.filterMap fun q => known? q s' n') ++ (known? p s' n').toList
      = b.carried s' n')
    (hnew : known? p s n = none) (s' n' : String) :
    (Batch.mk sent (setOrigin p s n v)).carried s' n' = b.carried s' n' ++ addedTo s n [v] s' n' := by
  rw [← hsent, Batch.carried_pending ⟨sent, p⟩, known?_setOrigin, addedTo]
  by_cases hpair : s' = s ∧ n' = n
  · rw [if_pos hpair, if_pos hpair, hpair.1, hpair.2, hnew]
    simp
  · rw [if_neg hpair, if_neg hpair, List.append_nil]

/-- **`queue_sync_update`.** The batch carries the update too if it fits alone, and nothing else
changes. -/
theorem queueSyncUpdate_spec (h : b.Fits reprFloat self) (hs : Sizable reprFloat (.dict data))
    (hnew : known? b.pending s n = none) :
    ∃ b', self.queueSyncUpdate reprFloat b s n data = .ok b' ∧ b'.Fits reprFloat self
      ∧ ∀ s' n', b'.carried s' n' = b.carried s' n'
        ++ addedTo s n (if fitsSync reprFloat self s n data then [.dict data] else []) s' n' := by
  have hcandidate := (hasTexts_setOrigin h.pending s n data).mpr hs
  have hsingle : Streams.HasTexts reprFloat (singleUpdate s n data) := hasTexts_singleUpdate hs
  have hle : streamsSize reprFloat self.nodeId (singleUpdate s n data) ≤ _ :=
    streamsSize_single_le self.nodeId h.pending hs
  have hiff : fitsSync reprFloat self s n data = true ↔ _ := fitsSync_iff hs
  refine ⟨_, queueSyncUpdate_eq h.pending hs, ?_⟩
  split
  · next hfits =>
    -- it fits beside what is pending
    rw [if_pos (hiff.mpr (hle.trans hfits))]
    refine ⟨⟨h.sent, hcandidate, fun _ => hfits⟩, carried_of_pending (fun s' n' => ?_) hnew⟩
    exact (Batch.carried_pending b b.pending s' n').symm
  · split
    · next halone =>
      -- what is pending is posted, and the next payload starts with the update
      refine ⟨⟨(Batch.fits_flush h).sent, hsingle, fun _ => hiff.mp halone⟩,
        carried_of_pending (fun s' n' => ?_) rfl⟩
      rw [Batch.sent_flush]
      exact List.append_nil _
    · -- what is pending is posted, and the update is left out
      refine ⟨Batch.fits_flush h, fun s' n' => ?_⟩
      rw [Batch.carried_flush, addedTo]
      split <;> simp

/-! ## One request

What a node can answer for one origin: its own stream, a tombstone, or a snapshot of a peer. -/

/-- The update that a node has for an origin of a stream. -/
def ClusterManager.requestedUpdate (getSnapshot : C.Log → Except PyError C.Log)
    (self : ClusterManager C.Log)
    (registry : List (LocalStream C.Log)) (s n : String) : Option Items :=
  if n = self.nodeId then
    match self.requestedLocal getSnapshot registry s with
    | .ok update => update
    | .error _ => none
  else self.requestedPeer s n

/-- What is sent for a request: the update of the node, if it fits alone. -/
def ClusterManager.fulfilment (reprFloat : Binary64 → List Char)
    (getSnapshot : C.Log → Except PyError C.Log)
    (self : ClusterManager C.Log) (registry : List (LocalStream C.Log)) (s n : String) : List PyVal :=
  match self.requestedUpdate getSnapshot registry s n with
  | some data => if fitsSync reprFloat self s n data then [.dict data] else []
  | none => []

/-- The update for a stream of another node has a text. -/
theorem sizable_requestedPeer (htexts : self.HasTexts reprFloat)
    (h : self.requestedPeer s n = some data) :
    Sizable reprFloat (.dict data) := by
  unfold requestedPeer at h
  dsimp only at h
  -- a tombstone, with its version or with zero, or a stored snapshot
  split at h
  · cases h
    cases (self.tombstoneOrigins s).get? n with
    | none => exact sizable_tombstoneData (sizable_int 0)
    | some v => exact sizable_tombstoneData (sizable_version v)
  · cases hkept : (self.existingOrigins s).get? n with
    | none =>
      rw [hkept] at h
      cases h
    | some kept =>
      rw [hkept] at h
      cases h
      have hdoc : Sizable reprFloat (C.toDict kept.1) := by
        cases hgroup : self.peerSnapshots.get? s with
        | none =>
          rw [existingOrigins, hgroup] at hkept
          cases hkept
        | some group =>
          rw [existingOrigins, hgroup] at hkept
          exact htexts s group n kept hgroup hkept
      exact sizable_cons (sizable_version kept.2) (sizable_cons hdoc sizable_nil)

/-- An update without a text raises. -/
theorem queueSyncUpdate_error (h : Streams.HasTexts reprFloat b.pending)
    (hs : ¬ Sizable reprFloat (.dict data)) :
    ∃ e, self.queueSyncUpdate reprFloat b s n data = .error e := by
  cases hrun : self.queueSyncUpdate reprFloat b s n data with
  | error e => exact ⟨e, rfl⟩
  | ok b' =>
    obtain ⟨size, hsize, -⟩ := bind_eq_ok.mp hrun
    exact absurd ((hasTexts_setOrigin h s n data).mp (hasTexts_of_jsonSize hsize)) hs

/-- **One request** adds its fulfilment to what is carried. -/
theorem syncOrigin_spec (getSnapshot : C.Log → Except PyError C.Log)
    (registry : List (LocalStream C.Log))
    (htexts : self.HasTexts reprFloat) (h : b.Fits reprFloat self)
    (hnew : known? b.pending s n = none) :
    ∃ b', self.syncOrigin reprFloat getSnapshot registry b (s, n) = .ok b' ∧ b'.Fits reprFloat self
      ∧ ∀ s' n', b'.carried s' n' = b.carried s' n'
        ++ addedTo s n (self.fulfilment reprFloat getSnapshot registry s n) s' n' := by
  -- an update that is not placed leaves every pending batch as it was
  have hsame : ∀ s' n', b.carried s' n' = b.carried s' n' ++ addedTo s n [] s' n' := by
    intro s' n'
    rw [addedTo, ite_self, List.append_nil]
  unfold syncOrigin fulfilment requestedUpdate
  -- requests for the node itself are answered from its registry, others from the stored peers
  by_cases hlocal : n = self.nodeId
  · simp only [if_pos hlocal]
    cases hupdate : self.requestedLocal getSnapshot registry s with
    | error e => exact ⟨b, rfl, h, hsame⟩
    | ok update =>
      cases update with
      | none => exact ⟨b, rfl, h, hsame⟩
      | some data =>
        simp only [bind, Except.bind]
        -- what has no text raises and is skipped by the caller
        by_cases hs : Sizable reprFloat (.dict data)
        · obtain ⟨b', hrun, hfits, hcarried⟩ := queueSyncUpdate_spec h hs hnew
          rw [hrun]
          exact ⟨b', rfl, hfits, hcarried⟩
        · have herror : ∃ e, self.queueSyncUpdate reprFloat b s n data = .error e :=
            queueSyncUpdate_error h.pending hs
          obtain ⟨e, herr⟩ := herror
          rw [herr, fitsSync_eq_false hs]
          exact ⟨b, rfl, h, hsame⟩
  · simp only [if_neg hlocal]
    cases hupdate : self.requestedPeer s n with
    | none => exact ⟨b, rfl, h, hsame⟩
    | some data => exact queueSyncUpdate_spec h (sizable_requestedPeer htexts hupdate) hnew

/-! ## All requests

The loops over streams and origins, by induction. The pairs are distinct, so each is carried at most
once. -/

/-- **Distinct requests** add their fulfilments. -/
theorem foldlM_syncOrigin (getSnapshot : C.Log → Except PyError C.Log)
    (registry : List (LocalStream C.Log))
    (htexts : self.HasTexts reprFloat) (pairs : List (String × String)) (hnodup : pairs.Nodup)
    (h : b.Fits reprFloat self) (hnew : ∀ pair ∈ pairs, b.carried pair.1 pair.2 = []) :
    ∃ b', pairs.foldlM (self.syncOrigin reprFloat getSnapshot registry) b = .ok b'
      ∧ b'.Fits reprFloat self
      ∧ ∀ s n, b'.carried s n = b.carried s n
        ++ if (s, n) ∈ pairs then self.fulfilment reprFloat getSnapshot registry s n else [] := by
  induction pairs generalizing b with
  | nil => exact ⟨b, rfl, h, fun s n => (List.append_nil _).symm⟩
  | cons pair rest ih =>
    obtain ⟨s₀, n₀⟩ := pair
    rw [List.nodup_cons] at hnodup
    -- the pairs are distinct, so this one is not pending yet
    have hpending : known? b.pending s₀ n₀ = none := by
      have hcarried := Batch.carried_pending b b.pending s₀ n₀
      have hnone : b.carried s₀ n₀ = [] := hnew (s₀, n₀) List.mem_cons_self
      cases hknown : known? b.pending s₀ n₀ with
      | none => rfl
      | some v =>
        rw [hknown] at hcarried
        have hlength := congrArg List.length (hcarried.symm.trans hnone)
        simp at hlength
    obtain ⟨b₁, hfirst, hfits, hcarried⟩ := syncOrigin_spec getSnapshot registry htexts h hpending
    -- nor has it placed anything under the later pairs
    have hnew₁ : ∀ pair ∈ rest, b₁.carried pair.1 pair.2 = [] := by
      intro pair hpair
      rw [hcarried, hnew pair (List.mem_cons_of_mem _ hpair), addedTo, if_neg]
      · rfl
      · intro heq
        have hpair' : pair = (s₀, n₀) := Prod.ext heq.1 heq.2
        exact hnodup.1 (hpair' ▸ hpair)
    obtain ⟨b', hrest, hfits', hcarried'⟩ := ih hnodup.2 hfits hnew₁
    refine ⟨b', ?_, hfits', fun s n => ?_⟩
    · rw [List.foldlM_cons, hfirst]
      exact hrest
    · -- what was carried before, the first pair's update, and the updates of the rest
      rw [hcarried', hcarried, List.append_assoc]
      congr 1
      rw [addedTo]
      by_cases hpair : s = s₀ ∧ n = n₀
      · obtain ⟨rfl, rfl⟩ := hpair
        rw [if_pos ⟨rfl, rfl⟩, if_neg hnodup.1, if_pos List.mem_cons_self, List.append_nil]
      · have hmem : (s, n) ∈ (s₀, n₀) :: rest ↔ (s, n) ∈ rest := by
          rw [List.mem_cons, Prod.mk.injEq]
          exact or_iff_right hpair
        rw [if_neg hpair, List.nil_append]
        simp only [hmem]

/-- The well-formed requests that stand in an entry. -/
def requestsOf : PyKey × PyVal → List (String × String)
  | (.str streamId, .list nids) =>
      if canonicalKey streamId then nids.filterMap (readRequest streamId) else []
  | _ => []

/-- They are what is read of it, if the check of its key does not raise. -/
theorem requestedOrigins_eq {maxNesting : ℕ} {entry : PyKey × PyVal}
    (h : keyShallow maxNesting entry = true) :
    requestedOrigins maxNesting entry = .ok (requestsOf entry) := by
  unfold requestedOrigins requestsOf
  obtain ⟨key, nids⟩ := entry
  cases key with
  | str streamId =>
    have hshallow : Shallow maxNesting streamId := of_decide_eq_true h
    simp only [hshallow.validStreamKey, bind, Except.bind]
    cases hkey : canonicalKey streamId <;> cases nids <;> simp [hkey]
  | _ => rfl

/-- The loop over the entries is one over the requests. -/
theorem foldlM_requestedOrigins {maxNesting : ℕ} {requests : Items}
    (h : ∀ entry ∈ requests, keyShallow maxNesting entry = true)
    (g : Batch → String × String → Except PyError Batch) (b : Batch) :
    (requests.foldlM (fun b entry => do
      let origins ← requestedOrigins maxNesting entry
      origins.foldlM g b) b) = (requests.flatMap requestsOf).foldlM g b := by
  induction requests generalizing b with
  | nil => rfl
  | cons entry rest ih =>
    rw [List.foldlM_cons, List.flatMap_cons, List.foldlM_append,
      requestedOrigins_eq (h entry List.mem_cons_self)]
    exact congrArg _ (funext fun b' => ih (fun e he => h e (List.mem_cons_of_mem _ he)) b')

theorem readRequest_eq_some {streamId : String} {v : PyVal} {pair : String × String} :
    readRequest streamId v = some pair ↔ v = .str pair.2 ∧ streamId = pair.1
      ∧ validIdentifier pair.2 := by
  unfold readRequest
  constructor
  · intro h
    split at h
    · split at h
      · next hvalid =>
        cases h
        exact ⟨rfl, rfl, hvalid⟩
      · cases h
    · cases h
  · rintro ⟨rfl, rfl, hvalid⟩
    exact if_pos hvalid

theorem mem_requestsOf {streamId : String} {nids : List PyVal} {pair : String × String} :
    pair ∈ requestsOf (.str streamId, .list nids)
      ↔ canonicalKey streamId = true ∧ streamId = pair.1 ∧ .str pair.2 ∈ nids
        ∧ validIdentifier pair.2 := by
  rw [requestsOf]
  split
  · next hkey =>
    rw [List.mem_filterMap]
    constructor
    · rintro ⟨v, hv, hread⟩
      obtain ⟨rfl, hstream, hvalid⟩ := readRequest_eq_some.mp hread
      exact ⟨hkey, hstream, hv, hvalid⟩
    · rintro ⟨-, hstream, hv, hvalid⟩
      exact ⟨_, hv, readRequest_eq_some.mpr ⟨rfl, hstream, hvalid⟩⟩
  · next hkey =>
    constructor
    · intro h
      cases h
    · intro h
      exact absurd h.1 hkey

/-- The origins of a stream are requested once, and under the key of the stream. -/
theorem nodup_requestsOf {entry : PyKey × PyVal} (h : ∀ nids, entry.2 = .list nids → nids.Nodup) :
    (requestsOf entry).Nodup ∧ ∀ pair ∈ requestsOf entry, entry.1 = .str pair.1 := by
  unfold requestsOf
  split
  · next streamId nids =>
    split
    · refine ⟨(h nids rfl).filterMap fun x y pair hx hy => ?_, fun pair hpair => ?_⟩
      · rw [(readRequest_eq_some.mp hx).1, (readRequest_eq_some.mp hy).1]
      · obtain ⟨nid, -, hnid⟩ := List.mem_filterMap.mp hpair
        rw [(readRequest_eq_some.mp hnid).2.1]
    · exact ⟨List.nodup_nil, fun _ h => by cases h⟩
  · exact ⟨List.nodup_nil, fun _ h => by cases h⟩

/-- The requests of an object are distinct when those of each stream are. -/
theorem nodup_flatMap_requestsOf {requests : Items} (hkeys : (requests.map Prod.fst).Nodup)
    (hnids : ∀ entry ∈ requests, ∀ nids, entry.2 = .list nids → nids.Nodup) :
    (requests.flatMap requestsOf).Nodup := by
  refine List.nodup_flatMap.mpr ⟨fun entry hentry =>
    (nodup_requestsOf (hnids entry hentry)).1, ?_⟩
  have hpairwise : requests.Pairwise fun x y => x.1 ≠ y.1 := List.pairwise_map.mp hkeys
  refine hpairwise.imp_of_mem fun {x y} hx hy hne => ?_
  intro pair hpx hpy
  refine hne ?_
  rw [(nodup_requestsOf (hnids x hx)).2 pair hpx,
    (nodup_requestsOf (hnids y hy)).2 pair hpy]

theorem fits_start : Batch.Fits reprFloat self ⟨[], ∅⟩ :=
  ⟨fun _ h => (by cases h), hasTexts_empty, fun h => (by cases h)⟩

/-- **The payloads** that fulfil distinct requests. -/
theorem syncPayloads_spec (htexts : self.HasTexts reprFloat) {requests : Items}
    (hkeys : (requests.map Prod.fst).Nodup)
    (hnids : ∀ entry ∈ requests, ∀ nids, entry.2 = .list nids → nids.Nodup)
    (hshallow : ∀ entry ∈ requests, keyShallow self.maxNesting entry = true) :
    ∃ payloads, self.syncPayloads reprFloat getSnapshot registry requests = .ok payloads
      ∧ (∀ p ∈ payloads, Streams.HasTexts reprFloat p ∧ streamsSize reprFloat self.nodeId p
        ≤ self.maxPayloadBytes)
      ∧ ∀ s n, (payloads.filterMap fun p => known? p s n)
        = if (s, n) ∈ requests.flatMap requestsOf then
          self.fulfilment reprFloat getSnapshot registry s n
          else [] := by
  obtain ⟨b, hrun, hfits, hcarried⟩ := foldlM_syncOrigin getSnapshot registry htexts
    (requests.flatMap requestsOf) (nodup_flatMap_requestsOf hkeys hnids)
      (b := ⟨[], ∅⟩) fits_start
    fun _ _ => rfl
  refine ⟨b.flush.sent, ?_, (Batch.fits_flush hfits).sent, fun s n => ?_⟩
  · unfold syncPayloads
    rw [foldlM_requestedOrigins hshallow, hrun]
    rfl
  · rw [Batch.sent_flush, hcarried]
    rfl

/-- **Sync batching loses and duplicates nothing.** For requests with distinct origins per stream and
without keys whose check raises, every payload that is posted fits. The update for a requested
origin that the node has, under a stream key and an identifier that pass the checks, is in exactly
one of them if it fits alone. Nothing else is sent. -/
theorem sync_batches_exact (getSnapshot : C.Log → Except PyError C.Log)
    (registry : List (LocalStream C.Log))
    (hC : LogCodec.HasTexts reprFloat C) (hheld : self.Restored) {requests : Items}
    (hkeys : (requests.map Prod.fst).Nodup)
    (hnids : ∀ entry ∈ requests, ∀ nids, entry.2 = .list nids → nids.Nodup)
    (hshallow : ∀ entry ∈ requests, keyShallow self.maxNesting entry = true) :
    ∃ payloads, self.syncPayloads reprFloat getSnapshot registry requests = .ok payloads
      ∧ (∀ p ∈ payloads, ∃ size, jsonSize reprFloat (syncVal self.nodeId p) = .ok size
        ∧ size ≤ self.maxPayloadBytes)
      ∧ (∀ s nids n data, (.str s, .list nids) ∈ requests → .str n ∈ nids → canonicalKey s = true →
          validIdentifier n → self.requestedUpdate getSnapshot registry s n = some data →
          fitsSync reprFloat self s n data = true →
          (payloads.filterMap fun p => known? p s n) = [.dict data])
      ∧ ∀ s n v, v ∈ (payloads.filterMap fun p => known? p s n) →
          (∃ nids, (.str s, .list nids) ∈ requests ∧ .str n ∈ nids)
            ∧ ∃ data, v = .dict data ∧ self.requestedUpdate getSnapshot registry s n = some data
              ∧ fitsSync reprFloat self s n data = true := by
  obtain ⟨payloads, hrun, hsizes, hcarried⟩ :=
    syncPayloads_spec (hasTexts_of_restored hC hheld) hkeys hnids hshallow
  refine ⟨payloads, hrun, fun p hp => ⟨_, jsonSize_syncVal _ (hsizes p hp).1, (hsizes p hp).2⟩, ?_, ?_⟩
  · -- a request that can be answered and fits is carried by one payload
    intro s nids n data hmem hn hkey hvalid hupdate hfits
    have hpair : (s, n) ∈ requests.flatMap requestsOf :=
      List.mem_flatMap.mpr ⟨_, hmem, mem_requestsOf.mpr ⟨hkey, rfl, hn, hvalid⟩⟩
    rw [hcarried, if_pos hpair, fulfilment, hupdate]
    exact if_pos hfits
  · -- and whatever is carried answers a request
    intro s n v hv
    rw [hcarried] at hv
    split at hv
    · next hpair =>
      obtain ⟨entry, hentry, hpair⟩ := List.mem_flatMap.mp hpair
      refine ⟨?_, ?_⟩
      · obtain ⟨key, value⟩ := entry
        have hlist : ∃ streamId nids, key = .str streamId ∧ value = .list nids := by
          unfold requestsOf at hpair
          split at hpair
          · next heq =>
            cases heq
            exact ⟨_, _, rfl, rfl⟩
          · cases hpair
        obtain ⟨streamId, nids, rfl, rfl⟩ := hlist
        obtain ⟨-, rfl, hn, -⟩ := mem_requestsOf.mp hpair
        exact ⟨nids, hentry, hn⟩
      · unfold fulfilment at hv
        split at hv
        · next data hupdate =>
          split at hv
          · next hfits => exact ⟨data, List.mem_singleton.mp hv, hupdate, hfits⟩
          · cases hv
        · cases hv
    · cases hv

/-! ## Two deletions

A deletion that is requested and sent, and one whose key is too long for a stream key. -/

/-- A deletion is what a node without streams has for the request of its stream. -/
theorem requestedUpdate_of_tombstone {key : String} {names : List ℕ × List ℕ} {q : ℚ}
    (hload : Json.loadPair key.toList = some names) (hget : self.localTombstones.get? key = some q)
    (hq : 0 ≤ q) :
    self.requestedUpdate getSnapshot [] key self.nodeId = some (tombstoneData (.ofRat q)) := by
  have hlocal : self.requestedLocal getSnapshot [] key = .ok (some (tombstoneData (.ofRat q))) := by
    unfold requestedLocal
    rw [hload]
    dsimp only
    rw [hget, Option.elim_some, Option.getD_some]
    exact if_pos hq
  unfold requestedUpdate
  rw [if_pos rfl, hlocal]

theorem syncPayloads_of_long {key : String} {nids : List PyVal} (h : 1024 < key.length) :
    self.syncPayloads reprFloat getSnapshot registry [(.str key, .list nids)] = .ok [] := by
  have hshallow : ∀ entry ∈ [((.str key, .list nids) : PyKey × PyVal)],
      keyShallow self.maxNesting entry = true := by
    intro entry hentry
    rw [List.mem_singleton.mp hentry]
    exact decide_eq_true (.inl h)
  have hnone : requestsOf (.str key, .list nids) = [] := by
    rw [requestsOf, canonicalKey_of_long h]
    rfl
  unfold syncPayloads
  rw [foldlM_requestedOrigins hshallow, List.flatMap_singleton, hnone]
  rfl

namespace Starved

/-- The node that has deleted two streams, with a limit of its own. -/
def nodeWith (limit : ℕ) : ClusterManager (LogCodec.python .ternary).Log :=
  { node with maxPayloadBytes := limit }

theorem restored_nodeWith (limit : ℕ) : (nodeWith limit).Restored := by
  intro s n kept hkept
  cases hkept

theorem requestedUpdate_nodeWith {key : String} {names : List ℕ × List ℕ}
    (hload : Json.loadPair key.toList = some names)
    (hmem : (key, five.val) ∈ node.localTombstones.items) (limit : ℕ) :
    (nodeWith limit).requestedUpdate .ok [] key "node1" = some (tombstoneData (.ofRat five.val)) :=
  requestedUpdate_of_tombstone hload (Dict.get?_eq_some_iff.mpr hmem) (newer_entry key).le

theorem fitsSync_nodeWith (key : String) (limit : ℕ) :
    fitsSync reprFive (nodeWith limit) key "node1" (tombstoneData (.ofRat five.val)) = true
      ↔ payloadBase "streams" "node1" + (quoteLen key + 1 + (2 + (quoteLen "node1" + 1 + 40)))
        ≤ limit := by
  have hs : Sizable reprFive (.dict (tombstoneData (.float (.fin five)))) :=
    sizable_tombstoneData (sizable_fin _)
  rw [data_eq, fitsSync_iff hs, streamsSize_single _ _ _ hs, sizeOf_data]
  rfl

end Starved

/-- The request for the deletion with the short key is fulfilled. -/
theorem sync_batches_deletion : ∃ payloads,
    (Starved.nodeWith 1024).syncPayloads Starved.reprFive .ok []
      [(.str Starved.goneKey, .list [.str "node1"])]
        = .ok payloads
      ∧ (payloads.filterMap fun p => known? p Starved.goneKey "node1")
        = [.dict (tombstoneData (.ofRat Starved.five.val))] := by
  have hload : Json.loadPair Starved.goneKey.toList
    = some ("default".toList.map Char.toNat, "gone".toList.map Char.toNat) := by
    decide +kernel
  have hkeys : (([(.str Starved.goneKey, .list [.str "node1"])] : Items).map Prod.fst).Nodup := by simp
  obtain ⟨payloads, hrun, -, hcarried, -⟩ := sync_batches_exact .ok []
    (hasTexts_python Starved.reprFive .ternary) (Starved.restored_nodeWith 1024) hkeys (by simp)
    (by decide +kernel)
  refine ⟨payloads, hrun, ?_⟩
  refine hcarried Starved.goneKey [.str "node1"] "node1" _ (by simp) (by simp) (by decide +kernel)
    (by decide) ?_ ?_
  · exact Starved.requestedUpdate_nodeWith hload (by simp [Starved.node]) 1024
  · exact (Starved.fitsSync_nodeWith Starved.goneKey 1024).mpr (by decide +kernel)

/-- **A deletion under a long key is not sent.** It fits in a payload, but its key is no stream key. -/
theorem sync_skips_long_key :
    (Starved.nodeWith 1048576).requestedUpdate .ok [] Starved.wideKey "node1"
        = some (tombstoneData (.ofRat Starved.five.val))
      ∧ fitsSync Starved.reprFive (Starved.nodeWith 1048576) Starved.wideKey "node1"
        (tombstoneData (.ofRat Starved.five.val)) = true
      ∧ (Starved.nodeWith 1048576).syncPayloads Starved.reprFive .ok []
        [(.str Starved.wideKey, .list [.str "node1"])]
        = .ok [] := by
  obtain ⟨names, hload⟩ := Starved.loadPair_wideKey
  refine ⟨Starved.requestedUpdate_nodeWith hload (by simp [Starved.node]) _, ?_, ?_⟩
  · have hquote : quoteLen Starved.wideKey ≤ 12 * Starved.wideKey.length + 2 := Json.length_quote_le _
    have hbase : payloadBase "streams" "node1" + (quoteLen "node1" + 1 + 40) ≤ 1000 := by decide +kernel
    have hsum : ∀ base width name, width ≤ 12 * 1539 + 2 → base + (name + 1 + 40) ≤ 1000 →
        base + (width + 1 + (2 + (name + 1 + 40))) ≤ 1048576 := by
      intro base width name hwidth hrest
      omega
    rw [Starved.length_wideKey] at hquote
    exact (Starved.fitsSync_nodeWith _ _).mpr (hsum _ _ _ hquote hbase)
  · exact syncPayloads_of_long (by rw [Starved.length_wideKey]; decide)

end Sketchlog.Mesh
