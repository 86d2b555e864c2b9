import Sketchlog.Refine.JsonSize

/-!
# The response to a digest, as it is built

`add_request` and `add_update` keep the size of the response up by differences. The differences are
exact while every group of the response has an entry and a text (`Response.Exact`), and both calls
keep it so. What they do to an exact response is then told by the size of the text: an update is
placed when the text of the response with it fits (`addUpdate_eq`), a request when it fits in a
quarter of the limit (`addRequest_cases`).
-/

namespace Sketchlog.Mesh

open Checked

variable (reprFloat : Binary64 → List Char)

/-- The size of a response without updates and requests. -/
def envelopeSize (nodeId : String) : ℕ :=
  2 + joinLen [quoteLen "node_id" + 1 + quoteLen nodeId, quoteLen "updates" + 1 + 2,
    quoteLen "requests" + 1 + 2]

/-- The size of the updates of one stream. -/
def groupSize (group : Dict String PyVal) : ℕ := sizeOf reprFloat (groupVal group)

/-- The size of the requests for one stream. -/
def nidsSize (nids : List String) : ℕ := 2 + joinLen (nids.map quoteLen)

/-- The size of a response with these updates and requests. -/
def responseSize (nodeId : String) (updates : Dict String (Dict String PyVal))
    (requests : Dict String (List String)) : ℕ :=
  envelopeSize nodeId + content (groupSize reprFloat) updates + content nidsSize requests

namespace Response

/-- Every group has an entry and a text, and the size is that of the text. -/
structure Exact (nodeId : String) (r : Response) : Prop where
  groups : ∀ streamId group, r.updates.get? streamId = some group →
    group.isEmpty = false ∧ Sizable reprFloat (groupVal group)
  nids : ∀ streamId nids, r.requests.get? streamId = some nids → nids ≠ []
  size : r.size = responseSize reprFloat nodeId r.updates r.requests

/-- The response with one more update. -/
def withUpdate (nodeId : String) (r : Response) (streamId nid : String) (data : Items) : Response :=
  let updates := r.updates.set streamId (((r.updates.get? streamId).getD ∅).set nid (.dict data))
  ⟨updates, r.requests, responseSize reprFloat nodeId updates r.requests⟩

/-- The response with one more request. -/
def withRequest (nodeId : String) (r : Response) (streamId nid : String) : Response :=
  let requests := r.requests.set streamId ((r.requests.get? streamId).getD [] ++ [nid])
  ⟨r.updates, requests, responseSize reprFloat nodeId r.updates requests⟩

end Response

variable {reprFloat} {nodeId streamId nid : String} {r : Response} {data : Items}

theorem sizeOf_nidsVal (nids : List String) : sizeOf reprFloat (nidsVal nids) = nidsSize nids :=
  sizeOf_eq (jsonSize_nidsVal nids)

/-- **The size of a response.** -/
theorem jsonSize_toPyVal (h : ∀ streamId group, r.updates.get? streamId = some group
    → Sizable reprFloat (groupVal group)) :
    jsonSize reprFloat (r.toPyVal nodeId)
      = .ok (responseSize reprFloat nodeId r.updates r.requests) := by
  -- the two dictionaries of the response and its node id, each with its size
  have hupdates : jsonSize reprFloat (dictVal groupVal r.updates)
    = .ok (2 + content (groupSize reprFloat) r.updates) :=
    jsonSize_dictVal h
  have hrequests : jsonSize reprFloat (dictVal nidsVal r.requests)
    = .ok (2 + content nidsSize r.requests) := by
    rw [jsonSize_dictVal fun _ nids _ => ⟨_, jsonSize_nidsVal nids⟩]
    simp only [sizeOf_nidsVal]
  have hsizable : ∀ kv ∈ [("node_id", PyVal.str nodeId), ("updates", dictVal groupVal r.updates),
      ("requests", dictVal nidsVal r.requests)], Sizable reprFloat (id kv.2) := by
    intro kv hkv
    simp only [List.mem_cons, List.not_mem_nil, or_false] at hkv
    rcases hkv with rfl | rfl | rfl
    · exact ⟨_, jsonSize_str nodeId⟩
    · exact ⟨_, hupdates⟩
    · exact ⟨_, hrequests⟩
  refine (jsonSize_items id _ hsizable).trans (congrArg Except.ok ?_)
  -- what is left is the envelope, two separators and three keys
  simp only [List.map_cons, List.map_nil, id, sizeOf_eq (jsonSize_str nodeId), sizeOf_eq hupdates,
    sizeOf_eq hrequests]
  simp only [responseSize, envelopeSize, joinLen, List.sum_cons, List.sum_nil, List.length_cons,
    List.length_nil]
  omega

theorem Response.Exact.jsonSize_eq (h : r.Exact reprFloat nodeId) :
    jsonSize reprFloat (r.toPyVal nodeId) = .ok (responseSize reprFloat nodeId r.updates r.requests) :=
  jsonSize_toPyVal fun streamId group hget => (h.groups streamId group hget).2

/-! ## The empty response -/

theorem empty_eq (nodeId : String) :
    Response.empty reprFloat nodeId = .ok ⟨∅, ∅, envelopeSize nodeId⟩ := by
  have hsize : jsonSize reprFloat (Response.toPyVal nodeId ⟨∅, ∅, 0⟩) = .ok (envelopeSize nodeId) :=
    jsonSize_toPyVal (by simp)
  unfold Response.empty
  refine bind_eq_ok.mpr ⟨_, hsize, ?_⟩
  rfl

theorem exact_empty (nodeId : String) :
    Response.Exact reprFloat nodeId ⟨∅, ∅, envelopeSize nodeId⟩ where
  groups := by simp
  nids := by simp
  size := rfl

/-! ## `add_update`

The update is placed if the size that the code carries along stays within the limit.
`exact_withUpdate` shows that this size is the one of the response. -/

theorem isEmpty_set {β : Type} (d : Dict String β) (k : String) (v : β) :
    (d.set k v).isEmpty = false := by
  rw [Bool.eq_false_iff]
  intro hempty
  have hnone := Dict.isEmpty_iff_get?.mp hempty k
  rw [Dict.get?_set_self] at hnone
  cases hnone

theorem exists_get?_of_isEmpty {β : Type} {d : Dict String β} (h : d.isEmpty = false) :
    ∃ k v, d.get? k = some v := by
  by_contra hnone
  push Not at hnone
  have hempty := Dict.isEmpty_iff_get?.mpr fun k => Option.eq_none_iff_forall_ne_some.mpr (hnone k)
  rw [h] at hempty
  cases hempty

/-- **The difference is exact.** What stands under a key becomes `new`: a present group is replaced,
an empty one was not there. -/
theorem entryDelta_eq {β : Type} {value : β → PyVal} {d : Dict String β} {current new : β}
    {present : Bool}
    (hcurrent : Sizable reprFloat (value current)) (hnew : Sizable reprFloat (value new))
    (hget : d.get? streamId = if present then some current else none) :
    ClusterManager.entryDelta reprFloat d streamId present (value current) (value new)
      = .ok ((content (fun v => sizeOf reprFloat (value v)) (d.set streamId new) : ℤ)
          - content (fun v => sizeOf reprFloat (value v)) d) := by
  unfold ClusterManager.entryDelta
  refine bind_eq_ok.mpr ⟨_, hnew.jsonSize_eq, ?_⟩
  cases present with
  | true =>
    have hset := content_set_of_get? (fun v => sizeOf reprFloat (value v)) new hget
    refine bind_eq_ok.mpr ⟨_, hcurrent.jsonSize_eq, congrArg Except.ok ?_⟩
    omega
  | false =>
    have hset := content_set_of_none (fun v => sizeOf reprFloat (value v)) new hget
    refine bind_eq_ok.mpr ⟨_, jsonSize_str streamId, congrArg Except.ok ?_⟩
    rw [hset]
    split
    · push_cast
      ring
    · push_cast
      ring

variable {C : LogCodec} {self : ClusterManager C.Log}

/-- The group an update goes to, with the update. -/
def candidateGroup (r : Response) (streamId nid : String) (data : Items) : Dict String PyVal :=
  ((r.updates.get? streamId).getD ∅).set nid (.dict data)

theorem sizable_current (h : r.Exact reprFloat nodeId) (streamId : String) :
    Sizable reprFloat (groupVal ((r.updates.get? streamId).getD ∅)) := by
  cases hget : r.updates.get? streamId with
  | none => exact sizable_dictVal.mpr (by simp)
  | some group => exact (h.groups streamId group hget).2

/-- A group has a text with one more entry exactly when the entry has one. -/
theorem sizable_group_set {group : Dict String PyVal} (h : Sizable reprFloat (groupVal group))
    (nid : String) (v : PyVal) :
    Sizable reprFloat (groupVal (group.set nid v)) ↔ Sizable reprFloat v := by
  constructor
  · intro hs
    exact sizable_dictVal.mp hs nid v Dict.get?_set_self
  · intro hs
    refine sizable_dictVal.mpr fun k w hget => ?_
    rw [Dict.get?_set] at hget
    split at hget
    · cases hget
      exact hs
    · exact sizable_dictVal.mp h k w hget

theorem sizable_candidateGroup (h : r.Exact reprFloat nodeId) (streamId nid : String) (data : Items) :
    Sizable reprFloat (groupVal (candidateGroup r streamId nid data))
      ↔ Sizable reprFloat (.dict data) :=
  sizable_group_set (sizable_current h streamId) nid (.dict data)

theorem get?_updates_eq (h : r.Exact reprFloat nodeId) (streamId : String) :
    r.updates.get? streamId = if !((r.updates.get? streamId).getD ∅).isEmpty then
      some ((r.updates.get? streamId).getD ∅) else none := by
  cases hget : r.updates.get? streamId with
  | none => rfl
  | some group => simp [(h.groups streamId group hget).1]

/-- **`add_update`.** An update is placed when the text of the response with it fits. -/
theorem addUpdate_eq (h : r.Exact reprFloat self.nodeId) (hs : Sizable reprFloat (.dict data)) :
    self.addUpdate reprFloat r streamId nid data
      = .ok (if (r.withUpdate reprFloat self.nodeId streamId nid data).size ≤ self.maxPayloadBytes then
          some (r.withUpdate reprFloat self.nodeId streamId nid data) else none) := by
  have hdelta := entryDelta_eq (sizable_current h streamId)
    ((sizable_candidateGroup h streamId nid data).mpr hs)
    (get?_updates_eq h streamId)
  refine bind_eq_ok.mpr ⟨_, hdelta, ?_⟩
  have hsize : r.size + ((content (fun g => sizeOf reprFloat (groupVal g))
        (r.updates.set streamId (candidateGroup r streamId nid data)) : ℤ)
      - content (fun g => sizeOf reprFloat (groupVal g)) r.updates)
      = (r.withUpdate reprFloat self.nodeId streamId nid data).size := by
    rw [h.size]
    show (responseSize reprFloat self.nodeId r.updates r.requests : ℤ)
      + (content (groupSize reprFloat) _
      - content (groupSize reprFloat) r.updates) = responseSize reprFloat self.nodeId _ r.requests
    rw [responseSize, responseSize, candidateGroup]
    push_cast
    ring
  rw [hsize]
  by_cases hfits : (r.withUpdate reprFloat self.nodeId streamId nid data).size ≤ self.maxPayloadBytes
  · rw [if_pos hfits, if_neg (by omega)]
    rfl
  · rw [if_neg hfits, if_pos (by omega)]

theorem exact_withUpdate (h : r.Exact reprFloat nodeId) (hs : Sizable reprFloat (.dict data)) :
    (r.withUpdate reprFloat nodeId streamId nid data).Exact reprFloat nodeId where
  groups := by
    intro k group hget
    change (r.updates.set streamId (candidateGroup r streamId nid data)).get? k = some group at hget
    rw [Dict.get?_set] at hget
    split at hget
    · cases hget
      exact ⟨isEmpty_set _ _ _, (sizable_candidateGroup h _ _ _).mpr hs⟩
    · exact h.groups k group hget
  nids := h.nids
  size := rfl

/-- An update without a text raises. -/
theorem addUpdate_error (h : r.Exact reprFloat self.nodeId) (hs : ¬ Sizable reprFloat (.dict data)) :
    ∃ e, self.addUpdate reprFloat r streamId nid data = .error e := by
  cases hadd : self.addUpdate reprFloat r streamId nid data with
  | error e => exact ⟨e, rfl⟩
  | ok placed =>
    obtain ⟨delta, hdelta, -⟩ := bind_eq_ok.mp hadd
    obtain ⟨n, hn, -⟩ := bind_eq_ok.mp hdelta
    exact absurd ((sizable_candidateGroup h _ _ _).mp ⟨n, hn⟩) hs

/-! ## `add_request`

The same for the requests, against their own limit. -/

theorem exact_withRequest (h : r.Exact reprFloat nodeId) :
    (r.withRequest reprFloat nodeId streamId nid).Exact reprFloat nodeId where
  groups := h.groups
  nids := by
    intro k nids hget
    change (r.requests.set streamId _).get? k = some nids at hget
    rw [Dict.get?_set] at hget
    split at hget
    · cases hget
      simp
    · exact h.nids k nids hget
  size := rfl

theorem get?_requests_eq (h : r.Exact reprFloat nodeId) (streamId : String) :
    r.requests.get? streamId = if !((r.requests.get? streamId).getD []).isEmpty then
      some ((r.requests.get? streamId).getD []) else none := by
  cases hget : r.requests.get? streamId with
  | none => rfl
  | some nids => simp [h.nids streamId nids hget]

/-- **`add_request`.** A request is placed when it is new and the text of the response with it takes
a quarter of the limit at most. -/
theorem addRequest_eq (h : r.Exact reprFloat self.nodeId) :
    self.addRequest reprFloat r streamId nid
      = .ok (if nid ∉ (r.requests.get? streamId).getD []
            ∧ (r.withRequest reprFloat self.nodeId streamId nid).size
              ≤ (self.maxPayloadBytes / 4 : ℕ) then
          r.withRequest reprFloat self.nodeId streamId nid else r) := by
  have hnids : ∀ nids, Sizable reprFloat (nidsVal nids) := fun nids => ⟨_, jsonSize_nidsVal nids⟩
  -- the size that the code carries along is the size of the new response
  have hdelta := entryDelta_eq (hnids _) (hnids ((r.requests.get? streamId).getD [] ++ [nid]))
    (get?_requests_eq h streamId)
  have hsize : r.size + ((content (fun nids => sizeOf reprFloat (nidsVal nids))
        (r.requests.set streamId ((r.requests.get? streamId).getD [] ++ [nid])) : ℤ)
      - content (fun nids => sizeOf reprFloat (nidsVal nids)) r.requests)
      = (r.withRequest reprFloat self.nodeId streamId nid).size := by
    rw [h.size]
    simp only [Response.withRequest, responseSize, sizeOf_nidsVal]
    push_cast
    ring
  -- a name that is asked for already is not asked for again
  by_cases hmem : nid ∈ (r.requests.get? streamId).getD []
  · rw [if_neg (fun hnew => hnew.1 hmem)]
    exact if_pos hmem
  · refine (if_neg hmem).trans (bind_eq_ok.mpr ⟨_, hdelta, ?_⟩)
    show (if r.size + _ > _ then Except.ok r else .ok ⟨_, _, r.size + _⟩) = _
    rw [hsize]
    by_cases hfits : (r.withRequest reprFloat self.nodeId streamId nid).size
      ≤ (self.maxPayloadBytes / 4 : ℕ)
    · rw [if_neg (not_lt.mpr hfits), if_pos ⟨hmem, hfits⟩]
      rfl
    · rw [if_pos (not_le.mp hfits), if_neg (fun hnew => hfits hnew.2)]

end Sketchlog.Mesh
