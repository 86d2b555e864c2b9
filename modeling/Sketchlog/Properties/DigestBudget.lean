import Sketchlog.Refine.DigestResponse

/-!
# Responses to digests keep their budget

Every response that is built by `add_request` and `add_update` from the empty one has the size it is
said to have, and keeps to the limits (`Built.within`). The response of `handle_gossip_digest` is
built so (`built_handleGossipDigest`), whatever the state of the node and whatever the digest says.
-/

namespace Sketchlog.Mesh

open Checked

variable {reprFloat : Binary64 → List Char} {C : LogCodec} {self : ClusterManager C.Log}
    {r r' : Response}

/-- The responses that `handle_gossip_digest` goes through: each call adds a request or an update. -/
inductive Built (reprFloat : Binary64 → List Char) (node : ClusterManager C.Log) : Response → Prop
  | empty (r : Response) (h : Response.empty reprFloat node.nodeId = .ok r) : Built reprFloat node r
  | request (r r' : Response) (streamId nid : String) (built : Built reprFloat node r)
    (h : node.addRequest reprFloat r streamId nid = .ok r') : Built reprFloat node r'
  | update (r r' : Response) (streamId nid : String) (data : Items) (built : Built reprFloat node r)
    (h : node.addUpdate reprFloat r streamId nid data = .ok (some r')) : Built reprFloat node r'

/-- The size is that of the text, and the limits are kept. -/
structure Within (reprFloat : Binary64 → List Char) (node : ClusterManager C.Log) (r : Response) :
    Prop where
  exact : r.Exact reprFloat node.nodeId
  size_le : envelopeSize node.nodeId ≤ node.maxPayloadBytes → r.size ≤ node.maxPayloadBytes
  requests_le : r.requests.isEmpty = false → responseSize reprFloat node.nodeId ∅ r.requests
    ≤ node.maxPayloadBytes / 4

theorem responseSize_empty_le (reprFloat : Binary64 → List Char)
    (updates : Dict String (Dict String PyVal)) (requests : Dict String (List String))
    (nodeId : String) : responseSize reprFloat nodeId ∅ requests
      ≤ responseSize reprFloat nodeId updates requests := by
  unfold responseSize
  rw [content_empty]
  omega

theorem within_empty (h : Response.empty reprFloat self.nodeId = .ok r) : Within reprFloat self r := by
  rw [empty_eq] at h
  cases h
  exact ⟨exact_empty self.nodeId, fun hle => Int.ofNat_le.mpr hle, fun hne => by cases hne⟩

theorem within_addRequest {streamId nid : String} (h : Within reprFloat self r)
    (hadd : self.addRequest reprFloat r streamId nid = .ok r') : Within reprFloat self r' := by
  rw [addRequest_eq h.exact, Except.ok.injEq] at hadd
  split at hadd
  · next hnew =>
    -- the whole response takes a quarter of the limit at most, so its requests alone do
    subst hadd
    have hquarter := hnew.2
    refine ⟨exact_withRequest h.exact, fun _ => ?_, fun _ => ?_⟩
    · omega
    · have hle := responseSize_empty_le reprFloat r.updates
        (r.withRequest reprFloat self.nodeId streamId nid).requests self.nodeId
      have hsize : (r.withRequest reprFloat self.nodeId streamId nid).size
        = responseSize reprFloat self.nodeId
        r.updates (r.withRequest reprFloat self.nodeId streamId nid).requests := rfl
      omega
  · exact hadd ▸ h

/-- An update that is placed has a text and fits. -/
theorem addUpdate_eq_some {streamId nid : String} {data : Items} (h : r.Exact reprFloat self.nodeId)
    (hadd : self.addUpdate reprFloat r streamId nid data = .ok (some r')) :
    Sizable reprFloat (.dict data) ∧ r' = r.withUpdate reprFloat self.nodeId streamId nid data
      ∧ r'.size ≤ self.maxPayloadBytes := by
  by_cases hs : Sizable reprFloat (.dict data)
  · rw [addUpdate_eq h hs, Except.ok.injEq] at hadd
    split at hadd
    · next hfits =>
      cases hadd
      exact ⟨hs, rfl, hfits⟩
    · cases hadd
  · obtain ⟨e, herr⟩ := addUpdate_error h hs
    rw [herr] at hadd
    cases hadd

theorem within_addUpdate {streamId nid : String} {data : Items} (h : Within reprFloat self r)
    (hadd : self.addUpdate reprFloat r streamId nid data = .ok (some r')) :
      Within reprFloat self r' := by
  obtain ⟨hs, rfl, hfits⟩ := addUpdate_eq_some h.exact hadd
  exact ⟨exact_withUpdate h.exact hs, fun _ => hfits, h.requests_le⟩

/-- **Every response on the way is exact and within the limits.** -/
theorem Built.within (h : Built reprFloat self r) : Within reprFloat self r := by
  induction h with
  | empty r hempty => exact within_empty hempty
  | request r r' streamId nid built hadd ih => exact within_addRequest ih hadd
  | update r r' streamId nid data built hadd ih => exact within_addUpdate ih hadd

/-! ## The loops

By induction, a response that starts exact and within the limit stays so through every loop. -/

theorem built_requestOrigins {group : String × Dict String Binary64} (h : Built reprFloat self r)
    (hrun : self.requestOrigins reprFloat r group = .ok r') : Built reprFloat self r' := by
  refine foldlM_keeps (I := Built reprFloat self) (fun b origin b' _ hb hstep => ?_) h hrun
  split at hstep
  · cases hstep
    exact hb
  · split at hstep
    · exact .request _ _ _ _ hb hstep
    · cases hstep
      exact hb

theorem built_sendAll {β : Type} {streamId nid : β → String} {data : β → Items} {entries : List β}
    (h : Built reprFloat self r) (hrun : self.sendAll reprFloat streamId nid data entries r = .ok r') :
    Built reprFloat self r' := by
  induction entries generalizing r with
  | nil =>
    cases hrun
    exact h
  | cons entry rest ih =>
    obtain ⟨placed, hadd, hrest⟩ := bind_eq_ok.mp hrun
    cases placed with
    | some r₁ => exact ih (.update _ _ _ _ _ h hadd) hrest
    | none =>
      cases hrest
      exact h

theorem built_sendLocalStreams {getSnapshot : C.Log → Except PyError C.Log}
    {remote : Dict String (Dict String Binary64)} {registry : List (LocalStream C.Log)}
    (h : Built reprFloat self r) :
    Built reprFloat self (self.sendLocalStreams reprFloat getSnapshot remote registry r) := by
  induction registry generalizing r with
  | nil => exact h
  | cons l rest ih =>
    unfold ClusterManager.sendLocalStreams
    split
    · split
      · next r₁ hadd =>
        obtain ⟨data, -, hadd⟩ := bind_eq_ok.mp hadd
        exact ih (.update _ _ _ _ _ h hadd)
      · exact h
      · exact ih h
    · exact ih h

theorem built_handleGossipDigest {getSnapshot : C.Log → Except PyError C.Log}
    {registry : List (LocalStream C.Log)}
    {payload : Items} (hrun : self.handleGossipDigest reprFloat getSnapshot registry payload = .ok r) :
    Built reprFloat self r := by
  obtain ⟨remote, -, hrun⟩ := bind_eq_ok.mp hrun
  obtain ⟨r₀, hempty, hrun⟩ := bind_eq_ok.mp hrun
  obtain ⟨r₁, hrequests, hrun⟩ := bind_eq_ok.mp hrun
  obtain ⟨r₂, htombstones, hrun⟩ := bind_eq_ok.mp hrun
  obtain ⟨r₃, hsnapshots, hrun⟩ := bind_eq_ok.mp hrun
  have hbuilt₁ : Built reprFloat self r₁ :=
    foldlM_keeps (fun _ _ _ _ hb => built_requestOrigins hb) (.empty _ hempty) hrequests
  have hbuilt₂ : Built reprFloat self r₂ := built_sendAll (built_sendLocalStreams hbuilt₁) htombstones
  have hbuilt₃ : Built reprFloat self r₃ :=
    foldlM_keeps (fun _ _ _ _ hb => built_sendAll hb) hbuilt₂ hsnapshots
  exact foldlM_keeps (fun _ _ _ _ hb => built_sendAll hb) hbuilt₃ hrun

/-! ## The budget

For every digest the response fits the payload and its requests a quarter of it. The closed
statement places a request and an update. -/

/-- **Responses to digests keep their budget.** The response is built by `add_request` and
`add_update`, and every response built so has the size it is said to have. So it fits where the
empty one fits, and its requests, if there are any, take a quarter of the limit at most. -/
theorem digest_response_within_budget {getSnapshot : C.Log → Except PyError C.Log}
    {registry : List (LocalStream C.Log)} {payload : Items}
    (hrun : self.handleGossipDigest reprFloat getSnapshot registry payload = .ok r) :
    Built reprFloat self r
      ∧ (∀ r', Built reprFloat self r' → ∃ n : ℕ, jsonSize reprFloat (r'.toPyVal self.nodeId)
        = .ok n ∧ r'.size = n)
      ∧ (∀ empty : ℕ, jsonSize reprFloat (Response.toPyVal self.nodeId ⟨∅, ∅, 0⟩) = .ok empty →
          empty ≤ self.maxPayloadBytes →
          ∃ n, jsonSize reprFloat (r.toPyVal self.nodeId) = .ok n ∧ n ≤ self.maxPayloadBytes)
      ∧ (r.requests.isEmpty = false →
          ∃ n, jsonSize reprFloat (Response.toPyVal self.nodeId { r with updates := ∅ }) = .ok n
            ∧ n ≤ self.maxPayloadBytes / 4) := by
  have hbuilt := built_handleGossipDigest hrun
  have hwithin := hbuilt.within
  refine ⟨hbuilt, fun r' hr' => ⟨_, hr'.within.exact.jsonSize_eq, hr'.within.exact.size⟩, ?_, ?_⟩
  · -- the empty response fits, and every update is added only if it still does
    intro empty hempty hle
    have hsize : jsonSize reprFloat (Response.toPyVal self.nodeId ⟨∅, ∅, 0⟩)
      = .ok (envelopeSize self.nodeId) :=
      jsonSize_toPyVal (by simp)
    rw [hsize] at hempty
    cases hempty
    refine ⟨_, hwithin.exact.jsonSize_eq, ?_⟩
    have hfits := hwithin.size_le hle
    rw [hwithin.exact.size] at hfits
    exact_mod_cast hfits
  · -- the requests alone are held to a quarter of the payload
    intro hne
    exact ⟨_, jsonSize_toPyVal (by simp), hwithin.requests_le hne⟩

namespace Budget

def three : Binary64 := .ofInt 3 Binary64.abs_three_lt

def five : Binary64 := .ofInt 5 Binary64.abs_five_lt

/-- A node that has deleted two streams, with the least limit that is allowed. -/
def node : ClusterManager (LogCodec.python .ternary).Log where
  nodeId := "node1"
  maxPayloadBytes := 1024
  maxLocalTombstones := 2
  maxNesting := 990
  peerSnapshots := ∅
  peerTombstones := ∅
  localTombstones := ((∅ : Dict String ℚ).set "[\"default\", \"gone\"]" five.val).set
    "[\"default\", \"checkout\"]" three.val

/-- A digest that knows one of the two deletions, and two origins of a stream. -/
def digest : Items :=
  [(.str "versions", .dict
    [(.str "[\"default\", \"checkout\"]", .dict [(.str "node1", .float (.fin three))]),
      (.str "[\"default\", \"cart\"]",
        .dict [(.str "node2", .float (.fin three)), (.str "node3", .int 7)])])]

/-- The shortest texts of the two versions. -/
def shortest (x : Binary64) : List Char :=
  if x.val = three.val then "3.0".toList else "5.0".toList

/-- What is placed in a response. -/
def placed : Except PyError Response → List (String × List String) × List (String × List String)
  | .ok r => (r.requests.items, r.updates.items.map fun kv => (kv.1, kv.2.keys))
  | .error _ => ([], [])

/-- Two requests of one stream, and the deletion that the peer does not know of. -/
theorem placed_digest : placed (node.handleGossipDigest shortest .ok [] digest)
    = ([("[\"default\", \"cart\"]", ["node2", "node3"])],
      [("[\"default\", \"gone\"]", ["node1"])]) := by
  decide +kernel

end Budget

/-- A response with two requests and an update. -/
theorem digest_response_within_budget_placed :
    ∃ r, Budget.node.handleGossipDigest Budget.shortest .ok [] Budget.digest = .ok r
      ∧ r.requests.items = [("[\"default\", \"cart\"]", ["node2", "node3"])]
      ∧ r.updates.keys = ["[\"default\", \"gone\"]"]
      ∧ Built Budget.shortest Budget.node r
      ∧ (∃ n : ℕ, jsonSize Budget.shortest (r.toPyVal "node1") = .ok n ∧ r.size = n ∧ n ≤ 1024)
      ∧ ∃ n, jsonSize Budget.shortest (Response.toPyVal "node1" { r with updates := ∅ }) = .ok n
        ∧ n ≤ 1024 / 4 := by
  cases hrun : Budget.node.handleGossipDigest Budget.shortest .ok [] Budget.digest with
  | error e =>
    have hplaced := Budget.placed_digest
    rw [hrun] at hplaced
    cases hplaced
  | ok r =>
    have hplaced := Budget.placed_digest
    -- the general theorem at this digest, and what the run placed
    rw [hrun] at hplaced
    obtain ⟨hrequests, hupdates⟩ := Prod.mk.inj hplaced
    obtain ⟨hbuilt, hexact, hfits, hquarter⟩ := digest_response_within_budget hrun
    obtain ⟨n, hn, hsize⟩ := hexact r hbuilt
    obtain ⟨n', hn', hle⟩ := hfits _ (jsonSize_toPyVal (by simp)) (by decide +kernel)
    cases hn.symm.trans hn'
    refine ⟨r, rfl, hrequests, ?_, hbuilt, ⟨n, hn, hsize, hle⟩, hquarter ?_⟩
    · have hkeys := congrArg (List.map Prod.fst) hupdates
      rw [List.map_map] at hkeys
      exact hkeys
    · rw [Dict.isEmpty, hrequests]
      rfl

end Sketchlog.Mesh
