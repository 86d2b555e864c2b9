import Sketchlog.Lib.Runs
import Sketchlog.Properties.Membership
import Sketchlog.Refine.MembershipSteps

/-!
# The membership table over whole runs

In every run of pings, answers, failures and timeout checks the node's own entry is there, alive, at the
node's incarnation, which never falls; a rumour that the node is suspect or dead is refuted, unless
the node's own identifier is one that its checks do not let through.

Entries of other nodes are taken over from payloads with the address they come with, or without one.
Choosing whom to ping or to gossip with then fails. All entries stay complete as long as no entry
without an address is taken over.
-/

namespace Sketchlog.Mesh

open Imperative Runs

variable {urlsplit : String → Except PyError SplitResult} {C : LogCodec}

/-- The node has just been constructed. -/
def Running.Start (urlsplit : String → Except PyError SplitResult) {Log : Type} (s : Running Log) :
    Prop :=
  s.pings = [] ∧ ∃ nodeId peers advertisedAddress peerAllowlist heartbeatTimeout now,
    s.node.toMembership
      = Membership.new urlsplit nodeId peers advertisedAddress peerAllowlist heartbeatTimeout now

/-- The entries of the payload that a step merges. -/
def Running.Action.entries : Running.Action → Option Items
  | .handlePing payload _ =>
    match Membership.payloadMembers payload with
    | .ok (some (.dict entries)) => some entries
    | _ => none
  | .mergeAnswer _ answer _ =>
    match answer.lookup (.str "members") with
    | some (.dict entries) => some entries
    | _ => none
  | _ => none

/-- A payload that calls the node suspect or dead. -/
def Running.Action.Calls (nodeId : String) (incarnation : ℤ) (a : Running.Action) : Prop :=
  ∃ entries, a.entries = some entries ∧ ∃ e ∈ entries, Membership.Calls nodeId incarnation e

namespace Running

/-! ## Construction -/

theorem kept_addSeed (urlsplit : String → Except PyError SplitResult) (now : String → Binary64)
    {m : Membership} (hinc : m.incarnation = 0) (p : String) :
    (m.OwnAlive → (Membership.addSeed urlsplit now m p).OwnAlive)
      ∧ (Membership.addSeed urlsplit now m p).incarnation = 0 := by
  unfold Membership.addSeed
  split
  · next baseUrl _ =>
    split_ifs
    · refine ⟨?_, hinc⟩
      intro ⟨own, hown, halive, howninc⟩
      by_cases hseed : s!"seed-{p}" = m.nodeId
      · -- a seed under the node's own name: it is alive at the incarnation 0
        refine ⟨⟨some (.str baseUrl), .alive, 0, now s!"seed-{p}", .bool true⟩, ?_, rfl, hinc.symm⟩
        show (m.members.set s!"seed-{p}" _).get? m.nodeId = _
        rw [hseed]
        exact Dict.get?_set_self
      · exact ⟨own, (Dict.get?_set_of_ne (Ne.symm hseed)).trans hown, halive, howninc⟩
    · exact ⟨id, hinc⟩
  · exact ⟨id, hinc⟩

theorem ownAlive_new (urlsplit : String → Except PyError SplitResult) (nodeId : String)
    (peers : List String) (advertisedAddress : Option String)
    (peerAllowlist : Option (List String)) (heartbeatTimeout : Binary64) (now : String → Binary64) :
    (Membership.new urlsplit nodeId peers advertisedAddress peerAllowlist heartbeatTimeout now).OwnAlive
      ∧ (Membership.new urlsplit nodeId peers advertisedAddress peerAllowlist heartbeatTimeout
        now).incarnation
        = 0 := by
  have hseeds : ∀ (ps : List String) (m : Membership), m.OwnAlive → m.incarnation = 0 →
      (ps.foldl (Membership.addSeed urlsplit now) m).OwnAlive
        ∧ (ps.foldl (Membership.addSeed urlsplit now) m).incarnation = 0 := by
    intro ps
    induction ps with
    | nil => exact fun m hown hinc => ⟨hown, hinc⟩
    | cons p ps ih =>
      intro m hown hinc
      obtain ⟨hown', hinc'⟩ := kept_addSeed urlsplit now hinc p
      exact ih _ (hown' hown) hinc'
  exact hseeds peers _ ⟨_, Dict.get?_set_self, rfl, rfl⟩ rfl

/-! ## Steps

The invariant holds from construction on and over every action of a node. -/

variable {s s' : Running C.Log} {a : Action}

theorem kept_withMembership {m : Membership} (h : Membership.Kept s.node.toMembership m) :
    Membership.Kept s.node.toMembership (s.node.withMembership m).toMembership where
  nodeId := rfl
  ownAlive := by
    intro hown
    obtain ⟨own, hget, halive, hinc⟩ := h.ownAlive hown
    exact ⟨own, h.nodeId ▸ hget, halive, hinc⟩
  incarnation := h.incarnation
  size := h.size

/-- Nobody pings itself. -/
def PingsOthers (s : Running C.Log) : Prop := ∀ ping ∈ s.pings, ping.nid ≠ s.node.nodeId

/-- **What every step keeps.** -/
theorem step_kept (hothers : s.PingsOthers) (hstep : step urlsplit C s a = some s') :
    Membership.Kept s.node.toMembership s'.node.toMembership ∧ s'.PingsOthers := by
  cases a with
  | handlePing payload now =>
    cases hstep
    exact ⟨kept_withMembership (Membership.kept_handlePing payload), hothers⟩
  | sendPing nid =>
    rw [step] at hstep
    split at hstep
    · next info hlookup =>
      split at hstep
      · split_ifs at hstep
        cases hstep
        refine ⟨Membership.Kept.refl _, fun ping hping => ?_⟩
        rcases List.mem_append.mp hping with hping | hping
        · exact hothers ping hping
        · -- a candidate is another node
          rw [List.mem_singleton.mp hping]
          have hmem : (nid, info) ∈ s.node.toMembership.pingCandidates := by
            obtain ⟨before, rest, heq, -⟩ := List.lookup_eq_some_iff.mp hlookup
            rw [heq]
            exact List.mem_append_right _ List.mem_cons_self
          exact (of_decide_eq_true (List.mem_filter.mp hmem).2).1
      · cases hstep
    · cases hstep
  | mergeAnswer i answer now =>
    rw [step] at hstep
    split at hstep
    · next nid isSeed members hping hmembers =>
      cases hstep
      refine ⟨kept_withMembership (Membership.kept_foldl_mergeEntry members), fun ping hmem => ?_⟩
      rcases List.mem_or_eq_of_mem_set hmem with hmem | rfl
      · exact hothers ping hmem
      · exact hothers ⟨nid, isSeed, false⟩ (List.mem_of_getElem? hping)
    · cases hstep
      exact ⟨Membership.Kept.refl _, fun ping hmem => hothers ping (List.mem_of_mem_eraseIdx hmem)⟩
    · cases hstep
  | endPing i =>
    rw [step] at hstep
    split at hstep
    · next nid isSeed hping =>
      cases hstep
      have hnid : nid ≠ s.node.nodeId := hothers _ (List.mem_of_getElem? hping)
      refine ⟨?_, fun ping hmem => ?_⟩
      · show Membership.Kept _ (if truthy isSeed = true then _ else _ : Node _).toMembership
        split_ifs
        · exact kept_withMembership (Membership.kept_dropSeed hnid)
        · exact Membership.Kept.refl _
      · have hid : (if truthy isSeed = true then
          s.node.withMembership (s.node.toMembership.dropSeed nid)
            else s.node).nodeId = s.node.nodeId := by split_ifs <;> rfl
        exact hid ▸ hothers ping (List.mem_of_mem_eraseIdx hmem)
    · cases hstep
  | failPing i now =>
    rw [step] at hstep
    split at hstep
    · next nid isSeed hping =>
      cases hstep
      have hnid : nid ≠ s.node.nodeId := hothers _ (List.mem_of_getElem? hping)
      exact ⟨kept_withMembership (Membership.kept_suspectMember hnid),
        fun ping hmem => hothers ping (List.mem_of_mem_eraseIdx hmem)⟩
    · cases hstep
  | checkTimeouts now =>
    cases hstep
    refine ⟨Node.kept_checkTimeouts s.node now, fun ping hmem => ?_⟩
    exact (Node.timedOut s.node now).nodeId ▸ hothers ping hmem
  | receive delivery =>
    cases hstep
    exact ⟨⟨rfl, id, le_rfl, le_max_right _ _⟩, hothers⟩

/-- A rumour that the step merges is refuted. -/
theorem lt_incarnation_of_calls {incarnation : ℤ} (hid : validIdentifier s.node.nodeId)
    (hpos : 0 ≤ s.node.incarnation) (hcalls : a.Calls s.node.nodeId incarnation)
    (hstep : step urlsplit C s a = some s') : incarnation < s'.node.incarnation := by
  obtain ⟨entries, hentries, hrumour⟩ := hcalls
  -- entries come with a ping or with the answer to one, and with nothing else
  cases a with
  | handlePing payload now =>
    cases hstep
    show incarnation < (after (Membership.handlePing urlsplit now payload)
      s.node.toMembership).incarnation
    have hpayload : Membership.payloadMembers payload = .ok (some (.dict entries)) := by
      simp only [Action.entries] at hentries
      split at hentries
      · next members hmembers =>
        cases hentries
        exact hmembers
      · cases hentries
    rw [Membership.after_handlePing, hpayload]
    -- touching the node's own clock changes neither its name nor its incarnation
    have hkept : Membership.Kept s.node.toMembership
      (s.node.toMembership.touchSelf (now s.node.nodeId)) :=
      Membership.kept_touchSelf _
    show incarnation < (entries.foldl (Membership.mergeEntry urlsplit now)
      (s.node.toMembership.touchSelf (now s.node.nodeId))).incarnation
    exact Membership.lt_incarnation_foldl (hkept.nodeId ▸ hid) (hpos.trans hkept.incarnation)
      (hkept.nodeId ▸ hrumour)
  | mergeAnswer i answer now =>
    simp only [Action.entries] at hentries
    split at hentries
    · next members hmembers =>
      cases hentries
      simp only [step, hmembers] at hstep
      split at hstep
      · next heq =>
        cases heq
        cases hstep
        exact Membership.lt_incarnation_foldl hid hpos hrumour
      · next _ heq => cases heq
      · cases hstep
    · cases hentries
  | _ => cases hentries

/-- The invariant of a run from `s₀`. -/
structure Invariant (s₀ r : Running C.Log) : Prop where
  ownAlive : r.node.toMembership.OwnAlive
  nodeId : r.node.nodeId = s₀.node.nodeId
  incarnation : 0 ≤ r.node.incarnation
  size : r.node.members.size ≤ max maxMembers s₀.node.members.size
  others : r.PingsOthers

theorem Start.invariant (h : s.Start urlsplit) : Invariant s s := by
  obtain ⟨hpings, nodeId, peers, advertised, allowlist, timeout, now, hnew⟩ := h
  have hown := ownAlive_new urlsplit nodeId peers advertised allowlist timeout now
  rw [← hnew] at hown
  refine ⟨hown.1, rfl, hown.2.ge, le_max_right _ _, fun ping hping => ?_⟩
  rw [hpings] at hping
  exact absurd hping List.not_mem_nil

theorem Invariant.step {s₀ : Running C.Log} (h : Invariant s₀ s)
    (hstep : step urlsplit C s a = some s') :
    Invariant s₀ s' := by
  obtain ⟨hkept, hothers⟩ := step_kept h.others hstep
  exact ⟨hkept.ownAlive h.ownAlive, hkept.nodeId.trans h.nodeId, h.incarnation.trans hkept.incarnation,
    hkept.size.trans (max_le (le_max_left _ _) h.size), hothers⟩

end Running

open Running

/-- **A node always refutes rumours about itself.** In every run from construction: the node's own
entry is there, alive, at its incarnation; the table has at most `MAX_MEMBERS` members, or as many
as it had at construction; and in the next step, whatever it is, the incarnation does not fall, and
if a payload calls the node suspect or dead at an incarnation `i` it gets above `i`, for a node
whose identifier is valid. -/
theorem node_refutes_rumours (urlsplit : String → Except PyError SplitResult) (C : LogCodec)
    {s₀ s : Running C.Log} {as : List Action} (h₀ : s₀.Start urlsplit)
    (hrun : run (Running.step urlsplit C) s₀ as = some s) :
    s.node.toMembership.OwnAlive ∧ s.node.members.size ≤ max maxMembers s₀.node.members.size
      ∧ ∀ a s', Running.step urlsplit C s a = some s' →
        s.node.incarnation ≤ s'.node.incarnation
        ∧ ∀ i, validIdentifier s.node.nodeId → a.Calls s.node.nodeId i → i < s'.node.incarnation := by
  have hinv : Running.Invariant s₀ s :=
    run_invariant (fun _ _ _ h _ hstep => h.step hstep) h₀.invariant meets_true hrun
  refine ⟨hinv.ownAlive, hinv.size, fun a s' hstep => ⟨(step_kept hinv.others hstep).1.incarnation, ?_⟩⟩
  exact fun i hid hcalls => lt_incarnation_of_calls hid hinv.incarnation hcalls hstep

/-- A node with no peers, under the given name. -/
def Running.alone (nodeId : String) : Running (LogCodec.python .ternary).Log where
  node :=
    { Membership.new noUrl nodeId [] none none (.ofInt 60 Binary64.abs_sixty_lt) (fun _ =>
      .ofInt 0 Binary64.abs_zero_lt) with
      maxPayloadBytes := 1024
      maxLocalTombstones := 1
      maxNesting := 990
      peerSnapshots := ∅
      peerTombstones := ∅
      localTombstones := ∅ }
  pings := []

theorem Running.start_alone (nodeId : String) : (Running.alone nodeId).Start noUrl :=
  ⟨rfl, nodeId, [], none, none, .ofInt 60 Binary64.abs_sixty_lt, fun _ =>
    .ofInt 0 Binary64.abs_zero_lt, rfl⟩

/-- A payload that calls a node dead at the incarnation 0. -/
def Running.Action.callsDead (nodeId : String) : Action :=
  .handlePing (.dict [(.str "members", .dict [(.str nodeId,
    .dict [(.str "address", .str ""), (.str "status", .str "dead"), (.str "incarnation", .int 0)])])])
    fun _ => .ofInt 5 Binary64.abs_five_lt

theorem Running.Action.callsDead_calls (nodeId : String) : (Action.callsDead nodeId).Calls nodeId 0 :=
  ⟨_, rfl, _, List.mem_cons_self, _, rfl, .inr rfl, rfl⟩

/-- The first rumour about a node. -/
theorem node_refutes_rumours_first : ∃ s', Running.step noUrl (.python .ternary) (.alone "node1")
    (.callsDead "node1") = some s' ∧ 0 < s'.node.incarnation := by
  obtain ⟨-, -, hnext⟩ := node_refutes_rumours noUrl (.python .ternary) (Running.start_alone "node1")
    (rfl : run (Running.step noUrl (.python .ternary)) (.alone "node1") [] = some (.alone "node1"))
  exact ⟨_, rfl, (hnext (.callsDead "node1") _ rfl).2 0 (by decide) (Action.callsDead_calls "node1")⟩

/-- A node of a name that is not valid does not hear the rumour. -/
theorem Running.step_callsDead {nodeId : String} (h : nodeId = "" ∨ 255 < nodeId.length) :
    ∃ s', Running.step noUrl (.python .ternary) (.alone nodeId) (.callsDead nodeId) = some s'
      ∧ s'.node.incarnation = 0 := by
  refine ⟨_, rfl, ?_⟩
  show (after (Membership.handlePing noUrl _ _)
    (Running.alone nodeId).node.toMembership).incarnation = 0
  have hpayload : Membership.payloadMembers (.dict [(.str "members", .dict [(.str nodeId,
      .dict [(.str "address", .str ""), (.str "status", .str "dead"), (.str "incarnation", .int 0)])])])
      = .ok (some (.dict [(.str nodeId, .dict [(.str "address", .str ""), (.str "status", .str "dead"),
        (.str "incarnation", .int 0)])])) := rfl
  rw [Membership.after_handlePing, hpayload]
  simp only [List.foldl_cons, List.foldl_nil, Membership.mergeEntry, if_pos h, Membership.touchSelf]
  split <;> rfl

/-- A name of 256 characters. -/
@[irreducible]
def Running.longName : String := String.ofList (List.replicate 256 'n')

/-- Under a name of 256 characters the node is called dead, and keeps its incarnation. -/
theorem long_name_refutes_nothing :
    (Running.alone Running.longName).Start noUrl
      ∧ (Action.callsDead Running.longName).Calls Running.longName 0
      ∧ ∃ s', Running.step noUrl (.python .ternary) (.alone Running.longName)
        (.callsDead Running.longName)
          = some s'
        ∧ s'.node.incarnation = 0 := by
  have hlength : Running.longName.length = 256 := by
    unfold Running.longName
    exact String.length_ofList.trans List.length_replicate
  have hlong : Running.longName = "" ∨ 255 < Running.longName.length := .inr (by omega)
  exact ⟨Running.start_alone _, Action.callsDead_calls _, Running.step_callsDead hlong⟩

/-! ## Complete entries

An entry without an address makes the next round of pings raise. Entries come from seeds, from peers
and from payloads; the condition is on the payloads. -/

namespace Membership

variable {m m' : Membership} {now : String → Binary64} {nid n : String} {info : Member}

/-- Every entry has an address; the other keys an entry always has. -/
def Complete (m : Membership) : Prop := ∀ n info, m.members.get? n = some info → info.address.isSome

/-- Every entry of a payload that would be taken over has an address. -/
def CompleteEntries (m : Membership) (entries : Items) : Prop :=
  ∀ nid info status incarnation, (.str nid, .dict info) ∈ entries → validIdentifier nid →
    nid ≠ m.nodeId → readInfo info = some (status, incarnation) → m.Taken nid incarnation →
    (info.lookup (.str "address")).isSome

theorem Complete.of_set (h : m.Complete) (hset : m'.members = m.members.set nid info)
    (hinfo : info.address.isSome) : m'.Complete := by
  intro n info' hget
  rw [hset, Dict.get?_set] at hget
  split at hget
  · cases hget
    exact hinfo
  · exact h n info' hget

theorem Complete.adopt (h : m.Complete) (htaken : m.Taken nid info.incarnation → info.address.isSome) :
    (m.adopt nid info).Complete := by
  rcases adopt_cases m nid info with heq | ⟨hnew, heq⟩ | ⟨known, hknown, heq⟩
  · rw [heq]
    exact h
  · rw [heq]
    exact h.of_set rfl (htaken hnew)
  · rw [heq]
    exact h.of_set rfl (h nid known hknown)

theorem Complete.refute {time : Binary64} {status : Status} {incarnation : ℤ} (h : m.Complete) :
    (m.refute time status incarnation).Complete := by
  unfold Membership.refute
  split_ifs
  · cases hown : m.members.get? m.nodeId with
    | none => exact h
    | some own => exact h.of_set rfl (h m.nodeId own hown)
  · exact h

theorem Complete.touchSelf {time : Binary64} (h : m.Complete) : (m.touchSelf time).Complete := by
  unfold Membership.touchSelf
  cases hown : m.members.get? m.nodeId with
  | none => exact h
  | some own => exact h.of_set rfl (h m.nodeId own hown)

theorem Complete.suspectMember {time : Binary64} (h : m.Complete) :
    (m.suspectMember nid time).Complete := by
  unfold Membership.suspectMember
  cases hget : m.members.get? nid with
  | none => exact h
  | some info =>
    show Complete (if info.status = .alive then _ else _)
    split_ifs
    · exact h.of_set rfl (h nid info hget)
    · exact h

theorem Complete.dropSeed (h : m.Complete) : (m.dropSeed nid).Complete := by
  intro n info hget
  change (m.members.pop nid).get? n = some info at hget
  rw [Dict.get?_pop] at hget
  split at hget
  · cases hget
  · exact h n info hget

/-- An entry that has an address is kept with one. -/
theorem isSome_entryAddress {info : Items} {address : Option PyVal}
    (h : m.entryAddress urlsplit info = some address) (hsome : (info.lookup (.str "address")).isSome) :
    address.isSome := by
  unfold entryAddress at h
  simp only at h
  split_ifs at h
  · obtain ⟨a, -, rfl⟩ := Option.map_eq_some_iff.mp h
    rfl
  · cases h
    exact hsome

/-- What would be taken over later would have been taken over before. -/
def Grows (m m' : Membership) : Prop :=
  m'.nodeId = m.nodeId ∧ ∀ n incarnation, n ≠ m.nodeId → m'.Taken n incarnation → m.Taken n incarnation

theorem CompleteEntries.of_grows {entries : Items} (h : m.CompleteEntries entries)
    (hgrows : Grows m m') :
    m'.CompleteEntries entries := by
  intro nid info status incarnation hmem hvalid hnid hread htaken
  rw [hgrows.1] at hnid
  exact h nid info status incarnation hmem hvalid hnid hread (hgrows.2 nid incarnation hnid htaken)

theorem grows_setMember (hnid : m.Taken nid info.incarnation ∨ ∃ known, m.members.get? nid = some known
      ∧ known.incarnation = info.incarnation) : Grows m (m.setMember nid info) := by
  refine ⟨rfl, fun n incarnation hn htaken => ?_⟩
  unfold Taken at htaken hnid ⊢
  have hget : (m.setMember nid info).members.get? n = if n = nid then some info else m.members.get? n :=
    Dict.get?_set
  have hsize : m.members.size ≤ (m.setMember nid info).members.size := by
    show m.members.size ≤ (m.members.set nid info).size
    rw [Dict.size_set]
    split <;> omega
  rw [hget] at htaken
  by_cases h : n = nid
  · subst h
    rw [if_pos rfl] at htaken
    cases hknown : m.members.get? n with
    | none =>
      rw [hknown] at hnid
      exact hnid.resolve_right fun ⟨_, hsome, _⟩ => by cases hsome
    | some known =>
      rw [hknown] at hnid
      -- a known entry is replaced by one of a higher incarnation, or keeps its own
      have hle : known.incarnation ≤ info.incarnation := by
        rcases hnid with hlt | ⟨known', hsome, heq⟩
        · exact le_of_lt hlt
        · cases hsome
          exact heq.le
      exact lt_of_le_of_lt hle htaken
  · rw [if_neg h] at htaken
    cases hknown : m.members.get? n with
    | none =>
      rw [hknown] at htaken
      exact lt_of_le_of_lt hsize htaken
    | some known =>
      rw [hknown] at htaken
      exact htaken

theorem grows_refute {time : Binary64} {status : Status} {incarnation : ℤ} :
    Grows m (m.refute time status incarnation) := by
  unfold refute
  split_ifs
  · refine ⟨rfl, fun n i hn htaken => ?_⟩
    unfold Taken at htaken ⊢
    cases hown : m.members.get? m.nodeId with
    | none =>
      simp only [hown] at htaken
      exact htaken
    | some own =>
      simp only [hown, Dict.get?_set_of_ne hn, Dict.size_set,
        if_pos (Dict.mem_keys_of_get? hown)] at htaken
      exact htaken
  · exact ⟨rfl, fun _ _ _ => id⟩

/-- One entry of a payload, when what is taken over has an address. -/
theorem Complete.mergeEntry {entry : PyKey × PyVal} {rest : Items} (h : m.Complete)
    (hentries : m.CompleteEntries (entry :: rest)) :
    (mergeEntry urlsplit now m entry).Complete ∧ Grows m (mergeEntry urlsplit now m entry) := by
  rcases @mergeEntry_cases urlsplit now m entry with heq | ⟨time, status, incarnation, heq⟩
    | ⟨nid, info, status, incarnation, address, hentry, hvalid, hnid, hread, haddress, heq⟩
  · rw [heq]
    exact ⟨h, rfl, fun _ _ _ => id⟩
  · rw [heq]
    exact ⟨h.refute, grows_refute⟩
  · rw [heq]
    constructor
    · refine h.adopt fun htaken => isSome_entryAddress haddress ?_
      exact hentries nid info status incarnation (hentry ▸ List.mem_cons_self) hvalid hnid hread
        htaken
    · rcases adopt_cases m nid
        ⟨address, status, incarnation, now nid, Items.get info "is_seed"⟩ with hsame
        | ⟨htaken, hset⟩ | ⟨known, hknown, hset⟩
      · rw [hsame]
        exact ⟨rfl, fun _ _ _ => id⟩
      · rw [hset]
        exact grows_setMember (.inl htaken)
      · rw [hset]
        exact grows_setMember (.inr ⟨known, hknown, rfl⟩)

theorem Complete.foldl_mergeEntry {entries : Items} (h : m.Complete)
    (hentries : m.CompleteEntries entries) :
    (entries.foldl (Membership.mergeEntry urlsplit now) m).Complete := by
  induction entries generalizing m with
  | nil => exact h
  | cons e rest ih =>
    have hentry : (Membership.mergeEntry urlsplit now m e).Complete
        ∧ Grows m (Membership.mergeEntry urlsplit now m e) := h.mergeEntry hentries
    have hrest : m.CompleteEntries rest :=
      fun nid info status incarnation hmem =>
        hentries nid info status incarnation (List.mem_cons_of_mem _ hmem)
    exact ih hentry.1 (hrest.of_grows hentry.2)

/-- A timeout leaves the address of an entry alone. -/
theorem address_timeOut {timeout time : Binary64} {info' : Member}
    (h : timeOut timeout time info = some info') :
    info'.address = info.address := by
  unfold timeOut at h
  simp only at h
  split_ifs at h
  · cases h
    rfl
  · cases h
    rfl

end Membership

namespace Running

variable {s s' : Running C.Log} {a : Action}

/-- What a payload must be like: every entry that would be taken over has an address. -/
def CompletePayload (s : Running C.Log) (a : Action) : Prop :=
  ∀ entries, a.entries = some entries → s.node.toMembership.CompleteEntries entries

theorem complete_new (urlsplit : String → Except PyError SplitResult) (nodeId : String)
    (peers : List String)
    (advertisedAddress : Option String) (peerAllowlist : Option (List String))
    (heartbeatTimeout : Binary64)
    (now : String → Binary64) :
    (Membership.new urlsplit nodeId peers advertisedAddress peerAllowlist heartbeatTimeout
      now).Complete := by
  -- every seed that is added comes with its address
  have hseeds : ∀ (ps : List String) (m : Membership), m.Complete →
      (ps.foldl (Membership.addSeed urlsplit now) m).Complete := by
    intro ps
    induction ps with
    | nil => exact fun m h => h
    | cons p ps ih =>
      intro m h
      refine ih _ ?_
      unfold Membership.addSeed
      split
      · split_ifs
        · exact h.of_set rfl rfl
        · exact h
      · exact h
  refine hseeds peers _ ?_
  have hempty : Membership.Complete ⟨nodeId, advertisedAddress, heartbeatTimeout,
      (peerAllowlist.getD peers).filterMap (canonicalBaseUrl urlsplit), 0, ∅⟩ :=
    fun n info hget => by cases hget
  exact hempty.of_set rfl rfl

/-- The own time of change decides nothing about what is taken over. -/
theorem grows_touchSelf {m : Membership} {time : Binary64} : Membership.Grows m (m.touchSelf time) := by
  unfold Membership.touchSelf
  cases hown : m.members.get? m.nodeId with
  | none => exact ⟨rfl, fun _ _ _ => id⟩
  | some own => exact Membership.grows_setMember (.inr ⟨own, hown, rfl⟩)

theorem step_complete (hcomplete : s.node.toMembership.Complete) (hpayload : s.CompletePayload a)
    (hstep : step urlsplit C s a = some s') : s'.node.toMembership.Complete := by
  -- only pings and answers bring entries; the other actions set a status or drop a member
  cases a with
  | handlePing payload now =>
    cases hstep
    show Membership.Complete (after (Membership.handlePing urlsplit now payload) s.node.toMembership)
    rw [Membership.after_handlePing]
    split
    · next entries hmembers =>
      have hentries := hpayload entries (by simp only [Action.entries, hmembers])
      exact hcomplete.touchSelf.foldl_mergeEntry (hentries.of_grows grows_touchSelf)
    · exact hcomplete.touchSelf
  | sendPing nid =>
    rw [step] at hstep
    split at hstep
    · split at hstep
      · split_ifs at hstep
        cases hstep
        exact hcomplete
      · cases hstep
    · cases hstep
  | mergeAnswer i answer now =>
    rw [step] at hstep
    split at hstep
    · next nid isSeed members hping hmembers =>
      cases hstep
      exact hcomplete.foldl_mergeEntry (hpayload members (by simp only [Action.entries, hmembers]))
    · cases hstep
      exact hcomplete
    · cases hstep
  | endPing i =>
    rw [step] at hstep
    split at hstep
    · cases hstep
      show Membership.Complete (if _ then _ else _ : Node _).toMembership
      split_ifs
      · exact hcomplete.dropSeed
      · exact hcomplete
    · cases hstep
  | failPing i now =>
    rw [step] at hstep
    split at hstep
    · cases hstep
      exact hcomplete.suspectMember
    · cases hstep
  | checkTimeouts now =>
    cases hstep
    intro n info hget
    change (s.node.checkTimeouts now).members.get? n = some info at hget
    -- a member that is timed out keeps its address
    by_cases hn : n = s.node.nodeId
    · rw [hn, Node.get?_checkTimeouts_self] at hget
      exact hcomplete _ info hget
    · rw [Node.get?_checkTimeouts s.node now hn] at hget
      obtain ⟨old, hold, htime⟩ := Option.bind_eq_some_iff.mp hget
      rw [Membership.address_timeOut htime]
      exact hcomplete n old hold
  | receive delivery =>
    cases hstep
    exact hcomplete

end Running

/-- The choice of whom to gossip with does not fail on complete entries. -/
theorem gossipCandidates_ok {m : Membership} (h : m.Complete) :
    ∃ addresses, m.gossipCandidates = .ok addresses := by
  have hall : ∀ entries : List (String × Member), (∀ e ∈ entries, e.2.address.isSome) →
      ∃ addresses, entries.mapM (fun e => Membership.addressOf e.2) = .ok addresses := by
    intro entries hentries
    induction entries with
    | nil => exact ⟨[], rfl⟩
    | cons e rest ih =>
      obtain ⟨addresses, hrest⟩ := ih fun e he => hentries e (List.mem_cons_of_mem _ he)
      obtain ⟨address, haddress⟩ := Option.isSome_iff_exists.mp (hentries e List.mem_cons_self)
      refine ⟨address :: addresses, Checked.mapM_eq_ok.mpr (.cons ?_ (Checked.mapM_eq_ok.mp hrest))⟩
      rw [Membership.addressOf, haddress]
  obtain ⟨addresses, hmap⟩ := hall
    (m.members.items.filter fun e => decide (e.1 ≠ m.nodeId ∧ e.2.status = .alive)) fun e he =>
      h e.1 e.2 (Dict.get?_eq_some_iff.mpr (List.mem_of_mem_filter he))
  exact ⟨addresses.filter truthy, Checked.bind_eq_ok.mpr ⟨addresses, hmap, rfl⟩⟩

/-- **Entries stay complete.** In every run from construction in which every entry of a payload that
would be taken over has an address, every entry of the table has one, and neither the choice of whom
to ping nor that of whom to gossip with fails. -/
theorem membership_entries_complete (urlsplit : String → Except PyError SplitResult) (C : LogCodec)
    {s₀ s : Running C.Log} {as : List Action} (h₀ : s₀.Start urlsplit)
    (hpayloads : Meets (Running.step urlsplit C) CompletePayload s₀ as)
    (hrun : run (Running.step urlsplit C) s₀ as = some s) :
    s.node.toMembership.Complete
      ∧ (∀ c ∈ s.node.toMembership.pingCandidates, ∃ address, Membership.addressOf c.2 = .ok address)
      ∧ ∃ addresses, s.node.toMembership.gossipCandidates = .ok addresses := by
  have hstart : s₀.node.toMembership.Complete := by
    obtain ⟨-, nodeId, peers, advertised, allowlist, timeout, now, hnew⟩ := h₀
    rw [hnew]
    exact complete_new urlsplit nodeId peers advertised allowlist timeout now
  have hcomplete : s.node.toMembership.Complete :=
    run_invariant (I := fun r : Running C.Log => r.node.toMembership.Complete)
      (fun _ _ _ h hcond hstep => step_complete h hcond hstep) hstart hpayloads hrun
  refine ⟨hcomplete, fun c hc => ?_, gossipCandidates_ok hcomplete⟩
  have hsome := hcomplete c.1 c.2 (Dict.get?_eq_some_iff.mpr (List.mem_of_mem_filter hc))
  obtain ⟨address, haddress⟩ := Option.isSome_iff_exists.mp hsome
  exact ⟨address, by rw [Membership.addressOf, haddress]⟩

/-- A payload with one entry, alive at the incarnation 0, with the given address items. -/
def Running.Action.discovers (address : Items) : Action :=
  .handlePing (.dict [(.str "members", .dict [(.str "node2",
    .dict ([(.str "status", .str "alive"), (.str "incarnation", .int 0)] ++ address))])])
    fun _ => .ofInt 5 Binary64.abs_five_lt

/-- A node that is discovered with an empty address: it is no candidate for gossip, and nothing
fails. -/
theorem membership_entries_complete_discovered : ∃ s, run (Running.step noUrl (.python .ternary))
      (.alone "node1") [.discovers [(.str "address", .str "")]] = some s
    ∧ ∃ addresses, s.node.toMembership.gossipCandidates = .ok addresses := by
  have hpayloads : Meets (Running.step noUrl (.python .ternary)) CompletePayload (.alone "node1")
      [.discovers [(.str "address", .str "")]] := by
    refine ⟨?_, fun _ _ => trivial⟩
    intro entries hentries nid info status incarnation hmem _ _ _ _
    cases hentries
    cases List.mem_singleton.mp hmem
    rfl
  exact ⟨_, rfl, (membership_entries_complete noUrl (.python .ternary) (Running.start_alone "node1")
    hpayloads
    rfl).2.2⟩

/-- An entry without an address is taken over, and gossip fails in the next round. -/
theorem membership_entry_incomplete : ∃ s, run (Running.step noUrl (.python .ternary))
      (.alone "node1") [.discovers []] = some s
    ∧ s.node.toMembership.gossipCandidates = .error (.keyError "'address'") :=
  ⟨_, rfl, rfl⟩

end Sketchlog.Mesh
