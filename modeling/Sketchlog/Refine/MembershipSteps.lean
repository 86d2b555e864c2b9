import Sketchlog.Mesh.Node

/-!
# What a step does to the membership table

Five pieces of code write the table. An entry of a payload does nothing, refutes a rumour about the node
itself, or is taken over (`mergeEntry_cases`); a failed ping makes an entry suspect, an answered one
may drop a seed, and a timeout check acts on each entry by itself (`get?_checkTimeouts`). What is
kept by all of them is collected in `Kept`: the entry of the node itself, and the bound on the size
of the table.
-/

namespace Sketchlog.Mesh

open Imperative

namespace Membership

variable {urlsplit : String → Except PyError SplitResult} {m m' : Membership} {now : String → Binary64}
  {nid n : String} {info : Member}

/-! ## The invariant of the own entry

The node's own entry is alive and at its own incarnation, whatever it is told. `Kept` collects what
no step of the membership takes back. -/

/-- The entry of the node itself is there, alive, at the node's incarnation. -/
def OwnAlive (m : Membership) : Prop :=
  ∃ own, m.members.get? m.nodeId = some own ∧ own.status = .alive ∧ own.incarnation = m.incarnation

/-- What every step keeps. -/
structure Kept (m m' : Membership) : Prop where
  nodeId : m'.nodeId = m.nodeId
  ownAlive : m.OwnAlive → m'.OwnAlive
  incarnation : m.incarnation ≤ m'.incarnation
  size : m'.members.size ≤ max maxMembers m.members.size

theorem Kept.refl (m : Membership) : Kept m m := ⟨rfl, id, le_rfl, le_max_right _ _⟩

theorem Kept.trans {m'' : Membership} (h : Kept m m') (h' : Kept m' m'') : Kept m m'' where
  nodeId := h'.nodeId.trans h.nodeId
  ownAlive := h'.ownAlive ∘ h.ownAlive
  incarnation := h.incarnation.trans h'.incarnation
  size := h'.size.trans (max_le (le_max_left _ _) h.size)

/-- An entry of another node. -/
theorem kept_setMember (hnid : nid ≠ m.nodeId)
    (hroom : nid ∈ m.members.keys ∨ m.members.size < maxMembers) :
    Kept m (m.setMember nid info) where
  nodeId := rfl
  ownAlive := by
    intro ⟨own, hown, halive, hinc⟩
    exact ⟨own, (Dict.get?_set_of_ne hnid.symm).trans hown, halive, hinc⟩
  incarnation := le_rfl
  size := by
    show (m.members.set nid info).size ≤ _
    rw [Dict.size_set]
    split
    · exact le_max_right _ _
    · next hnew => exact le_trans (hroom.resolve_left hnew) (le_max_left _ _)

/-- A table with some of the entries. -/
theorem kept_of_sublist (hnode : m'.nodeId = m.nodeId) (hinc : m'.incarnation = m.incarnation)
    (hown : m'.members.get? m.nodeId = m.members.get? m.nodeId)
    (hkeys : ∀ n, n ∈ m'.members.keys → n ∈ m.members.keys) : Kept m m' where
  nodeId := hnode
  ownAlive := by
    intro ⟨own, hget, halive, howninc⟩
    refine ⟨own, ?_, halive, howninc.trans hinc.symm⟩
    rw [hnode, hown, hget]
  incarnation := hinc.ge
  size := by
    have hle : m'.members.size ≤ m.members.keys.toFinset.card :=
      Dict.size_le_card fun n hn => List.mem_toFinset.mpr (hkeys n hn)
    rw [List.toFinset_card_of_nodup m.members.nodup_keys, ← Dict.size_eq_length_keys] at hle
    exact hle.trans (le_max_right _ _)

theorem kept_touchSelf (time : Binary64) : Kept m (m.touchSelf time) := by
  unfold touchSelf
  cases hget : m.members.get? m.nodeId with
  | none => exact Kept.refl m
  | some own =>
    refine ⟨rfl, ?_, le_rfl, ?_⟩
    · intro ⟨own', hown, halive, hinc⟩
      cases hget.symm.trans hown
      exact ⟨_, Dict.get?_set_self, halive, hinc⟩
    · show (m.members.set m.nodeId _).size ≤ _
      rw [Dict.size_set, if_pos (Dict.mem_keys_of_get? hget)]
      exact le_max_right _ _

theorem kept_refute {time : Binary64} {status : Status} {incarnation : ℤ} :
    Kept m (m.refute time status incarnation) := by
  unfold refute
  by_cases hrumour : (status = .suspect ∨ status = .dead) ∧ m.incarnation ≤ incarnation
  · rw [if_pos hrumour]
    cases hget : m.members.get? m.nodeId with
    | none =>
      refine ⟨rfl, ?_, le_trans hrumour.2 (le_add_of_nonneg_right zero_le_one), le_max_right _ _⟩
      intro ⟨own, hown, _⟩
      cases hget.symm.trans hown
    | some own =>
      refine ⟨rfl, ?_, le_trans hrumour.2 (le_add_of_nonneg_right zero_le_one), ?_⟩
      · intro ⟨own', hown, halive, hinc⟩
        cases hget.symm.trans hown
        exact ⟨_, Dict.get?_set_self, halive, rfl⟩
      · show (m.members.set m.nodeId _).size ≤ _
        rw [Dict.size_set, if_pos (Dict.mem_keys_of_get? hget)]
        exact le_max_right _ _
  · rw [if_neg hrumour]
    exact Kept.refl m

/-- A rumour about the node is refuted. -/
theorem lt_incarnation_refute {time : Binary64} {status : Status} {incarnation : ℤ}
    (h : status ≠ .alive) :
    incarnation < (m.refute time status incarnation).incarnation := by
  have hbad : status = .suspect ∨ status = .dead := by
    cases status with
    | alive => exact absurd rfl h
    | suspect => exact .inl rfl
    | dead => exact .inr rfl
  unfold refute
  split_ifs with hrumour
  · exact lt_add_one incarnation
  · exact not_le.mp fun hle => hrumour ⟨hbad, hle⟩

/-! ## Payloads

By cases on what an entry does, then by induction on the payload. A payload that calls the node
suspect or dead at its incarnation or a later one raises the incarnation. -/

/-- An entry of the incarnation would be taken over as it is. -/
def Taken (m : Membership) (nid : String) (incarnation : ℤ) : Prop :=
  match m.members.get? nid with
  | none => m.members.size < maxMembers
  | some info => info.incarnation < incarnation

/-- What taking over an entry does: nothing, or the entry is set, or the one that is known gets
worse. -/
theorem adopt_cases (m : Membership) (nid : String) (info : Member) :
    m.adopt nid info = m ∨ (m.Taken nid info.incarnation ∧ m.adopt nid info = m.setMember nid info)
      ∨ ∃ known, m.members.get? nid = some known
        ∧ m.adopt nid info
          = m.setMember nid { known with status := info.status, lastUpdated := info.lastUpdated } := by
  cases hget : m.members.get? nid with
  | none =>
    have hadopt : m.adopt nid info = if maxMembers ≤ m.members.size then m
      else m.setMember nid info := by
      rw [adopt, hget]
    rw [hadopt, Taken, hget]
    by_cases hfull : maxMembers ≤ m.members.size
    · exact .inl (if_pos hfull)
    · exact .inr (.inl ⟨not_le.mp hfull, if_neg hfull⟩)
  | some known =>
    have hadopt : m.adopt nid info = m.update nid known info := by rw [adopt, hget]
    rw [hadopt, Taken, hget, update]
    split_ifs with hhigher hsame hworse
    · exact .inr (.inl ⟨hhigher, rfl⟩)
    · exact .inr (.inr ⟨known, rfl, rfl⟩)
    · exact .inl rfl
    · exact .inl rfl

theorem Taken.room {incarnation : ℤ} (h : m.Taken nid incarnation) :
    nid ∈ m.members.keys ∨ m.members.size < maxMembers := by
  unfold Taken at h
  cases hget : m.members.get? nid with
  | none =>
    rw [hget] at h
    exact .inr h
  | some known => exact .inl (Dict.mem_keys_of_get? hget)

theorem kept_adopt (hnid : nid ≠ m.nodeId) : Kept m (m.adopt nid info) := by
  rcases adopt_cases m nid info with h | ⟨htaken, h⟩ | ⟨known, hknown, h⟩
  · rw [h]
    exact Kept.refl m
  · rw [h]
    exact kept_setMember hnid htaken.room
  · rw [h]
    exact kept_setMember hnid (.inl (Dict.mem_keys_of_get? hknown))

/-- What one entry of a payload does. -/
theorem mergeEntry_cases (m : Membership) (entry : PyKey × PyVal) :
    mergeEntry urlsplit now m entry = m
      ∨ (∃ time status incarnation, mergeEntry urlsplit now m entry = m.refute time status incarnation)
      ∨ ∃ nid info status incarnation address, entry = (.str nid, .dict info)
        ∧ validIdentifier nid ∧ nid ≠ m.nodeId
        ∧ readInfo info = some (status, incarnation) ∧ m.entryAddress urlsplit info = some address
        ∧ mergeEntry urlsplit now m entry
          = m.adopt nid ⟨address, status, incarnation, now nid, Items.get info "is_seed"⟩ := by
  -- an entry is skipped, refutes a rumour about the node itself, or is adopted; the guards in this
  -- order
  unfold mergeEntry
  split
  · next nid info =>
    split_ifs with hid hself
    · exact .inl rfl
    · cases hread : readInfo info with
      | none => exact .inl rfl
      | some read => exact .inr (.inl ⟨_, _, _, rfl⟩)
    · cases hread : readInfo info with
      | none => exact .inl rfl
      | some read =>
        cases haddress : m.entryAddress urlsplit info with
        | none => exact .inl rfl
        | some address =>
          have hvalid : validIdentifier nid := ⟨(not_or.mp hid).1, not_lt.mp (not_or.mp hid).2⟩
          exact .inr (.inr ⟨nid, info, _, _, _, rfl, hvalid, hself, hread, haddress, rfl⟩)
  · exact .inl rfl

theorem kept_mergeEntry (entry : PyKey × PyVal) : Kept m (mergeEntry urlsplit now m entry) := by
  rcases mergeEntry_cases m entry with h | ⟨time, status, incarnation, h⟩
    | ⟨nid, info, status, incarnation, address, -, -, hnid, -, -, h⟩
  · rw [h]
    exact Kept.refl m
  · rw [h]
    exact kept_refute
  · rw [h]
    exact kept_adopt hnid

theorem kept_foldl_mergeEntry (entries : Items) :
    Kept m (entries.foldl (mergeEntry urlsplit now) m) := by
  induction entries generalizing m with
  | nil => exact Kept.refl m
  | cons e rest ih => exact (kept_mergeEntry e).trans ih

/-- An entry that calls the node suspect or dead. -/
def Calls (nodeId : String) (incarnation : ℤ) (entry : PyKey × PyVal) : Prop :=
  ∃ info : Items, entry = (.str nodeId, .dict info)
    ∧ (Status.read (info.get "status") = some .suspect ∨ Status.read (info.get "status") = some .dead)
    ∧ info.get "incarnation" = .int incarnation

/-- The entry that calls the node suspect or dead is refuted. -/
theorem lt_incarnation_mergeEntry {entry : PyKey × PyVal} {incarnation : ℤ}
    (hid : validIdentifier m.nodeId)
    (hpos : 0 ≤ m.incarnation) (hcalls : Calls m.nodeId incarnation entry) :
    incarnation < (mergeEntry urlsplit now m entry).incarnation := by
  obtain ⟨info, rfl, hstatus, hinc⟩ := hcalls
  by_cases hneg : incarnation < 0
  · exact lt_of_lt_of_le hneg (hpos.trans (kept_mergeEntry _).incarnation)
  · have hcheck : ¬ (m.nodeId = "" ∨ 255 < m.nodeId.length) := not_or.mpr ⟨hid.1, not_lt.mpr hid.2⟩
    have hread : ∃ status, status ≠ .alive ∧ readInfo info = some (status, incarnation) := by
      rcases hstatus with hstatus | hstatus
      · exact ⟨.suspect, by decide, by rw [readInfo, hstatus, hinc]; exact if_neg hneg⟩
      · exact ⟨.dead, by decide, by rw [readInfo, hstatus, hinc]; exact if_neg hneg⟩
    obtain ⟨status, hbad, hread⟩ := hread
    simp only [mergeEntry, if_neg hcheck, hread, if_true]
    exact lt_incarnation_refute hbad

/-- **Rumours are refuted.** -/
theorem lt_incarnation_foldl {entries : Items} {incarnation : ℤ} (hid : validIdentifier m.nodeId)
    (hpos : 0 ≤ m.incarnation) (hcalls : ∃ e ∈ entries, Calls m.nodeId incarnation e) :
    incarnation < (entries.foldl (mergeEntry urlsplit now) m).incarnation := by
  induction entries generalizing m with
  | nil =>
    obtain ⟨e, he, -⟩ := hcalls
    exact absurd he List.not_mem_nil
  | cons e rest ih =>
    obtain ⟨e', he', hcalls⟩ := hcalls
    have hkept : Kept m (mergeEntry urlsplit now m e) := kept_mergeEntry e
    rcases List.mem_cons.mp he' with rfl | he'
    · exact lt_of_lt_of_le (lt_incarnation_mergeEntry hid hpos hcalls)
        (kept_foldl_mergeEntry rest).incarnation
    · exact ih (hkept.nodeId ▸ hid) (hpos.trans hkept.incarnation) ⟨e', he', hkept.nodeId ▸ hcalls⟩

/-! ## Handlers

A ping touches the node's own entry and then merges, and its ends change one entry. So the lemmas on
payloads apply. -/

/-- What the handler does to the table, by the payload. -/
theorem after_handlePing (m : Membership) (payload : PyVal) :
    after (handlePing urlsplit now payload) m
      = match payloadMembers payload with
        | .ok (some (.dict entries)) =>
            entries.foldl (mergeEntry urlsplit now) (m.touchSelf (now m.nodeId))
        -- the clock of the node itself is touched before the payload is looked at
        | _ => m.touchSelf (now m.nodeId) := by
  cases hpayload : payloadMembers payload with
  | error e =>
    have hrun : (handlePing urlsplit now payload).run m = .error e (m.touchSelf (now m.nodeId)) := by
      simp only [handlePing, hpayload]
      rfl
    rw [after, hrun]
  | ok found =>
    cases found with
    | none =>
      have hrun : (handlePing urlsplit now payload).run m
          = .ok (m.touchSelf (now m.nodeId)).gossipList (m.touchSelf (now m.nodeId)) := by
        simp only [handlePing, hpayload]
        rfl
      rw [after, hrun]
    | some members =>
      cases members with
      | dict entries =>
        have hrun : ∃ reply, (handlePing urlsplit now payload).run m
            = .ok reply (entries.foldl (mergeEntry urlsplit now) (m.touchSelf (now m.nodeId))) := by
          simp only [handlePing, hpayload]
          exact ⟨_, rfl⟩
        obtain ⟨reply, hrun⟩ := hrun
        rw [after, hrun]
      | _ =>
        have hrun : (handlePing urlsplit now payload).run m
            = .error (.valueError "Membership payload must be an object")
              (m.touchSelf (now m.nodeId)) := by
          simp only [handlePing, hpayload]
          rfl
        rw [after, hrun]

theorem kept_handlePing (payload : PyVal) : Kept m (after (handlePing urlsplit now payload) m) := by
  rw [after_handlePing]
  split
  · exact (kept_touchSelf _).trans (kept_foldl_mergeEntry _)
  · exact kept_touchSelf _

theorem kept_dropSeed (hnid : nid ≠ m.nodeId) : Kept m (m.dropSeed nid) := by
  refine kept_of_sublist rfl rfl ?_ ?_
  · show (m.members.pop nid).get? m.nodeId = _
    rw [Dict.get?_pop, if_neg hnid.symm]
  · intro n hn
    change n ∈ (m.members.pop nid).keys at hn
    rw [Dict.keys_pop] at hn
    exact List.mem_of_mem_filter hn

theorem kept_suspectMember {time : Binary64} (hnid : nid ≠ m.nodeId) :
    Kept m (m.suspectMember nid time) := by
  unfold suspectMember
  cases hget : m.members.get? nid with
  | none => exact Kept.refl m
  | some info =>
    show Kept m (if info.status = .alive then _ else _)
    split_ifs
    · exact kept_setMember hnid (.inl (Dict.mem_keys_of_get? hget))
    · exact Kept.refl m

end Membership

/-! ## Timeouts

The loop runs over a copy of the names. Each member is timed out by its own entry alone, so the
result can be stated name by name. -/

namespace Node

variable {Log : Type} {self : Node Log} {now : Binary64}

/-- The member times out for good, and is removed. -/
def Removes (self : Node Log) (now : Binary64) (nid : String) : Prop :=
  nid ≠ self.nodeId ∧ ∃ info, self.members.get? nid = some info
    ∧ Membership.timeOut self.heartbeatTimeout now info = none

/-- What a check of one entry changes. -/
theorem checkTimeout_fields (self : Node Log) (now : Binary64) (entry : String × Member) :
    (self.checkTimeout now entry).nodeId = self.nodeId
      ∧ (self.checkTimeout now entry).heartbeatTimeout = self.heartbeatTimeout
      ∧ (self.checkTimeout now entry).incarnation = self.incarnation
      ∧ (self.checkTimeout now entry).peerTombstones = self.peerTombstones
      ∧ (self.checkTimeout now entry).localTombstones = self.localTombstones := by
  unfold checkTimeout
  split_ifs
  · exact ⟨rfl, rfl, rfl, rfl, rfl⟩
  · split
    · exact ⟨rfl, rfl, rfl, rfl, rfl⟩
    · exact ⟨rfl, rfl, rfl, rfl, rfl⟩

theorem get?_checkTimeout (self : Node Log) (now : Binary64) (entry : String × Member) (n : String) :
    (self.checkTimeout now entry).members.get? n
      = if n = entry.1 ∧ n ≠ self.nodeId then Membership.timeOut self.heartbeatTimeout now entry.2
        else self.members.get? n := by
  unfold checkTimeout
  by_cases hself : entry.1 = self.nodeId
  · rw [if_pos hself, if_neg fun h => h.2 (h.1.trans hself)]
  · rw [if_neg hself]
    by_cases hn : n = entry.1
    · rw [if_pos ⟨hn, hn ▸ hself⟩]
      cases htime : Membership.timeOut self.heartbeatTimeout now entry.2 with
      | none => exact hn ▸ Dict.get?_pop_self
      | some info => exact hn ▸ Dict.get?_set_self
    · rw [if_neg fun h => hn h.1]
      cases htime : Membership.timeOut self.heartbeatTimeout now entry.2 with
      | none =>
        show (self.members.pop entry.1).get? n = _
        rw [Dict.get?_pop, if_neg hn]
      | some info => exact Dict.get?_set_of_ne hn

/-- The entries of the removed members are gone from the snapshots; the streams stay. -/
theorem known?_checkTimeout (self : Node Log) (now : Binary64) (entry : String × Member)
    (s n : String) :
    ClusterManager.known? (self.checkTimeout now entry).peerSnapshots s n
      = if n = entry.1 ∧ n ≠ self.nodeId ∧ Membership.timeOut self.heartbeatTimeout now entry.2
        = none then none
        else ClusterManager.known? self.peerSnapshots s n := by
  unfold checkTimeout
  by_cases hself : entry.1 = self.nodeId
  · rw [if_pos hself, if_neg fun h => h.2.1 (h.1.trans hself)]
  · rw [if_neg hself]
    cases htime : Membership.timeOut self.heartbeatTimeout now entry.2 with
    | some info => exact (if_neg fun h => nomatch h.2.2).symm
    | none =>
      show (((self.peerSnapshots.mapVal fun peers : Dict String _ => peers.pop entry.1).get? s).getD
        ∅).get? n = _
      rw [Dict.get?_mapVal, ClusterManager.known?]
      cases self.peerSnapshots.get? s with
      | none => exact (ite_self none).symm
      | some group =>
        show (group.pop entry.1).get? n = if _ then none else group.get? n
        rw [Dict.get?_pop]
        by_cases hn : n = entry.1
        · rw [if_pos hn, if_pos ⟨hn, hn ▸ hself, rfl⟩]
        · rw [if_neg hn, if_neg fun h => hn h.1]

theorem keys_checkTimeout (self : Node Log) (now : Binary64) (entry : String × Member) :
    (self.checkTimeout now entry).peerSnapshots.keys = self.peerSnapshots.keys := by
  unfold checkTimeout
  split_ifs
  · rfl
  · split
    · rfl
    · show ((self.peerSnapshots.items.map fun kv => (kv.1, _)).map Prod.fst) = _
      rw [List.map_map]
      rfl

/-- The node after a check of some entries of its table. -/
structure TimedOut (now : Binary64) (entries : List (String × Member)) (node node' : Node Log) :
    Prop where
  nodeId : node'.nodeId = node.nodeId
  heartbeatTimeout : node'.heartbeatTimeout = node.heartbeatTimeout
  incarnation : node'.incarnation = node.incarnation
  peerTombstones : node'.peerTombstones = node.peerTombstones
  streams : node'.peerSnapshots.keys = node.peerSnapshots.keys
  members : ∀ n, n = node.nodeId ∨ n ∉ entries.map Prod.fst → node'.members.get? n = node.members.get? n
  checked : ∀ n info, (n, info) ∈ entries → n ≠ node.nodeId →
    node'.members.get? n = Membership.timeOut node.heartbeatTimeout now info
  evicted : ∀ s n info, (n, info) ∈ entries → n ≠ node.nodeId →
    Membership.timeOut node.heartbeatTimeout now info = none →
    ClusterManager.known? node'.peerSnapshots s n = none
  snapshots : ∀ s n,
    (∀ info, (n, info) ∈ entries → n ≠ node.nodeId →
      Membership.timeOut node.heartbeatTimeout now info ≠ none) →
    ClusterManager.known? node'.peerSnapshots s n = ClusterManager.known? node.peerSnapshots s n

theorem timedOut_foldl (now : Binary64) (entries : List (String × Member)) (self : Node Log)
    (hnodup : (entries.map Prod.fst).Nodup) :
      TimedOut now entries self (entries.foldl (checkTimeout now) self) := by
  induction entries generalizing self with
  | nil =>
    exact ⟨rfl, rfl, rfl, rfl, rfl, fun _ _ => rfl, fun _ _ h => absurd h List.not_mem_nil,
      fun _ _ _ h => absurd h List.not_mem_nil, fun _ _ _ => rfl⟩
  | cons e rest ih =>
    obtain ⟨hnotin, hnodup⟩ := List.nodup_cons.mp hnodup
    obtain ⟨hnode, htimeout, hinc, htomb, -⟩ := checkTimeout_fields self now e
    have hrest := ih (self.checkTimeout now e) hnodup
    refine
      { nodeId := hrest.nodeId.trans hnode
        heartbeatTimeout := hrest.heartbeatTimeout.trans htimeout
        incarnation := hrest.incarnation.trans hinc
        peerTombstones := hrest.peerTombstones.trans htomb
        streams := hrest.streams.trans (keys_checkTimeout self now e)
        members := ?_
        checked := ?_
        evicted := ?_
        snapshots := ?_ }
    · intro n hn
      have hn' : n = (self.checkTimeout now e).nodeId ∨ n ∉ rest.map Prod.fst := by
        rw [hnode]
        exact hn.imp_right fun h hmem => h (List.mem_cons_of_mem _ hmem)
      rw [List.foldl_cons, hrest.members n hn', get?_checkTimeout, if_neg]
      intro h
      rcases hn with hn | hn
      · exact h.2 hn
      · exact hn (h.1 ▸ List.mem_cons_self)
    · intro n info hmem hn
      rcases List.mem_cons.mp hmem with rfl | hmem
      · rw [List.foldl_cons, hrest.members n (.inr hnotin), get?_checkTimeout, if_pos ⟨rfl, hn⟩]
      · rw [List.foldl_cons, hrest.checked n info hmem (hnode ▸ hn), htimeout]
    · intro s n info hmem hn hout
      rcases List.mem_cons.mp hmem with rfl | hmem
      · -- the rest of the check leaves this origin as it is
        rw [List.foldl_cons, hrest.snapshots s n ?_, known?_checkTimeout, if_pos ⟨rfl, hn, hout⟩]
        intro other hother
        exact absurd (List.mem_map.mpr ⟨(n, other), hother, rfl⟩) hnotin
      · rw [List.foldl_cons]
        exact hrest.evicted s n info hmem (hnode ▸ hn) (htimeout ▸ hout)
    · intro s n hkeep
      rw [List.foldl_cons, hrest.snapshots s n ?_, known?_checkTimeout, if_neg]
      · rintro ⟨rfl, hn, hout⟩
        exact hkeep e.2 List.mem_cons_self hn hout
      · intro info hmem hn
        rw [htimeout]
        exact hkeep info (List.mem_cons_of_mem _ hmem) (hnode ▸ hn)

/-- **A timeout check** acts on each entry of the table by itself. -/
theorem timedOut (self : Node Log) (now : Binary64) :
    TimedOut now self.members.items self (self.checkTimeouts now) :=
  timedOut_foldl now _ self self.members.nodup

theorem get?_checkTimeouts (self : Node Log) (now : Binary64) {n : String} (hn : n ≠ self.nodeId) :
    (self.checkTimeouts now).members.get? n
      = (self.members.get? n).bind (Membership.timeOut self.heartbeatTimeout now) := by
  have htimed := timedOut self now
  cases hget : self.members.get? n with
  | none =>
    rw [htimed.members n (.inr (Dict.get?_eq_none_iff.mp hget)), hget]
    rfl
  | some info => exact htimed.checked n info (Dict.get?_eq_some_iff.mp hget) hn

theorem get?_checkTimeouts_self (self : Node Log) (now : Binary64) :
    (self.checkTimeouts now).members.get? self.nodeId = self.members.get? self.nodeId :=
  (timedOut self now).members _ (.inl rfl)

theorem known?_checkTimeouts_of_removes (s : String) {n : String} (h : self.Removes now n) :
    ClusterManager.known? (self.checkTimeouts now).peerSnapshots s n = none := by
  obtain ⟨hn, info, hget, hout⟩ := h
  exact (timedOut self now).evicted s n info (Dict.get?_eq_some_iff.mp hget) hn hout

theorem known?_checkTimeouts_of_not_removes (s : String) {n : String} (h : ¬ self.Removes now n) :
    ClusterManager.known? (self.checkTimeouts now).peerSnapshots s n
      = ClusterManager.known? self.peerSnapshots s n := by
  refine (timedOut self now).snapshots s n fun info hmem hn hout => h ⟨hn, info, ?_, hout⟩
  exact Dict.get?_eq_some_iff.mpr hmem

theorem kept_checkTimeouts (self : Node Log) (now : Binary64) :
    Membership.Kept self.toMembership (self.checkTimeouts now).toMembership := by
  have htimed := timedOut self now
  refine Membership.kept_of_sublist htimed.nodeId htimed.incarnation
    (get?_checkTimeouts_self self now) ?_
  intro n hn
  change n ∈ (self.checkTimeouts now).members.keys at hn
  show n ∈ self.members.keys
  by_contra hnot
  have hnone := (htimed.members n (.inr hnot)).trans (Dict.get?_eq_none_iff.mpr hnot)
  exact Dict.get?_eq_none_iff.mp hnone hn

end Node

end Sketchlog.Mesh
