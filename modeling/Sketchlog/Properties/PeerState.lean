import Sketchlog.Lib.Runs
import Sketchlog.Properties.MembershipRuns
import Sketchlog.Properties.SaveLoad

/-!
# What a node keeps of its peers, over whole runs

Storing an update keeps the two dictionaries of groups in order: no group is empty, no origin is in
both, and the limits on streams and origins hold. A timeout check that removes a member drops its
snapshots, but not a group that becomes empty by it, so the dictionaries stay in order exactly as
long as no check takes the last origin of a stream. Nor does it leave a version behind: what a node
knows of an origin only grows until that origin is removed.
-/

namespace Sketchlog.Mesh

open Imperative Runs

namespace ClusterManager

variable {Log : Type} {cm : ClusterManager Log} {u : Update Log} {s n : String}

/-! ## Registers

No version is negative, and storing an update keeps the tables apart: an origin has a snapshot or a
tombstone, never both. -/

/-- An origin of a stream has a snapshot or a tombstone, and its version is positive. -/
structure Registers (cm : ClusterManager Log) : Prop where
  exclusive : ∀ s n, known? cm.peerSnapshots s n = none ∨ known? cm.peerTombstones s n = none
  snapshot_pos : ∀ s n kept, known? cm.peerSnapshots s n = some kept → 0 < kept.2.val
  tombstone_pos : ∀ s n v, known? cm.peerTombstones s n = some v → 0 < v.val

theorem Registers.knownVersion_nonneg (h : cm.Registers) (s n : String) : 0 ≤ cm.knownVersion s n := by
  rw [knownVersion_eq]
  refine le_max_of_le_left ?_
  cases hsnap : known? cm.peerSnapshots s n with
  | none => exact le_rfl
  | some kept => exact (h.snapshot_pos s n kept hsnap).le

/-- What storing an update does: nothing, or the origin is moved to the dictionary of the update. -/
theorem store_cases (cm : ClusterManager Log) (u : Update Log) :
    cm.store u = cm
      ∨ (¬ cm.exceedsLimits u.stream u.origin ∧ cm.knownVersion u.stream u.origin < u.version.val
        ∧ ((u.log = none ∧ cm.store u
            = { cm with
                peerSnapshots := dropOrigin cm.peerSnapshots u.stream u.origin
                peerTombstones := setOrigin cm.peerTombstones u.stream u.origin u.version })
          ∨ ∃ log, u.log = some log ∧ cm.store u
            = { cm with
                peerSnapshots := setOrigin cm.peerSnapshots u.stream u.origin (log, u.version)
                peerTombstones := dropOrigin cm.peerTombstones u.stream u.origin })) := by
  unfold store
  by_cases hlimits : cm.exceedsLimits u.stream u.origin
  · exact .inl (if_pos hlimits)
  rw [if_neg hlimits]
  by_cases hold : u.version.val ≤ cm.knownVersion u.stream u.origin
  · exact .inl (if_pos hold)
  rw [if_neg hold]
  refine .inr ⟨hlimits, not_le.mp hold, ?_⟩
  cases u.log with
  | none => exact .inl ⟨rfl, rfl⟩
  | some log => exact .inr ⟨log, rfl, rfl⟩

theorem Registers.store (h : cm.Registers) (u : Update Log) : (cm.store u).Registers := by
  rcases store_cases cm u with heq | ⟨-, hnew, ⟨-, heq⟩ | ⟨log, -, heq⟩⟩
  · rw [heq]
    exact h
  · have hpos := lt_of_le_of_lt (h.knownVersion_nonneg _ _) hnew
    rw [heq]
    exact ⟨fun s n => (exclusive_write (fun s n => (h.exclusive s n).symm) s n).symm,
      forall_known?_dropOrigin h.snapshot_pos, forall_known?_setOrigin h.tombstone_pos hpos⟩
  · have hpos := lt_of_le_of_lt (h.knownVersion_nonneg _ _) hnew
    rw [heq]
    exact ⟨exclusive_write h.exclusive, forall_known?_setOrigin h.snapshot_pos hpos,
      forall_known?_dropOrigin h.tombstone_pos⟩

/-- A newer snapshot, at a node that knows of no tombstone. -/
theorem store_snapshot {v : Version} {log : Log} (htombstones : cm.peerTombstones = ∅)
    (hlimits : ¬ cm.exceedsLimits s n) (hnew : ¬ v.val ≤ cm.knownVersion s n) :
    cm.store ⟨s, n, v, some log⟩
      = { cm with peerSnapshots := setOrigin cm.peerSnapshots s n (log, v) } := by
  show (if cm.exceedsLimits s n then _ else if v.val ≤ cm.knownVersion s n then _ else _) = _
  rw [if_neg hlimits, if_neg hnew, htombstones]
  show ({ cm with peerSnapshots := _, peerTombstones := ∅ } : ClusterManager Log) = _
  rw [← htombstones]

/-- The first snapshot that a node gets. -/
theorem store_first {v : Version} {log : Log} (hsnapshots : cm.peerSnapshots = ∅)
    (htombstones : cm.peerTombstones = ∅) (hpos : 0 < v.val) :
    cm.store ⟨s, n, v, some log⟩ = { cm with peerSnapshots := setOrigin ∅ s n (log, v) } := by
  have hlimits : ¬ cm.exceedsLimits s n := by
    rintro (⟨-, hfull⟩ | ⟨-, hfull⟩)
    · rw [hsnapshots, htombstones] at hfull
      exact absurd hfull (by show ¬ 10000 ≤ 0; decide)
    · rw [existingOrigins, tombstoneOrigins, hsnapshots, htombstones] at hfull
      exact absurd hfull (by show ¬ 50 ≤ 0; decide)
  have hold : ¬ v.val ≤ cm.knownVersion s n := by
    rw [knownVersion_eq, hsnapshots, htombstones]
    exact not_le.mpr hpos
  rw [store_snapshot htombstones hlimits hold, hsnapshots]

/-- **Storing never lowers a version.** -/
theorem knownVersion_le_store (h : cm.Registers) (u : Update Log) (s n : String) :
    cm.knownVersion s n ≤ (cm.store u).knownVersion s n := by
  rcases store_cases cm u with heq | ⟨-, hnew, ⟨-, heq⟩ | ⟨log, -, heq⟩⟩
  · rw [heq]
  · have hpos := lt_of_le_of_lt (h.knownVersion_nonneg _ _) hnew
    rw [heq, knownVersion_eq, knownVersion_eq]
    simp only [known?_dropOrigin, known?_setOrigin]
    by_cases hu : s = u.stream ∧ n = u.origin
    · rw [if_pos hu, if_pos hu, ← knownVersion_eq, hu.1, hu.2]
      exact hnew.le.trans (le_max_right _ _)
    · rw [if_neg hu, if_neg hu]
  · rw [heq, knownVersion_eq, knownVersion_eq]
    simp only [known?_dropOrigin, known?_setOrigin]
    by_cases hu : s = u.stream ∧ n = u.origin
    · rw [if_pos hu, if_pos hu, ← knownVersion_eq, hu.1, hu.2]
      exact hnew.le.trans (le_max_left _ _)
    · rw [if_neg hu, if_neg hu]

/-! ## Limits

The numbers of streams and of origins stay below the limits, since `store` refuses what would exceed
them and a replacement changes no set of keys. -/

/-- The streams that are known. -/
def streams (cm : ClusterManager Log) : Finset String :=
  (cm.peerSnapshots.keys ++ cm.peerTombstones.keys).toFinset

/-- The origins that are known of a stream. -/
def origins (cm : ClusterManager Log) (s : String) : Finset String :=
  ((cm.existingOrigins s).keys ++ (cm.tombstoneOrigins s).keys).toFinset

theorem mem_origins :
    n ∈ cm.origins s ↔ known? cm.peerSnapshots s n ≠ none ∨ known? cm.peerTombstones s n ≠ none := by
  unfold origins
  rw [List.mem_toFinset, List.mem_append, ← Dict.get?_isSome_iff, ← Dict.get?_isSome_iff,
    Option.isSome_iff_ne_none, Option.isSome_iff_ne_none]
  rfl

theorem keys_setOrigin {β : Type} {groups : Dict String (Dict String β)} {value : β} {k : String}
    (h : k ∈ (setOrigin groups s n value).keys) : k ∈ groups.keys ∨ k = s := by
  unfold setOrigin at h
  rw [Dict.keys_set] at h
  split at h
  · exact .inl h
  · exact (List.mem_append.mp h).imp_right List.mem_singleton.mp

theorem keys_dropOrigin {β : Type} {groups : Dict String (Dict String β)} {k : String}
    (h : k ∈ (dropOrigin groups s n).keys) : k ∈ groups.keys := by
  unfold dropOrigin at h
  cases hs : groups.get? s with
  | none =>
    rw [hs] at h
    exact h
  | some group =>
    rw [hs] at h
    simp only at h
    split_ifs at h
    · rw [Dict.keys_pop] at h
      exact List.mem_of_mem_filter h
    · rw [Dict.keys_set, if_pos (Dict.mem_keys_of_get? hs)] at h
      exact h

/-- A set that gains at most one element, and only when there is room for it. -/
theorem card_le_of_subset_insert {N : ℕ} {t t' : Finset String} {x : String} (ht : t.card ≤ N)
    (hsub : t' ⊆ insert x t) (hroom : ¬ (x ∉ t ∧ N ≤ t.card)) : t'.card ≤ N := by
  by_cases hx : x ∈ t
  · rw [Finset.insert_eq_self.mpr hx] at hsub
    exact (Finset.card_le_card hsub).trans ht
  · have hlt : t.card < N := not_le.mp fun hle => hroom ⟨hx, hle⟩
    exact (Finset.card_le_card hsub).trans ((Finset.card_insert_le x t).trans hlt)

/-- The limits on streams and on the origins of a stream. -/
structure Limits (cm : ClusterManager Log) : Prop where
  streams : cm.streams.card ≤ maxPeerStreams
  origins : ∀ s, (cm.origins s).card ≤ maxOriginsPerStream

theorem streams_store_subset (cm : ClusterManager Log) (u : Update Log) :
    (cm.store u).streams ⊆ insert u.stream cm.streams := by
  -- a store does nothing, stores a tombstone, or stores a snapshot
  rcases store_cases cm u with heq | ⟨-, -, ⟨-, heq⟩ | ⟨log, -, heq⟩⟩
  · rw [heq]
    exact Finset.subset_insert _ _
  · rw [heq]
    intro k hk
    unfold streams at hk ⊢
    rw [List.mem_toFinset, List.mem_append] at hk
    rw [Finset.mem_insert, List.mem_toFinset, List.mem_append]
    -- the origin is dropped from one register and set in the other, under one stream
    rcases hk with hk | hk
    · exact .inr (.inl (keys_dropOrigin hk))
    · rcases keys_setOrigin hk with hk | hk
      · exact .inr (.inr hk)
      · exact .inl hk
  · rw [heq]
    intro k hk
    unfold streams at hk ⊢
    rw [List.mem_toFinset, List.mem_append] at hk
    rw [Finset.mem_insert, List.mem_toFinset, List.mem_append]
    rcases hk with hk | hk
    · rcases keys_setOrigin hk with hk | hk
      · exact .inr (.inl hk)
      · exact .inl hk
    · exact .inr (.inr (keys_dropOrigin hk))

theorem known?_dropOrigin_ne_none {β : Type} {groups : Dict String (Dict String β)} {s' n' : String}
    (h : known? (dropOrigin groups s n) s' n' ≠ none) : known? groups s' n' ≠ none := by
  rw [known?_dropOrigin] at h
  split at h
  · exact absurd rfl h
  · exact h

theorem known?_setOrigin_ne_none {β : Type} {groups : Dict String (Dict String β)} {value : β}
    {s' n' : String}
    (h : known? (setOrigin groups s n value) s' n' ≠ none) :
    known? groups s' n' ≠ none ∨ (s' = s ∧ n' = n) := by
  rw [known?_setOrigin] at h
  split at h
  · next hu => exact .inr hu
  · exact .inl h

/-- An origin that is known after an update. -/
theorem mem_origins_store (h : n ∈ (cm.store u).origins s) :
    n ∈ cm.origins s ∨ (s = u.stream ∧ n = u.origin) := by
  rw [mem_origins] at h ⊢
  rcases store_cases cm u with heq | ⟨-, -, ⟨-, heq⟩ | ⟨log, -, heq⟩⟩
  · rw [heq] at h
    exact .inl h
  · rw [heq] at h
    rcases h with h | h
    · exact .inl (.inl (known?_dropOrigin_ne_none h))
    · exact (known?_setOrigin_ne_none h).imp_left .inr
  · rw [heq] at h
    rcases h with h | h
    · exact (known?_setOrigin_ne_none h).imp_left .inl
    · exact .inl (.inr (known?_dropOrigin_ne_none h))

theorem Limits.store (h : cm.Limits) (u : Update Log) : (cm.store u).Limits := by
  rcases store_cases cm u with heq | ⟨hlimits, -, -⟩
  · rw [heq]
    exact h
  obtain ⟨hstream, horigin⟩ := not_or.mp hlimits
  constructor
  · refine card_le_of_subset_insert h.streams (streams_store_subset cm u) fun hfull =>
      hstream ⟨?_, hfull.2⟩
    exact fun hmem => hfull.1 (List.mem_toFinset.mpr hmem)
  · intro s
    by_cases hs : s = u.stream
    · subst hs
      refine card_le_of_subset_insert (x := u.origin) (h.origins _) (fun n hn => ?_) fun hfull =>
        horigin ⟨fun hmem => hfull.1 (List.mem_toFinset.mpr hmem), hfull.2⟩
      rw [Finset.mem_insert]
      rcases mem_origins_store hn with hn | hn
      · exact .inr hn
      · exact .inl hn.2
    · refine (Finset.card_le_card fun n hn => ?_).trans (h.origins s)
      exact (mem_origins_store hn).resolve_right fun hu => hs hu.1

/-! ## Empty groups

A group is dropped with its last origin when a snapshot turns into a tombstone, but a timeout leaves
an empty group behind. The condition is that no timeout takes the last origin of a stream. -/

theorem noEmptyGroup_iff {β : Type} {groups : Dict String (Dict String β)} :
    NoEmptyGroup groups ↔ ∀ s, s ∈ groups.keys → ∃ n, known? groups s n ≠ none := by
  constructor
  · intro h s hs
    obtain ⟨n, value, hn⟩ := exists_known?_of_mem_keys h hs
    exact ⟨n, by rw [hn]; exact Option.some_ne_none value⟩
  · intro h s group hs
    obtain ⟨n, hn⟩ := h s (Dict.mem_keys_of_get? hs)
    rw [known?, hs] at hn
    by_contra hempty
    exact hn (Dict.isEmpty_iff_get?.mp (Bool.not_eq_false _ ▸ hempty) n)

/-- No stream has an empty group. -/
structure NoEmptyGroups (cm : ClusterManager Log) : Prop where
  snapshots : NoEmptyGroup cm.peerSnapshots
  tombstones : NoEmptyGroup cm.peerTombstones

theorem NoEmptyGroups.store (h : cm.NoEmptyGroups) (u : Update Log) : (cm.store u).NoEmptyGroups := by
  rcases store_cases cm u with heq | ⟨-, -, ⟨-, heq⟩ | ⟨log, -, heq⟩⟩
  · rw [heq]
    exact h
  · rw [heq]
    exact ⟨noEmptyGroup_dropOrigin h.snapshots, noEmptyGroup_setOrigin h.tombstones⟩
  · rw [heq]
    exact ⟨noEmptyGroup_setOrigin h.snapshots, noEmptyGroup_dropOrigin h.tombstones⟩

/-- What holds of what a node keeps of its peers. -/
structure PeerState (cm : ClusterManager Log) : Prop where
  exclusive : ∀ s n, known? cm.peerSnapshots s n = none ∨ known? cm.peerTombstones s n = none
  groups : cm.NoEmptyGroups
  limits : cm.Limits

/-- What every call that stores updates one after the other keeps. -/
theorem receive_induction {C : LogCodec} {I : ClusterManager C.Log → Prop}
    (hstore : ∀ cm u, I cm → I (cm.store u))
    {cm : ClusterManager C.Log} (h : I cm) (d : Delivery) : I (cm.receive C d) := by
  rw [receive_eq]
  generalize d.updates C cm.nodeId cm.maxNesting = us
  induction us generalizing cm with
  | nil => exact h
  | cons u us ih => exact ih (hstore cm u h)

end ClusterManager

open ClusterManager

namespace Node

variable {Log : Type} {self : Node Log} {now : Binary64}

/-- Every stream with snapshots has one whose origin is not removed by the check. -/
def KeepsAnOrigin (self : Node Log) (now : Binary64) : Prop :=
  ∀ s, s ∈ self.peerSnapshots.keys → ∃ n, known? self.peerSnapshots s n ≠ none ∧ ¬ self.Removes now n

theorem known?_checkTimeouts_ne_none {s n : String} :
    known? (self.checkTimeouts now).peerSnapshots s n ≠ none
      ↔ known? self.peerSnapshots s n ≠ none ∧ ¬ self.Removes now n := by
  by_cases hremoves : self.Removes now n
  · rw [known?_checkTimeouts_of_removes s hremoves]
    exact iff_of_false (fun h => h rfl) fun h => h.2 hremoves
  · rw [known?_checkTimeouts_of_not_removes s hremoves]
    exact (and_iff_left hremoves).symm

theorem noEmptyGroup_checkTimeouts :
    NoEmptyGroup (self.checkTimeouts now).peerSnapshots ↔ self.KeepsAnOrigin now := by
  rw [noEmptyGroup_iff, (timedOut self now).streams]
  simp only [known?_checkTimeouts_ne_none]
  rfl

theorem registers_checkTimeouts (h : self.toClusterManager.Registers) :
    (self.checkTimeouts now).toClusterManager.Registers := by
  have hsnapshots : ∀ s n kept, known? (self.checkTimeouts now).peerSnapshots s n = some kept →
      known? self.peerSnapshots s n = some kept := by
    intro s n kept hkept
    by_cases hremoves : self.Removes now n
    · rw [known?_checkTimeouts_of_removes s hremoves] at hkept
      cases hkept
    · rwa [known?_checkTimeouts_of_not_removes s hremoves] at hkept
  have htombstones := (timedOut self now).peerTombstones
  refine ⟨fun s n => ?_, fun s n kept hkept => h.snapshot_pos s n kept (hsnapshots s n kept hkept), ?_⟩
  · rcases h.exclusive s n with hnone | hnone
    · left
      by_contra hsome
      exact (known?_checkTimeouts_ne_none.mp hsome).1 hnone
    · right
      show known? (self.checkTimeouts now).peerTombstones s n = none
      rw [htombstones]
      exact hnone
  · show ∀ s n v, known? (self.checkTimeouts now).peerTombstones s n = some v → 0 < v.val
    rw [htombstones]
    exact h.tombstone_pos

theorem limits_checkTimeouts (h : self.toClusterManager.Limits) :
    (self.checkTimeouts now).toClusterManager.Limits := by
  have htimed := timedOut self now
  constructor
  · show ((self.checkTimeouts now).peerSnapshots.keys
      ++ (self.checkTimeouts now).peerTombstones.keys).toFinset.card
      ≤ _
    rw [htimed.streams, htimed.peerTombstones]
    exact h.streams
  · intro s
    refine (Finset.card_le_card fun n hn => ?_).trans (h.origins s)
    rw [mem_origins] at hn ⊢
    rcases hn with hn | hn
    · exact .inl (known?_checkTimeouts_ne_none.mp hn).1
    · right
      change known? (self.checkTimeouts now).peerTombstones s n ≠ none at hn
      rw [htimed.peerTombstones] at hn
      exact hn

end Node

namespace Running

variable {urlsplit : String → Except PyError SplitResult} {C : LogCodec} {s s' : Running C.Log}
    {a : Action}

/-- Nothing is known of peers yet. -/
def NoPeers {Log : Type} (s : Running Log) : Prop :=
  s.node.peerSnapshots = ∅ ∧ s.node.peerTombstones = ∅

/-- What a step does to what is kept of the peers: it stores updates, checks timeouts, or leaves it
alone. -/
theorem step_cluster (hstep : step urlsplit C s a = some s') :
    (∃ d, a = .receive d ∧ s'.node = s.node.withCluster (s.node.toClusterManager.receive C d))
      ∨ (∃ now, a = .checkTimeouts now ∧ s'.node = s.node.checkTimeouts now)
      ∨ s'.node.toClusterManager = s.node.toClusterManager := by
  -- the registers change by deliveries and by timeouts only
  cases a with
  | receive d =>
    cases hstep
    exact .inl ⟨d, rfl, rfl⟩
  | checkTimeouts now =>
    cases hstep
    exact .inr (.inl ⟨now, rfl, rfl⟩)
  | handlePing payload now =>
    cases hstep
    exact .inr (.inr rfl)
  | sendPing nid =>
    rw [step] at hstep
    split at hstep
    · split at hstep
      · split_ifs at hstep
        cases hstep
        exact .inr (.inr rfl)
      · cases hstep
    · cases hstep
  | mergeAnswer i answer now =>
    rw [step] at hstep
    split at hstep
    · cases hstep
      exact .inr (.inr rfl)
    · cases hstep
      exact .inr (.inr rfl)
    · cases hstep
  | endPing i =>
    rw [step] at hstep
    split at hstep
    · cases hstep
      refine .inr (.inr ?_)
      show (if _ then _ else _ : Node _).toClusterManager = _
      split_ifs <;> rfl
    · cases hstep
  | failPing i now =>
    rw [step] at hstep
    split at hstep
    · cases hstep
      exact .inr (.inr rfl)
    · cases hstep

/-- The invariant of runs that keep the dictionaries in order. -/
structure Ordered (r : Running C.Log) : Prop where
  registers : r.node.toClusterManager.Registers
  groups : r.node.toClusterManager.NoEmptyGroups
  limits : r.node.toClusterManager.Limits

theorem Ordered.peerState (h : s.Ordered) : s.node.toClusterManager.PeerState :=
  ⟨h.registers.exclusive, h.groups, h.limits⟩

/-- A timeout check takes no stream's last origin. -/
def TakesNoLastOrigin (s : Running C.Log) : Action → Prop
  | .checkTimeouts now => s.node.KeepsAnOrigin now
  | _ => True

theorem NoPeers.registers (h : s.NoPeers) : s.node.toClusterManager.Registers := by
  have hsnapshots : ∀ t n, known? s.node.peerSnapshots t n = none := fun t n => by rw [h.1]; rfl
  have htombstones : ∀ t n, known? s.node.peerTombstones t n = none := fun t n => by rw [h.2]; rfl
  refine ⟨fun t n => .inl (hsnapshots t n), fun t n kept hkept => ?_, fun t n v hv => ?_⟩
  · cases (hsnapshots t n).symm.trans hkept
  · cases (htombstones t n).symm.trans hv

theorem NoPeers.ordered (h : s.NoPeers) : s.Ordered := by
  refine ⟨h.registers, ⟨?_, ?_⟩, ⟨?_, fun t => ?_⟩⟩
  · show NoEmptyGroup s.node.peerSnapshots
    rw [h.1]
    exact fun t group hgroup => by cases hgroup
  · show NoEmptyGroup s.node.peerTombstones
    rw [h.2]
    exact fun t group hgroup => by cases hgroup
  · show (s.node.peerSnapshots.keys ++ s.node.peerTombstones.keys).toFinset.card ≤ maxPeerStreams
    rw [h.1, h.2]
    exact Nat.zero_le _
  · have hempty : s.node.toClusterManager.origins t = ∅ := by
      refine Finset.eq_empty_iff_forall_notMem.mpr fun n hn => ?_
      rcases mem_origins.mp hn with hn | hn
      · exact hn (by rw [h.1]; rfl)
      · exact hn (by rw [h.2]; rfl)
    rw [hempty]
    exact Nat.zero_le _

theorem Ordered.step (h : s.Ordered) (hcond : s.TakesNoLastOrigin a)
    (hstep : step urlsplit C s a = some s') :
    s'.Ordered := by
  -- a delivery keeps the three parts of the invariant, update by update
  rcases step_cluster hstep with ⟨d, -, heq⟩ | ⟨now, rfl, heq⟩ | heq
  · obtain ⟨hregisters, hgroups, hlimits⟩ :=
      receive_induction (I := fun cm => cm.Registers ∧ cm.NoEmptyGroups ∧ cm.Limits)
        (fun _ u h => ⟨h.1.store u, h.2.1.store u, h.2.2.store u⟩) ⟨h.registers, h.groups, h.limits⟩ d
    refine ⟨?_, ?_, ?_⟩
    · rw [heq]
      exact ⟨hregisters.exclusive, hregisters.snapshot_pos, hregisters.tombstone_pos⟩
    · rw [heq]
      exact ⟨hgroups.snapshots, hgroups.tombstones⟩
    · rw [heq]
      exact ⟨hlimits.streams, hlimits.origins⟩
  · -- a timeout removes origins; the condition says that it leaves no empty group
    refine ⟨?_, ?_, ?_⟩
    · rw [heq]
      exact Node.registers_checkTimeouts h.registers
    · rw [heq]
      refine ⟨Node.noEmptyGroup_checkTimeouts.mpr hcond, ?_⟩
      show NoEmptyGroup (s.node.checkTimeouts now).peerTombstones
      rw [(Node.timedOut s.node now).peerTombstones]
      exact h.groups.tombstones
    · rw [heq]
      exact Node.limits_checkTimeouts h.limits
  · exact ⟨heq ▸ h.registers, heq ▸ h.groups, heq ▸ h.limits⟩

end Running

open Running

/-- **The state of the peers stays in order** in every state of a run, from a node that knows no
peers, exactly when no timeout check of the run takes the last origin of a stream: no group is
empty, no origin of a stream is in both dictionaries, and the limits on streams and on origins hold.
-/
theorem peer_state_in_order_iff (urlsplit : String → Except PyError SplitResult) (C : LogCodec)
    {s₀ s : Running C.Log} {as : List Action} (h₀ : s₀.NoPeers)
    (hrun : run (Running.step urlsplit C) s₀ as = some s) :
    Meets (Running.step urlsplit C) TakesNoLastOrigin s₀ as
      ↔ ∀ bs, bs <+: as → ∀ s', run (Running.step urlsplit C) s₀ bs = some s' →
        s'.node.toClusterManager.PeerState := by
  refine meets_iff_forall_reached (I := Running.Ordered) (fun _ h => h.peerState)
    (fun _ _ _ h hcond hstep => h.step hcond hstep) ?_ h₀.ordered hrun
  intro r a r' _ hstep hgood
  cases a with
  | checkTimeouts now =>
    cases hstep
    exact Node.noEmptyGroup_checkTimeouts.mp hgood.groups.snapshots
  | _ => trivial

/-! ## An origin that is removed -/

/-- A snapshot of the second node, as a third one sends it. -/
def Running.relayed : Delivery :=
  .single "node3" "[\"default\", \"checkout\"]" "node2"
    (snapshotData (.int 1) Storage.Saving.empty.log.toDict) (.ofInt 6 Binary64.abs_six_lt)

/-- A node hears that the second one is dead, and gets its snapshot. -/
def Running.heard : List Action :=
  [.handlePing (.dict [(.str "members", .dict [(.str "node2",
      .dict [(.str "address", .str ""), (.str "status", .str "dead"), (.str "incarnation", .int 0)])])])
      fun _ => .ofInt 5 Binary64.abs_five_lt,
    .receive Running.relayed]

/-- The node when it has heard of the second one. -/
def Running.told : Running StreamLog where
  node :=
    { (Running.alone "node1").node with
      members := ((∅ : Dict String Member).set "node1"
        ⟨some (.str ""), .alive, 0, .ofInt 5 Binary64.abs_five_lt, .none⟩).set "node2"
        ⟨some (.str ""), .dead, 0, .ofInt 5 Binary64.abs_five_lt, .none⟩ }
  pings := []

/-- The node when it has its snapshot. -/
def Running.informed : Running StreamLog where
  node :=
    { Running.told.node with
      peerSnapshots := setOrigin ∅ "[\"default\", \"checkout\"]" "node2"
        (Storage.Saving.empty.log, .int 1) }
  pings := []

theorem Storage.Saving.fromDict_empty :
    StreamLog.fromDict .coarse Storage.Saving.empty.log.toDict = .ok Storage.Saving.empty.log :=
  (((StreamLog.roundTrip IndexMapping.coarse_monotone).restores _
    Storage.Session.empty_initial.reachable).mpr trivial).1

theorem Running.receive_relayed {cm : ClusterManager StreamLog} (hid : cm.nodeId = "node1")
    (hsnapshots : cm.peerSnapshots = ∅) (htombstones : cm.peerTombstones = ∅) :
    cm.receive (.python .coarse) Running.relayed
      = { cm with
          peerSnapshots := setOrigin ∅ "[\"default\", \"checkout\"]" "node2"
            (Storage.Saving.empty.log, .int 1) } := by
  have hlimit : ∀ n, Version.int 1 = .int n → n.natAbs < floatLimit := by
    intro n hn
    cases hn
    decide +kernel
  have hread : ∀ state, StreamLog.fromDict .coarse state = .ok Storage.Saving.empty.log →
      readEntry (.python .coarse) (.ofInt 6 Binary64.abs_six_lt) "[\"default\", \"checkout\"]" "node2"
          (snapshotData (.int 1) state)
        = .ok ⟨"[\"default\", \"checkout\"]", "node2", .int 1, some Storage.Saving.empty.log⟩ :=
    fun state hstate => readEntry_snapshotData (v := .int 1) (by decide) hlimit hstate
  have hupdates : Running.relayed.updates (.python .coarse) "node1" cm.maxNesting
      = [⟨"[\"default\", \"checkout\"]", "node2", .int 1, some Storage.Saving.empty.log⟩] := by
    unfold Running.relayed
    exact updates_single (by decide) (by decide +kernel) (by decide) (by decide)
      (hread _ Storage.Saving.fromDict_empty)
  rw [← hid] at hupdates
  exact (receive_eq (C := .python .coarse) cm Running.relayed).trans
    ((congrArg (fun us => us.foldl store cm) hupdates).trans
      (store_first hsnapshots htombstones (by decide)))

theorem Running.run_heard :
    run (Running.step noUrl (.python .coarse)) (.alone "node1") Running.heard
      = some Running.informed := by
  have hreceive : Running.step noUrl (.python .coarse) Running.told (.receive Running.relayed)
      = some Running.informed := by
    show some (Running.mk (Running.told.node.withCluster
      (Running.told.node.toClusterManager.receive (.python .coarse) Running.relayed)) []) = _
    exact congrArg (fun cm => some (Running.mk (Running.told.node.withCluster cm) []))
      (Running.receive_relayed rfl rfl rfl)
  exact run_cons.mpr ⟨Running.told, rfl, run_cons.mpr ⟨Running.informed, hreceive, rfl⟩⟩

/-- After a quarter of an hour the dead node is removed. -/
theorem Running.informed_removes : Running.informed.node.Removes (.ofInt 1000 (by decide)) "node2" := by
  refine ⟨by decide, ⟨some (.str ""), .dead, 0, .ofInt 5 Binary64.abs_five_lt, .none⟩, rfl, ?_⟩
  have hlong : Binary64.floatScale 5 60 < Binary64.floatSub 1000 5 := by decide +kernel
  exact if_pos ⟨rfl, hlong⟩

theorem Running.known_informed {s n : String}
    (h : known? Running.informed.node.peerSnapshots s n ≠ none) :
    n = "node2" := by
  rcases known?_setOrigin_ne_none h with hempty | hu
  · exact absurd rfl hempty
  · exact hu.2

/-- Nothing is removed, and the state of the peers is in order. -/
theorem peer_state_in_order_heard : Running.informed.node.toClusterManager.PeerState := by
  have hmeets : Meets (Running.step noUrl (.python .coarse)) TakesNoLastOrigin (Running.alone "node1")
      Running.heard := ⟨trivial, fun _ _ => ⟨trivial, fun _ _ => trivial⟩⟩
  exact (peer_state_in_order_iff noUrl (.python .coarse) ⟨rfl, rfl⟩ Running.run_heard).mp hmeets
    Running.heard (List.prefix_refl _) Running.informed Running.run_heard

/-- The removal of the only origin of a stream leaves an empty group. -/
theorem peer_state_empty_group : ∃ s, run (Running.step noUrl (.python .coarse)) (.alone "node1")
      (Running.heard ++ [.checkTimeouts (.ofInt 1000 (by decide))]) = some s
    ∧ ¬ NoEmptyGroup s.node.peerSnapshots := by
  refine ⟨_, run_append.mpr ⟨Running.informed, Running.run_heard, rfl⟩, fun hgroups => ?_⟩
  have hkeeps := Node.noEmptyGroup_checkTimeouts.mp hgroups
  obtain ⟨n, hknown, hkept⟩ := hkeeps "[\"default\", \"checkout\"]" (List.mem_cons_self)
  rw [Running.known_informed hknown] at hkept
  exact hkept Running.informed_removes

/-! ## Versions

The version of an origin never falls while its member stays; a timeout forgets it. -/

/-- A timeout check does not remove the origin while it has a snapshot of the stream. -/
def Running.KeepsSnapshot {C : LogCodec} (t n : String) (s : Running C.Log) : Action → Prop
  | .checkTimeouts now => known? s.node.peerSnapshots t n ≠ none → ¬ s.node.Removes now n
  | _ => True

theorem Running.registers_step {urlsplit : String → Except PyError SplitResult} {C : LogCodec}
    {s s' : Running C.Log} {a : Action} (h : s.node.toClusterManager.Registers)
    (hstep : Running.step urlsplit C s a = some s') : s'.node.toClusterManager.Registers := by
  rcases step_cluster hstep with ⟨d, -, heq⟩ | ⟨now, -, heq⟩ | heq
  · have hregisters := receive_induction (I := Registers) (fun _ u h => h.store u) h d
    rw [heq]
    exact ⟨hregisters.exclusive, hregisters.snapshot_pos, hregisters.tombstone_pos⟩
  · rw [heq]
    exact Node.registers_checkTimeouts h
  · exact heq ▸ h

/-- **One step never lowers a version**, when it does not remove the origin. -/
theorem Running.knownVersion_le_step {urlsplit : String → Except PyError SplitResult} {C : LogCodec}
    {s s' : Running C.Log} {a : Action} {t n : String} (h : s.node.toClusterManager.Registers)
    (hcond : Running.KeepsSnapshot t n s a) (hstep : Running.step urlsplit C s a = some s') :
    s.node.toClusterManager.knownVersion t n ≤ s'.node.toClusterManager.knownVersion t n := by
  rcases step_cluster hstep with ⟨d, -, heq⟩ | ⟨now, rfl, heq⟩ | heq
  · -- a version that is stored is never replaced by a lower one
    have hreceive : ∀ cm : ClusterManager C.Log, cm.Registers →
        (cm.receive C d).Registers ∧ cm.knownVersion t n ≤ (cm.receive C d).knownVersion t n := by
      intro cm hcm
      refine receive_induction (I := fun cm' =>
        cm'.Registers ∧ cm.knownVersion t n ≤ cm'.knownVersion t n)
        (fun cm' u h' => ⟨h'.1.store u, h'.2.trans (knownVersion_le_store h'.1 u t n)⟩) ⟨hcm, le_rfl⟩ d
    rw [heq]
    exact (hreceive _ h).2
  · -- a timeout that does not remove the origin leaves its version as it is
    have hsame : known? (s.node.checkTimeouts now).peerSnapshots t n
      = known? s.node.peerSnapshots t n := by
      by_cases hknown : known? s.node.peerSnapshots t n = none
      · rw [hknown]
        by_contra hsome
        exact (Node.known?_checkTimeouts_ne_none.mp hsome).1 hknown
      · exact Node.known?_checkTimeouts_of_not_removes t (hcond hknown)
    rw [heq, knownVersion_eq, knownVersion_eq]
    show _ ≤ max ((known? (s.node.checkTimeouts now).peerSnapshots t n).elim 0 _)
      ((known? (s.node.checkTimeouts now).peerTombstones t n).elim 0 _)
    rw [hsame, (Node.timedOut s.node now).peerTombstones]
  · rw [heq]

/-- **A known version does not go backwards** until its origin is removed. From any state that a
node reaches to any later one, the version known of an origin of a stream does not fall, and an
update of it that was not newer then is not stored now, when no timeout check in between removes the
origin while it has a snapshot of the stream. -/
theorem known_versions_monotone (urlsplit : String → Except PyError SplitResult) (C : LogCodec)
    {s₀ s₁ s₂ : Running C.Log} {as bs : List Action} {t n : String} (h₀ : s₀.NoPeers)
    (hfirst : run (Running.step urlsplit C) s₀ as = some s₁)
    (hkeeps : Meets (Running.step urlsplit C) (Running.KeepsSnapshot t n) s₁ bs)
    (hsecond : run (Running.step urlsplit C) s₁ bs = some s₂) :
    s₁.node.toClusterManager.knownVersion t n ≤ s₂.node.toClusterManager.knownVersion t n
      ∧ ∀ v log, v.val ≤ s₁.node.toClusterManager.knownVersion t n →
        s₂.node.toClusterManager.store ⟨t, n, v, log⟩ = s₂.node.toClusterManager := by
  have hregisters : s₁.node.toClusterManager.Registers :=
    run_invariant (I := fun r : Running C.Log => r.node.toClusterManager.Registers)
      (fun _ _ _ h _ hstep => Running.registers_step h hstep) h₀.registers meets_true hfirst
  have hmono : s₁.node.toClusterManager.knownVersion t n
    ≤ s₂.node.toClusterManager.knownVersion t n := by
    refine (run_invariant (I := fun r : Running C.Log => r.node.toClusterManager.Registers
        ∧ s₁.node.toClusterManager.knownVersion t n ≤ r.node.toClusterManager.knownVersion t n)
      (fun _ _ _ h hcond hstep => ?_) ⟨hregisters, le_rfl⟩ hkeeps hsecond).2
    exact ⟨Running.registers_step h.1 hstep, h.2.trans (Running.knownVersion_le_step h.1 hcond hstep)⟩
  exact ⟨hmono, fun v log hv => store_of_le (hv.trans hmono)⟩

/-- The snapshot of the second node raises its version to 1. -/
theorem known_versions_monotone_heard :
    (Running.alone "node1").node.toClusterManager.knownVersion "[\"default\", \"checkout\"]" "node2"
      ≤ Running.informed.node.toClusterManager.knownVersion "[\"default\", \"checkout\"]" "node2" := by
  have hkeeps : Meets (Running.step noUrl (.python .coarse))
      (Running.KeepsSnapshot "[\"default\", \"checkout\"]" "node2") (Running.alone "node1")
      Running.heard := ⟨trivial, fun _ _ => ⟨trivial, fun _ _ => trivial⟩⟩
  exact (known_versions_monotone noUrl (.python .coarse) (⟨rfl, rfl⟩ : (Running.alone "node1").NoPeers)
    (rfl : run (Running.step noUrl (.python .coarse)) (.alone "node1") [] = some (.alone "node1"))
    hkeeps Running.run_heard).1

/-- The removal of the second node takes its version from 1 back to 0. -/
theorem known_version_falls : ∃ s, run (Running.step noUrl (.python .coarse)) (.alone "node1")
      (Running.heard ++ [.checkTimeouts (.ofInt 1000 (by decide))]) = some s
    ∧ s.node.toClusterManager.knownVersion "[\"default\", \"checkout\"]" "node2"
      < Running.informed.node.toClusterManager.knownVersion "[\"default\", \"checkout\"]" "node2" := by
  refine ⟨_, run_append.mpr ⟨Running.informed, Running.run_heard, rfl⟩, ?_⟩
  have hnone := Node.known?_checkTimeouts_of_removes "[\"default\", \"checkout\"]"
    Running.informed_removes
  have htombstones := (Node.timedOut Running.informed.node (.ofInt 1000 (by decide))).peerTombstones
  rw [knownVersion_eq, knownVersion_eq]
  show max ((known? (Running.informed.node.checkTimeouts _).peerSnapshots _ _).elim 0 _)
    ((known? (Running.informed.node.checkTimeouts _).peerTombstones _ _).elim 0 _) < _
  rw [hnone, htombstones]
  decide +kernel

end Sketchlog.Mesh
