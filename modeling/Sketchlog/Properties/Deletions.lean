import Sketchlog.Lib.Runs
import Sketchlog.Refine.MeshRegisters

/-!
# Deletions of local streams: tombstones and their rollback

A DELETE in mesh mode reserves a tombstone with `begin_deletion`, and rolls it back with
`rollback_deletion` when the deletion does not commit. The tombstone has to supersede every snapshot of
the stream that the node has published, and rolled-back reservations have to leave no trace. Both
hold of most runs; for each of them the exact condition is proved.
-/

namespace Sketchlog.Mesh

open Imperative Runs

namespace ClusterManager

variable {Log : Type} {cm : ClusterManager Log}

/-! ## The two operations -/

/-- The version that `begin_deletion` reserves. -/
def reserved (now : ℚ) (previous : Option ℚ) : ℚ :=
  max now (Binary64.floatAdd (previous.getD 0) oneMicro)

/-- `begin_deletion` refuses a new key when the capacity is exhausted. -/
def AtCapacity (cm : ClusterManager Log) (key : String) : Prop :=
  cm.localTombstones.get? key = none ∧ cm.maxLocalTombstones ≤ cm.localTombstones.size

instance (cm : ClusterManager Log) (key : String) : Decidable (cm.AtCapacity key) :=
  inferInstanceAs (Decidable (_ ∧ _))

theorem run_beginDeletion (now : ℚ) (key : String) (cm : ClusterManager Log) :
    (beginDeletion now key).run cm
      = if cm.AtCapacity key then .error (.runtimeError "local mesh tombstone capacity exhausted") cm
        else .ok (key, reserved now (cm.localTombstones.get? key), cm.localTombstones.get? key)
          { cm with localTombstones :=
              cm.localTombstones.set key (reserved now (cm.localTombstones.get? key)) } := by
  unfold beginDeletion
  simp only [EStateM.run_bind, EStateM.run_get, run_raiseIf]
  by_cases hcap : cm.AtCapacity key
  · rw [if_pos hcap, if_pos (show _ ∧ _ from hcap)]
  · rw [if_neg hcap, if_neg (show ¬ (_ ∧ _) from hcap)]
    rfl

theorem get?_after_rollbackDeletion (key : String) (version : ℚ) (previous : Option ℚ)
    (cm : ClusterManager Log) (k : String) :
    (after (rollbackDeletion key version previous) cm).localTombstones.get? k
      = if k = key ∧ cm.localTombstones.get? key = some version then previous
        else cm.localTombstones.get? k := by
  show (if cm.localTombstones.get? key ≠ some version then cm else _).localTombstones.get? k = _
  by_cases hheld : cm.localTombstones.get? key = some version
  · rw [if_neg (not_not.mpr hheld)]
    cases previous with
    | none =>
      show (cm.localTombstones.pop key).get? k = _
      rw [Dict.get?_pop]
      by_cases hk : k = key
      · rw [if_pos hk, if_pos ⟨hk, hheld⟩]
      · rw [if_neg hk, if_neg fun h => hk h.1]
    | some p =>
      show (cm.localTombstones.set key p).get? k = _
      rw [Dict.get?_set]
      by_cases hk : k = key
      · rw [if_pos hk, if_pos ⟨hk, hheld⟩]
      · rw [if_neg hk, if_neg fun h => hk h.1]
  · rw [if_pos hheld, if_neg fun h => hheld h.2]

end ClusterManager

open ClusterManager

variable {Log : Type}

/-! ## A deletion and the snapshots published before it

A publisher sends snapshots with the readings of a clock that does not go back, and a deletion is
stamped with a reading too. The induction carries that every published version is at most the
present reading. -/

/-- A node and one of its streams: the last clock reading, the stamp of the stream, and the versions the
node has published snapshots of the stream under. -/
structure Publisher (Log : Type) where
  cm : ClusterManager Log
  clock : ℚ
  lastUpdated : ℚ
  published : List ℚ

namespace Publisher

inductive Action where
  /-- The stream is created or updated, and stamped with `time.time()`. -/
  | update (now : Binary64)
  /-- A snapshot is sent under the version `last_updated`. -/
  | publish
  | beginDeletion (key : String) (now : Binary64)
  | rollbackDeletion (key : String) (version : ℚ) (previous : Option ℚ)

/-- One step; the clock does not go back. -/
def step (s : Publisher Log) : Action → Option (Publisher Log)
  | .update now =>
    if s.clock ≤ now.val then some { s with clock := now.val, lastUpdated := now.val } else none
  | .publish => some { s with published := s.lastUpdated :: s.published }
  | .beginDeletion key now =>
    if s.clock ≤ now.val then
      some { s with clock := now.val, cm := after (ClusterManager.beginDeletion now.val key) s.cm }
    else none
  | .rollbackDeletion key version previous =>
    some { s with cm := after (ClusterManager.rollbackDeletion key version previous) s.cm }

/-- A node that has published no snapshot of the stream yet. -/
structure Initial (s : Publisher Log) : Prop where
  published : s.published = []
  stamped : s.lastUpdated ≤ s.clock

/-- Stamps and published versions are clock readings of the past. -/
structure Past (s : Publisher Log) : Prop where
  stamped : s.lastUpdated ≤ s.clock
  published : ∀ v ∈ s.published, v ≤ s.clock

theorem Initial.past {s : Publisher Log} (h : s.Initial) : s.Past where
  stamped := h.stamped
  published := by
    intro v hv
    rw [h.published] at hv
    exact absurd hv List.not_mem_nil

theorem step_past {s s' : Publisher Log} {a : Action} (h : s.Past) (hstep : s.step a = some s') :
    s'.Past := by
  cases a with
  | update now =>
    obtain ⟨hnow, hs'⟩ := Option.ite_none_right_eq_some.mp hstep
    cases hs'
    exact ⟨le_rfl, fun v hv => (h.published v hv).trans hnow⟩
  | publish =>
    cases hstep
    exact ⟨h.stamped, List.forall_mem_cons.mpr ⟨h.stamped, h.published⟩⟩
  | beginDeletion key now =>
    obtain ⟨hnow, hs'⟩ := Option.ite_none_right_eq_some.mp hstep
    cases hs'
    exact ⟨h.stamped.trans hnow, fun v hv => (h.published v hv).trans hnow⟩
  | rollbackDeletion key version previous =>
    cases hstep
    exact ⟨h.stamped, h.published⟩

theorem run_past {s s' : Publisher Log} {as : List Action} (h : s.Initial)
    (hrun : run step s as = some s') : s'.Past :=
  run_invariant (fun _ _ _ hI _ hstep => step_past hI hstep) h.past meets_true hrun

end Publisher

/-- A peer that holds the snapshot `(log, v)` of an origin drops it for the tombstone of version `x`. -/
def DropsFor (C : LogCodec) (key origin : String) (v : Version) (x : Binary64) : Prop :=
  ∀ (peer : ClusterManager C.Log) (log : C.Log) (sender : String) (timestamp : Binary64),
    validIdentifier sender → validIdentifier origin → canonicalKey key = true → origin ≠ peer.nodeId →
    known? peer.peerSnapshots key origin = some (log, v) →
    known? peer.peerTombstones key origin = none →
    let received := peer.receive C
      (.single sender key origin (tombstoneData (.float (.fin x))) timestamp)
    known? received.peerSnapshots key origin = none
      ∧ known? received.peerTombstones key origin = some (.float x)

/-- A stream and an origin that are known are within the limits. -/
theorem not_exceedsLimits_of_known {peer : ClusterManager Log} {s n : String} {kept : Log × Version}
    (h : known? peer.peerSnapshots s n = some kept) : ¬ peer.exceedsLimits s n := by
  have horigin : n ∈ (peer.existingOrigins s).keys := Dict.mem_keys_of_get? h
  have hstream : s ∈ peer.peerSnapshots.keys := by
    by_contra hs
    rw [known?, Dict.get?_eq_none_iff.mpr hs] at h
    cases h
  intro hexceeds
  rcases hexceeds with ⟨hnew, -⟩ | ⟨hnew, -⟩
  · exact hnew (List.mem_append_left _ hstream)
  · exact hnew (List.mem_append_left _ horigin)

theorem dropsFor_of_lt {C : LogCodec} {key origin : String} {v : Version} {x : Binary64}
    (hv : 0 ≤ v.val) (hlt : v.val < x.val) : DropsFor C key origin v x := by
  intro peer log sender timestamp hsender horigin hkey hne hsnap htomb
  have hread : readEntry C timestamp key origin (tombstoneData (.float (.fin x)))
      = .ok ⟨key, origin, .float x, none⟩ :=
    readEntry_tombstoneData (v := .float x) (hv.trans hlt.le) (fun n hn => by cases hn)
  have hnew : peer.knownVersion key origin < x.val := by
    rw [knownVersion_eq, hsnap, htomb]
    exact max_lt hlt (lt_of_le_of_lt hv hlt)
  rw [receive_eq, updates_single hsender hkey horigin hne hread, List.foldl_cons, List.foldl_nil,
    store_tombstone (v := .float x) (not_exceedsLimits_of_known hsnap) hnew]
  refine ⟨?_, ?_⟩
  · show known? (dropOrigin peer.peerSnapshots key origin) key origin = none
    rw [known?_dropOrigin, if_pos ⟨rfl, rfl⟩]
  · show known? (setOrigin peer.peerTombstones key origin (.float x)) key origin = some (.float x)
    rw [known?_setOrigin, if_pos ⟨rfl, rfl⟩]

/-- A tombstone that is not above a snapshot is ignored. -/
theorem receive_tombstone_of_le {C : LogCodec} {key origin sender : String} {v : Version}
    {x timestamp : Binary64} {peer : ClusterManager C.Log} {log : C.Log}
    (hsender : validIdentifier sender) (horigin : validIdentifier origin)
    (hkey : canonicalKey key = true)
    (hne : origin ≠ peer.nodeId) (hnonneg : 0 ≤ x.val) (hle : x.val ≤ v.val)
    (hsnap : known? peer.peerSnapshots key origin = some (log, v)) :
    peer.receive C (.single sender key origin (tombstoneData (.float (.fin x))) timestamp) = peer := by
  have hread : readEntry C timestamp key origin (tombstoneData (.float (.fin x)))
      = .ok ⟨key, origin, .float x, none⟩ :=
    readEntry_tombstoneData (v := .float x) hnonneg (fun n hn => by cases hn)
  have hknown : x.val ≤ peer.knownVersion key origin := by
    rw [knownVersion_eq, hsnap]
    exact hle.trans (le_max_left _ _)
  rw [receive_eq, updates_single hsender hkey horigin hne hread, List.foldl_cons, List.foldl_nil]
  exact store_of_le (u := ⟨key, origin, .float x, none⟩) hknown

/-- The tombstone of a deletion is above every snapshot that was published, and peers drop them for
it. -/
def Supersedes (C : LogCodec) (key origin : String) (published : List ℚ) (committed : ℚ) : Prop :=
  (∀ v ∈ published, v < committed)
    ∧ ∀ (v : Version) (x : Binary64), v.val ∈ published → 0 ≤ v.val → x.val = committed →
      DropsFor C key origin v x

/-- **When a deletion supersedes what was published before it.** In every run with a clock that does
not go back, a deletion begun at the reading `now` supersedes the snapshots published so far exactly
when none of them was published under that same reading, or the previous tombstone has pushed the
new one past it. -/
theorem deletion_supersedes_iff (C : LogCodec) {s₀ s : Publisher C.Log} {as : List Publisher.Action}
    (h₀ : s₀.Initial) (hrun : run Publisher.step s₀ as = some s) (key : String) (now : Binary64)
    (hnow : s.clock ≤ now.val) {committed : ℚ} {previous : Option ℚ} {cm : ClusterManager C.Log}
    (hbegin : (beginDeletion now.val key).run s.cm = .ok (key, committed, previous) cm) :
    Supersedes C key s.cm.nodeId s.published committed
      ↔ now.val ∉ s.published
        ∨ now.val < Binary64.floatAdd ((s.cm.localTombstones.get? key).getD 0) oneMicro := by
  -- no version was published after the time of the deletion
  have hpast : ∀ v ∈ s.published, v ≤ now.val := fun v hv =>
    ((Publisher.run_past h₀ hrun).published v hv).trans hnow
  have hcommitted : committed = reserved now.val (s.cm.localTombstones.get? key) := by
    rw [run_beginDeletion] at hbegin
    split at hbegin
    · cases hbegin
    · cases hbegin
      rfl
  -- the reserved version lies above the past unless the clock is the last published version
  have hiff : (∀ v ∈ s.published, v < committed) ↔ now.val ∉ s.published
      ∨ now.val < Binary64.floatAdd ((s.cm.localTombstones.get? key).getD 0) oneMicro := by
    rw [hcommitted]
    constructor
    · intro habove
      by_cases hmem : now.val ∈ s.published
      · exact .inr ((lt_max_iff.mp (habove _ hmem)).resolve_left (lt_irrefl _))
      · exact .inl hmem
    · intro hcond v hv
      rcases hcond with hmem | hbump
      · exact lt_max_of_lt_left (lt_of_le_of_ne (hpast v hv) fun heq => hmem (heq ▸ hv))
      · exact lt_max_of_lt_right (lt_of_le_of_lt (hpast v hv) hbump)
  rw [← hiff]
  refine ⟨And.left, fun habove => ⟨habove, ?_⟩⟩
  intro v x hv hnonneg hx
  exact dropsFor_of_lt hnonneg (hx ▸ habove _ hv)

/-- The clock reading of the examples. -/
def Publisher.five : Binary64 := .ofInt 5 Binary64.abs_five_lt

/-- A node with no tombstones, before its first update of a stream. -/
def Publisher.start (Log : Type) : Publisher Log := ⟨⟨"node1", 1024, 1, 990, ∅, ∅, ∅⟩, 0, 0, []⟩

theorem floatAdd_zero_oneMicro : Binary64.floatAdd 0 oneMicro = oneMicro := by decide +kernel

theorem Publisher.start_beginDeletion (Log : Type) (key : String) :
    ∃ cm, (beginDeletion Publisher.five.val key).run (Publisher.start Log).cm
      = .ok (key, Publisher.five.val, none) cm := by
  have hreserved : reserved Publisher.five.val none = Publisher.five.val := by
    show max ((5 : ℤ) : ℚ) (Binary64.floatAdd 0 oneMicro) = (5 : ℤ)
    rw [floatAdd_zero_oneMicro]
    exact max_eq_left (by decide +kernel)
  have hroom : ¬ (Publisher.start Log).cm.AtCapacity key := fun h => absurd h.2 (show ¬ 1 ≤ 0 by decide)
  refine ⟨{ (Publisher.start Log).cm with
    localTombstones := (∅ : Dict String ℚ).set key Publisher.five.val }, ?_⟩
  rw [run_beginDeletion, if_neg hroom]
  show EStateM.Result.ok (key, reserved Publisher.five.val none, none) _ = _
  rw [hreserved]
  show EStateM.Result.ok _ { (Publisher.start Log).cm with
    localTombstones := (∅ : Dict String ℚ).set key (reserved Publisher.five.val none) } = _
  rw [hreserved]

/-- The deletion reads the clock after the snapshot was stamped. -/
theorem deletion_supersedes_iff_later : ∃ s : Publisher (LogCodec.python .ternary).Log,
    run Publisher.step (Publisher.start _) [.publish] = some s
      ∧ Supersedes (.python .ternary) "[\"default\", \"gone\"]" "node1" s.published
        Publisher.five.val := by
  obtain ⟨cm, hcm⟩ := Publisher.start_beginDeletion (LogCodec.python .ternary).Log
    "[\"default\", \"gone\"]"
  have hrun : run Publisher.step (Publisher.start (LogCodec.python .ternary).Log) [.publish]
      = some { Publisher.start _ with published := [0] } := rfl
  refine ⟨_, hrun, (deletion_supersedes_iff (.python .ternary) ⟨rfl, le_rfl⟩ hrun _ Publisher.five ?_
    hcm).mpr (.inl ?_)⟩
  · show (0 : ℚ) ≤ (5 : ℤ)
    decide
  · show ((5 : ℤ) : ℚ) ∉ [0]
    decide

/-- An update, its snapshot and the deletion at one reading of the clock: the tombstone has the
version of the snapshot, and a peer that holds the snapshot keeps it. -/
theorem deletion_ties_with_snapshot : ∃ s : Publisher (LogCodec.python .ternary).Log,
    run Publisher.step (Publisher.start _) [.update Publisher.five, .publish] = some s
      ∧ (∃ cm, (beginDeletion Publisher.five.val "[\"default\", \"gone\"]").run s.cm
          = .ok ("[\"default\", \"gone\"]", Publisher.five.val, none) cm)
      ∧ Publisher.five.val ∈ s.published
      ∧ ∀ (peer : ClusterManager (LogCodec.python .ternary).Log) (log : StreamLog),
        peer.nodeId = "node2" →
        known? peer.peerSnapshots "[\"default\", \"gone\"]" "node1"
          = some (log, .float Publisher.five) →
        peer.receive (.python .ternary) (.single "node1" "[\"default\", \"gone\"]" "node1"
          (tombstoneData (.float (.fin Publisher.five))) Publisher.five) = peer := by
  refine ⟨⟨(Publisher.start _).cm, Publisher.five.val, Publisher.five.val, [Publisher.five.val]⟩,
    ?_, ?_,
    List.mem_cons_self, ?_⟩
  · refine run_cons.mpr ⟨⟨(Publisher.start _).cm, Publisher.five.val, Publisher.five.val, []⟩, ?_, rfl⟩
    have hnow : (Publisher.start (LogCodec.python .ternary).Log).clock ≤ Publisher.five.val :=
      (by decide : (0 : ℚ) ≤ (5 : ℤ))
    rw [Publisher.step, if_pos hnow]
    rfl
  · exact Publisher.start_beginDeletion _ _
  · intro peer log hid hsnap
    exact receive_tombstone_of_le (by decide) (by decide) (by decide +kernel) (by rw [hid]; decide)
      (show (0 : ℚ) ≤ (5 : ℤ) by decide) le_rfl hsnap

/-! ## Reservations and their rollback

Two calls may hold reservations of one key at the same time. What is left is right as long as every
rollback that takes effect restores the initial version or one whose reservation stands. -/

inductive Outcome where
  | pending
  | committed
  | rolledBack
  deriving DecidableEq

/-- A deletion that has begun: what `begin_deletion` returned, and how it ended. -/
structure Reservation where
  key : String
  version : ℚ
  previous : Option ℚ
  outcome : Outcome

namespace Reservation

/-- Not rolled back. -/
def Stands (key : String) (r : Reservation) : Prop := r.key = key ∧ r.outcome ≠ .rolledBack

instance (key : String) : DecidablePred (Stands key) := fun _ => inferInstanceAs (Decidable (_ ∧ _))

/-- The versions of a key whose reservations stand. -/
def standing (key : String) (rs : List Reservation) : List ℚ :=
  (rs.filter fun r => r.Stands key).map Reservation.version

theorem mem_standing {key : String} {rs : List Reservation} {v : ℚ} :
    v ∈ standing key rs ↔ ∃ r ∈ rs, r.Stands key ∧ r.version = v := by
  rw [standing, List.mem_map]
  simp only [List.mem_filter, decide_eq_true_eq, and_assoc]

end Reservation

/-- The local tombstones of a node and its deletions, in the order in which they began. -/
structure Deletions (Log : Type) where
  cm : ClusterManager Log
  ledger : List Reservation

namespace Deletions

open Reservation

inductive Action where
  | begin (key : String) (now : Binary64)
  | commit (i : ℕ)
  | rollback (i : ℕ)

/-- The reservation at a place of the ledger, when it is pending. -/
def pending? (s : Deletions Log) (i : ℕ) : Option Reservation :=
  s.ledger[i]?.filter fun r => r.outcome = .pending

/-- A begun deletion commits or is rolled back, once, with the values that its own `begin_deletion` has
returned. A `begin_deletion` that raises begins nothing. -/
def step (s : Deletions Log) : Action → Option (Deletions Log)
  | .begin key now =>
    match (beginDeletion now.val key).run s.cm with
    | .ok (key, version, previous) cm => some ⟨cm, s.ledger ++ [⟨key, version, previous, .pending⟩]⟩
    | .error _ cm => some ⟨cm, s.ledger⟩
  | .commit i => do
    let r ← s.pending? i
    some { s with ledger := s.ledger.set i { r with outcome := .committed } }
  | .rollback i => do
    let r ← s.pending? i
    some ⟨after (rollbackDeletion r.key r.version r.previous) s.cm,
      s.ledger.set i { r with outcome := .rolledBack }⟩

/-- The greatest of some versions, or the initial one when there is none. -/
def Greatest (initial : Option ℚ) (versions : List ℚ) (held : Option ℚ) : Prop :=
  (versions = [] ∧ held = initial) ∨ ∃ v ∈ versions, held = some v ∧ ∀ w ∈ versions, w ≤ v

/-- Every key holds the greatest version whose reservation stands, or its initial one. -/
def Accounted (initial : Dict String ℚ) (s : Deletions Log) : Prop :=
  ∀ key, Greatest (initial.get? key) (standing key s.ledger) (s.cm.localTombstones.get? key)

/-- The version that a rollback restores, when it takes effect, is the initial one or one whose
reservation stands; and no other reservation that stands has the version that is rolled back, unless
that version is restored. -/
def Restorable (initial : Dict String ℚ) (s : Deletions Log) : Action → Prop
  | .rollback i => ∀ r, s.pending? i = some r → s.cm.localTombstones.get? r.key = some r.version →
    (r.previous = initial.get? r.key
        ∨ ∃ v ∈ standing r.key (s.ledger.eraseIdx i), r.previous = some v)
      ∧ (r.version ∈ standing r.key (s.ledger.eraseIdx i) → r.previous = some r.version)
  | _ => True

variable {initial : Dict String ℚ} {s s' : Deletions Log}

theorem Greatest.congr {i : Option ℚ} {vs ws : List ℚ} {held : Option ℚ} (hmem : ∀ v, v ∈ vs ↔ v ∈ ws)
    (h : Greatest i vs held) : Greatest i ws held := by
  rcases h with ⟨hnil, hheld⟩ | ⟨v, hv, hheld, hle⟩
  · refine .inl ⟨List.eq_nil_iff_forall_not_mem.mpr fun v hv => ?_, hheld⟩
    have hv' := (hmem v).mpr hv
    rw [hnil] at hv'
    exact List.not_mem_nil hv'
  · exact .inr ⟨v, (hmem v).mp hv, hheld, fun w hw => hle w ((hmem w).mpr hw)⟩

/-- What is held is not below a version that stands. -/
theorem Greatest.le {i : Option ℚ} {vs : List ℚ} {held : Option ℚ} (h : Greatest i vs held) {v : ℚ}
    (hv : v ∈ vs) : ∃ p, held = some p ∧ v ≤ p := by
  rcases h with ⟨hnil, -⟩ | ⟨w, -, hheld, hle⟩
  · rw [hnil] at hv
    exact absurd hv List.not_mem_nil
  · exact ⟨w, hheld, hle v hv⟩

/-- A reservation knows the tombstone it has replaced: no version that stood when it began, and not the
initial one, is above. -/
structure Ordered (initial : Dict String ℚ) (rs : List Reservation) : Prop where
  above : rs.Pairwise fun a b => a.Stands b.key → ∃ p, b.previous = some p ∧ a.version ≤ p
  previous_le : ∀ r ∈ rs, ∀ p, r.previous = some p → p ≤ r.version
  initial_le : ∀ r ∈ rs, ∀ v, initial.get? r.key = some v → ∃ p, r.previous = some p ∧ v ≤ p

/-- Versions are floats. -/
structure Floats (s : Deletions Log) : Prop where
  held : ∀ key v, s.cm.localTombstones.get? key = some v → Binary64.Representable v
  previous : ∀ r ∈ s.ledger, ∀ p, r.previous = some p → Binary64.Representable p

structure Invariant (initial : Dict String ℚ) (s : Deletions Log) : Prop where
  accounted : Accounted initial s
  ordered : Ordered initial s.ledger
  floats : Floats s

/-- A pending reservation splits the ledger: it is set and erased in its place. -/
theorem pending?_eq_some {i : ℕ} {r : Reservation} (h : s.pending? i = some r) :
    r.outcome = .pending ∧ ∃ before later, s.ledger = before ++ r :: later
      ∧ s.ledger.eraseIdx i = before ++ later ∧ ∀ r', s.ledger.set i r' = before ++ r' :: later := by
  obtain ⟨hget, hpending⟩ := Option.filter_eq_some_iff.mp h
  refine ⟨of_decide_eq_true hpending, s.ledger.take i, s.ledger.drop (i + 1), ?_, ?_, ?_⟩
  · obtain ⟨hlt, hr⟩ := List.getElem?_eq_some_iff.mp hget
    rw [← hr, List.getElem_cons_drop, List.take_append_drop]
  · exact List.eraseIdx_eq_take_drop_succ ..
  · intro r'
    have hlt := (List.getElem?_eq_some_iff.mp hget).1
    rw [List.set_eq_take_append_cons_drop, if_pos hlt]

/-- A reservation that ends, in whichever way, keeps its data. -/
theorem Ordered.end_reservation {before later : List Reservation} {r r' : Reservation}
    (h : Ordered initial (before ++ r :: later)) (hkey : r'.key = r.key)
    (hversion : r'.version = r.version)
    (hprevious : r'.previous = r.previous) (hpending : r.outcome = .pending) :
    Ordered initial (before ++ r' :: later) := by
  obtain ⟨hbefore, hcons, hcross⟩ := List.pairwise_append.mp h.above
  obtain ⟨hr, hlater⟩ := List.pairwise_cons.mp hcons
  refine ⟨?_, ?_, ?_⟩
  · refine List.pairwise_append.mpr ⟨hbefore, List.pairwise_cons.mpr ⟨?_, hlater⟩, ?_⟩
    · -- the reservation has stood so far, so what is asked of the later ones is known
      intro b hb hstands
      rw [hversion]
      exact hr b hb ⟨hkey ▸ hstands.1, by rw [hpending]; decide⟩
    · intro a ha b hb
      rcases List.mem_cons.mp hb with rfl | hb
      · rw [hkey, hprevious]
        exact hcross a ha r List.mem_cons_self
      · exact hcross a ha b (List.mem_cons_of_mem r hb)
  · intro b hb
    rcases List.mem_append.mp hb with hb | hb
    · exact h.previous_le b (List.mem_append_left _ hb)
    · rcases List.mem_cons.mp hb with rfl | hb
      · rw [hprevious, hversion]
        exact h.previous_le r (List.mem_append_right _ List.mem_cons_self)
      · exact h.previous_le b (List.mem_append_right _ (List.mem_cons_of_mem r hb))
  · intro b hb
    rcases List.mem_append.mp hb with hb | hb
    · exact h.initial_le b (List.mem_append_left _ hb)
    · rcases List.mem_cons.mp hb with rfl | hb
      · rw [hprevious, hkey]
        exact h.initial_le r (List.mem_append_right _ List.mem_cons_self)
      · exact h.initial_le b (List.mem_append_right _ (List.mem_cons_of_mem r hb))

theorem representable_oneMicro : Binary64.Representable oneMicro :=
  Binary64.representable_of_isBinary64
    ⟨4722366482869645, -72, by norm_num, by norm_num, by norm_num, by rw [oneMicro]; norm_num⟩

theorem representable_reserved (now : Binary64) (previous : Option ℚ) :
    Binary64.Representable (reserved now.val previous) := by
  rcases max_choice now.val (Binary64.floatAdd (previous.getD 0) oneMicro) with h | h
  · rw [reserved, h]
    exact Binary64.representable_of_isBinary64 now.isBinary64
  · rw [reserved, h]
    exact Binary64.representable_floatAdd _ _

theorem le_reserved {now p : ℚ} (h : Binary64.Representable p) : p ≤ reserved now (some p) :=
  (Binary64.le_floatAdd h representable_oneMicro (by decide +kernel)).trans (le_max_right _ _)

/-- No version that stands is below the initial one. -/
theorem Ordered.initial_le_standing {rs : List Reservation} (h : Ordered initial rs) {key : String}
    {v w : ℚ}
    (hinit : initial.get? key = some v) (hw : w ∈ standing key rs) : v ≤ w := by
  obtain ⟨r, hr, hstands, rfl⟩ := mem_standing.mp hw
  obtain ⟨p, hp, hle⟩ := h.initial_le r hr v (hstands.1 ▸ hinit)
  exact hle.trans (h.previous_le r hr p hp)

/-- A new reservation. -/
theorem Invariant.begin (h : Invariant initial s) (key : String) (now : Binary64) :
    Invariant initial
      ⟨{ s.cm with
          localTombstones :=
            s.cm.localTombstones.set key (reserved now.val (s.cm.localTombstones.get? key)) },
        s.ledger ++ [⟨key, reserved now.val (s.cm.localTombstones.get? key),
          s.cm.localTombstones.get? key, .pending⟩]⟩ := by
  have hgrow : ∀ p, s.cm.localTombstones.get? key = some p →
      p ≤ reserved now.val (s.cm.localTombstones.get? key) := by
    intro p hp
    rw [hp]
    exact le_reserved (h.floats.held key p hp)
  refine ⟨?_, ⟨?_, ?_, ?_⟩, ⟨?_, ?_⟩⟩
  · intro k
    show Greatest _ _ ((s.cm.localTombstones.set key _).get? k)
    rw [Dict.get?_set]
    by_cases hk : k = key
    · -- the new version is above all that stand
      subst hk
      rw [if_pos rfl]
      refine .inr ⟨_, mem_standing.mpr ⟨_, List.mem_append_right _ List.mem_cons_self,
        ⟨rfl, (by decide : Outcome.pending ≠ .rolledBack)⟩, rfl⟩, rfl, ?_⟩
      intro w hw
      obtain ⟨r, hr, hstands, rfl⟩ := mem_standing.mp hw
      rcases List.mem_append.mp hr with hr | hr
      · obtain ⟨p, hp, hle⟩ := (h.accounted k).le (mem_standing.mpr ⟨r, hr, hstands, rfl⟩)
        exact hle.trans (hgrow p hp)
      · rw [List.mem_singleton.mp hr]
    · rw [if_neg hk]
      refine (h.accounted k).congr fun v => ?_
      rw [mem_standing, mem_standing]
      constructor
      · intro ⟨r, hr, hstands, hv⟩
        exact ⟨r, List.mem_append_left _ hr, hstands, hv⟩
      · intro ⟨r, hr, hstands, hv⟩
        rcases List.mem_append.mp hr with hr | hr
        · exact ⟨r, hr, hstands, hv⟩
        · rw [List.mem_singleton.mp hr] at hstands
          exact absurd hstands.1.symm hk
  · refine List.pairwise_append.mpr ⟨h.ordered.above, List.pairwise_singleton _ _, ?_⟩
    intro a ha b hb hstands
    rw [List.mem_singleton.mp hb] at hstands ⊢
    exact (h.accounted key).le (mem_standing.mpr ⟨a, ha, hstands, rfl⟩)
  · intro r hr
    rcases List.mem_append.mp hr with hr | hr
    · exact h.ordered.previous_le r hr
    · rw [List.mem_singleton.mp hr]
      exact hgrow
  · intro r hr
    rcases List.mem_append.mp hr with hr | hr
    · exact h.ordered.initial_le r hr
    · rw [List.mem_singleton.mp hr]
      intro v hv
      rcases h.accounted key with ⟨-, hheld⟩ | ⟨w, hw, hheld, -⟩
      · exact ⟨v, hheld.trans hv, le_rfl⟩
      · exact ⟨w, hheld, h.ordered.initial_le_standing hv hw⟩
  · intro k v hv
    rw [Dict.get?_set] at hv
    by_cases hk : k = key
    · rw [if_pos hk, Option.some.injEq] at hv
      exact hv ▸ representable_reserved now _
    · rw [if_neg hk] at hv
      exact h.floats.held k v hv
  · intro r hr
    rcases List.mem_append.mp hr with hr | hr
    · exact h.floats.previous r hr
    · rw [List.mem_singleton.mp hr]
      exact h.floats.held key

/-- What stands, with one reservation singled out. -/
theorem mem_standing_split {before later : List Reservation} {r : Reservation} {key : String} {v : ℚ} :
    v ∈ standing key (before ++ r :: later)
      ↔ (r.Stands key ∧ r.version = v) ∨ v ∈ standing key (before ++ later) := by
  simp only [mem_standing, List.mem_append, List.mem_cons]
  constructor
  · intro ⟨a, ha, hstands, hv⟩
    rcases ha with ha | rfl | ha
    · exact .inr ⟨a, .inl ha, hstands, hv⟩
    · exact .inl ⟨hstands, hv⟩
    · exact .inr ⟨a, .inr ha, hstands, hv⟩
  · intro h
    rcases h with ⟨hstands, hv⟩ | ⟨a, ha, hstands, hv⟩
    · exact ⟨r, .inr (.inl rfl), hstands, hv⟩
    · rcases ha with ha | ha
      · exact ⟨a, .inl ha, hstands, hv⟩
      · exact ⟨a, .inr (.inr ha), hstands, hv⟩

/-- A reservation that ends keeps what it has replaced. -/
theorem Floats.end_reservation {before later : List Reservation} {r r' : Reservation}
    (h : Floats s) (hledger : s.ledger = before ++ r :: later) (hprevious : r'.previous = r.previous) :
    ∀ a ∈ before ++ r' :: later, ∀ p, a.previous = some p → Binary64.Representable p := by
  intro a ha
  rcases List.mem_append.mp ha with ha | ha
  · exact h.previous a (hledger ▸ List.mem_append_left _ ha)
  · rcases List.mem_cons.mp ha with rfl | ha
    · rw [hprevious]
      exact h.previous r (hledger ▸ List.mem_append_right _ List.mem_cons_self)
    · exact h.previous a (hledger ▸ List.mem_append_right _ (List.mem_cons_of_mem r ha))

/-- A reservation that commits. -/
theorem Invariant.commit (h : Invariant initial s) {i : ℕ} {r : Reservation}
    (hr : s.pending? i = some r) :
    Invariant initial ⟨s.cm, s.ledger.set i { r with outcome := .committed }⟩ := by
  obtain ⟨hpending, before, later, hledger, -, hset⟩ := pending?_eq_some hr
  have hordered := h.ordered
  rw [hledger] at hordered
  refine ⟨fun key => ?_, ?_, ⟨h.floats.held, ?_⟩⟩
  · refine (h.accounted key).congr fun v => ?_
    rw [hset, hledger, mem_standing_split, mem_standing_split]
    refine or_congr_left (and_congr_left fun _ => ?_)
    -- pending or committed, the reservation stands
    simp only [Stands, hpending]
    exact and_congr_right fun _ => by decide
  · show Ordered initial (s.ledger.set i _)
    rw [hset]
    exact hordered.end_reservation rfl rfl rfl hpending
  · show ∀ a ∈ s.ledger.set i _, _
    rw [hset]
    exact h.floats.end_reservation hledger rfl

section Rollback

variable {before later : List Reservation} {r : Reservation}

theorem stands_of_pending (hpending : r.outcome = .pending) : r.Stands r.key :=
  ⟨rfl, by rw [hpending]; decide⟩

/-- The others that stand, against a reservation whose version is held. -/
theorem Invariant.le_previous (h : Invariant initial s) (hledger : s.ledger = before ++ r :: later)
    (hpending : r.outcome = .pending) (hheld : s.cm.localTombstones.get? r.key = some r.version) {w : ℚ}
    (hw : w ∈ standing r.key (before ++ later)) :
    w = r.version ∨ ∃ p, r.previous = some p ∧ w ≤ p := by
  have hle : w ≤ r.version := by
    have hstanding : w ∈ standing r.key s.ledger := by
      rw [hledger]
      exact mem_standing_split.mpr (.inr hw)
    obtain ⟨p, hp, hle⟩ := (h.accounted r.key).le hstanding
    rw [hheld, Option.some.injEq] at hp
    exact hp ▸ hle
  have habove := h.ordered.above
  rw [hledger] at habove
  obtain ⟨-, hcons, hcross⟩ := List.pairwise_append.mp habove
  obtain ⟨a, ha, hstands, rfl⟩ := mem_standing.mp hw
  rcases List.mem_append.mp ha with ha | ha
  · exact .inr (hcross a ha r List.mem_cons_self hstands)
  · -- a later reservation is not below, so it has the same version
    obtain ⟨p, hp, hrp⟩ := (List.pairwise_cons.mp hcons).1 a ha
      ⟨hstands.1.symm, (stands_of_pending hpending).2⟩
    have hpa := h.ordered.previous_le a
      (hledger ▸ List.mem_append_right _ (List.mem_cons_of_mem r ha)) p hp
    exact .inl (le_antisymm hle (hrp.trans hpa))

/-- **When a rollback restores the right version.** -/
theorem Invariant.greatest_previous_iff (h : Invariant initial s)
    (hledger : s.ledger = before ++ r :: later) (hpending : r.outcome = .pending)
    (hheld : s.cm.localTombstones.get? r.key = some r.version) :
    Greatest (initial.get? r.key) (standing r.key (before ++ later)) r.previous
      ↔ (r.previous = initial.get? r.key ∨ ∃ v ∈ standing r.key (before ++ later), r.previous = some v)
        ∧ (r.version ∈ standing r.key (before ++ later) → r.previous = some r.version) := by
  have hmem : r ∈ s.ledger := hledger ▸ List.mem_append_right _ List.mem_cons_self
  constructor
  · intro hgreatest
    rcases hgreatest with ⟨hnil, hprev⟩ | ⟨v, hv, hprev, hle⟩
    · refine ⟨.inl hprev, fun hshared => ?_⟩
      rw [hnil] at hshared
      exact absurd hshared List.not_mem_nil
    · refine ⟨.inr ⟨v, hv, hprev⟩, fun hshared => ?_⟩
      have heq : v = r.version := le_antisymm (h.ordered.previous_le r hmem v hprev) (hle _ hshared)
      rw [hprev, heq]
  · intro ⟨hprev, hshared⟩
    have hle : ∀ w ∈ standing r.key (before ++ later), ∃ p, r.previous = some p ∧ w ≤ p := by
      intro w hw
      rcases h.le_previous hledger hpending hheld hw with rfl | hp
      · exact ⟨r.version, hshared hw, le_rfl⟩
      · exact hp
    rcases hprev with hinit | ⟨v, hv, hprev⟩
    · by_cases hnil : standing r.key (before ++ later) = []
      · exact .inl ⟨hnil, hinit⟩
      · -- the initial version is restored: the others that stand have it too
        obtain ⟨w, hmemw⟩ := List.exists_mem_of_ne_nil _ hnil
        obtain ⟨p, hp, hwp⟩ := hle w hmemw
        have hpw : p ≤ w := by
          refine h.ordered.initial_le_standing (hinit.symm.trans hp) ?_
          rw [hledger]
          exact mem_standing_split.mpr (.inr hmemw)
        refine .inr ⟨w, hmemw, by rw [hp, le_antisymm hpw hwp], fun x hx => ?_⟩
        obtain ⟨p', hp', hxp⟩ := hle x hx
        rw [hp, Option.some.injEq] at hp'
        exact (hp' ▸ hxp).trans hpw
    · refine .inr ⟨v, hv, hprev, fun w hw => ?_⟩
      obtain ⟨p, hp, hwp⟩ := hle w hw
      rw [hprev, Option.some.injEq] at hp
      exact hp ▸ hwp

/-- Versions of other keys. -/
theorem mem_standing_of_ne {key : String} (hne : r.key ≠ key) {v : ℚ} :
    v ∈ standing key (before ++ r :: later) ↔ v ∈ standing key (before ++ later) := by
  rw [mem_standing_split]
  exact or_iff_right fun h => hne h.1.1

/-- The tombstones are accounted for after a rollback that takes no effect. -/
theorem Invariant.accounted_of_not_held (h : Invariant initial s)
    (hledger : s.ledger = before ++ r :: later) (hpending : r.outcome = .pending)
    (hheld : s.cm.localTombstones.get? r.key ≠ some r.version) (key : String) :
    Greatest (initial.get? key) (standing key (before ++ later)) (s.cm.localTombstones.get? key) := by
  have haccounted := h.accounted key
  rw [hledger] at haccounted
  by_cases hkey : r.key = key
  · subst hkey
    -- the greatest version is not the one that is rolled back
    have hr : r.version ∈ standing r.key (before ++ r :: later) :=
      mem_standing_split.mpr (.inl ⟨stands_of_pending hpending, rfl⟩)
    rcases haccounted with ⟨hnil, -⟩ | ⟨v, hv, hv', hle⟩
    · rw [hnil] at hr
      exact absurd hr List.not_mem_nil
    · rcases mem_standing_split.mp hv with ⟨-, rfl⟩ | hv
      · exact absurd hv' hheld
      · exact .inr ⟨v, hv, hv', fun w hw => hle w (mem_standing_split.mpr (.inr hw))⟩
  · exact haccounted.congr fun v => mem_standing_of_ne hkey

/-- **A rollback.** It keeps the tombstones accounted for exactly when it is restorable, and then keeps
the whole invariant. -/
theorem Invariant.rollback (h : Invariant initial s) {i : ℕ} (hr : s.pending? i = some r) :
    (Accounted initial ⟨after (rollbackDeletion r.key r.version r.previous) s.cm,
        s.ledger.set i { r with outcome := .rolledBack }⟩ ↔ Restorable initial s (.rollback i))
      ∧ (Restorable initial s (.rollback i) →
        Invariant initial ⟨after (rollbackDeletion r.key r.version r.previous) s.cm,
          s.ledger.set i { r with outcome := .rolledBack }⟩) := by
  obtain ⟨hpending, before, later, hledger, herase, hset⟩ := pending?_eq_some hr
  have hothers : ∀ key v, v ∈ standing key (before ++ { r with outcome := .rolledBack } :: later)
      ↔ v ∈ standing key (before ++ later) := by
    intro key v
    rw [mem_standing_split]
    exact or_iff_right fun hstands => hstands.1.2 rfl
  have hrestorable : Restorable initial s (.rollback i)
      ↔ (s.cm.localTombstones.get? r.key = some r.version →
        Greatest (initial.get? r.key) (standing r.key (before ++ later)) r.previous) := by
    -- both sides speak of the key that is rolled back, as the other keys keep their tombstones
    constructor
    · intro hres hheld
      refine (h.greatest_previous_iff hledger hpending hheld).mpr ?_
      rw [← herase]
      exact hres r hr hheld
    · intro hgreatest r' hr' hheld
      cases hr.symm.trans hr'
      rw [herase]
      exact (h.greatest_previous_iff hledger hpending hheld).mp (hgreatest hheld)
  -- the standing reservations of the other keys are untouched, so their maxima are
  have hiff : Accounted initial ⟨after (rollbackDeletion r.key r.version r.previous) s.cm,
      s.ledger.set i { r with outcome := .rolledBack }⟩ ↔ Restorable initial s (.rollback i) := by
    rw [hrestorable, Accounted]
    simp only [hset, get?_after_rollbackDeletion]
    constructor
    · intro hall hheld
      have hkey := hall r.key
      rw [if_pos ⟨rfl, hheld⟩] at hkey
      exact hkey.congr (hothers r.key)
    · intro hgreatest key
      refine Greatest.congr (fun v => (hothers key v).symm) ?_
      by_cases hheld : s.cm.localTombstones.get? r.key = some r.version
      · by_cases hkey : key = r.key
        · rw [if_pos ⟨hkey, hheld⟩, hkey]
          exact hgreatest hheld
        · rw [if_neg fun hc => hkey hc.1]
          have haccounted := h.accounted key
          rw [hledger] at haccounted
          exact haccounted.congr fun v => mem_standing_of_ne fun heq => hkey heq.symm
      · rw [if_neg fun hc => hheld hc.2]
        exact h.accounted_of_not_held hledger hpending hheld key
  -- the rest of the invariant: the order of the ledger and the doubles held in it
  refine ⟨hiff, fun hres => ⟨hiff.mpr hres, ?_, ⟨?_, ?_⟩⟩⟩
  · show Ordered initial (s.ledger.set i _)
    have hordered := h.ordered
    rw [hledger] at hordered
    rw [hset]
    exact hordered.end_reservation rfl rfl rfl hpending
  · intro key v hv
    rw [get?_after_rollbackDeletion] at hv
    split at hv
    · exact h.floats.previous r (hledger ▸ List.mem_append_right _ List.mem_cons_self) v hv
    · exact h.floats.held key v hv
  · show ∀ a ∈ s.ledger.set i _, _
    rw [hset]
    exact h.floats.end_reservation hledger rfl

end Rollback

/-! ### Whole runs -/

theorem step_keeps {a : Action} (h : Invariant initial s) (hcond : Restorable initial s a)
    (hstep : s.step a = some s') : Invariant initial s' := by
  cases a with
  | begin key now =>
    rw [step, run_beginDeletion] at hstep
    by_cases hcap : s.cm.AtCapacity key
    · rw [if_pos hcap, Option.some.injEq] at hstep
      exact hstep ▸ h
    · rw [if_neg hcap, Option.some.injEq] at hstep
      exact hstep ▸ h.begin key now
  | commit i =>
    obtain ⟨r, hr, hs'⟩ := Option.bind_eq_some_iff.mp hstep
    cases hs'
    exact h.commit hr
  | rollback i =>
    obtain ⟨r, hr, hs'⟩ := Option.bind_eq_some_iff.mp hstep
    cases hs'
    exact (h.rollback hr).2 hcond

theorem restorable_of_accounted {a : Action} (h : Invariant initial s) (hstep : s.step a = some s')
    (hgood : Accounted initial s') : Restorable initial s a := by
  cases a with
  | begin key now => trivial
  | commit i => trivial
  | rollback i =>
    obtain ⟨r, hr, hs'⟩ := Option.bind_eq_some_iff.mp hstep
    cases hs'
    exact (h.rollback hr).1.mp hgood

/-- A node before the first of its deletions. -/
def start (cm : ClusterManager Log) : Deletions Log := ⟨cm, []⟩

theorem invariant_start {cm : ClusterManager Log}
    (hfloats : ∀ key v, cm.localTombstones.get? key = some v → IsBinary64 v) :
    Invariant cm.localTombstones (start cm) where
  accounted := fun _ => .inl ⟨rfl, rfl⟩
  ordered := ⟨List.Pairwise.nil, fun _ hr => absurd hr List.not_mem_nil, fun _ hr =>
    absurd hr List.not_mem_nil⟩
  floats := ⟨fun key v hv => Binary64.representable_of_isBinary64 (hfloats key v hv),
    fun _ hr => absurd hr List.not_mem_nil⟩

/-- The versions of a key that were committed. -/
def committed (key : String) (rs : List Reservation) : List ℚ :=
  (rs.filter fun r => r.key = key ∧ r.outcome = .committed).map Reservation.version

/-- What the deletions have left once none is pending: every key has the greatest committed version, or
its initial one; and when all were rolled back, the tombstones are the initial ones. -/
structure Settled (initial : Dict String ℚ) (s : Deletions Log) : Prop where
  greatest : ∀ key, Greatest (initial.get? key) (committed key s.ledger) (s.cm.localTombstones.get? key)
  restored : (∀ r ∈ s.ledger, r.outcome = .rolledBack) →
    ∀ key, s.cm.localTombstones.get? key = initial.get? key

theorem Accounted.settled (h : Accounted initial s) (hdone : ∀ r ∈ s.ledger, r.outcome ≠ .pending) :
    Settled initial s := by
  have hstanding : ∀ key, standing key s.ledger = committed key s.ledger := by
    intro key
    refine congrArg _ (List.filter_congr fun r hr => ?_)
    have hnot := hdone r hr
    refine decide_eq_decide.mpr (and_congr_right fun _ => ?_)
    show r.outcome ≠ .rolledBack ↔ r.outcome = .committed
    revert hnot
    cases r.outcome <;> decide
  refine ⟨fun key => hstanding key ▸ h key, fun hall key => ?_⟩
  rcases h key with ⟨-, hheld⟩ | ⟨v, hv, -, -⟩
  · exact hheld
  · obtain ⟨r, hr, hstands, -⟩ := mem_standing.mp hv
    exact absurd (hall r hr) hstands.2

end Deletions

open Deletions

/-- **When deletions roll back cleanly.** In a run of interleaved deletions, the tombstones are
accounted for in every state exactly when each rollback is restorable: it does not bring back a
version whose own deletion was rolled back before. Then a run that leaves no deletion pending is
settled. -/
theorem deletions_roll_back_iff (cm : ClusterManager Log)
    (hfloats : ∀ key v, cm.localTombstones.get? key = some v → IsBinary64 v)
    (as : List Deletions.Action)
    {s : Deletions Log} (hrun : run Deletions.step (start cm) as = some s) :
    (Meets Deletions.step (Restorable cm.localTombstones) (start cm) as
        ↔ ∀ bs, bs <+: as → ∀ t, run Deletions.step (start cm) bs = some t →
          Accounted cm.localTombstones t)
      ∧ (Meets Deletions.step (Restorable cm.localTombstones) (start cm) as →
        (∀ r ∈ s.ledger, r.outcome ≠ .pending) → Settled cm.localTombstones s) := by
  have hinv := invariant_start hfloats
  refine ⟨?_, fun hmeets hdone => ?_⟩
  · exact meets_iff_forall_reached (fun _ h => h.accounted) (fun _ _ _ h hcond hstep =>
      step_keeps h hcond hstep)
      (fun _ _ _ h hstep hgood => restorable_of_accounted h hstep hgood) hinv hrun
  · have hfinal := run_invariant (fun _ _ _ h hcond hstep => step_keeps h hcond hstep) hinv hmeets hrun
    exact hfinal.accounted.settled hdone

/-- A node with room for one tombstone. -/
def Deletions.empty : ClusterManager StreamLog := ⟨"node1", 1024, 1, 990, ∅, ∅, ∅⟩

/-- One deletion, rolled back. -/
theorem deletions_roll_back_iff_single : ∃ s : Deletions StreamLog,
    run Deletions.step (start Deletions.empty) [.begin "gone" Publisher.five, .rollback 0] = some s
      ∧ s.cm.localTombstones.get? "gone" = none := by
  let final : Deletions StreamLog :=
    ⟨after (rollbackDeletion "gone" (reserved Publisher.five.val none) none)
    { Deletions.empty with
      localTombstones := (∅ : Dict String ℚ).set "gone" (reserved Publisher.five.val none) },
    [⟨"gone", reserved Publisher.five.val none, none, .rolledBack⟩]⟩
  have hrun : run Deletions.step (start Deletions.empty) [.begin "gone" Publisher.five, .rollback 0]
      = some final := rfl
  have hmeets : Meets Deletions.step (Restorable Deletions.empty.localTombstones)
    (start Deletions.empty)
      [.begin "gone" Publisher.five, .rollback 0] := by
    refine ⟨trivial, fun s hs => ⟨?_, fun _ _ => trivial⟩⟩
    cases hs
    intro r hr _
    cases hr
    exact ⟨.inl rfl, fun hshared => absurd hshared List.not_mem_nil⟩
  have hsettled := (deletions_roll_back_iff Deletions.empty (fun _ _ hv => by cases hv) _ hrun).2 hmeets
    (List.forall_mem_singleton.mpr (by decide : Outcome.rolledBack ≠ .pending))
  exact ⟨final, hrun, hsettled.restored (List.forall_mem_singleton.mpr rfl) "gone"⟩

/-- Two deletions that cross: the second brings back the version of the first, which was rolled back. -/
theorem deletions_cross :
    (run Deletions.step (start Deletions.empty)
        [.begin "gone" Publisher.five, .begin "gone" Publisher.five, .rollback 0, .rollback 1]).map
      (fun s => (s.ledger.map Reservation.outcome, s.cm.localTombstones.get? "gone"))
        = some ([.rolledBack, .rolledBack], some 5)
      ∧ Deletions.empty.localTombstones.get? "gone" = none := by
  decide +kernel

end Sketchlog.Mesh
