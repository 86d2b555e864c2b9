import Sketchlog.Mesh.Streams
import Sketchlog.Properties.PeerState
import Sketchlog.Refine.Facade
import Sketchlog.Refine.RestoredLogs

/-!
# Reads of replicated streams

`receive_snapshot` checks each snapshot alone; a read merges all that are held of a stream. Every
snapshot held was restored by `from_dict` (`restored_run`) and so is well formed, but a well-formed
log can be of another configuration than the log it is merged into, and the sum of logs that fit
need not fit. These are the only reasons for a read to raise: it succeeds, with each snapshot
counted once, exactly when all logs have one shape and their sum fits (`merged_read_iff`).
-/

namespace Sketchlog

open Checked Imperative Runs

namespace Facade

variable {M : IndexMapping} {cppAvailable : Bool} {S : Shape} {x : Contents S} {merged : StreamLog}
  {peers : List StreamLog}

/-- The contents that a log of the kind takes over from others: the sum of what each of them holds. -/
def Held (isCpp : Bool) (peers : List StreamLog) {S : Shape} (c : Contents S) : Prop :=
  ∃ held : List (Contents S), List.Forall₂ (fun peer d => peer.backend.Represents d) peers held
    ∧ c = (held.map (Backend.taken isCpp)).sum

theorem held_nil {isCpp : Bool} {c : Contents S} : Held isCpp [] c ↔ c = 0 := by
  constructor
  · rintro ⟨held, hheld, rfl⟩
    cases hheld
    rfl
  · rintro rfl
    exact ⟨[], .nil, rfl⟩

theorem held_cons {isCpp : Bool} {peer : StreamLog} {c : Contents S} : Held isCpp (peer :: peers) c
    ↔ ∃ d e : Contents S, peer.backend.Represents d ∧ Held isCpp peers e
      ∧ c = Backend.taken isCpp d + e := by
  constructor
  · rintro ⟨held, hheld, rfl⟩
    cases hheld with
    | cons hd hrest => exact ⟨_, _, hd, ⟨_, hrest, rfl⟩, rfl⟩
  · rintro ⟨d, e, hd, ⟨held, hheld, rfl⟩, rfl⟩
    exact ⟨d :: held, .cons hd hheld, rfl⟩

/-- What is held of the peers is determined by them. -/
theorem Held.eq {isCpp : Bool} {c d : Contents S} (hc : Held isCpp peers c)
    (hd : Held isCpp peers d) : c = d := by
  induction peers generalizing c d with
  | nil => rw [held_nil.mp hc, held_nil.mp hd]
  | cons peer peers ih =>
    obtain ⟨c₁, c₂, hfirst, hrest, rfl⟩ := held_cons.mp hc
    obtain ⟨d₁, d₂, hfirst', hrest', rfl⟩ := held_cons.mp hd
    rw [hfirst.contents_eq hfirst', ih hrest hrest']

/-- The merge of several logs into one. -/
def mergeAll (M : IndexMapping) (cppAvailable : Bool) (merged : StreamLog) (peers : List StreamLog) :
    Except PyError StreamLog :=
  peers.foldlM (fun merged peer => Cpp.exec (StreamLog.merge M cppAvailable peer) merged) merged

theorem mergeAll_cons {peer : StreamLog} : mergeAll M cppAvailable merged (peer :: peers)
    = Cpp.exec (StreamLog.merge M cppAvailable peer) merged >>= fun merged =>
      mergeAll M cppAvailable merged peers :=
  List.foldlM_cons ..

/-- **Merging several well-formed logs**: it raises exactly when one of them has another shape or
the sum does not fit, wherever in the list that shows. -/
theorem mergeAll_cases (hK : M.Int32Keys) (hmerged : merged.Valid cppAvailable x)
    (hpeers : ∀ peer ∈ peers, ∃ S, ∃ d : Contents S, peer.backend.Sound M d) :
    (∃ c : Contents S, Held merged.backend.isCpp peers c ∧ (x + c).Fits
        ∧ ∃ t, mergeAll M cppAvailable merged peers = .ok t ∧ t.backend.Represents (x + c))
      ∨ ((∀ c : Contents S, Held merged.backend.isCpp peers c → ¬ (x + c).Fits)
        ∧ ∃ e, mergeAll M cppAvailable merged peers = .error e) := by
  induction peers generalizing merged x with
  | nil =>
    refine .inl ⟨0, held_nil.mpr rfl, ?_, merged, rfl, ?_⟩
    · rw [add_zero]
      exact hmerged.fits
    · rw [add_zero]
      exact hmerged.represents
  | cons peer peers ih =>
    obtain ⟨S', d, hpeer⟩ := hpeers peer List.mem_cons_self
    have hstep := StreamLog.merge_guarded hK hmerged hpeer
    rw [mergeAll_cons]
    cases hstep with
    | accept _ t hrun ht =>
      obtain ⟨hconfig, z, hz, hvalid⟩ := ht
      have hkind : t.backend.isCpp = merged.backend.isCpp := by
        rw [hvalid.kind, hmerged.kind, hconfig]
      rw [Cpp.exec_eq_ok hrun]
      -- whatever is held of the peer is what was merged
      have hsum : ∀ c : Contents S, Held merged.backend.isCpp (peer :: peers) c ↔ ∃ e : Contents S,
          Held t.backend.isCpp peers e ∧ x + c = x + Backend.taken merged.backend.isCpp z + e
            ∧ c = Backend.taken merged.backend.isCpp z + e := by
        intro c
        rw [held_cons, hkind]
        constructor
        · rintro ⟨d', e, hd', he, rfl⟩
          rw [hd'.contents_eq hz]
          exact ⟨e, he, (add_assoc _ _ _).symm, rfl⟩
        · rintro ⟨e, he, -, hc⟩
          exact ⟨z, e, hz, he, hc⟩
      rcases ih hvalid fun p hp => hpeers p (List.mem_cons_of_mem _ hp) with
        ⟨e, he, hfits, r, hr, hrep⟩ | ⟨hnone, err, herr⟩
      · refine .inl ⟨_, (hsum _).mpr ⟨e, he, (add_assoc _ _ _).symm, rfl⟩, ?_, r, hr, ?_⟩
        · rwa [← add_assoc]
        · rwa [← add_assoc]
      · refine .inr ⟨fun c hc hfits => ?_, err, herr⟩
        obtain ⟨e, he, heq, -⟩ := (hsum c).mp hc
        rw [heq] at hfits
        exact hnone e he hfits
    | reject hnot e hrun =>
      refine .inr ⟨fun c hc hfits => ?_, e, ?_⟩
      · obtain ⟨d', e', hd', -, rfl⟩ := held_cons.mp hc
        rw [← add_assoc] at hfits
        exact hnot ⟨d', hd', hfits.of_add⟩
      · rw [Cpp.exec, hrun]
        rfl

/-! ## The log that a read starts from

The copy of the local stream, or an empty log of the default configuration. Then the logs of the
peers are merged into it in turn. -/

/-- The shape of a log with the default configuration. -/
def Shape.default : Shape :=
  ⟨defaultAccuracy.val, 10, 2048, 5, defaultAccuracy.isBinary64, by decide +kernel, by
    decide +kernel, by decide,
    by decide, by decide, by decide⟩

theorem Shape.default_bounded : Shape.default.Bounded := by
  show 2048 ≤ 1000000 / 5
  decide

/-- `StreamLog(deterministic=True)`. -/
def StreamLog.blank : StreamLog := ⟨defaults true, .python (.emptyOf Shape.default true)⟩

theorem StreamLog.new_defaults (cppAvailable : Bool) : StreamLog.new cppAvailable (defaults true)
    = .ok StreamLog.blank := by
  have hnew : Sketchlog.StreamLog.new (defaults true) = .ok (.emptyOf Shape.default true) :=
    Sketchlog.StreamLog.new_eq_ok.mpr ⟨Shape.default, Shape.default_bounded, rfl, rfl, rfl, rfl, rfl⟩
  have huses : ¬ Backend.usesCpp cppAvailable (defaults true).deterministic = true := by
    show ¬ (cppAvailable && false) = true
    rw [Bool.and_false]
    decide
  rw [StreamLog.new, Backend.new, if_neg huses, hnew]
  rfl

/-- `c` is the sum of what the log holds and what it takes over from the others. -/
def Totals (log : StreamLog) (peers : List StreamLog) {S : Shape} (c : Contents S) : Prop :=
  ∃ own held : Contents S, log.backend.Represents own ∧ Held log.backend.isCpp peers held
    ∧ c = own + held

end Facade

namespace Mesh

open ClusterManager Facade

/-- The snapshots that a node holds of a stream, one of each origin. -/
def ClusterManager.peerLogs {Log : Type} (self : ClusterManager Log) (space streamId : String) :
    List Log :=
  (self.existingOrigins (streamKey space streamId)).items.map fun kept => kept.2.1

/-- The log that the snapshots are merged into, or copied from. -/
def baseLog : Option (ThreadSafeStreamLog Facade.StreamLog) → Facade.StreamLog
  | some stream => stream.log
  | none => .blank

variable {M : IndexMapping} {cppAvailable : Bool}

theorem getMergedStream_eq (self : ClusterManager Facade.StreamLog) (space streamId : String)
    {localStream : Option (ThreadSafeStreamLog Facade.StreamLog)}
    (hlocal : ∀ stream, localStream = some stream → stream.log.Reachable M cppAvailable) :
    ∃ S, ∃ x : Contents S, ∃ merged : Facade.StreamLog, (baseLog localStream).backend.Represents x
      ∧ merged.Valid cppAvailable x ∧ merged.backend.isCpp = (baseLog localStream).backend.isCpp
      ∧ self.getMergedStream M cppAvailable space streamId localStream
        = mergeAll M cppAvailable merged (self.peerLogs space streamId) := by
  -- the merged read folds over the snapshots of the origins that are held
  have hfold : ∀ merged, mergeAll M cppAvailable merged (self.peerLogs space streamId)
      = (self.existingOrigins (streamKey space streamId)).items.foldlM
        (fun merged kept => Cpp.exec (Facade.StreamLog.merge M cppAvailable kept.2.1) merged)
          merged := by
    intro merged
    rw [mergeAll, peerLogs, List.foldlM_map]
  -- without a local stream, the fold starts from an empty log of the default shape
  cases localStream with
  | none =>
    obtain ⟨S, hvalid⟩ := Facade.StreamLog.valid_new (Facade.StreamLog.new_defaults cppAvailable)
    refine ⟨S, 0, .blank, hvalid.represents, hvalid, rfl, ?_⟩
    rw [hfold, getMergedStream, Facade.StreamLog.new_defaults]
    rfl
  | some stream =>
    obtain ⟨S, x, hvalid⟩ := (hlocal stream rfl).valid
    obtain ⟨merged, hsnapshot, hconfig, hmerged⟩ := Facade.StreamLog.getSnapshot_eq_ok (M := M) hvalid
    refine ⟨S, x, merged, hvalid.represents, hmerged, ?_, ?_⟩
    · rw [hmerged.kind, hconfig]
      exact hvalid.kind.symm
    · rw [hfold]
      show (stream.log.getSnapshot M cppAvailable >>= _) = _
      rw [hsnapshot]
      rfl

/-! ## Runs

The logs that a node holds are sound throughout its runs, so the read returns the sum or raises, by
shapes and limits alone. -/

section Runs

variable {urlsplit : String → Except PyError SplitResult} {C : LogCodec} {s s' : Running C.Log}
    {as : List Running.Action}

theorem Running.restored_step {a : Running.Action} (h : s.node.toClusterManager.Restored)
    (hstep : Running.step urlsplit C s a = some s') : s'.node.toClusterManager.Restored := by
  rcases Running.step_cluster hstep with ⟨d, -, heq⟩ | ⟨now, -, heq⟩ | heq
  · rw [heq]
    exact h.receive d
  · intro t n kept hkept
    rw [heq] at hkept
    -- what a timeout check leaves was there before
    by_cases hremoves : s.node.Removes now n
    · have hnone := Node.known?_checkTimeouts_of_removes t hremoves
      cases hnone.symm.trans hkept
    · exact h t n kept ((Node.known?_checkTimeouts_of_not_removes t hremoves).symm.trans hkept)
  · rw [heq]
    exact h

/-- **Every snapshot that a node holds was restored from a document**, in every state of a run. -/
theorem Running.restored_run (h₀ : s.NoPeers) (hrun : run (Running.step urlsplit C) s as = some s') :
    s'.node.toClusterManager.Restored := by
  have hnone : s.node.toClusterManager.Restored := by
    intro t n kept hkept
    change known? s.node.peerSnapshots t n = some kept at hkept
    rw [h₀.1] at hkept
    cases hkept
  exact run_invariant (I := fun s : Running C.Log => s.node.toClusterManager.Restored)
    (fun _ _ _ h _ hstep => Running.restored_step h hstep) hnone meets_true hrun

end Runs

/-- The snapshots held of a stream are well formed. -/
theorem sound_peerLogs (hR : M.RoundsInts) {node : ClusterManager Facade.StreamLog}
    (h : ClusterManager.Restored (C := Facade.codec M cppAvailable) node) (space streamId : String) :
    ∀ peer ∈ node.peerLogs space streamId, ∃ S, ∃ d : Contents S, peer.backend.Sound M d := by
  intro peer hpeer
  obtain ⟨⟨nid, kept⟩, hmem, rfl⟩ := List.mem_map.mp hpeer
  have hget := Dict.get?_eq_some_iff.mpr hmem
  have hknown : known? node.peerSnapshots (streamKey space streamId) nid = some kept := by
    unfold existingOrigins at hget
    unfold known?
    cases hgroup : node.peerSnapshots.get? (streamKey space streamId) with
    | none =>
      rw [hgroup] at hget
      cases hget
    | some group =>
      rw [hgroup] at hget
      exact hget
  obtain ⟨data, hdata⟩ := h _ _ _ hknown
  exact Facade.StreamLog.sound_fromDict hR hdata

/-- **When a read succeeds.** In every state of a run, a read of a stream returns the sum of the
node's own log and of the snapshot of each origin exactly when all of them have one shape and that
sum fits. -/
theorem merged_read_iff (hR : M.RoundsInts) (hK : M.Int32Keys)
    {urlsplit : String → Except PyError SplitResult}
    {s₀ s : Running (Facade.codec M cppAvailable).Log} {as : List Running.Action} (h₀ : s₀.NoPeers)
    (hrun : run (Running.step urlsplit (Facade.codec M cppAvailable)) s₀ as = some s)
    (space streamId : String)
    {localStream : Option (ThreadSafeStreamLog Facade.StreamLog)}
    (hlocal : ∀ stream, localStream = some stream → stream.log.Reachable M cppAvailable) :
    (∃ merged, s.node.toClusterManager.getMergedStream M cppAvailable space streamId localStream
      = .ok merged
        ∧ ∃ S, ∃ c : Contents S, Totals (baseLog localStream)
          (s.node.toClusterManager.peerLogs space streamId) c
          ∧ merged.backend.Represents c)
      ↔ ∃ S, ∃ c : Contents S, Totals (baseLog localStream)
        (s.node.toClusterManager.peerLogs space streamId) c
        ∧ c.Fits := by
  have hpeers := sound_peerLogs hR (Running.restored_run h₀ hrun) space streamId
  obtain ⟨S, x, merged, hbase, hvalid, hkind, heq⟩ :=
    getMergedStream_eq s.node.toClusterManager space streamId hlocal
  -- the fold ends with the sum if it fits, and raises if it does not
  have hcases := mergeAll_cases hK hvalid hpeers
  rw [hkind] at hcases
  rw [heq]
  constructor
  · rintro ⟨t, ht, -⟩
    rcases hcases with ⟨c, hc, hfits, -⟩ | ⟨-, e, he⟩
    · exact ⟨S, x + c, ⟨x, c, hbase, hc, rfl⟩, hfits⟩
    · cases ht.symm.trans he
  · rintro ⟨S', c', ⟨own, held, hown, hheld, rfl⟩, hfits⟩
    obtain rfl := hbase.shape_eq hown
    obtain rfl := hbase.contents_eq hown
    rcases hcases with ⟨c, hc, -, t, ht, hrep⟩ | ⟨hnone, -⟩
    · exact ⟨t, ht, S, x + c, ⟨x, c, hbase, hc, rfl⟩, hrep⟩
    · exact absurd hfits (hnone held hheld)

/-! ## A stream with snapshots of two nodes

The node and two others have each counted the same event, in logs with the default configuration. Its
peers' logs arrive as snapshots, and are merged into its own. -/

namespace Reads

/-- A Python log, as it is restored. -/
def restored (log : Sketchlog.StreamLog) : Facade.StreamLog :=
  ⟨Facade.StreamLog.configOf log, .python log⟩

theorem fromDict_restored {log : Sketchlog.StreamLog} {S : Shape} {c : Contents S}
    (hsound : log.Sound M c) (hpython : log.deterministic = true) :
    Facade.StreamLog.fromDict M cppAvailable log.toDict = .ok (restored log) := by
  obtain ⟨b, hnew, -⟩ := Facade.StreamLog.new_configOf cppAvailable hsound
  have huses : ¬ Facade.Backend.usesCpp cppAvailable log.deterministic = true := by
    rw [hpython]
    show ¬ (cppAvailable && false) = true
    rw [Bool.and_false]
    decide
  have hrestore : Facade.Backend.restore cppAvailable log = .ok (.python log) := by
    rw [Facade.Backend.restore, if_neg huses]
  have hfresh : Facade.StreamLog.new cppAvailable (Facade.StreamLog.configOf log)
      = .ok ⟨Facade.StreamLog.configOf log, b⟩ := by
    rw [Facade.StreamLog.new, hnew]
    rfl
  exact bind_eq_ok.mpr ⟨_, Sketchlog.StreamLog.fromDict_toDict hsound,
    bind_eq_ok.mpr ⟨_, hrestore, bind_eq_ok.mpr ⟨_, hfresh, rfl⟩⟩⟩

theorem sound_emptyOf {S : Shape} (hS : S.Bounded) :
    (Sketchlog.StreamLog.emptyOf S true).Sound M (0 : Contents S) :=
  ⟨hS, Sketchlog.StreamLog.represents_emptyOf S true, Contents.fits_zero, Tally.coherent_zero⟩

/-- `n` occurrences of an event, and nothing else. -/
noncomputable def counted (n : ℕ) : Contents Shape.default :=
  ⟨0, EventCounts.single (Ingest.columns Shape.default (.int 7)) n, 0⟩

/-- The log with the default configuration that holds them. -/
noncomputable def counting (n : ℕ) : Sketchlog.StreamLog :=
  { Sketchlog.StreamLog.emptyOf Shape.default true with
    events := .ofCounts (counted n).events
    total := n }

/-- Few events fit. -/
theorem fits_events {c : Contents Shape.default} (hlatency : c.latency = 0)
    (hfew : c.events.total ≤ 100) : c.Fits := by
  have htotal : c.total = c.events.total := by
    rw [Contents.total, hlatency, Tally.count_zero, zero_add]
  refine ⟨hlatency ▸ Tally.fits_zero, hfew.trans (by decide), ?_⟩
  rw [htotal]
  exact hfew.trans (by decide)

theorem represents_counting (n : ℕ) : (counting n).Represents (counted n) := by
  have hempty := Sketchlog.StreamLog.represents_emptyOf Shape.default true
  refine ⟨hempty.alpha, hempty.latency, rfl, hempty.uniques, ?_⟩
  show (n : ℤ) = (((0 : Tally).count + n : ℕ) : ℤ)
  rw [Tally.count_zero, Nat.zero_add]

theorem sound_counting {n : ℕ} (hfew : n ≤ 100) : (counting n).Sound .coarse (counted n) :=
  ⟨Shape.default_bounded, represents_counting n, fits_events rfl hfew, Tally.coherent_zero⟩

/-- A node that knows of no other. -/
def start : Running (Facade.codec .coarse true).Log where
  node :=
    { Membership.new noUrl "node1" [] none none (.ofInt 60 Binary64.abs_sixty_lt) (fun _ =>
      .ofInt 0 Binary64.abs_zero_lt) with
      maxPayloadBytes := 1048576
      maxLocalTombstones := 100000
      maxNesting := 990
      peerSnapshots := ∅
      peerTombstones := ∅
      localTombstones := ∅ }
  pings := []

/-- A snapshot of the stream, from a node. -/
def snapshot (origin : String) (log : Sketchlog.StreamLog) : Delivery :=
  .single origin "[\"default\", \"checkout\"]" origin (snapshotData (.int 1) log.toDict)
    (.ofInt 6 Binary64.abs_six_lt)

/-- The node when it has a snapshot. -/
def informed (s : Running (Facade.codec .coarse true).Log) (origin : String)
    (log : Sketchlog.StreamLog) : Running (Facade.codec .coarse true).Log where
  node :=
    { s.node with
      peerSnapshots := setOrigin s.node.peerSnapshots "[\"default\", \"checkout\"]" origin
        (restored log, .int 1) }
  pings := []

theorem updates_snapshot {origin : String} {log : Sketchlog.StreamLog} {S : Shape} {c : Contents S}
    (horigin : validIdentifier origin) (hne : origin ≠ "node1") (hsound : log.Sound .coarse c)
    (hpython : log.deterministic = true) :
    (snapshot origin log).updates (Facade.codec .coarse true) "node1" 990
    = [⟨"[\"default\", \"checkout\"]", origin, .int 1, some (restored log)⟩] := by
  have hlimit : ∀ n, Version.int 1 = .int n → n.natAbs < floatLimit := by
    intro n hn
    cases hn
    decide +kernel
  have hread : ∀ state, Facade.StreamLog.fromDict .coarse true state = .ok (restored log) →
      readEntry (Facade.codec .coarse true) (.ofInt 6 Binary64.abs_six_lt)
        "[\"default\", \"checkout\"]" origin (snapshotData (.int 1) state)
        = .ok ⟨"[\"default\", \"checkout\"]", origin, .int 1, some (restored log)⟩ :=
    fun state hstate => readEntry_snapshotData (v := .int 1) (by decide) hlimit hstate
  exact updates_single horigin (by decide +kernel) horigin hne
    (hread _ (fromDict_restored hsound hpython))

/-- The delivery of a snapshot to a node that has none of its origin. -/
theorem step_snapshot {s : Running (Facade.codec .coarse true).Log} {origin : String}
    {log : Sketchlog.StreamLog} {S : Shape} {c : Contents S} (hself : s.node.nodeId = "node1")
    (hnesting : s.node.maxNesting = 990) (hpings : s.pings = [])
    (htombstones : s.node.peerTombstones = ∅) (horigin : validIdentifier origin)
    (hne : origin ≠ "node1") (hsound : log.Sound .coarse c) (hpython : log.deterministic = true)
    (hlimits : ¬ s.node.toClusterManager.exceedsLimits "[\"default\", \"checkout\"]" origin)
    (hnew : ¬ Version.val (.int 1)
      ≤ s.node.toClusterManager.knownVersion "[\"default\", \"checkout\"]" origin) :
    Running.step noUrl (Facade.codec .coarse true) s (.receive (snapshot origin log))
      = some (informed s origin log) := by
  have hupdates := updates_snapshot horigin hne hsound hpython
  have hreceive : s.node.toClusterManager.receive (Facade.codec .coarse true) (snapshot origin log)
      = (informed s origin log).node.toClusterManager := by
    refine (receive_eq (C := Facade.codec .coarse true) s.node.toClusterManager _).trans ?_
    rw [hself, hnesting, hupdates]
    exact store_snapshot htombstones hlimits hnew
  show some (Running.mk (s.node.withCluster _) s.pings) = _
  rw [hreceive, hpings]
  rfl

/-- The first snapshot of a node that knows of no other. -/
theorem run_snapshot {log : Sketchlog.StreamLog} {S : Shape} {c : Contents S}
    (hsound : log.Sound .coarse c) (hpython : log.deterministic = true) :
    run (Running.step noUrl (Facade.codec .coarse true)) start [.receive (snapshot "node2" log)]
      = some (informed start "node2" log) := by
  have hstep : Running.step noUrl (Facade.codec .coarse true) start (.receive (snapshot "node2" log))
      = some (informed start "node2" log) :=
    step_snapshot rfl rfl rfl rfl (by decide) (by decide) hsound hpython (by decide) (by decide)
  exact run_cons.mpr ⟨_, hstep, rfl⟩

/-- The node with the snapshot of the second, and then of the third. -/
noncomputable def heard : Running (Facade.codec .coarse true).Log :=
  informed (informed start "node2" (counting 4)) "node3" (counting 6)

theorem run_snapshots : run (Running.step noUrl (Facade.codec .coarse true)) start
    [.receive (snapshot "node2" (counting 4)), .receive (snapshot "node3" (counting 6))]
      = some heard := by
  have hsecond : Running.step noUrl (Facade.codec .coarse true) (informed start "node2" (counting 4))
      (.receive (snapshot "node3" (counting 6))) = some heard :=
    step_snapshot rfl rfl rfl rfl (by decide) (by decide) (sound_counting (by decide)) rfl (by decide)
      (by decide)
  exact run_append.mpr ⟨_, run_snapshot (sound_counting (by decide)) rfl,
    run_cons.mpr ⟨_, hsecond, rfl⟩⟩

theorem peerLogs_informed {s : Running (Facade.codec .coarse true).Log}
    (hnone : s.node.peerSnapshots = ∅) (log : Sketchlog.StreamLog) :
    (informed s "node2" log).node.toClusterManager.peerLogs "default" "checkout"
      = [restored log] := by
  have hkey : streamKey "default" "checkout" = "[\"default\", \"checkout\"]" := by decide +kernel
  unfold peerLogs existingOrigins informed
  rw [hkey, hnone]
  rfl

theorem peerLogs_heard : heard.node.toClusterManager.peerLogs "default" "checkout"
    = [restored (counting 4), restored (counting 6)] := by
  have hkey : streamKey "default" "checkout" = "[\"default\", \"checkout\"]" := by decide +kernel
  unfold peerLogs
  rw [hkey]
  rfl

theorem counted_add (n k : ℕ) : counted (n + k) = counted n + counted k := by
  refine Contents.ext (add_zero 0).symm ?_ (add_zero 0).symm
  refine EventCounts.ext ?_ rfl
  funext r j
  show (if _ then n + k else 0) = (if _ then n else 0) + (if _ then k else 0)
  split <;> rfl

end Reads

/-- A read counts the events of all three nodes. -/
theorem merged_read_three : ∃ merged,
    Reads.heard.node.toClusterManager.getMergedStream .coarse true "default" "checkout"
        (some ⟨Reads.restored (Reads.counting 5), .ofInt 0 Binary64.abs_zero_lt⟩) = .ok merged
      ∧ merged.backend.Represents (Reads.counted (5 + (4 + 6))) := by
  -- the local log is restored from a document, the two others come over the wire
  have hreach : ∀ stream, some (ThreadSafeStreamLog.mk (Reads.restored (Reads.counting 5))
      (.ofInt 0 Binary64.abs_zero_lt)) = some stream → stream.log.Reachable .coarse true := by
    intro stream hstream
    rw [← Option.some.inj hstream]
    exact .fromDict _ (Reads.fromDict_restored (Reads.sound_counting (by decide)) rfl)
  have hread := merged_read_iff IndexMapping.coarse_roundsInts IndexMapping.coarse_int32Keys
    ⟨rfl, rfl⟩ Reads.run_snapshots "default" "checkout" hreach
  rw [Reads.peerLogs_heard] at hread
  -- the origins hold four and six events, the local log five
  have hheld : Held false [Reads.restored (Reads.counting 4), Reads.restored (Reads.counting 6)]
      (Reads.counted 4 + (Reads.counted 6 + 0)) :=
    held_cons.mpr ⟨_, _, Reads.represents_counting 4, held_cons.mpr ⟨_, _,
      Reads.represents_counting 6, held_nil.mpr rfl, rfl⟩, rfl⟩
  rw [add_zero, ← Reads.counted_add] at hheld
  have htotals : Totals (Reads.restored (Reads.counting 5))
      [Reads.restored (Reads.counting 4), Reads.restored (Reads.counting 6)]
      (Reads.counted (5 + (4 + 6))) :=
    ⟨_, _, Reads.represents_counting 5, hheld, Reads.counted_add 5 (4 + 6)⟩
  obtain ⟨merged, hmerged, S, c, ⟨own, held, hown, hheld', rfl⟩, hrep⟩ :=
    hread.mpr ⟨_, _, htotals, Reads.fits_events rfl (by decide)⟩
  obtain rfl := hown.shape_eq (Reads.represents_counting 5)
  rw [hown.contents_eq (Reads.represents_counting 5), hheld'.eq hheld, ← Reads.counted_add] at hrep
  exact ⟨merged, hmerged, hrep⟩

/-- A snapshot with another configuration is accepted, and every read of the stream raises. -/
theorem merged_read_raises : ∃ s kept, run (Running.step noUrl (Facade.codec .coarse true)) Reads.start
      [.receive (Reads.snapshot "node2" (.emptyOf (Shape.oneRow 1 (by decide)) true))] = some s
    ∧ known? s.node.peerSnapshots (streamKey "default" "checkout") "node2" = some kept
    ∧ ∃ e, s.node.toClusterManager.getMergedStream .coarse true "default" "checkout" none
      = .error e := by
  have hbounded : (Shape.oneRow 1 (by decide)).Bounded := by
    show 1 ≤ 1000000 / 1
    decide
  have hkey : streamKey "default" "checkout" = "[\"default\", \"checkout\"]" := by decide +kernel
  have hrun := Reads.run_snapshot (Reads.sound_emptyOf (M := .coarse) hbounded) rfl
  refine ⟨_, _, hrun, by rw [hkey]; rfl, ?_⟩
  have hpeers := sound_peerLogs IndexMapping.coarse_roundsInts
    (Running.restored_run ⟨rfl, rfl⟩ hrun) "default" "checkout"
  have hnone : ∀ stream, (none : Option (ThreadSafeStreamLog Facade.StreamLog)) = some stream →
      stream.log.Reachable .coarse true := fun _ h => (by cases h)
  obtain ⟨S, x, merged, hbase, hvalid, hkind, heq⟩ := getMergedStream_eq
    (Reads.informed Reads.start "node2"
      (.emptyOf (Shape.oneRow 1 (by decide)) true)).node.toClusterManager "default" "checkout" hnone
  rw [heq]
  rcases mergeAll_cases IndexMapping.coarse_int32Keys hvalid hpeers with ⟨c, hheld, -⟩ | ⟨-, herror⟩
  · -- the shape of the default log is not that of the snapshot
    rw [Reads.peerLogs_informed rfl] at hheld
    obtain ⟨d, -, hd, -, -⟩ := held_cons.mp hheld
    have hshape : S = Shape.default :=
      hbase.shape_eq (Sketchlog.StreamLog.represents_emptyOf Shape.default true)
    have hshape' : S = Shape.oneRow 1 (by decide) :=
      hd.shape_eq (Sketchlog.StreamLog.represents_emptyOf _ true)
    have hp : Shape.default.p = (Shape.oneRow 1 (by decide)).p := by rw [← hshape, hshape']
    exact absurd hp (by decide)
  · exact herror

end Mesh

end Sketchlog
