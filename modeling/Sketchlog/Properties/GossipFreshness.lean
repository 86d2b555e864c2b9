import Sketchlog.Lib.Runs
import Sketchlog.Mesh.Interleaving
import Sketchlog.Properties.MergedReads
import Sketchlog.Refine.FacadeDocuments
import Sketchlog.Refine.WindowedSteps

/-!
# What a node holds of a stream is as fresh as its version

* **`Grown`** — what a step of a timeline leaves in place: states are added at the end, and a state
  that had all calls stamped at or before `v` still has them, if the clock had passed `v`.
* **`Network.Holding`** — a log with a version, as it is sent or held: it has the contents of some
  state of its stream, and that state has every call that was stamped at or before the version.
* A snapshot is `Holding` since its version was read before it was taken, and deliveries and relays
  pass it on as it is.
-/

namespace Sketchlog

open Imperative Tally

/-! ## Timelines

The states of a stream in the order of its updates. A version bounds how far the stream had come
when it was read. -/

namespace Timeline

variable {Log : Type} {t t' : Timeline Log} {call : EStateM PyError Log Unit} {now : Binary64}

/-- What is left in place. -/
structure Grown (t t' : Timeline Log) : Prop where
  clock : t.clock ≤ t'.clock
  states : ∀ (i : ℕ) (log : Log), t.states[i]? = some log → t'.states[i]? = some log
  contains : ∀ i v, v ≤ t.clock → t.Contains i v → t'.Contains i v

theorem Grown.refl (t : Timeline Log) : t.Grown t := ⟨le_rfl, fun _ _ h => h, fun _ _ _ h => h⟩

theorem Grown.apply (h : t.apply call = some t') : t.Grown t' := by
  obtain ⟨-, log, -, hstates, -, -, hclock⟩ := apply_eq_some h
  refine ⟨hclock.ge, fun i prior hi => ?_, fun i v _ hcontains => hcontains.apply h⟩
  rw [hstates]
  exact List.getElem?_append_left (List.getElem?_eq_some_iff.mp hi).1 ▸ hi

theorem Grown.stamp (h : t.stamp now = some t') : t.Grown t' := by
  obtain ⟨-, hnow, -, hstates, -, -, hclock, -⟩ := stamp_eq_some h
  refine ⟨hclock ▸ hnow.le, fun i prior hi => ?_, fun i v hv hcontains => hcontains.stamp hv h⟩
  rw [hstates]
  exact hi

/-- While no call waits for its stamp, every state after the last stamped call is the current one. -/
def Settled (t : Timeline Log) : Prop :=
  t.locked = false → ∀ j log, t.states[j]? = some log → (∀ kt ∈ t.stamps, kt.1 ≤ j) → log = t.log

theorem settled_start (log : ThreadSafeStreamLog Log) : (start log).Settled := by
  intro _ j prior hj _
  obtain ⟨hlt, hprior⟩ := List.getElem?_eq_some_iff.mp hj
  have hzero : j = 0 := Nat.lt_one_iff.mp hlt
  subst hzero
  exact hprior.symm

/-- A call that raises leaves the log as it was. -/
theorem Settled.apply (ht : t.Settled) (herr : ∀ e log, call.run t.log = .error e log → log = t.log)
    (h : t.apply call = some t') : t'.Settled := by
  obtain ⟨hfree, -⟩ := apply_eq_some h
  unfold Timeline.apply at h
  rw [hfree, if_neg Bool.false_ne_true] at h
  cases hrun : call.run t.log with
  | ok u log =>
    rw [hrun] at h
    cases h
    intro hlocked
    cases hlocked
  | error e log =>
    rw [hrun] at h
    have hlog := herr e log hrun
    subst hlog
    cases h
    intro _ j prior hj hafter
    by_cases hlt : j < t.states.length
    · rw [List.getElem?_append_left hlt] at hj
      exact ht hfree j prior hj hafter
    · rw [List.getElem?_append_right (not_lt.mp hlt)] at hj
      have hmem := List.mem_of_getElem? hj
      exact List.mem_singleton.mp hmem

/-- The call that gets the stamp is the last one. -/
theorem Settled.stamp (hcurrent : t.states.getLast? = some t.log) (h : t.stamp now = some t') :
    t'.Settled := by
  obtain ⟨-, -, hlog, hstates, hstamps, -, -, -⟩ := stamp_eq_some h
  intro _ j prior hj hafter
  rw [hstates] at hj
  have hlast : t.states.length - 1 ≤ j := by
    apply hafter (t.states.length - 1, now.val)
    rw [hstamps]
    exact List.mem_append_right _ (List.mem_singleton.mpr rfl)
  have hlt := (List.getElem?_eq_some_iff.mp hj).1
  have hindex : j = t.states.length - 1 := by omega
  rw [hindex, ← List.getLast?_eq_getElem?, hcurrent] at hj
  rw [hlog]
  exact (Option.some.inj hj).symm

/-- Under the version of the stamp, what contains every call of it is the current state. -/
theorem Settled.eq_current (ht : t.Settled) (hpast : t.Consistent) (hfree : t.locked = false)
    {i : ℕ} {log : Log}
    (hi : t.states[i]? = some log) (hcontains : t.Contains i t.lastUpdated.val) : log = t.log :=
  ht hfree i log hi fun kt hkt => hcontains kt hkt (hpast.stamps_le kt hkt).2

end Timeline

namespace Mesh

open ClusterManager Runs

variable {M : IndexMapping} {cppAvailable : Bool}

/-! ## One call -/

/-- A call of a kept log leaves a kept log, and the log as it was when it raises. -/
theorem Write.guarded (hM : M.Monotone) (hR : M.RoundsInts) (hK : M.Int32Keys)
    {log : Facade.StreamLog} {S : Shape}
    {c : Contents S} (h : log.Kept M cppAvailable c) (w : Write) :
    ∃ P, Guarded (w.call M cppAvailable) log P (fun t =>
      ∃ c' : Contents S, t.Kept M cppAvailable c') := by
  have hheld : log.Held cppAvailable log.config c := ⟨rfl, h.valid⟩
  -- one case for each write; each keeps the log's shape, bounds and order of extremes
  cases w with
  | add a =>
    refine ⟨_, (Facade.StreamLog.add_guarded (M := M) hheld a).imp Iff.rfl fun t _ ht => ?_⟩
    exact ⟨_, ht.valid, h.bounded,
      h.coherent.add hM (Sketchlog.StreamLog.coherent_delta hM a.toIngest.toPython)⟩
  | addBatch values =>
    refine ⟨_, (Facade.StreamLog.dispatch_guarded (d := c + (Ingest.batch values).delta M S) hheld
      And.right
      (fun _ hrep => Sketchlog.StreamLog.ingest_guarded hrep h.valid.fits (.batch values))
      (fun _ hrep => Cpp.StreamLog.ingest_guarded hrep h.valid.fits (.batch values))).imp Iff.rfl
        fun t _ ht => ?_⟩
    exact ⟨_, ht.valid, h.bounded,
      h.coherent.add hM (Sketchlog.StreamLog.coherent_delta hM (.batch values))⟩
  | merge state =>
    show ∃ P, Guarded (liftExcept (Facade.StreamLog.fromDict M cppAvailable state) >>= _) log P _
    cases hread : Facade.StreamLog.fromDict M cppAvailable state with
    | error e => exact ⟨False, .reject not_false e rfl⟩
    | ok incoming =>
      obtain ⟨S', d, hkept⟩ := Facade.StreamLog.kept_fromDict hR hread
      refine ⟨_, (Facade.StreamLog.merge_guarded hK h.valid hkept.sound).imp Iff.rfl fun t _ ht => ?_⟩
      obtain ⟨-, z, hz, hvalid⟩ := ht
      -- a log that could be merged has the shape of this one
      obtain rfl := hz.shape_eq hkept.valid.represents
      obtain rfl := hz.contents_eq hkept.valid.represents
      -- a C++ log takes the doubles nearest to the extremes
      have htaken : Coherent M S.alpha (Facade.Backend.taken log.backend.isCpp z).latency := by
        cases log.backend.isCpp with
        | false => exact hkept.coherent
        | true => exact hkept.coherent.rounded hR
      exact ⟨_, hvalid, h.bounded, h.coherent.add hM htaken⟩
  | reset =>
    obtain ⟨t, hrun, ht⟩ := Facade.StreamLog.run_reset_held hheld
    exact ⟨True, .of_ok hrun ⟨0, ht.valid, h.bounded, Tally.coherent_zero⟩⟩

/-- The object of a stream: its past is in order, and its log is one that a server keeps. -/
structure Tracked (M : IndexMapping) (cppAvailable : Bool) (t : Timeline Facade.StreamLog) : Prop where
  consistent : t.Consistent
  settled : t.Settled
  kept : ∃ S, ∃ c : Contents S, t.log.Kept M cppAvailable c

section Tracked

variable {t t' : Timeline Facade.StreamLog} {now : Binary64}

theorem tracked_start {log : Facade.StreamLog} (h : ∃ S, ∃ c : Contents S, log.Kept M cppAvailable c)
    (lastUpdated : Binary64) : Tracked M cppAvailable (.start ⟨log, lastUpdated⟩) :=
  ⟨Timeline.consistent_start _, Timeline.settled_start _, h⟩

theorem Tracked.apply (hM : M.Monotone) (hR : M.RoundsInts) (hK : M.Int32Keys)
    (ht : Tracked M cppAvailable t)
    {w : Write} (h : t.apply (w.call M cppAvailable) = some t') : Tracked M cppAvailable t' := by
  obtain ⟨S, c, hkept⟩ := ht.kept
  obtain ⟨P, hguarded⟩ := w.guarded hM hR hK hkept
  have herr (e : PyError) (log : Facade.StreamLog)
    (hrun : (w.call M cppAvailable).run t.log = .error e log) :
      log = t.log := hguarded.error_state hrun
  refine ⟨ht.consistent.apply h, ht.settled.apply herr h, ?_⟩
  have hfree := (Timeline.apply_eq_some h).1
  unfold Timeline.apply at h
  rw [hfree, if_neg Bool.false_ne_true] at h
  cases hrun : (w.call M cppAvailable).run t.log with
  | ok u log =>
    rw [hrun] at h
    cases h
    obtain ⟨-, c', hkept'⟩ := hguarded.of_run_ok hrun
    exact ⟨S, c', hkept'⟩
  | error e log =>
    rw [hrun] at h
    cases h
    rw [herr e log hrun]
    exact ⟨S, c, hkept⟩

theorem Tracked.stamp (ht : Tracked M cppAvailable t) (h : t.stamp now = some t') :
    Tracked M cppAvailable t' := by
  refine ⟨ht.consistent.stamp h, Timeline.Settled.stamp ht.consistent.current h, ?_⟩
  obtain ⟨-, -, hlog, -, -, -, -, -⟩ := Timeline.stamp_eq_some h
  rw [hlog]
  exact ht.kept

end Tracked

/-! ## What is sent and held

Messages and snapshots at a peer are copies of states of the stream, each with the version under
which it was read. -/

namespace Network

variable {s s' : Network} {stream origin : String} {kept : Facade.StreamLog × Version}

/-- Objects are not forgotten, and their past stays. -/
def Grown (s s' : Network) : Prop :=
  ∀ (k : ℕ) (o : StreamObject), s.objects[k]? = some o → ∃ o' : StreamObject, s'.objects[k]? = some o'
    ∧ o'.stream = o.stream ∧ o'.origin = o.origin ∧ o.timeline.Grown o'.timeline

theorem Grown.of_objects_eq (h : s'.objects = s.objects) : s.Grown s' := by
  intro k o ho
  exact ⟨o, by rw [h, ho], rfl, rfl, .refl _⟩

/-- A log with a version, of a stream of an origin. -/
structure Holding (M : IndexMapping) (cppAvailable : Bool) (s : Network) (stream origin : String)
    (kept : Facade.StreamLog × Version) : Prop where
  native : kept.1.backend.Native cppAvailable
  fresh : ∃ S, ∃ c : Contents S, kept.1.Kept M cppAvailable c
    ∧ ∃ (k : ℕ) (o : StreamObject), s.objects[k]? = some o ∧ o.stream = stream ∧ o.origin = origin
      ∧ kept.2.val ≤ o.timeline.clock
      ∧ ∃ (i : ℕ) (prior : Facade.StreamLog), o.timeline.states[i]? = some prior
        ∧ prior.backend.Represents c
        ∧ o.timeline.Contains i kept.2.val

theorem Holding.grown (h : s.Holding M cppAvailable stream origin kept) (hs : s.Grown s') :
    s'.Holding M cppAvailable stream origin kept := by
  obtain ⟨S, c, hkept, k, o, ho, hstream, horigin, hclock, i, prior, hi, hrep, hcontains⟩ := h.fresh
  obtain ⟨o', ho', hstream', horigin', hgrown⟩ := hs k o ho
  refine ⟨h.native, S, c, hkept, k, o', ho', hstream'.trans hstream, horigin'.trans horigin,
    hclock.trans hgrown.clock, i, prior, hgrown.states i prior hi, hrep,
      hgrown.contains i _ hclock hcontains⟩

/-- What is sent of a stream: a tombstone, or a snapshot that is as fresh as its version. -/
def Sent (M : IndexMapping) (cppAvailable : Bool) (s : Network) (m : Message) : Prop :=
  (∃ v : Version, m.data = tombstoneData v.toPyVal)
    ∨ ∃ kept : Facade.StreamLog × Version, m.data = snapshotData kept.2.toPyVal kept.1.toDict
      ∧ s.Holding M cppAvailable m.stream m.origin kept

/-- What a node has of the others is as fresh as its version. -/
def Holds (M : IndexMapping) (cppAvailable : Bool) (s : Network)
    (manager : ClusterManager Facade.StreamLog) : Prop :=
  ∀ stream origin kept, known? manager.peerSnapshots stream origin = some kept →
    s.Holding M cppAvailable stream origin kept

structure Invariant (M : IndexMapping) (cppAvailable : Bool) (s : Network) : Prop where
  objects : ∀ o ∈ s.objects, Tracked M cppAvailable o.timeline
  readings : ∀ r ∈ s.readings, ∃ o, s.objects[r.object]? = some o ∧ r.version.val ≤ o.timeline.clock
  sent : ∀ m ∈ s.sent, s.Sent M cppAvailable m
  nodes : ∀ manager ∈ s.nodes, s.Holds M cppAvailable manager

theorem Sent.grown {m : Message} (h : s.Sent M cppAvailable m) (hs : s.Grown s') :
    s'.Sent M cppAvailable m := by
  obtain hdata | ⟨kept, hdata, hholding⟩ := h
  · exact .inl hdata
  · exact .inr ⟨kept, hdata, hholding.grown hs⟩

theorem Holds.grown {manager : ClusterManager Facade.StreamLog} (h : s.Holds M cppAvailable manager)
    (hs : s.Grown s') : s'.Holds M cppAvailable manager :=
  fun stream origin kept hknown => (h stream origin kept hknown).grown hs

/-! ## Steps of the streams

A stream that grows leaves everything true that was said of its earlier states. -/

/-- A step that touches objects only. -/
theorem Invariant.of_grown (h : s.Invariant M cppAvailable) (hs : s.Grown s')
    (hreadings : s'.readings = s.readings)
    (hsent : s'.sent = s.sent) (hnodes : s'.nodes = s.nodes)
    (hobjects : ∀ o ∈ s'.objects, Tracked M cppAvailable o.timeline) : s'.Invariant M cppAvailable where
  objects := hobjects
  readings r hr := by
    obtain ⟨o, ho, hclock⟩ := h.readings r (hreadings ▸ hr)
    obtain ⟨o', ho', -, -, hgrown⟩ := hs _ o ho
    exact ⟨o', ho', hclock.trans hgrown.clock⟩
  sent m hm := (h.sent m (hsent ▸ hm)).grown hs
  nodes manager hmanager := (h.nodes manager (hnodes ▸ hmanager)).grown hs

theorem Invariant.enter (h : s.Invariant M cppAvailable) (stream origin : String)
    {log : Facade.StreamLog}
    (hlog : ∃ S, ∃ c : Contents S, log.Kept M cppAvailable c) (lastUpdated : Binary64) :
    (s.enter stream origin log lastUpdated).Invariant M cppAvailable := by
  have hgrown : s.Grown (s.enter stream origin log lastUpdated) := by
    intro k o ho
    refine ⟨o, ?_, rfl, rfl, .refl _⟩
    exact List.getElem?_append_left (List.getElem?_eq_some_iff.mp ho).1 ▸ ho
  refine h.of_grown hgrown rfl rfl rfl fun o ho => ?_
  obtain ho | ho := List.mem_append.mp ho
  · exact h.objects o ho
  · rw [List.mem_singleton.mp ho]
    exact tracked_start hlog lastUpdated

theorem Invariant.onTimeline (h : s.Invariant M cppAvailable) {object : ℕ}
    {x : Timeline Facade.StreamLog → Option (Timeline Facade.StreamLog)}
    (hx : ∀ t t', Tracked M cppAvailable t → x t = some t' → t.Grown t' ∧ Tracked M cppAvailable t')
    (hstep : s.onTimeline object x = some s') : s'.Invariant M cppAvailable := by
  unfold Network.onTimeline at hstep
  cases hobject : s.objects[object]? with
  | none =>
    rw [hobject] at hstep
    cases hstep
  | some o =>
    rw [hobject] at hstep
    obtain ⟨t, ht, hs'⟩ := Option.map_eq_some_iff.mp hstep
    subst hs'
    obtain ⟨hlt, -⟩ := List.getElem?_eq_some_iff.mp hobject
    obtain ⟨hgrown, htracked⟩ := hx _ t (h.objects o (List.mem_of_getElem? hobject)) ht
    -- the other objects are the same; the one that was changed grew
    refine h.of_grown ?_ rfl rfl rfl fun o' ho' => ?_
    · intro k prior hprior
      by_cases hk : k = object
      · subst hk
        rw [hobject] at hprior
        cases hprior
        exact ⟨_, List.getElem?_set_self hlt, rfl, rfl, hgrown⟩
      · exact ⟨prior, (List.getElem?_set_ne (Ne.symm hk)).trans hprior, rfl, rfl, .refl _⟩
    · obtain ho' | ho' := List.mem_or_eq_of_mem_set ho'
      · exact h.objects o' ho'
      · rw [ho']
        exact htracked

theorem onTimeline_eq_some {k : ℕ} {x : Timeline Facade.StreamLog → Option (Timeline Facade.StreamLog)}
    {o : StreamObject} {t : Timeline Facade.StreamLog} (ho : s.objects[k]? = some o)
    (hx : x o.timeline = some t) :
    s.onTimeline k x = some { s with objects := s.objects.set k { o with timeline := t } } := by
  rw [Network.onTimeline, ho]
  show (x o.timeline).map _ = _
  rw [hx]
  rfl

/-- A version is read: the clock has passed it. -/
theorem Invariant.readVersion (h : s.Invariant M cppAvailable) {object : ℕ} {o : StreamObject}
    (ho : s.objects[object]? = some o) :
    ({ s with readings := s.readings ++ [⟨object, o.timeline.lastUpdated⟩] } : Network).Invariant M
      cppAvailable where
  objects := h.objects
  readings r hr := by
    obtain hr | hr := List.mem_append.mp hr
    · exact h.readings r hr
    · rw [List.mem_singleton.mp hr]
      exact ⟨o, ho, (h.objects o (List.mem_of_getElem? ho)).consistent.stamped⟩
  sent m hm := (h.sent m hm).grown (.of_objects_eq rfl)
  nodes manager hmanager := (h.nodes manager hmanager).grown (.of_objects_eq rfl)

/-! ## Messages

A snapshot is copied after its version was read, so it holds at least what the version says. -/

theorem Invariant.send (h : s.Invariant M cppAvailable) {data : Items}
    (hdata : s.Sent M cppAvailable ⟨stream, origin, data⟩) :
    (s.send stream origin data).Invariant M cppAvailable where
  objects := h.objects
  readings := h.readings
  sent m hm := by
    have hgrown : s.Grown (s.send stream origin data) := .of_objects_eq rfl
    obtain hm | hm := List.mem_append.mp hm
    · exact (h.sent m hm).grown hgrown
    · rw [List.mem_singleton.mp hm]
      exact hdata.grown hgrown
  nodes manager hmanager := (h.nodes manager hmanager).grown (.of_objects_eq rfl)

/-- **A snapshot that is taken after its version was read** has every call that was stamped at or
before it, also those that will be: the clock has passed the version. -/
theorem Invariant.sendSnapshot (h : s.Invariant M cppAvailable) {r : Reading} (hr : r ∈ s.readings)
    (hstep : s.sendSnapshot M cppAvailable r = some s') : s'.Invariant M cppAvailable := by
  obtain ⟨o, ho, hclock⟩ := h.readings r hr
  have htracked := h.objects o (List.mem_of_getElem? ho)
  obtain ⟨S, c, hkept⟩ := htracked.kept
  obtain ⟨copy, hcopy, hkept', hnative⟩ := hkept.getSnapshot
  unfold Network.sendSnapshot at hstep
  rw [ho] at hstep
  simp only [hcopy] at hstep
  split at hstep
  · cases hstep
  · cases hstep
    refine h.send (.inr ⟨(copy, .float r.version), rfl, hnative, S, c, hkept', _, o, ho, rfl, rfl,
      hclock, ?_⟩)
    exact ⟨_, _, htracked.consistent.get_current, hkept.valid.represents,
      htracked.consistent.contains_current r.version.val⟩

/-- The snapshot that a thread sends. -/
theorem sendSnapshot_eq_some {r : Reading} {o : StreamObject} (ho : s.objects[r.object]? = some o)
    (hfree : o.timeline.locked = false) {copy : Facade.StreamLog}
    (hcopy : o.timeline.log.getSnapshot M cppAvailable = .ok copy) :
    s.sendSnapshot M cppAvailable r
      = some (s.send o.stream o.origin (snapshotData (.float (.fin r.version)) copy.toDict)) := by
  rw [Network.sendSnapshot, ho]
  simp only [hfree, hcopy]
  rfl

/-! ## Deliveries

An update at a peer was read from an entry of a payload, and that entry was sent. -/

/-- The groups of a delivery are those that were sent. -/
theorem mem_groups {d : Delivery} {group : PyKey × PyVal} (h : group ∈ d.groups) :
    ∃ groups, d.streamsData = .dict groups ∧ group ∈ groups := by
  unfold Delivery.groups at h
  split at h
  · next groups _ hstreams =>
    split at h
    · exact ⟨groups, hstreams, h⟩
    · cases h
  · cases h

/-- An update of a delivery is an entry that could be read. -/
theorem mem_updates {C : LogCodec} {d : Delivery} {nodeId : String} {maxNesting : ℕ}
    {u : Update C.Log} (h : u ∈ d.updates C nodeId maxNesting) :
    ∃ groups stream nodeData origin data, d.streamsData = .dict groups
      ∧ (PyKey.str stream, PyVal.dict nodeData) ∈ groups
      ∧ (PyKey.str origin, PyVal.dict data) ∈ nodeData
      ∧ readEntry C d.timestamp stream origin data = .ok u := by
  -- from the update back to the entry, its group and the payload
  obtain ⟨group, hgroup, hu⟩ := List.mem_flatMap.mp (Delivery.entries_of_updates h)
  obtain ⟨groups, hstreams, hmem⟩ := mem_groups hgroup
  unfold groupUpdates at hu
  split at hu
  · next stream nodeData =>
    split at hu
    · obtain ⟨entry, hentry, hread⟩ := List.mem_filterMap.mp hu
      unfold entryUpdate at hread
      split at hread
      · next origin data =>
        obtain ⟨-, hread⟩ := Option.ite_none_right_eq_some.mp hread
        refine ⟨groups, stream, nodeData, origin, data, hstreams, hmem, hentry, ?_⟩
        cases hok : readEntry C d.timestamp stream origin data with
        | ok u' =>
          rw [hok] at hread
          cases hread
          rfl
        | error e =>
          rw [hok] at hread
          cases hread
      · cases hread
    · cases hu
  · cases hu

/-- What an entry is read as. -/
theorem readEntry_eq_ok {C : LogCodec} {timestamp : Binary64} {data : Items} {u : Update C.Log}
    (h : readEntry C timestamp stream origin data = .ok u) :
    u.stream = stream ∧ u.origin = origin ∧ readVersion timestamp data = .ok u.version
      ∧ ∀ log, u.log = some log → isTombstone data = false
        ∧ C.fromDict (data.getOr "state" (.dict data)) = .ok log := by
  obtain ⟨version, hversion, h⟩ := Checked.bind_eq_ok.mp h
  cases htombstone : isTombstone data with
  | true =>
    rw [htombstone, if_pos rfl] at h
    cases h
    exact ⟨rfl, rfl, hversion, fun log hlog => by cases hlog⟩
  | false =>
    rw [htombstone, if_neg Bool.false_ne_true] at h
    obtain ⟨log, hlog, h⟩ := Checked.bind_eq_ok.mp h
    cases h
    exact ⟨rfl, rfl, hversion, fun log' hlog' => by cases hlog'; exact ⟨rfl, hlog⟩⟩

/-- The version of an entry is the one that was sent. -/
theorem readVersion_toPyVal {timestamp : Binary64} {data : Items} {v version : Version}
    (hdata : data.getOr "__version__" (.float (.fin timestamp)) = v.toPyVal)
    (h : readVersion timestamp data = .ok version) : version = v := by
  unfold readVersion at h
  rw [hdata] at h
  cases v with
  | int n =>
    simp only [Version.toPyVal] at h
    split at h
    · cases h
    · split at h
      · cases h
      · cases h
        rfl
  | float x =>
    simp only [Version.toPyVal] at h
    split at h
    · cases h
    · cases h
      rfl

/-- A snapshot after JSON. -/
theorem json_snapshotData (v : Version) (state : PyVal) :
    itemsThroughJson [] (snapshotData v.toPyVal state) = snapshotData v.toPyVal
      (throughJson state) := by
  cases v with
  | int n => rfl
  | float x => rfl

/-- **What is read of a message is what was sent.** -/
theorem Sent.read (hK : M.Int32Keys) {m : Message} (hm : s.Sent M cppAvailable m) {timestamp : Binary64}
    {u : Update Facade.StreamLog}
    (hread : readEntry (Facade.codec M cppAvailable) timestamp m.stream m.origin
      (itemsThroughJson [] m.data) = .ok u)
    {log : Facade.StreamLog} (hlog : u.log = some log) :
    s.Holding M cppAvailable u.stream u.origin (log, u.version) := by
  obtain ⟨hstream, horigin, hversion, hstate⟩ := readEntry_eq_ok hread
  obtain ⟨htombstone, hrestored⟩ := hstate log hlog
  -- a tombstone carries no log
  obtain ⟨v, hdata⟩ | ⟨⟨sent, v⟩, hdata, hholding⟩ := hm
  · rw [hdata] at htombstone
    cases v with
    | int n => cases htombstone
    | float x => cases htombstone
  · rw [hdata, json_snapshotData] at hversion hrestored
    have hsame : u.version = v := readVersion_toPyVal rfl hversion
    obtain ⟨S, c, hkept, hfresh⟩ := hholding.fresh
    obtain ⟨t, hjson, hbackend, hkept'⟩ := hkept.throughJson hK hholding.native
    -- what arrives is the log that was sent, through JSON once
    have hlog' : log = t := by
      have hrestored' : Facade.StreamLog.fromDict M cppAvailable (throughJson sent.toDict)
        = .ok log := hrestored
      rw [hjson] at hrestored'
      exact (Except.ok.inj hrestored').symm
    subst hlog'
    rw [hstream, horigin, hsame]
    exact ⟨hbackend ▸ hholding.native, S, c, hkept', hfresh⟩

/-- What is known after one update was known before or is the update. -/
theorem known?_store {manager : ClusterManager Facade.StreamLog} {u : Update Facade.StreamLog}
    (h : known? (manager.store u).peerSnapshots stream origin = some kept) :
    known? manager.peerSnapshots stream origin = some kept
      ∨ stream = u.stream ∧ origin = u.origin ∧ u.log = some kept.1 ∧ u.version = kept.2 := by
  unfold store at h
  -- an update that is older or not allowed leaves what is kept
  split at h
  · exact .inl h
  · split at h
    · exact .inl h
    · -- a tombstone drops the kept log, a snapshot replaces it
      cases hlog : u.log with
      | none =>
        rw [hlog] at h
        have hdropped : known? (dropOrigin manager.peerSnapshots u.stream u.origin) stream origin
          = some kept := h
        rw [known?_dropOrigin] at hdropped
        split at hdropped
        · cases hdropped
        · exact .inl hdropped
      | some log =>
        rw [hlog] at h
        have hset : known? (setOrigin manager.peerSnapshots u.stream u.origin (log, u.version))
          stream origin
            = some kept := h
        rw [known?_setOrigin] at hset
        split at hset
        · next hkey =>
          cases hset
          exact .inr ⟨hkey.1, hkey.2, rfl, rfl⟩
        · exact .inl hset

/-- **A delivery** of messages that were sent. -/
theorem Invariant.deliver (hK : M.Int32Keys) (h : s.Invariant M cppAvailable) {d : Delivery}
    (hd : s.Carried d)
    {manager : ClusterManager Facade.StreamLog} (hmanager : s.Holds M cppAvailable manager) :
    s.Holds M cppAvailable (manager.receive (Facade.codec M cppAvailable) d) := by
  -- each update of the delivery was read from a message that was sent
  have hupdates : ∀ u ∈ d.updates (Facade.codec M cppAvailable) manager.nodeId manager.maxNesting,
      ∀ log, u.log = some log →
      s.Holding M cppAvailable u.stream u.origin (log, u.version) := by
    intro u hu log hlog
    obtain ⟨groups, stream, nodeData, origin, data, hstreams, hgroup, hentry, hread⟩ := mem_updates hu
    obtain ⟨m, hm, hstream, horigin, hdata⟩ :=
      hd groups hstreams stream nodeData hgroup origin data hentry
    subst hstream horigin hdata
    exact (h.sent m hm).read hK hread hlog
  rw [receive_eq]
  generalize d.updates (Facade.codec M cppAvailable) manager.nodeId manager.maxNesting = updates
    at hupdates
  -- the updates are stored one after another
  induction updates generalizing manager with
  | nil => exact hmanager
  | cons u rest ih =>
    rw [List.foldl_cons]
    refine ih ?_ fun u' hu' => hupdates u' (List.mem_cons_of_mem _ hu')
    intro stream origin kept hknown
    obtain hold | ⟨hstream, horigin, hlog, hversion⟩ := known?_store hknown
    · exact hmanager stream origin kept hold
    · have hholding := hupdates u List.mem_cons_self kept.1 hlog
      rw [hstream, horigin]
      rw [hversion] at hholding
      exact hholding

/-- A step of one node that leaves it with what is fresh. -/
theorem Invariant.modify (h : s.Invariant M cppAvailable) (node : ℕ)
    {f : ClusterManager Facade.StreamLog → ClusterManager Facade.StreamLog}
    (hf : ∀ manager, s.Holds M cppAvailable manager → s.Holds M cppAvailable (f manager)) :
    ({ s with nodes := s.nodes.modify node f } : Network).Invariant M cppAvailable where
  objects := h.objects
  readings := h.readings
  sent m hm := (h.sent m hm).grown (.of_objects_eq rfl)
  nodes manager hmanager := by
    have hholds : s.Holds M cppAvailable manager := by
      obtain ⟨k, hk⟩ := List.mem_iff_getElem?.mp hmanager
      rw [List.getElem?_modify] at hk
      obtain ⟨old, hold, heq⟩ := Option.map_eq_some_iff.mp hk
      have hmem := h.nodes old (List.mem_of_getElem? hold)
      split at heq
      · exact heq ▸ hf old hmem
      · exact heq ▸ hmem
    exact hholds.grown (.of_objects_eq rfl)

theorem holds_removeMember {manager : ClusterManager Facade.StreamLog}
    (h : s.Holds M cppAvailable manager)
    (nid : String) :
    s.Holds M cppAvailable
      { manager with peerSnapshots := manager.peerSnapshots.mapVal fun peers => peers.pop nid } := by
  intro stream origin kept hknown
  refine h stream origin kept ?_
  unfold known? at hknown ⊢
  rw [Dict.get?_mapVal] at hknown
  cases hpeers : manager.peerSnapshots.get? stream with
  | none =>
    rw [hpeers] at hknown
    exact hknown
  | some peers =>
    rw [hpeers] at hknown
    have hpop : (peers.pop nid).get? origin = some kept := hknown
    rw [Dict.get?_pop] at hpop
    split at hpop
    · cases hpop
    · exact hpop

/-! ## Runs

The invariant over all actions, and what it says of a snapshot that is held. -/

variable {a : Action}

theorem Invariant.step (hM : M.Monotone) (hR : M.RoundsInts) (hK : M.Int32Keys)
    (h : s.Invariant M cppAvailable)
    (hcond : s.Delivers a) (hstep : s.step M cppAvailable a = some s') :
      s'.Invariant M cppAvailable := by
  -- one case for each action; sending adds a message, and only a write changes an object
  cases a with
  | create stream origin deterministic now =>
    simp only [Network.step] at hstep
    split at hstep
    · next log hnew =>
      cases hstep
      obtain ⟨S, hkept⟩ := Facade.StreamLog.kept_new (M := M) hnew
      exact h.enter stream origin ⟨S, 0, hkept⟩ now
    · cases hstep
  | load stream origin state lastUpdated =>
    simp only [Network.step] at hstep
    split at hstep
    · next log hread =>
      cases hstep
      exact h.enter stream origin (Facade.StreamLog.kept_fromDict hR hread) lastUpdated
    · cases hstep
  | write object w =>
    exact h.onTimeline (fun t t' ht happly => ⟨.apply happly, ht.apply hM hR hK happly⟩) hstep
  | stamp object now =>
      exact h.onTimeline (fun t t' ht hstamp => ⟨.stamp hstamp, ht.stamp hstamp⟩) hstep
  | readVersion object =>
    obtain ⟨o, ho, hs'⟩ := Option.map_eq_some_iff.mp hstep
    subst hs'
    exact h.readVersion ho
  | sendSnapshot reading =>
    obtain ⟨r, hr, hsend⟩ := Option.bind_eq_some_iff.mp hstep
    exact h.sendSnapshot (List.mem_of_getElem? hr) hsend
  | relay node stream origin =>
    obtain ⟨manager, hmanager, hstep⟩ := Option.bind_eq_some_iff.mp hstep
    obtain ⟨kept, hkept, hstep⟩ := Option.bind_eq_some_iff.mp hstep
    cases hstep
    exact h.send (.inr ⟨kept, rfl, h.nodes manager (List.mem_of_getElem? hmanager) stream origin
      kept hkept⟩)
  | sendTombstone stream origin version =>
    cases hstep
    exact h.send (.inl ⟨version, rfl⟩)
  | deliver node d =>
    cases hstep
    exact h.modify node fun manager hmanager => h.deliver hK hcond hmanager
  | removeMember node nid =>
    cases hstep
    exact h.modify node fun manager hmanager => holds_removeMember hmanager nid

theorem invariant_start {nodes : List (ClusterManager Facade.StreamLog)}
    (hnodes : ∀ manager ∈ nodes, manager.peerSnapshots = ∅) :
    (start nodes).Invariant M cppAvailable where
  objects _ h := absurd h List.not_mem_nil
  readings _ h := absurd h List.not_mem_nil
  sent _ h := absurd h List.not_mem_nil
  nodes manager hmanager stream origin kept hknown := by
    rw [hnodes manager hmanager] at hknown
    cases hknown

/-- **What a node holds of a stream is as fresh as its version.** However the calls of a stream, the
two steps of sending it, relays and deliveries interleave, what a node holds of it under a version
has the contents of the stream after some number of calls, among them every call that was stamped at
or before the version. When the version is the current one and no call waits for its stamp, these
are the current contents. -/
theorem held_snapshot_fresh (hM : M.Monotone) (hR : M.RoundsInts) (hK : M.Int32Keys)
    {nodes : List (ClusterManager Facade.StreamLog)}
    (hnodes : ∀ manager ∈ nodes, manager.peerSnapshots = ∅)
    {as : List Action} (hmeets : Meets (Network.step M cppAvailable) Delivers (start nodes) as)
    (hrun : run (Network.step M cppAvailable) (start nodes) as = some s)
    {manager : ClusterManager Facade.StreamLog}
    (hmanager : manager ∈ s.nodes) {log : Facade.StreamLog} {version : Version}
    (hheld : known? manager.peerSnapshots stream origin = some (log, version)) :
    ∃ o ∈ s.objects, o.stream = stream ∧ o.origin = origin
      ∧ ∃ S, ∃ c : Contents S, log.backend.Represents c
      ∧ (∃ (i : ℕ) (prior : Facade.StreamLog), o.timeline.states[i]? = some prior
        ∧ prior.backend.Represents c
        ∧ o.timeline.Contains i version.val)
      ∧ (o.timeline.locked = false → o.timeline.lastUpdated.val = version.val →
        o.timeline.log.backend.Represents c) := by
  have hinv : s.Invariant M cppAvailable :=
    run_invariant (fun _ _ _ hs hcond hstep => hs.step hM hR hK hcond hstep)
      (invariant_start hnodes) hmeets hrun
  -- the kept log was read at an index of its object's history
  obtain ⟨-, S, c, hkept, k, o, ho, hstream, horigin, -, i, prior, hi, hrep, hcontains⟩ :=
    hinv.nodes manager hmanager stream origin (log, version) hheld
  have hmem := List.mem_of_getElem? ho
  have htracked := hinv.objects o hmem
  refine ⟨o, hmem, hstream, horigin, S, c, hkept.valid.represents, ⟨i, prior, hi, hrep, hcontains⟩, ?_⟩
  -- an object nobody has locked, with that very version, is still in the state that was sent
  intro hfree hcurrent
  have hsame : prior = o.timeline.log := by
    apply htracked.settled.eq_current htracked.consistent hfree hi
    rw [hcurrent]
    exact hcontains
  rw [← hsame]
  exact hrep

namespace OneStream

/-- The key of the stream. -/
def key : String := "[\"default\", \"checkout\"]"

/-- A node that knows of no other. -/
def node : ClusterManager Facade.StreamLog := ⟨"node1", 1048576, 100000, 990, ∅, ∅, ∅⟩

/-- When the stream is made, and when its call is stamped. -/
def created : Binary64 := .ofInt 1 Binary64.abs_one_lt

def stamped : Binary64 := .ofInt 3 Binary64.abs_three_lt

/-- `n` occurrences of an event. -/
def count (n : ℕ) : Write := .add (.event (.int 7) n)

/-- What has been called of the stream. -/
def object (timeline : Timeline Facade.StreamLog) : StreamObject := ⟨key, "node2", timeline⟩

/-- The stream after a call that is stamped, and while another waits for its stamp. -/
def once (log : Facade.StreamLog) : StreamObject :=
  object ⟨⟨log, stamped⟩, stamped.val, false, [Facade.StreamLog.blank, log], [(1, stamped.val)]⟩

def twice (log log' : Facade.StreamLog) : StreamObject :=
  object ⟨⟨log', stamped⟩, stamped.val, true, [Facade.StreamLog.blank, log, log'], [(1, stamped.val)]⟩

/-- What is sent of it after the first call. -/
def message (copy : Facade.StreamLog) : Message :=
  ⟨key, "node2", snapshotData (.float (.fin stamped)) copy.toDict⟩

/-- The message, as it is delivered. -/
def delivery (copy : Facade.StreamLog) : Delivery :=
  .single "node2" key "node2" (itemsThroughJson [] (message copy).data) stamped

/-- Five events are counted and sent; the message is delivered when two more have been counted. -/
def actions (copy : Facade.StreamLog) : List Action :=
  [.create key "node2" true created, .write 0 (count 5), .stamp 0 stamped, .readVersion 0,
    .sendSnapshot 0, .write 0 (count 2), .deliver 0 (delivery copy)]

/-- The mesh before the delivery. -/
def sent (log log' copy : Facade.StreamLog) : Network :=
  ⟨[twice log log'], [⟨0, stamped⟩], [message copy], [node]⟩

theorem carried (log log' copy : Facade.StreamLog) :
    (sent log log' copy).Carried (delivery copy) := by
  intro groups hgroups stream nodeData hgroup origin data hentry
  cases hgroups
  cases List.mem_singleton.mp hgroup
  cases List.mem_singleton.mp hentry
  exact ⟨message copy, List.mem_singleton.mpr rfl, rfl, rfl, rfl⟩

/-- A call on the stream. -/
theorem step_write {s : Network} {t : Timeline Facade.StreamLog} {w : Write} {log : Facade.StreamLog}
    (hobjects : s.objects = [object t]) (hfree : t.locked = false)
    (hcall : (w.call .coarse false).run t.log = .ok () log) :
    Network.step .coarse false s (.write 0 w) = some { s with
      objects := [object ⟨⟨log, t.lastUpdated⟩, t.clock, true, t.states ++ [log], t.stamps⟩] } := by
  have happly : t.apply (w.call .coarse false)
      = some ⟨⟨log, t.lastUpdated⟩, t.clock, true, t.states ++ [log], t.stamps⟩ := by
    rw [Timeline.apply, if_neg (by rw [hfree]; exact Bool.false_ne_true), hcall]
  have hfirst : s.objects[0]? = some (object t) := by
    rw [hobjects]
    rfl
  have hstep := onTimeline_eq_some (x := fun timeline => timeline.apply (w.call .coarse false)) hfirst
    happly
  rw [hobjects] at hstep
  exact hstep

/-- What the node has when the message is delivered. -/
def informed (restored : Facade.StreamLog) : ClusterManager Facade.StreamLog :=
  { node with peerSnapshots := setOrigin ∅ key "node2" (restored, .float stamped) }

theorem receive_delivery {copy restored : Facade.StreamLog}
    (hrestored : Facade.StreamLog.fromDict .coarse false (throughJson copy.toDict) = .ok restored) :
    node.receive (Facade.codec .coarse false) (delivery copy) = informed restored := by
  have hpos : 0 < stamped.val := by decide +kernel
  have hupdates : (delivery copy).updates (Facade.codec .coarse false) node.nodeId node.maxNesting
      = [⟨key, "node2", .float stamped, some restored⟩] := by
    apply updates_single (by decide) (by decide +kernel) (by decide) (by decide)
    have hjson : itemsThroughJson [] (message copy).data
        = snapshotData (Version.float stamped).toPyVal (throughJson copy.toDict) :=
      json_snapshotData (.float stamped) _
    rw [hjson]
    exact readEntry_snapshotData (C := Facade.codec .coarse false) (v := .float stamped) hpos.le
      (fun n hn => by cases hn) hrestored
  have hstore : node.store ⟨key, "node2", .float stamped, some restored⟩ = informed restored :=
    store_first (v := .float stamped) rfl rfl hpos
  rw [receive_eq, hupdates]
  exact hstore

/-- The run. -/
theorem run_actions {log log' copy restored : Facade.StreamLog}
    (hfive : ((count 5).call .coarse false).run Facade.StreamLog.blank = .ok () log)
    (hcopy : log.getSnapshot .coarse false = .ok copy)
    (htwo : ((count 2).call .coarse false).run log = .ok () log')
    (hrestored : Facade.StreamLog.fromDict .coarse false (throughJson copy.toDict) = .ok restored) :
    run (Network.step .coarse false) (start [node]) (actions copy)
        = some { sent log log' copy with nodes := [informed restored] }
      ∧ Meets (Network.step .coarse false) Delivers (start [node]) (actions copy) := by
  have hcreate : Network.step .coarse false (start [node]) (.create key "node2" true created)
      = some ((start [node]).enter key "node2" Facade.StreamLog.blank created) := by
    rw [Network.step, Facade.StreamLog.new_defaults]
  -- the stamp is later than the creation
  have hlater : created.val < stamped.val := by decide +kernel
  have hstamp : Network.step .coarse false
      ⟨[object ⟨⟨log, created⟩, created.val, true, [Facade.StreamLog.blank, log], []⟩], [], [], [node]⟩
      (.stamp 0 stamped) = some ⟨[once log], [], [], [node]⟩ := by
    have hstamped : Timeline.stamp
        ⟨⟨log, created⟩, created.val, true, [Facade.StreamLog.blank, log], []⟩ stamped
        = some (once log).timeline := if_pos ⟨rfl, hlater⟩
    exact onTimeline_eq_some (s := ⟨[object _], [], [], [node]⟩) (k := 0)
      (x := fun timeline => timeline.stamp stamped) rfl hstamped
  have hsend : Network.step .coarse false ⟨[once log], [⟨0, stamped⟩], [], [node]⟩ (.sendSnapshot 0)
      = some ⟨[once log], [⟨0, stamped⟩], [message copy], [node]⟩ :=
    sendSnapshot_eq_some (s := ⟨[once log], [⟨0, stamped⟩], [], [node]⟩) (r := ⟨0, stamped⟩) rfl rfl
      hcopy
  have hdeliver : Network.step .coarse false (sent log log' copy) (.deliver 0 (delivery copy))
      = some { sent log log' copy with nodes := [informed restored] } := by
    show some ({ sent log log' copy with
      nodes := [node.receive (Facade.codec .coarse false) (delivery copy)] } : Network) = _
    rw [receive_delivery hrestored]
  have hwrite := step_write (s := (start [node]).enter key "node2" Facade.StreamLog.blank created) rfl
    rfl hfive
  have hwrite' := step_write (s := ⟨[once log], [⟨0, stamped⟩], [message copy], [node]⟩) rfl rfl htwo
  refine run_meets_cons hcreate trivial (run_meets_cons hwrite trivial (run_meets_cons hstamp trivial
    (run_meets_cons rfl trivial (run_meets_cons hsend trivial (run_meets_cons hwrite' trivial
      (run_meets_cons hdeliver (carried log log' copy) ⟨rfl, trivial⟩))))))

/-- A count of events that fits. -/
theorem exists_count {log : Facade.StreamLog} {c : Contents Facade.Shape.default}
    (hheld : log.Held false (Facade.defaults true) c) (hlatency : c.latency = 0) {n : ℕ} (hpos : 0 < n)
    (hfew : c.events.total + n ≤ 100) :
    ∃ t, ((count n).call .coarse false).run log = .ok () t
      ∧ t.Held false (Facade.defaults true) (c + Reads.counted n) := by
  have hadded : (c + Reads.counted n).latency = 0 := by
    rw [Contents.add_latency, hlatency]
    exact zero_add 0
  exact (Facade.StreamLog.add_guarded (M := .coarse) hheld (.event (.int 7) n)).run_ok
    ⟨⟨by exact_mod_cast hpos, by decide⟩, Reads.fits_events hadded hfew⟩

end OneStream

/-- Five events were counted and sent, and two more counted before the delivery. What the node has
includes the first five, whose call is stamped at the version. -/
theorem held_snapshot_fresh_five : ∃ (as : List Action) (s : Network)
    (manager : ClusterManager Facade.StreamLog) (held : Facade.StreamLog),
    run (Network.step .coarse false) (start [OneStream.node]) as = some s ∧ manager ∈ s.nodes
      ∧ known? manager.peerSnapshots OneStream.key "node2" = some (held, .float OneStream.stamped)
      ∧ ∃ o ∈ s.objects, o.timeline.states.length = 3
        ∧ o.timeline.stamps = [(1, OneStream.stamped.val)] ∧ ∃ (i : ℕ) (prior : Facade.StreamLog),
          1 ≤ i ∧ o.timeline.states[i]? = some prior ∧ ∃ S, ∃ c : Contents S,
            held.backend.Represents c ∧ prior.backend.Represents c := by
  obtain ⟨S, hblank⟩ := Facade.StreamLog.kept_new (M := .coarse) (Facade.StreamLog.new_defaults false)
  obtain rfl : S = Facade.Shape.default :=
    hblank.valid.represents.shape_eq (Sketchlog.StreamLog.represents_emptyOf _ true)
  obtain ⟨log, hfive, hheld⟩ := OneStream.exists_count ⟨rfl, hblank.valid⟩ rfl (n := 5) (by decide)
    (by decide)
  rw [zero_add] at hheld
  obtain ⟨log', htwo, -⟩ := OneStream.exists_count hheld rfl (n := 2) (by decide) (by decide)
  obtain ⟨copy, hcopy, hkept, hnative⟩ :=
    Facade.StreamLog.Kept.getSnapshot (M := .coarse) ⟨hheld.valid, hblank.bounded, coherent_zero⟩
  obtain ⟨restored, hrestored, -, -⟩ := hkept.throughJson IndexMapping.coarse_int32Keys hnative
  obtain ⟨hrun, hmeets⟩ := OneStream.run_actions hfive hcopy htwo hrestored
  have hknown : known? (OneStream.informed restored).peerSnapshots OneStream.key "node2"
      = some (restored, Version.float OneStream.stamped) := by
    rw [OneStream.informed, known?_setOrigin, if_pos ⟨rfl, rfl⟩]
  have hnodes : ∀ manager ∈ [OneStream.node], manager.peerSnapshots = ∅ := by
    intro manager hmanager
    rw [List.mem_singleton.mp hmanager]
    rfl
  obtain ⟨o, ho, -, -, S, c, hrep, ⟨i, prior, hi, hprior, hcontains⟩, -⟩ :=
    held_snapshot_fresh IndexMapping.coarse_monotone IndexMapping.coarse_roundsInts
      IndexMapping.coarse_int32Keys hnodes hmeets hrun (List.mem_singleton.mpr rfl) hknown
  obtain rfl := List.mem_singleton.mp ho
  refine ⟨_, _, _, restored, hrun, List.mem_singleton.mpr rfl, hknown, _, ho, rfl, rfl, i, prior,
    ?_, hi,
    S, c, hrep, hprior⟩
  -- the first call is stamped at the version
  exact hcontains (1, OneStream.stamped.val) (List.mem_singleton.mpr rfl) le_rfl

end Network

end Mesh

end Sketchlog
