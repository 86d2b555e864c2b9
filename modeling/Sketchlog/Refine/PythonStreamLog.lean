import Sketchlog.Refine.PythonMerge

/-!
# The Python log implements `Contents`

`log.Represents c`: the log holds the contents `c` of its configuration. Every ingestion method is
guarded addition: `Ingest.delta` says what a call adds, `Ingest.Valid` which arguments are accepted
at all, and the call is accepted exactly when its arguments are valid and the sum fits
(`ingest_guarded`). `merge` is guarded addition of the other log's contents (`merge_guarded`), and
raises for every log of another configuration (`merge_of_shape_ne`).
-/

namespace Sketchlog

open Imperative CountMap

/-! ## What an ingestion call adds

`Ingest` lists the calls. To each belongs what it adds to the contents and what it asks of its
arguments, so that one statement, `ingest_guarded`, covers them all. -/

/-- A call of one of the four ingestion methods; `Item` is the type of the items `add_unique`
takes. -/
inductive Ingest (Item : Type) where
  | latency (value : PyFloat)
  | batch (values : List PyFloat)
  | event (name : EventKey) (count : ℤ)
  | unique (item : Item)

namespace Ingest

theorem le_64 (S : Shape) : S.p ≤ 64 := S.p_le.trans (by norm_num)

/-- The columns of an event key in a log of shape `S`. -/
def columns (S : Shape) (name : EventKey) : Fin S.depth → Fin S.width :=
  CountMinSketch.column S.width S.depth S.width_pos (CountMinSketch.keyOf name)

noncomputable def delta (M : IndexMapping) (S : Shape) : Ingest UniqueItem → Contents S
  | .latency (.fin v) => ⟨Tally.single M S.alpha v.val, 0, 0⟩
  | .latency _ => 0
  | .batch values => ⟨DDSketch.batchTally M S.alpha values, 0, 0⟩
  | .event name count => ⟨0, EventCounts.single (columns S name) count.toNat, 0⟩
  | .unique item => ⟨0, 0, HyperLogLog.itemMax S.p (le_64 S) item⟩

/-- The arguments are acceptable, whatever the log holds. -/
def Valid (M : IndexMapping) (S : Shape) : Ingest UniqueItem → Prop
  | .latency (.fin v) => DDSketch.Valid M S.alpha v.val
  | .latency _ => True
  | .batch values => DDSketch.BatchValid M S.alpha values
  | .event name count => 0 < count ∧ ¬ StreamLog.keyOutOfRange name
  | .unique item => ¬ HyperLogLog.intOutOfRange item

end Ingest

namespace StreamLog

/-- The call on the Python log. -/
def ingest (M : IndexMapping) : Ingest UniqueItem → EStateM PyError StreamLog Unit
  | .latency value => addLatency M value
  | .batch values => addBatch M values
  | .event name count => addEvent name count
  | .unique item => addUnique item

structure Represents (log : StreamLog) {S : Shape} (c : Contents S) : Prop where
  alpha : log.latency.alpha = S.alpha
  latency : log.latency.Represents c.latency
  events : log.events = .ofCounts c.events
  uniques : log.uniques = .ofRegisters c.uniques
  total : log.total = c.total

variable {M : IndexMapping} {log other : StreamLog} {S : Shape} {c d : Contents S}

theorem Represents.contents_eq (hc : log.Represents c) (hd : log.Represents d) : c = d :=
  Contents.ext (hc.latency.tally_eq hd.latency)
    (CountMinSketch.ofCounts_injective (hc.events.symm.trans hd.events))
    (HyperLogLog.ofRegisters_injective (hc.uniques.symm.trans hd.uniques))

/-- Two logs with the same contents differ at most in the `deterministic` flag. -/
theorem Represents.log_eq (h : log.Represents c) (h' : other.Represents c) :
    log = { other with deterministic := log.deterministic } :=
  StreamLog.ext (h.latency.sketch_eq h'.latency (h.alpha.trans h'.alpha.symm))
    (h.events.trans h'.events.symm) (h.uniques.trans h'.uniques.symm)
    (h.total.trans h'.total.symm) rfl

/-- The contents of a log determine its configuration. -/
theorem Represents.shape_eq {S' : Shape} {c' : Contents S'} (h : log.Represents c)
    (h' : log.Represents c') : S = S' :=
  Shape.ext (h.alpha.symm.trans h'.alpha)
    (congrArg HyperLogLog.p (h.uniques.symm.trans h'.uniques))
    (congrArg CountMinSketch.width (h.events.symm.trans h'.events))
    (congrArg CountMinSketch.depth (h.events.symm.trans h'.events))

/-! ## Ingestion

Each call is guarded by its own validity and by the sum fitting the limits. The proofs follow the
source: arguments, total, then the part that is written. -/

theorem addLatency_guarded (h : log.Represents c) (hf : c.Fits) (v : Binary64) :
    Guarded (addLatency M (.fin v)) log
      (DDSketch.Valid M S.alpha v.val ∧ (c + ⟨Tally.single M S.alpha v.val, 0, 0⟩).Fits)
      (·.Represents (c + ⟨Tally.single M S.alpha v.val, 0, 0⟩)) := by
  have hsketch := DDSketch.add_guarded (M := M) h.latency hf.latency v (c := 1) (by norm_num)
  rw [h.alpha, one_nsmul, Nat.cast_one] at hsketch
  -- the total grows by one, so its own limit is the last conjunct of `Fits`
  have htotal : log.total = c.total := h.total
  have hle := hf.total_le
  have hsum : (c + ⟨Tally.single M S.alpha v.val, 0, 0⟩ : Contents S).total = c.total + 1 := by
    simp [Contents.total]
    omega
  unfold addLatency
  refine (Guarded.get_bind (Guarded.raiseIf_bind fun _ => (Guarded.zoom rfl hsketch).bind_ok
    (T := (·.Represents (c + ⟨Tally.single M S.alpha v.val, 0, 0⟩))) ?_)).imp ?_ fun _ _ h => h
  · -- the accepting run: the sketch's count has grown, so the total is raised
    rintro _ - ⟨l, ⟨halpha, hl⟩, rfl⟩
    have hgt : l.count > log.latency.count := by
      rw [hl.count, h.latency.count, Tally.count_add, Tally.count_single]
      omega
    refine ⟨⟨l, log.events, log.uniques, log.total + 1, log.deterministic⟩, ?_, halpha, hl,
      by simpa using h.events, by simpa using h.uniques, ?_⟩
    · rw [EStateM.run_modify]
      exact congrArg _ (if_pos hgt)
    · show log.total + 1 = _
      rw [hsum, htotal]
      push_cast
      rfl
  · -- the check on the total and the sketch's own condition are together that the sum fits
    constructor
    · rintro ⟨hfull, hvalid, hfits⟩
      refine ⟨hvalid, hfits, by simpa using hf.events_le, ?_⟩
      have hne : ¬ (c.total : ℤ) = maxUInt64 := fun heq => hfull ⟨rfl, htotal.trans heq⟩
      rw [hsum]
      omega
    · rintro ⟨hvalid, hfits⟩
      refine ⟨?_, hvalid, hfits.latency⟩
      rintro ⟨-, hfull⟩
      have hlim := hfits.total_le
      rw [hsum] at hlim
      omega

theorem addLatency_of_not_finite (h : log.Represents c) (hf : c.Fits) {value : PyFloat}
    (hv : value.isFinite = false) :
    Guarded (addLatency M value) log (c + 0).Fits (·.Represents (c + 0)) := by
  rw [add_zero]
  refine .accept hf log ?_ h
  have hguard : ¬ (value.isFinite = true ∧ log.total = maxUInt64) := by simp [hv]
  simp only [addLatency, DDSketch.add_of_not_finite M hv, EStateM.run_bind, EStateM.run_get,
    run_raiseIf, if_neg hguard]
  simp [onLatency, run_zoom]

theorem length_finiteValues (values : List PyFloat) :
    (DDSketch.finiteValues values).length = values.countP (·.isFinite) := by
  induction values with
  | nil => rfl
  | cons value values ih =>
    cases value with
    | nan => simpa [DDSketch.finiteValues, PyFloat.isFinite] using ih
    | inf b => simpa [DDSketch.finiteValues, PyFloat.isFinite] using ih
    | fin v => simpa [DDSketch.finiteValues, PyFloat.isFinite] using ih

theorem count_batchTally (alpha : ℚ) (values : List PyFloat) :
    (DDSketch.batchTally M alpha values).count = values.countP (·.isFinite) := by
  rw [← length_finiteValues, DDSketch.batchTally]
  induction DDSketch.finiteValues values with
  | nil => simp
  | cons v vs ih =>
    rw [List.map_cons, List.sum_cons, Tally.count_add, ih, Tally.count_single, List.length_cons]
    omega

theorem addBatch_guarded (h : log.Represents c) (hf : c.Fits) (values : List PyFloat) :
    Guarded (addBatch M values) log
      (DDSketch.BatchValid M S.alpha values
        ∧ (c + ⟨DDSketch.batchTally M S.alpha values, 0, 0⟩).Fits)
      (·.Represents (c + ⟨DDSketch.batchTally M S.alpha values, 0, 0⟩)) := by
  have hsketch := DDSketch.addBatch_guarded (M := M) h.latency hf.latency values
  rw [h.alpha] at hsketch
  have htotal : log.total = c.total := h.total
  -- the batch adds as many values as are finite, which is what the total grows by
  have hcount := count_batchTally (M := M) S.alpha values
  have hsum : (c + ⟨DDSketch.batchTally M S.alpha values, 0, 0⟩ : Contents S).total
      = c.total + values.countP (·.isFinite) := by
    simp [Contents.total, hcount]
    omega
  unfold addBatch
  refine (Guarded.get_bind (Guarded.raiseIf_bind fun _ => (Guarded.zoom rfl hsketch).bind_ok
    (T := (·.Represents (c + ⟨DDSketch.batchTally M S.alpha values, 0, 0⟩))) ?_)).imp ?_
    fun _ _ h => h
  · -- the accepting run: the difference of the two counts is added to the total
    rintro _ - ⟨l, ⟨halpha, hl⟩, rfl⟩
    refine ⟨_, rfl, halpha, hl, by simpa using h.events, by simpa using h.uniques, ?_⟩
    have hl' := hl.count
    rw [Tally.count_add, hcount] at hl'
    show log.total + (l.count - log.latency.count) = _
    rw [hl', h.latency.count, hsum, htotal]
    push_cast
    omega
  · constructor
    · rintro ⟨hfull, hvalid, hfits⟩
      exact ⟨hvalid, hfits, by simpa using hf.events_le, by rw [hsum]; omega⟩
    · rintro ⟨hvalid, hfits⟩
      have hlim := hfits.total_le
      rw [hsum] at hlim
      exact ⟨by omega, hvalid, hfits.latency⟩

theorem addEvent_guarded (h : log.Represents c) (hf : c.Fits) (name : EventKey) (count : ℤ) :
    Guarded (addEvent name count) log
      ((0 < count ∧ ¬ keyOutOfRange name)
        ∧ (c + ⟨0, EventCounts.single (Ingest.columns S name) count.toNat, 0⟩).Fits)
      (·.Represents (c + ⟨0, EventCounts.single (Ingest.columns S name) count.toNat, 0⟩)) := by
  have hsketch := CountMinSketch.add_guarded S.width_pos c.events name count
  rw [← h.events] at hsketch
  have htotal : log.total = c.total := h.total
  have hsum : (c + ⟨0, EventCounts.single (Ingest.columns S name) count.toNat, 0⟩ : Contents S).total
      = c.total + count.toNat := by
    simp [Contents.total]
    omega
  -- three checks on the arguments and one on the total come before the table is touched
  unfold addEvent
  refine (Guarded.raiseIf_bind fun _ => Guarded.raiseIf_bind fun _ => Guarded.raiseIf_bind fun _ =>
    Guarded.get_bind (Guarded.raiseIf_bind fun _ => (Guarded.zoom rfl hsketch).bind_ok
    (T := (·.Represents (c + ⟨0, EventCounts.single (Ingest.columns S name) count.toNat, 0⟩)))
    ?_)).imp ?_ fun _ _ h => h
  · -- the accepting run: the table's own sum, and the total raised by `count`
    rintro _ ⟨hpos, -⟩ ⟨e, rfl, rfl⟩
    refine ⟨_, rfl, h.alpha, by simpa using h.latency, rfl, by simpa using h.uniques, ?_⟩
    show log.total + count = _
    rw [hsum, htotal]
    push_cast
    omega
  · constructor
    · rintro ⟨hpos, -, hkey, hfull, -, hevents⟩
      refine ⟨⟨by omega, hkey⟩, by simpa using hf.latency, ?_, by rw [hsum]; omega⟩
      show c.events.total + count.toNat ≤ maxInt64
      omega
    · rintro ⟨⟨hpos, hkey⟩, hfits⟩
      have hlim := hfits.total_le
      have hevents : c.events.total + count.toNat ≤ maxInt64 := hfits.events_le
      rw [hsum] at hlim
      exact ⟨by omega, by omega, hkey, by omega, hpos, by omega⟩

theorem addUnique_guarded (h : log.Represents c) (hf : c.Fits) (item : UniqueItem) :
    Guarded (addUnique item) log
      (¬ HyperLogLog.intOutOfRange item
        ∧ (c + ⟨0, 0, HyperLogLog.itemMax S.p (Ingest.le_64 S) item⟩).Fits)
      (·.Represents (c + ⟨0, 0, HyperLogLog.itemMax S.p (Ingest.le_64 S) item⟩)) := by
  have hsketch := HyperLogLog.add_guarded (Ingest.le_64 S) c.uniques item
  rw [← h.uniques] at hsketch
  have hsame : (c + ⟨0, 0, HyperLogLog.itemMax S.p (Ingest.le_64 S) item⟩ : Contents S).Fits :=
    ⟨by simpa using hf.latency, by simpa using hf.events_le,
      by simpa [Contents.total] using hf.total_le⟩
  unfold addUnique
  refine (Guarded.raiseIf_bind fun _ => Guarded.zoom rfl hsketch).imp ?_ ?_
  · exact ⟨fun hn => ⟨hn.1, hsame⟩, fun hn => ⟨hn.1, hn.1⟩⟩
  · rintro _ - ⟨u, rfl, rfl⟩
    exact ⟨h.alpha, by simpa using h.latency, by simpa using h.events, rfl,
      by simpa [Contents.total] using h.total⟩

/-- **Ingestion is guarded addition**: a call is accepted exactly when its arguments are valid and
the sum fits, and then the log holds the sum. -/
theorem ingest_guarded (h : log.Represents c) (hf : c.Fits) (op : Ingest UniqueItem) :
    Guarded (ingest M op) log (op.Valid M S ∧ (c + op.delta M S).Fits)
      (·.Represents (c + op.delta M S)) := by
  cases op with
  | latency value =>
    cases value with
    | nan =>
      exact (addLatency_of_not_finite h hf rfl).imp ⟨fun hn => ⟨trivial, hn⟩, And.right⟩
        fun _ _ h => h
    | inf b =>
      exact (addLatency_of_not_finite h hf rfl).imp ⟨fun hn => ⟨trivial, hn⟩, And.right⟩
        fun _ _ h => h
    | fin v => exact addLatency_guarded h hf v
  | batch values => exact addBatch_guarded h hf values
  | event name count => exact addEvent_guarded h hf name count
  | unique item => exact addUnique_guarded h hf item

/-! ## Reset and merge

A merge is accepted exactly between logs of one shape whose sum fits, and what it leaves represents
the sum. Logs of different shapes are refused by the first check. -/

theorem run_reset (h : log.Represents c) :
    ∃ log', reset.run log = .ok () log' ∧ log'.Represents (0 : Contents S) := by
  refine ⟨⟨.empty log.latency.alpha, .empty log.events.width log.events.depth,
    .empty log.uniques.p, 0, log.deterministic⟩, rfl, h.alpha, DDSketch.represents_empty _, ?_, ?_,
    by simp⟩
  · rw [h.events]
    exact CountMinSketch.ofCounts_zero.symm
  · rw [h.uniques]
    exact (HyperLogLog.ofRegisters_zero S.p).symm

/-- What the checks in front of `merge` establish. -/
structure Mergeable (log other : StreamLog) : Prop where
  alpha : log.latency.alpha = other.latency.alpha
  p : log.uniques.p = other.uniques.p
  width : log.events.width = other.events.width
  depth : log.events.depth = other.events.depth
  total : ¬ log.total > maxUInt64 - other.total
  count : ¬ log.latency.count > maxUInt64 - other.latency.count
  zeroCount : ¬ log.latency.zeroCount > maxInt64 - other.latency.zeroCount
  events : ¬ log.events.total > maxInt64 - other.events.total

theorem checkMerge_guarded (self other : StreamLog) :
    Guarded (checkMerge self other) self (Mergeable self other) (· = self) := by
  unfold checkMerge
  refine (Guarded.raiseIf_bind fun _ => Guarded.raiseIf_bind fun _ =>
    Guarded.raiseIf_bind fun _ => Guarded.raiseIf_bind fun _ => Guarded.raiseIf_bind fun _ =>
    Guarded.raiseIf_bind fun _ => Guarded.raiseIf).imp ?_ fun _ _ h => h
  constructor
  · rintro ⟨ha, hp, hwd, ht, hc, hz, he⟩
    push Not at ha hp hwd
    exact ⟨ha, hp, hwd.1, hwd.2, ht, hc, hz, he⟩
  · rintro ⟨ha, hp, hw, hd, ht, hc, hz, he⟩
    exact ⟨not_not.mpr ha, not_not.mpr hp, fun hn => hn.elim (· hw) (· hd), ht, hc, hz, he⟩

theorem run_commitMerge (self other : StreamLog) (l : DDSketch) (u : HyperLogLog)
    (tb : List (List ℤ)) :
    (commitMerge other l u tb).run self = .ok ()
      ⟨l, ⟨self.events.width, self.events.depth, tb, self.events.total + other.events.total⟩, u,
        self.total + other.total, self.deterministic⟩ := rfl

/-- The sum of two represented contents fits exactly when the checks of `merge` pass. -/
theorem fits_add_iff (h : log.Represents c) (h' : other.Represents d) :
    (c + d).Fits ↔ Mergeable log other ∧ BinsFit (c.latency + d.latency) := by
  -- both totals of the tables are the event totals of the contents
  have hev : log.events.total = c.events.total := by rw [h.events]; rfl
  have hev' : other.events.total = d.events.total := by rw [h'.events]; rfl
  constructor
  · -- each limit on the sum is one comparison of `checkMerge`
    intro hfits
    have ht := hfits.total_le
    have hc := hfits.latency.count_le
    have hz := hfits.latency.zeroCount_le
    have he := hfits.events_le
    simp only [Contents.total_add, Contents.add_latency, Tally.count_add, Tally.add_zeroCount,
      Contents.add_events, EventCounts.add_total] at ht hc hz he
    refine ⟨⟨h.alpha.trans h'.alpha.symm, ?_, ?_, ?_, ?_, ?_, ?_, ?_⟩,
      hfits.latency.positive_card, hfits.latency.negative_card, hfits.latency.positive_le,
      hfits.latency.negative_le⟩
    · rw [h.uniques, h'.uniques]
      rfl
    · rw [h.events, h'.events]
      rfl
    · rw [h.events, h'.events]
      rfl
    · rw [h.total, h'.total]
      omega
    · rw [h.latency.count, h'.latency.count]
      omega
    · rw [h.latency.zeroCount, h'.latency.zeroCount]
      omega
    · rw [hev, hev']
      omega
  · rintro ⟨hm, hbins⟩
    have ht := hm.total
    have hc := hm.count
    have hz := hm.zeroCount
    have he := hm.events
    rw [h.total, h'.total] at ht
    rw [h.latency.count, h'.latency.count] at hc
    rw [h.latency.zeroCount, h'.latency.zeroCount] at hz
    rw [hev, hev'] at he
    exact
      { latency :=
          { positive_card := hbins.positive_card
            negative_card := hbins.negative_card
            positive_le := hbins.positive_le
            negative_le := hbins.negative_le
            zeroCount_le := by simp; omega
            count_le := by simp; omega }
        events_le := by simp; omega
        total_le := by simp; omega }

/-- **`merge` of a log of the same configuration is guarded addition of its contents.** -/
theorem merge_guarded (h : log.Represents c) (hf : c.Fits) (h' : other.Represents d) :
    Guarded (merge other) log (c + d).Fits (·.Represents (c + d)) := by
  have htable := fun hfit => mergeTable_ofCounts c.events d.events hfit
  rw [← h.events, ← h'.events] at htable
  rw [fits_add_iff h h']
  unfold merge
  refine Guarded.get_bind (((checkMerge_guarded log other).bind fun hm =>
    Guarded.liftExcept_bind (mergeLatency_outcome h.latency h'.latency hf.latency) fun l _ hl =>
      (?_ : Guarded _ log True _)).imp (and_congr_right fun _ => Iff.of_eq (and_true _))
        fun _ _ hR => hR)
  -- the cell check of the events part passes, so the rest of the body is the commit
  have hfit : c.events.total + d.events.total ≤ maxInt64 := by
    have he := hm.events
    rw [h.events, h'.events] at he
    have he' : ¬ (c.events.total : ℤ) > maxInt64 - d.events.total := he
    omega
  rw [htable hfit]
  refine Guarded.of_ok (run_commitMerge log other l _ _) ⟨hl.1.trans h.alpha, hl.2, ?_, ?_, ?_⟩
  · rw [h.events, h'.events]
    rfl
  · show mergeUniques log.uniques other.uniques = _
    rw [h.uniques, h'.uniques, mergeUniques_ofRegisters]
    rfl
  · show log.total + other.total = _
    rw [h.total, h'.total, Contents.total_add]
    push_cast
    rfl

/-- A log of another configuration is rejected before anything is written. -/
theorem merge_of_shape_ne {S' : Shape} {c' : Contents S'} (h : log.Represents c)
    (h' : other.Represents c') (hne : S ≠ S') : ∃ e, (merge other).run log = .error e log := by
  have hcfg : ¬ Mergeable log other := by
    rintro ⟨ha, hp, hw, hd, -⟩
    rw [h.alpha, h'.alpha] at ha
    rw [h.uniques, h'.uniques] at hp
    rw [h.events, h'.events] at hw hd
    exact hne (Shape.ext ha hp hw hd)
  obtain ⟨e, he⟩ := (checkMerge_guarded log other).run_error hcfg
  refine ⟨e, ?_⟩
  rw [merge, EStateM.run_bind, EStateM.run_get]
  simp only [EStateM.run_bind, he]

end StreamLog

end Sketchlog
