import Sketchlog.Cpp.StreamLog
import Sketchlog.Refine.CppDDSketch
import Sketchlog.Refine.CppCountMinSketch
import Sketchlog.Refine.PythonStreamLog

/-!
# The C++ log implements `Contents`

`log.Represents c`: the C++ log holds the contents `c` of its configuration. An ingestion call is
guarded addition of the same delta as in the Python log, under the same condition
(`ingest_guarded`), and so is `merge` (`merge_guarded`); a log of another configuration is rejected
(`merge_of_shape_ne`). That is why the two backends cannot be told apart.
-/

namespace Sketchlog

/-- The call on a Python log. Its `add_unique` takes other objects too. -/
def Ingest.toPython : Ingest EventKey → Ingest UniqueItem
  | .latency value => .latency value
  | .batch values => .batch values
  | .event name count => .event name count
  | .unique item => .unique (.key item)

namespace Cpp

open Imperative Checked CountMap

namespace StreamLog

/-- The call on the C++ log. -/
def ingest (M : IndexMapping) : Ingest EventKey → EStateM PyError StreamLog Unit
  | .latency value => addLatency M value
  | .batch values => addBatch M values
  | .event name count => addEvent name count
  | .unique item => addUnique item

structure Represents (log : StreamLog) {S : Shape} (c : Contents S) : Prop where
  alpha : log.latency.alpha.val = S.alpha
  latency : log.latency.Represents c.latency
  events : log.events = .ofCounts c.events
  uniques : log.uniques = .ofRegisters c.uniques
  totalEvents : log.totalEvents = c.total

variable {M : IndexMapping} {log other : StreamLog} {S : Shape} {c d : Contents S}

/-- The check in front of every addition to `total_events_`. -/
theorem totalEvents_room (h : log.Represents c) (hf : c.Fits) :
    u64 (maxUInt64 - log.totalEvents) = maxUInt64 - c.total := by
  have hle := hf.total_le
  rw [h.totalEvents]
  exact u64_eq (by omega) (by omega)

/-! ## Calls on a part -/

section Parts

variable {P : Prop} (log : StreamLog)

theorem onLatency_outcome {x : EStateM PyError DDSketch Unit} {U : DDSketch → Prop}
    (h : Outcome x log.latency P U) :
    Outcome (onLatency x) log P fun log' => ∃ l, U l ∧ log' = { log with latency := l } :=
  Outcome.zoom h

theorem onEvents_outcome {x : EStateM PyError CountMinSketch Unit} {U : CountMinSketch → Prop}
    (h : Outcome x log.events P U) :
    Outcome (onEvents x) log P fun log' => ∃ e, U e ∧ log' = { log with events := e } :=
  Outcome.zoom h

theorem onUniques_outcome {x : EStateM PyError HyperLogLog Unit} {U : HyperLogLog → Prop}
    (h : Outcome x log.uniques P U) :
    Outcome (onUniques x) log P fun log' => ∃ u, U u ∧ log' = { log with uniques := u } :=
  Outcome.zoom h

end Parts

/-! ## Latencies

A value or a batch is accepted exactly when the sum of the contents fits, and what it leaves
represents the sum. The total is a wrapping sum that stays in range. -/

theorem addLatency_guarded (h : log.Represents c) (hf : c.Fits) (v : Binary64) :
    Guarded (addLatency M (.fin v)) log
      (DDSketch.Valid M S.alpha v.val ∧ (c + ⟨Tally.single M S.alpha v.val, 0, 0⟩).Fits)
      (·.Represents (c + ⟨Tally.single M S.alpha v.val, 0, 0⟩)) := by
  have hsketch := DDSketch.add_guarded (M := M) h.latency hf.latency v
  rw [h.alpha] at hsketch
  have hroom := totalEvents_room h hf
  have hle := hf.total_le
  have hsum : (c + ⟨Tally.single M S.alpha v.val, 0, 0⟩ : Contents S).total = c.total + 1 := by
    simp [Contents.total]
    omega
  have hfin : ¬ (PyFloat.fin v).isFinite = false := by simp [PyFloat.isFinite]
  unfold addLatency
  rw [if_neg hfin]
  refine (Guarded.get_bind (Guarded.raiseIf_bind fun hfull => (Guarded.zoom rfl hsketch).bind_ok
    (T := (·.Represents (c + ⟨Tally.single M S.alpha v.val, 0, 0⟩))) ?_)).imp ?_ fun _ _ h => h
  · -- the accepting run: below the limit the wrapping sum is the plain one
    rintro _ - ⟨l, ⟨halpha, hl⟩, rfl⟩
    rw [hroom] at hfull
    have hcount : u64 (log.totalEvents + 1) = log.totalEvents + 1 := by
      have htotal : log.totalEvents = c.total := h.totalEvents
      exact u64_eq (by omega) (by omega)
    refine ⟨⟨l, log.events, log.uniques, log.totalEvents + 1⟩, ?_, ?_, hl, by simpa using h.events,
      by simpa using h.uniques, ?_⟩
    · rw [EStateM.run_modify]
      show EStateM.Result.ok () (⟨l, log.events, log.uniques, u64 (log.totalEvents + 1)⟩ :
        StreamLog) = _
      rw [hcount]
    · exact (congrArg Binary64.val halpha).trans h.alpha
    · show log.totalEvents + 1 = _
      rw [hsum, h.totalEvents]
      push_cast
      rfl
  · -- the check on the total and the sketch's own condition are together that the sum fits
    rw [hroom]
    constructor
    · rintro ⟨hfull, hvalid, hfits⟩
      exact ⟨hvalid, hfits, by simpa using hf.events_le, by rw [hsum]; omega⟩
    · rintro ⟨hvalid, hfits⟩
      have hlim := hfits.total_le
      rw [hsum] at hlim
      exact ⟨by omega, hvalid, hfits.latency⟩

theorem addLatency_of_not_finite (h : log.Represents c) (hf : c.Fits) {value : PyFloat}
    (hv : value.isFinite = false) :
    Guarded (addLatency M value) log (c + 0).Fits (·.Represents (c + 0)) := by
  rw [add_zero]
  refine .accept hf log ?_ h
  rw [addLatency, if_pos hv, DDSketch.add_of_not_finite hv]
  rfl

/-- `valid_count` is the number of finite values, modulo the width of a `size_t`. -/
theorem validCount_eq (values : List PyFloat) :
    validCount values = u64 (values.countP (·.isFinite)) := by
  have hloop : ∀ (l : List PyFloat) (n : ℤ),
      l.foldl (fun n value => if value.isFinite then u64 (n + 1) else n) (u64 n)
        = u64 (n + l.countP (·.isFinite)) := by
    intro l
    induction l with
    | nil => exact fun n => by simp
    | cons value l ih =>
      intro n
      rw [List.foldl_cons]
      by_cases hv : value.isFinite
      · have hwrap : u64 (u64 n + 1) = u64 (n + 1) := by
          unfold u64
          omega
        rw [if_pos hv, hwrap, ih, List.countP_cons_of_pos hv]
        push_cast
        rw [add_assoc, add_comm 1]
      · rw [if_neg hv, ih, List.countP_cons_of_neg hv]
  have h := hloop values 0
  rw [zero_add] at h
  exact h

theorem addBatch_guarded (h : log.Represents c) (hf : c.Fits) (values : List PyFloat) :
    Guarded (addBatch M values) log
      (DDSketch.BatchValid M S.alpha values
        ∧ (c + ⟨DDSketch.batchTally M S.alpha values, 0, 0⟩).Fits)
      (·.Represents (c + ⟨DDSketch.batchTally M S.alpha values, 0, 0⟩)) := by
  have hsketch := DDSketch.addBatch_guarded (M := M) h.latency hf.latency values
  rw [h.alpha] at hsketch
  have hroom := totalEvents_room h hf
  have hle := hf.total_le
  have hcount := Sketchlog.StreamLog.count_batchTally (M := M) S.alpha values
  have hsum : (c + ⟨DDSketch.batchTally M S.alpha values, 0, 0⟩ : Contents S).total
      = c.total + values.countP (·.isFinite) := by
    simp [Contents.total, hcount]
    omega
  -- a batch that fits the sketch has fewer than `2^64` finite values, so its count does not wrap
  have hvalid : (c.latency + DDSketch.batchTally M S.alpha values).Fits →
      validCount values = values.countP (·.isFinite) := by
    intro hfits
    have hcle := hfits.count_le
    rw [Tally.count_add, hcount] at hcle
    rw [validCount_eq]
    exact u64_eq (by omega) (by omega)
  unfold addBatch
  refine (Guarded.get_bind (Guarded.raiseIf_bind fun hfull => (Guarded.zoom rfl hsketch).bind_ok
    (T := (·.Represents (c + ⟨DDSketch.batchTally M S.alpha values, 0, 0⟩))) ?_)).imp ?_
    fun _ _ h => h
  · rintro _ ⟨-, hfits⟩ ⟨l, ⟨halpha, hl⟩, rfl⟩
    rw [hroom, hvalid hfits] at hfull
    have htotal : log.totalEvents = c.total := h.totalEvents
    have hwrite : u64 (log.totalEvents + validCount values)
        = log.totalEvents + values.countP (·.isFinite) := by
      rw [hvalid hfits]
      exact u64_eq (by omega) (by omega)
    refine ⟨⟨l, log.events, log.uniques, log.totalEvents + values.countP (·.isFinite)⟩, ?_, ?_, hl,
      by simpa using h.events, by simpa using h.uniques, ?_⟩
    · rw [EStateM.run_modify]
      show EStateM.Result.ok ()
        (⟨l, log.events, log.uniques, u64 (log.totalEvents + validCount values)⟩ : StreamLog) = _
      rw [hwrite]
    · exact (congrArg Binary64.val halpha).trans h.alpha
    · show log.totalEvents + (values.countP (·.isFinite) : ℤ) = _
      rw [hsum, h.totalEvents]
      push_cast
      rfl
  · rw [hroom]
    constructor
    · rintro ⟨hfull, hbatch, hfits⟩
      rw [hvalid hfits] at hfull
      exact ⟨hbatch, hfits, by simpa using hf.events_le, by rw [hsum]; omega⟩
    · rintro ⟨hbatch, hfits⟩
      have hlim := hfits.total_le
      rw [hsum] at hlim
      refine ⟨?_, hbatch, hfits.latency⟩
      rw [hvalid hfits.latency]
      omega

/-! ## Events and uniques

Keys come in as strings, bytes or integers. The binding checks only the range of integers, and each
native key has the columns of the item it stands for. -/

/-- The key the sketch hashes. -/
def keyOf : EventKey → UInt64
  | .str s => HyperLogLog.fnv1a (utf8 s)
  | .bytes b => HyperLogLog.fnv1a b
  | .int n => UInt64.ofNat n.toNat

theorem keyOf_toNat {name : EventKey} (h : ¬ Sketchlog.StreamLog.keyOutOfRange name) :
    ((keyOf name).toNat : ℤ) = Sketchlog.CountMinSketch.keyOf name := by
  cases name with
  | str s => exact congrArg Int.ofNat (HyperLogLog.fnv1a_toNat (utf8 s))
  | bytes b => exact congrArg Int.ofNat (HyperLogLog.fnv1a_toNat b)
  | int n =>
    have hrange : 0 ≤ n ∧ n ≤ mask64 := not_not.mp h
    have hmask : (mask64 : ℤ) = 2 ^ 64 - 1 := by norm_num [mask64]
    show (((UInt64.ofNat n.toNat).toNat : ℕ) : ℤ) = n
    rw [UInt64.toNat_ofNat', Nat.mod_eq_of_lt (by omega)]
    omega

/-- The body of `add_event`, for a key in range. -/
theorem addEventWith_guarded (h : log.Represents c) (hf : c.Fits) (name : EventKey) {count : ℤ}
    (hkey : ¬ Sketchlog.StreamLog.keyOutOfRange name) (hcount : count ≤ maxInt64) :
    Guarded (addEventWith (CountMinSketch.add (keyOf name) count) count) log
      (0 < count ∧ (c + ⟨0, EventCounts.single (Ingest.columns S name) count.toNat, 0⟩).Fits)
      (·.Represents (c + ⟨0, EventCounts.single (Ingest.columns S name) count.toNat, 0⟩)) := by
  -- the native key has the columns of the item it stands for
  have hcolumns : CountMinSketch.column S.width S.depth S.width_pos (keyOf name)
      = Ingest.columns S name := by
    rw [CountMinSketch.column, keyOf_toNat hkey]
    rfl
  have hsketch := CountMinSketch.add_guarded S.width_pos c.events hf.events_le (keyOf name) count
  rw [← h.events, hcolumns] at hsketch
  have hroom := totalEvents_room h hf
  have hle := hf.total_le
  have hsum : (c + ⟨0, EventCounts.single (Ingest.columns S name) count.toNat, 0⟩ : Contents S).total
      = c.total + count.toNat := by
    simp [Contents.total]
    omega
  have hbound : maxInt64 ≤ maxUInt64 := by norm_num [maxInt64, maxUInt64]
  unfold addEventWith
  refine (Guarded.raiseIf_bind fun hpos => Guarded.get_bind (Guarded.raiseIf_bind fun hfull =>
    (Guarded.zoom rfl hsketch).bind_ok
    (T := (·.Represents (c + ⟨0, EventCounts.single (Ingest.columns S name) count.toNat, 0⟩)))
    ?_)).imp ?_ fun _ _ h => h
  · -- the accepting run: `count` is positive and in range, so no cast changes it
    rintro _ - ⟨e, rfl, rfl⟩
    have hu64 : u64 count = count := u64_eq (by omega) (by omega)
    rw [hroom, hu64] at hfull
    have htotal : log.totalEvents = c.total := h.totalEvents
    have hwrite : u64 (log.totalEvents + u64 count) = log.totalEvents + count := by
      rw [hu64]
      exact u64_eq (by omega) (by omega)
    refine ⟨⟨log.latency, .ofCounts (c.events + EventCounts.single (Ingest.columns S name) count.toNat),
      log.uniques, log.totalEvents + count⟩, ?_, h.alpha, by simpa using h.latency, rfl,
      by simpa using h.uniques, ?_⟩
    · rw [EStateM.run_modify]
      show EStateM.Result.ok ()
        (⟨log.latency, _, log.uniques, u64 (log.totalEvents + u64 count)⟩ : StreamLog) = _
      rw [hwrite]
    · show log.totalEvents + count = _
      rw [hsum, h.totalEvents]
      push_cast
      omega
  · -- the check on the total and the table's own condition are together that the sum fits
    rw [hroom]
    constructor
    · rintro ⟨hpos, hfull, -, hevents⟩
      rw [u64_eq (by omega) (by omega)] at hfull
      refine ⟨by omega, by simpa using hf.latency, ?_, by rw [hsum]; omega⟩
      show c.events.total + count.toNat ≤ maxInt64
      omega
    · rintro ⟨hpos, hfits⟩
      have hlim := hfits.total_le
      have hevents : c.events.total + count.toNat ≤ maxInt64 := hfits.events_le
      rw [hsum] at hlim
      rw [u64_eq (by omega) (by omega)]
      exact ⟨by omega, by omega, hpos, by omega⟩

theorem addEvent_guarded (h : log.Represents c) (hf : c.Fits) (name : EventKey) (count : ℤ) :
    Guarded (addEvent name count) log
      ((0 < count ∧ ¬ Sketchlog.StreamLog.keyOutOfRange name)
        ∧ (c + ⟨0, EventCounts.single (Ingest.columns S name) count.toNat, 0⟩).Fits)
      (·.Represents (c + ⟨0, EventCounts.single (Ingest.columns S name) count.toNat, 0⟩)) := by
  have hfits : (c + ⟨0, EventCounts.single (Ingest.columns S name) count.toNat, 0⟩).Fits →
      count ≤ maxInt64 := by
    intro hfits
    have hevents : c.events.total + count.toNat ≤ maxInt64 := hfits.events_le
    omega
  unfold addEvent
  refine (Guarded.raiseIf_bind (P := ¬ Sketchlog.StreamLog.keyOutOfRange name ∧ 0 < count
    ∧ (c + ⟨0, EventCounts.single (Ingest.columns S name) count.toNat, 0⟩).Fits)
    fun hrange => ?_).imp ?_ fun _ _ h => h
  · rw [not_not] at hrange
    -- the binding checks the range of integers only; the other kinds of key always have one
    cases name with
    | str s =>
      have hkey : ¬ Sketchlog.StreamLog.keyOutOfRange (.str s) := not_false
      exact (addEventWith_guarded h hf (.str s) hkey hrange.2).imp ⟨fun hP => ⟨hkey, hP⟩, And.right⟩
        fun _ _ hR => hR
    | bytes b =>
      have hkey : ¬ Sketchlog.StreamLog.keyOutOfRange (.bytes b) := not_false
      exact (addEventWith_guarded h hf (.bytes b) hkey hrange.2).imp ⟨fun hP => ⟨hkey, hP⟩, And.right⟩
        fun _ _ hR => hR
    | int n =>
      exact Guarded.raiseIf_bind fun hkey => addEventWith_guarded h hf (.int n) hkey hrange.2
  · constructor
    · rintro ⟨-, hkey, hpos, hsum⟩
      exact ⟨⟨hpos, hkey⟩, hsum⟩
    · rintro ⟨⟨hpos, hkey⟩, hsum⟩
      have hle := hfits hsum
      exact ⟨not_not.mpr ⟨by omega, hle⟩, hkey, hpos, hsum⟩

theorem addBytes_guarded (h : log.Represents c) (data : List UInt8) :
    Guarded (onUniques (HyperLogLog.add data)) log True
      (·.Represents (c + ⟨0, 0, HyperLogLog.bytesMax S.p (Ingest.le_64 S) data⟩)) := by
  have hrun := HyperLogLog.run_add S.p_ge S.p_le c.uniques data
  rw [← h.uniques] at hrun
  refine (Guarded.zoom rfl (Guarded.of_ok (R := (· = HyperLogLog.ofRegisters
    (c.uniques + HyperLogLog.bytesMax S.p (Ingest.le_64 S) data))) hrun rfl)).imp Iff.rfl ?_
  rintro _ - ⟨u, rfl, rfl⟩
  exact ⟨h.alpha, by simpa using h.latency, by simpa using h.events, rfl,
    by simpa [Contents.total] using h.totalEvents⟩

theorem addUnique_guarded (h : log.Represents c) (hf : c.Fits) (item : EventKey) :
    Guarded (addUnique item) log
      (¬ Sketchlog.HyperLogLog.intOutOfRange (.key item)
        ∧ (c + ⟨0, 0, Sketchlog.HyperLogLog.itemMax S.p (Ingest.le_64 S) (.key item)⟩).Fits)
      (·.Represents (c + ⟨0, 0, Sketchlog.HyperLogLog.itemMax S.p (Ingest.le_64 S) (.key item)⟩)) := by
  -- registers have no limit, so the sum fits with the contents
  have hsame : (c + ⟨0, 0, Sketchlog.HyperLogLog.itemMax S.p (Ingest.le_64 S) (.key item)⟩
      : Contents S).Fits :=
    ⟨by simpa using hf.latency, by simpa using hf.events_le,
      by simpa [Contents.total] using hf.total_le⟩
  cases item with
  | str s =>
    exact (addBytes_guarded h (utf8 s)).imp ⟨fun _ => ⟨not_false, hsame⟩, fun _ => trivial⟩
      fun _ _ hR => hR
  | bytes b =>
    exact (addBytes_guarded h b).imp ⟨fun _ => ⟨not_false, hsame⟩, fun _ => trivial⟩
      fun _ _ hR => hR
  | int n =>
    refine (Guarded.raiseIf_bind fun _ =>
      addBytes_guarded h (Sketchlog.HyperLogLog.toBytes8 n.toNat)).imp
      ?_ fun _ _ hR => hR
    -- the range check of the binding is the one of the other backend
    show (¬ ¬ (0 ≤ n ∧ n ≤ (mask64 : ℤ)) ∧ True) ↔ (¬ (n < 0 ∨ n > (mask64 : ℤ)) ∧ _)
    constructor
    · rintro ⟨hrange, -⟩
      exact ⟨by omega, hsame⟩
    · rintro ⟨hrange, -⟩
      exact ⟨by omega, trivial⟩

/-- **Ingestion is guarded addition of the same delta, under the same condition, as in Python.** -/
theorem ingest_guarded (h : log.Represents c) (hf : c.Fits) (op : Ingest EventKey) :
    Guarded (ingest M op) log (op.toPython.Valid M S ∧ (c + op.toPython.delta M S).Fits)
      (·.Represents (c + op.toPython.delta M S)) := by
  cases op with
  | latency value =>
    cases value with
    | nan =>
      exact (addLatency_of_not_finite h hf rfl).imp ⟨fun hn => ⟨trivial, hn⟩, And.right⟩
        fun _ _ h => h
    | inf b =>
      exact (addLatency_of_not_finite h hf rfl).imp ⟨fun hn => ⟨trivial, hn⟩, And.right⟩
        fun _ _ h => h
    | fin v => exact addLatency_guarded h hf v
  | batch values => exact addBatch_guarded h hf values
  | event name count => exact addEvent_guarded h hf name count
  | unique item => exact addUnique_guarded h hf item

/-! ## Reset and merge

The parts are merged into a copy, in the order of the source, and the log takes the copy over when
all three have succeeded. Logs of different shapes fail in the first part that differs. -/

theorem run_reset (h : log.Represents c) :
    ∃ log', reset.run log = .ok () log' ∧ log'.Represents (0 : Contents S) := by
  have hlatency : DDSketch.reset.run log.latency = .ok () (.empty log.latency.alpha) := rfl
  have hevents := CountMinSketch.run_reset c.events
  have huniques := HyperLogLog.run_reset c.uniques
  rw [← h.events] at hevents
  rw [← h.uniques] at huniques
  refine ⟨⟨.empty log.latency.alpha, .ofCounts (0 : EventCounts S.width S.depth),
    .ofRegisters (0 : RegisterMax S.p), 0⟩, ?_, h.alpha, DDSketch.represents_empty _, rfl, rfl, by simp⟩
  simp only [reset, onLatency, onEvents, onUniques, EStateM.run_bind, run_zoom, EStateM.run_modify,
    hlatency, hevents, huniques]

/-- The three parts are merged into a copy. -/
theorem mergeParts_outcome (h : log.Represents c) (hf : c.Fits) (h' : other.Represents d) :
    Outcome (do onLatency (DDSketch.merge other.latency)
                onEvents (CountMinSketch.merge other.events)
                onUniques (HyperLogLog.merge other.uniques)) log
      ((c.latency + d.latency).Fits ∧ c.events.total + d.events.total ≤ maxInt64)
      (fun log' => log'.latency.alpha = log.latency.alpha
        ∧ log'.latency.Represents (c.latency + d.latency)
        ∧ log'.events = .ofCounts (c.events + d.events)
        ∧ log'.uniques = .ofRegisters (c.uniques + d.uniques)
        ∧ log'.totalEvents = log.totalEvents) := by
  have halpha : log.latency.alpha = other.latency.alpha := Binary64.ext (h.alpha.trans h'.alpha.symm)
  have hlatency := DDSketch.merge_guarded h.latency hf.latency h'.latency halpha
  have hevents := CountMinSketch.merge_guarded c.events d.events hf.events_le
  have huniques := HyperLogLog.run_merge c.uniques d.uniques
  rw [← h.events, ← h'.events] at hevents
  rw [← h.uniques, ← h'.uniques] at huniques
  have huniques' : Outcome (HyperLogLog.merge other.uniques) log.uniques True
      (· = HyperLogLog.ofRegisters (c.uniques + d.uniques)) := .accept trivial _ huniques rfl
  -- the three parts are merged in this order, each leaving the parts before it as they are
  refine ((onLatency_outcome log hlatency.outcome).bind fun log₁ _ hlog₁ => ?_)
  obtain ⟨l, ⟨hl, hrep⟩, rfl⟩ := hlog₁
  refine ((onEvents_outcome { log with latency := l } hevents.outcome).bind fun log₂ _ hlog₂ => ?_).imp
    (and_iff_left trivial) fun _ _ hR => hR
  obtain ⟨e, rfl, rfl⟩ := hlog₂
  refine (onUniques_outcome { log with latency := l, events := _ } huniques').imp Iff.rfl ?_
  rintro _ - ⟨u, rfl, rfl⟩
  exact ⟨hl, hrep, rfl, rfl, rfl⟩

/-- **`merge` of a log of the same configuration is guarded addition of its contents.** -/
theorem merge_guarded (h : log.Represents c) (hf : c.Fits) (h' : other.Represents d) :
    Guarded (merge other) log (c + d).Fits (·.Represents (c + d)) := by
  have hroom := totalEvents_room h hf
  have hle := hf.total_le
  have hother : other.totalEvents = d.total := h'.totalEvents
  have hlog : log.totalEvents = c.total := h.totalEvents
  unfold merge
  refine (Guarded.get_bind (Guarded.raiseIf_bind fun hfull =>
    (mergeParts_outcome h hf h').onCopy.bind_ok (T := (·.Represents (c + d)))
      fun log' _ hlog' => ?_)).imp ?_ fun _ _ hR => hR
  · -- the accepting run: the totals are summed after the parts
    obtain ⟨halpha, hlatency, hevents, huniques, htotal⟩ := hlog'
    rw [hroom] at hfull
    refine ⟨_, rfl, (congrArg Binary64.val halpha).trans h.alpha, hlatency, hevents, huniques, ?_⟩
    show u64 (log'.totalEvents + other.totalEvents) = _
    rw [htotal, u64_eq (by omega) (by omega), hlog, hother, Contents.total_add]
    push_cast
    rfl
  · rw [hroom, hother]
    constructor
    · rintro ⟨hfull, hlatency, hevents⟩
      exact ⟨hlatency, by simpa using hevents, by rw [Contents.total_add]; omega⟩
    · intro hfits
      have hlim := hfits.total_le
      have hevents : c.events.total + d.events.total ≤ maxInt64 := hfits.events_le
      rw [Contents.total_add] at hlim
      exact ⟨by omega, hfits.latency, hevents⟩

/-- The first part that has another configuration raises, whatever the parts before it did. -/
theorem mergeParts_of_shape_ne {S' : Shape} {c' : Contents S'} (h : log.Represents c)
    (h' : other.Represents c') (hne : S ≠ S') :
    Outcome (do onLatency (DDSketch.merge other.latency)
                onEvents (CountMinSketch.merge other.events)
                onUniques (HyperLogLog.merge other.uniques)) log False fun _ => True := by
  -- one of alpha, dimensions and precision differs; the merge of that part raises
  by_cases halpha : log.latency.alpha.val = other.latency.alpha.val
  swap
  · have hraise : Outcome (DDSketch.merge other.latency) log.latency False fun _ => True :=
      .reject not_false _ _ (DDSketch.merge_of_alpha_ne halpha)
    exact (onLatency_outcome log hraise).bind_of_raises
  refine (onLatency_outcome log (Outcome.any _ _)).bind_raises fun log₁ hlog₁ => ?_
  obtain ⟨l, -, rfl⟩ := hlog₁
  by_cases hdims : log.events.width = other.events.width ∧ log.events.depth = other.events.depth
  swap
  · have hraise : Outcome (CountMinSketch.merge other.events) log.events False fun _ => True := by
      refine .reject not_false (.valueError "CountMinSketch::merge: width and depth must match")
        log.events ?_
      simp only [CountMinSketch.merge, EStateM.run_bind, EStateM.run_get, run_raiseIf,
        if_pos (not_and_or.mp hdims)]
    exact (onEvents_outcome { log with latency := l } hraise).bind_of_raises
  refine (onEvents_outcome { log with latency := l } (Outcome.any _ _)).bind_raises
    fun log₂ hlog₂ => ?_
  obtain ⟨e, -, rfl⟩ := hlog₂
  -- alpha and the dimensions agree, so the shapes can only differ in the precision
  have hp : log.uniques.p ≠ other.uniques.p := by
    intro hp
    obtain ⟨hw, hd⟩ := hdims
    rw [h.uniques, h'.uniques] at hp
    rw [h.events, h'.events] at hw hd
    exact hne (Shape.ext (h.alpha.symm.trans (halpha.trans h'.alpha)) hp hw hd)
  have hraise : Outcome (HyperLogLog.merge other.uniques) log.uniques False fun _ => True := by
    refine .reject not_false (.valueError "HyperLogLog::merge: precision mismatch") log.uniques ?_
    simp only [HyperLogLog.merge, EStateM.run_bind, EStateM.run_get, run_raiseIf, if_pos hp]
  exact (onUniques_outcome { log with latency := l, events := e } hraise).imp Iff.rfl
    fun _ _ _ => trivial

/-- A log of another configuration is rejected, and the copy discarded. -/
theorem merge_of_shape_ne {S' : Shape} {c' : Contents S'} (h : log.Represents c)
    (h' : other.Represents c') (hne : S ≠ S') : ∃ e, (merge other).run log = .error e log := by
  have hmerge : Guarded (merge other) log False fun _ => True := by
    unfold merge
    exact (Guarded.get_bind (Guarded.raiseIf_bind fun _ =>
      (mergeParts_of_shape_ne h h' hne).onCopy.bind_ok (T := fun _ => True)
        fun _ hf _ => hf.elim)).imp (iff_of_false And.right id) fun _ _ _ => trivial
  exact hmerge.run_error id

/-! ## Construction -/

/-- The empty log of a configuration. -/
def emptyOf (S : Shape) : StreamLog :=
  ⟨.empty ⟨S.alpha, S.alpha_isBinary64⟩, .empty S.width S.depth, .empty S.p, 0⟩

theorem represents_emptyOf (S : Shape) : (emptyOf S).Represents (0 : Contents S) :=
  ⟨rfl, DDSketch.represents_empty _, CountMinSketch.ofCounts_zero.symm,
    (HyperLogLog.ofRegisters_zero S.p).symm, by simp [emptyOf]⟩

/-- The constructor accepts every configuration the Python constructor accepts. -/
theorem new_emptyOf {S : Shape} (hS : S.Bounded) :
    new (.fin ⟨S.alpha, S.alpha_isBinary64⟩) S.p S.width S.depth = .ok (emptyOf S) := by
  have hw := S.width_pos
  have hd := S.depth_pos
  have hp4 := S.p_ge
  have hp18 := S.p_le
  have hcells : (S.width : ℤ) ≤ 1000000 / S.depth := by exact_mod_cast hS
  have hmax : (1000000 : ℤ) ≤ maxUInt64 := by norm_num [maxUInt64]
  have hw' : (S.width : ℤ) ≤ 1000000 :=
    hcells.trans (Int.ediv_le_self _ (by norm_num))
  have hd' : (S.depth : ℤ) ≤ 1000000 := by
    by_contra hlt
    have h0 : (1000000 : ℤ) / S.depth = 0 := Int.ediv_eq_zero_of_lt (by norm_num) (by omega)
    omega
  have hfits : ¬ (S.width : ℤ) > maxUInt64 / S.depth :=
    not_lt.mpr (hcells.trans (Int.ediv_le_ediv (by omega) hmax))
  simp only [new, CountMinSketch.new, HyperLogLog.new, bind_eq_ok, failIf_eq_ok, exists_unit,
    DDSketch.new_eq_ok, Except.ok.injEq]
  exact ⟨_, ⟨_, rfl, S.alpha_ge, S.alpha_lt, rfl⟩, _, ⟨by omega, by omega, hfits, rfl⟩, _,
    ⟨by omega, by omega, rfl⟩, rfl⟩

end StreamLog

end Cpp

end Sketchlog
