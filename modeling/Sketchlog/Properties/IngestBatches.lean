import Sketchlog.Refine.FacadeReads
import Sketchlog.Refine.WindowedSteps
import Sketchlog.Server.Ingest

/-!
# A batch is written whole or not at all

The first write of `ingest_events` may raise, on a latency that the sketch cannot hold, and then it
leaves the stream as it was. The capacity that the preflight has found is enough for all writes that
follow, so none of them raises. This holds on both backends, and of the stream as the preflight saw
it.
-/

namespace Sketchlog

open Imperative

namespace Contents

variable {S : Shape}

theorem total_sum (xs : List (Contents S)) : xs.sum.total = (xs.map total).sum := by
  induction xs with
  | nil => exact total_zero
  | cons x xs ih => rw [List.sum_cons, total_add, ih, List.map_cons, List.sum_cons]

theorem latency_sum_eq_zero {xs : List (Contents S)} (h : ∀ x ∈ xs, x.latency = 0) :
    xs.sum.latency = 0 := by
  induction xs with
  | nil => rfl
  | cons x xs ih =>
    obtain ⟨hx, hrest⟩ := List.forall_mem_cons.mp h
    rw [List.sum_cons, add_latency, hx, ih hrest, add_zero]

end Contents

namespace Facade.StreamLog

variable {M : IndexMapping} {cppAvailable : Bool} {S : Shape} {c d : Contents S} {self : StreamLog}
    {cfg : Config}

theorem addBatch_guarded (h : self.Held cppAvailable cfg c) (values : List PyFloat) :
    Guarded (addBatch M values) self
      (DDSketch.BatchValid M S.alpha values ∧ (c + ⟨DDSketch.batchTally M S.alpha values, 0, 0⟩).Fits)
      (fun t => t.Held cppAvailable cfg (c + ⟨DDSketch.batchTally M S.alpha values, 0, 0⟩)) :=
  dispatch_guarded h And.right (fun _ hrep =>
    Sketchlog.StreamLog.addBatch_guarded hrep h.valid.fits values)
    (fun _ hrep => Cpp.StreamLog.addBatch_guarded hrep h.valid.fits values)

/-- A loop of valid additions whose sum fits. -/
theorem forM_add {ι : Type} (f : ι → Addition) (xs : List ι) (h : self.Held cppAvailable cfg c)
    (hvalid : ∀ x ∈ xs, (f x).Valid M S) (hfits : (c + (xs.map fun x => (f x).delta M S).sum).Fits) :
    ∃ t, (xs.forM fun x => add M (f x)).run self = .ok () t
      ∧ t.Held cppAvailable cfg (c + (xs.map fun x => (f x).delta M S).sum) := by
  induction xs generalizing self c with
  | nil =>
    rw [List.map_nil, List.sum_nil, add_zero]
    exact ⟨self, rfl, h⟩
  | cons x xs ih =>
    obtain ⟨hx, hrest⟩ := List.forall_mem_cons.mp hvalid
    rw [List.map_cons, List.sum_cons, ← add_assoc] at hfits ⊢
    obtain ⟨t, hrun, ht⟩ := (add_guarded (M := M) h (f x)).run_ok ⟨hx, hfits.of_add⟩
    obtain ⟨u, hrun', hu⟩ := ih ht hrest hfits
    refine ⟨u, ?_, hu⟩
    show (add M (f x) >>= fun _ => xs.forM fun x => add M (f x)).run self = _
    rw [EStateM.run_bind, hrun]
    exact hrun'

end Facade.StreamLog

namespace Server.EventBatch

variable {M : IndexMapping} {cppAvailable : Bool} {S : Shape} {c : Contents S}
    {self : Facade.StreamLog} {cfg : Config}
  (batch : EventBatch)

/-- The calls of the two loops. -/
def uniqueAddition (uniqueItem : String) : Addition := .unique (.str uniqueItem)

def eventAddition (e : String × ℤ) : Addition := .event (.str e.1) e.2

/-- What the loops add. -/
noncomputable def uniquesAdded (M : IndexMapping) (S : Shape) : Contents S :=
  (batch.uniques.map fun uniqueItem => (uniqueAddition uniqueItem).delta M S).sum

noncomputable def eventsAdded (M : IndexMapping) (S : Shape) : Contents S :=
  (batch.events.items.map fun e => (eventAddition e).delta M S).sum

noncomputable def latenciesAdded (M : IndexMapping) (S : Shape) : Contents S :=
  ⟨DDSketch.batchTally M S.alpha batch.latencies, 0, 0⟩

/-- What a batch adds. -/
noncomputable def delta (M : IndexMapping) (S : Shape) : Contents S :=
  batch.latenciesAdded M S + batch.uniquesAdded M S + batch.eventsAdded M S

theorem latency_delta : (batch.delta M S).latency = DDSketch.batchTally M S.alpha batch.latencies := by
  have huniques : (batch.uniquesAdded M S).latency = 0 := by
    refine Contents.latency_sum_eq_zero fun x hx => ?_
    obtain ⟨item, -, rfl⟩ := List.mem_map.mp hx
    rfl
  have hevents : (batch.eventsAdded M S).latency = 0 := by
    refine Contents.latency_sum_eq_zero fun x hx => ?_
    obtain ⟨e, -, rfl⟩ := List.mem_map.mp hx
    rfl
  rw [delta, Contents.add_latency, Contents.add_latency, huniques, hevents, add_zero, add_zero]
  rfl

/-- A batch counts what the preflight has computed. -/
theorem total_delta : ((batch.delta M S).total : ℤ) = batch.newEvents := by
  have hlatencies : (batch.latenciesAdded M S).total = batch.latencies.length := by
    have hcount := Sketchlog.StreamLog.count_batchTally (M := M) S.alpha batch.latencies
    rw [List.countP_eq_length.mpr batch.latencies_finite] at hcount
    exact hcount
  have huniques : (batch.uniquesAdded M S).total = 0 := by
    rw [uniquesAdded, Contents.total_sum, List.map_map]
    refine List.sum_eq_zero fun n hn => ?_
    obtain ⟨item, -, rfl⟩ := List.mem_map.mp hn
    exact Contents.total_zero
  have hevents : ((batch.eventsAdded M S).total : ℤ) = (batch.events.items.map Prod.snd).sum := by
    rw [eventsAdded, Contents.total_sum, List.map_map, Nat.cast_list_sum, List.map_map]
    refine congrArg List.sum (List.map_congr_left fun e he => ?_)
    have hpos := (batch.events_valid e he).2.1
    show ((0 + e.2.toNat : ℕ) : ℤ) = e.2
    omega
  rw [delta, Contents.total_add, Contents.total_add, hlatencies, huniques, Nat.add_zero,
    Nat.cast_add, hevents]
  rfl

theorem add_delta : c + batch.delta M S
    = c + batch.latenciesAdded M S + batch.uniquesAdded M S + batch.eventsAdded M S := by
  rw [delta, add_assoc, add_assoc, add_assoc]

/-- Within the capacity, only the latencies can fail to fit. -/
theorem fits_delta (hroom : (c.total : ℤ) + batch.newEvents ≤ maxInt64)
    (hlatency : (c.latency + DDSketch.batchTally M S.alpha batch.latencies).Fits) :
    (c + batch.delta M S).Fits := by
  have htotal : (c + batch.delta M S).total ≤ maxInt64 := by
    have hdelta := batch.total_delta (M := M) (S := S)
    rw [Contents.total_add]
    omega
  -- events count into the total, which the preflight has bounded
  refine ⟨?_, ?_, htotal.trans (by decide)⟩
  · rw [Contents.add_latency, latency_delta]
    exact hlatency
  · exact (Nat.le_add_left _ _).trans htotal

theorem writeLatencies_guarded (h : self.Held cppAvailable cfg c)
    (hroom : (c.total : ℤ) + batch.newEvents ≤ maxInt64) :
    Guarded (batch.writeLatencies M) self
      (DDSketch.BatchValid M S.alpha batch.latencies
        ∧ (c.latency + DDSketch.batchTally M S.alpha batch.latencies).Fits)
      (fun t => t.Held cppAvailable cfg (c + batch.latenciesAdded M S)) := by
  unfold writeLatencies
  by_cases hnone : batch.latencies = []
  · -- `if batch.latencies:` skips the call
    have hzero : batch.latenciesAdded M S = 0 := by
      rw [latenciesAdded, hnone]
      rfl
    rw [if_neg (not_not.mpr hnone), hzero, add_zero, hnone]
    refine .accept ⟨fun v hv => absurd hv List.not_mem_nil, ?_⟩ self rfl h
    show (c.latency + 0).Fits
    rw [add_zero]
    exact h.valid.fits.latency
  · rw [if_pos hnone]
    refine (Facade.StreamLog.addBatch_guarded h batch.latencies).imp ?_ fun _ _ ht => ht
    refine and_congr_right fun _ => ⟨fun hfits => hfits.latency, fun hlatency => ?_⟩
    have hfits := batch.fits_delta hroom hlatency
    rw [add_delta] at hfits
    exact hfits.of_add.of_add

/-- **The writes are one guarded addition**, when the preflight has let the batch through. -/
theorem write_guarded (h : self.Held cppAvailable cfg c)
    (hroom : (c.total : ℤ) + batch.newEvents ≤ maxInt64) :
    Guarded (batch.write M) self
      (DDSketch.BatchValid M S.alpha batch.latencies
        ∧ (c.latency + DDSketch.batchTally M S.alpha batch.latencies).Fits)
      (fun t => t.Held cppAvailable cfg (c + batch.delta M S)) := by
  refine (batch.writeLatencies_guarded h hroom).bind_ok fun t hP ht => ?_
  have hfits := batch.fits_delta hroom hP.2
  rw [add_delta] at hfits ⊢
  -- neither loop raises
  obtain ⟨u, hrun, hu⟩ := Facade.StreamLog.forM_add (M := M) uniqueAddition batch.uniques ht
    (fun _ _ => id)
    hfits.of_add
  obtain ⟨v, hrun', hv⟩ := Facade.StreamLog.forM_add (M := M) eventAddition batch.events.items hu
    (fun e he => ⟨(batch.events_valid e he).2.1, id⟩) hfits
  refine ⟨v, ?_, hv⟩
  show (batch.uniques.forM (fun item => Facade.StreamLog.add M (uniqueAddition item)) >>= fun _ =>
    batch.events.items.forM fun e => Facade.StreamLog.add M (eventAddition e)).run t = _
  rw [EStateM.run_bind, hrun]
  exact hrun'

end Server.EventBatch

/-- **A batch that the preflight lets through is written whole or not at all**, on either backend,
to every log that can come about: when it is not, the latencies are at fault and the log is left as
it was. -/
theorem ingest_all_or_nothing {M : IndexMapping} {cppAvailable : Bool} {log : Facade.StreamLog}
    (hlog : Facade.StreamLog.Reachable M cppAvailable log) {batch : Server.EventBatch}
    (hpre : batch.preflight log.totalEvents = .ok ()) :
    ∃ (S : Shape) (c : Contents S), log.Valid cppAvailable c
      ∧ ((∃ log', (batch.write M).run log = .ok () log' ∧ log'.Valid cppAvailable (c + batch.delta M S)
            ∧ log'.totalEvents = log.totalEvents + batch.newEvents)
        ∨ ¬ (DDSketch.BatchValid M S.alpha batch.latencies
            ∧ (c.latency + DDSketch.batchTally M S.alpha batch.latencies).Fits)
          ∧ ∃ e, (batch.write M).run log = .error e log) := by
  obtain ⟨S, c, hvalid⟩ := hlog.valid
  have hheld : log.Held cppAvailable log.config c := ⟨rfl, hvalid⟩
  have htotal := Facade.StreamLog.totalEvents_eq hheld
  have hroom : (c.total : ℤ) + batch.newEvents ≤ maxInt64 := by
    rw [Server.EventBatch.preflight, Checked.failIf_eq_ok, htotal] at hpre
    exact not_lt.mp hpre
  refine ⟨S, c, hvalid, ?_⟩
  cases batch.write_guarded (M := M) hheld hroom with
  | accept hP log' hrun hheld' =>
    refine Or.inl ⟨log', hrun, hheld'.valid, ?_⟩
    rw [Facade.StreamLog.totalEvents_eq hheld', htotal, Contents.total_add, Nat.cast_add,
      batch.total_delta]
  | reject hP e hrun => exact Or.inr ⟨hP, e, hrun⟩

/-- One item, and one event that is counted twice. -/
def Server.EventBatch.sample : Server.EventBatch where
  latencies := []
  uniques := ["user"]
  events := ⟨[("hit", 2)], List.nodup_singleton _⟩
  latencies_finite := fun _ hv => absurd hv List.not_mem_nil
  uniques_valid := by
    intro item hitem
    rw [List.mem_singleton.mp hitem]
    exact ⟨by decide, by decide⟩
  events_valid := by
    intro e he
    rw [List.mem_singleton.mp he]
    exact ⟨⟨by decide, by decide⟩, by decide, by decide⟩

/-- It is written to a new log. -/
theorem ingest_all_or_nothing_sample :
    ∃ log', (Server.EventBatch.sample.write .ternary).run
        ⟨⟨.fin Binary64.half, 4, 2, 1, true⟩,
          .python (Sketchlog.StreamLog.emptyOf Facade.StreamLog.halfShape true)⟩
          = .ok () log'
      ∧ log'.totalEvents = 2 := by
  have hlog := Facade.StreamLog.Reachable.new (M := .ternary) _ (Facade.StreamLog.new_half true)
  have hpre : Server.EventBatch.sample.preflight 0 = .ok () := rfl
  obtain ⟨S, c, hvalid, ⟨log', hrun, -, htotal⟩ | ⟨hnot, -⟩⟩ := ingest_all_or_nothing hlog hpre
  · exact ⟨log', hrun, htotal⟩
  · refine absurd ⟨fun v hv => absurd hv List.not_mem_nil, ?_⟩ hnot
    show (c.latency + 0).Fits
    rw [add_zero]
    exact hvalid.fits.latency

end Sketchlog
