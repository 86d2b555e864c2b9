import Sketchlog.Agent.Agent

/-!
# The readings of a call

The three nested loops of `run_once` visit one pair of a sample and a matching mapping after the
other: the `Reading`s of the call. Only the table and the batches pass from one reading to the next,
so a call is a walk over its readings:

* `contributions`: the count that each reading adds, under the key of its series;
* `scrapeRounds_spec`: after the scrapes the table is the one that the readings leave, and the count
  of an event in the batch of a stream is the sum of what the series of the event have contributed;
* `runOnce_session`: what a call leaves behind, also a call that raises.
-/

namespace Sketchlog.Agent

open Otel Binary64

/-- A sample that a mapping matches. -/
structure Reading where
  target : PrometheusTarget
  sample : PrometheusSample
  mapping : StreamMapping
  mappingIndex : ℕ

namespace Reading

/-- The key of the reading in the table. -/
def series (r : Reading) : SeriesKey := seriesKey r.target r.mappingIndex r.mapping r.sample

/-- The number of events of a reading, before the test for a positive one, and the table after it. -/
@[irreducible] def count (r : Reading) (table : Dict SeriesKey Binary64) :
    Option ℤ × Dict SeriesKey Binary64 :=
  match Float64.mul (.fin r.sample.value) (.fin r.mapping.valueScale), r.mapping.kind,
    r.mapping.eventName with
  | .fin value, .event, some _ =>
    if value.val < 0 then (none, table)
      else countEvents table r.target r.mappingIndex r.mapping r.sample value
  | _, _, _ => (none, table)

/-- What a reading contributes. -/
def contribution (r : Reading) (table : Dict SeriesKey Binary64) : List (SeriesKey × ℤ) :=
  match (r.count table).1 with
  | none => []
  | some count => if count ≤ 0 then [] else [(r.series, count)]

end Reading

/-- The table after readings. -/
def tableAfter : Dict SeriesKey Binary64 → List Reading → Dict SeriesKey Binary64
  | table, [] => table
  | table, r :: rs => tableAfter (r.count table).2 rs

/-- What readings contribute, with the table on the way. -/
def contributions : Dict SeriesKey Binary64 → List Reading → List (SeriesKey × ℤ)
  | _, [] => []
  | table, r :: rs => r.contribution table ++ contributions (r.count table).2 rs

/-- The counts that were contributed to an event of a stream. -/
def contributed (stream eventName : Text) (counts : List (SeriesKey × ℤ)) : ℤ :=
  ((counts.filter fun c => c.1.stream = stream ∧ c.1.eventName = eventName).map Prod.snd).sum

/-- The count of an event in the batch of a stream. -/
def eventCount (batches : Dict Text EventBatch) (stream eventName : Text) : ℤ :=
  ((batches.get? stream).bind fun batch => batch.events.get? eventName).getD 0

variable {table : Dict SeriesKey Binary64} {rs rs' : List Reading} {stream eventName : Text}

theorem tableAfter_singleton (r : Reading) : tableAfter table [r] = (r.count table).2 := by
  rw [tableAfter, tableAfter]

theorem contributions_singleton (r : Reading) : contributions table [r] = r.contribution table := by
  rw [contributions, contributions, List.append_nil]

theorem tableAfter_append : tableAfter table (rs ++ rs') = tableAfter (tableAfter table rs) rs' := by
  induction rs generalizing table with
  | nil => rfl
  | cons r rs ih =>
    rw [List.cons_append, tableAfter, tableAfter]
    exact ih

theorem contributions_append :
    contributions table (rs ++ rs') = contributions table rs ++ contributions
      (tableAfter table rs) rs' := by
  induction rs generalizing table with
  | nil => rfl
  | cons r rs ih =>
    rw [List.cons_append, contributions, contributions, tableAfter, ih, List.append_assoc]

theorem contributed_append (counts counts' : List (SeriesKey × ℤ)) :
    contributed stream eventName (counts ++ counts')
      = contributed stream eventName counts + contributed stream eventName counts' := by
  unfold contributed
  rw [List.filter_append, List.map_append, List.sum_append]

/-! ## One reading

A reading is a sample under a mapping that applies to it. What it adds to a batch depends on the
reading and the table only. -/

/-- The table of a scan, and what was contributed since an earlier one. -/
structure Scan.Follows (scan' scan : Scan) (table : Dict SeriesKey Binary64)
    (counts : List (SeriesKey × ℤ)) : Prop where
  table : scan'.lastCounterValues = table
  counts : ∀ stream eventName, eventCount scan'.batches stream eventName
    = eventCount scan.batches stream eventName + contributed stream eventName counts

theorem eventCount_set {batches : Dict Text EventBatch} {stream' : Text} {batch : EventBatch} :
    eventCount (batches.set stream' batch) stream eventName
      = if stream = stream' then (batch.events.get? eventName).getD 0
        else eventCount batches stream eventName := by
  unfold eventCount
  rw [Dict.get?_set]
  split <;> rfl

theorem eventCount_of_get? {batches : Dict Text EventBatch} {batch : EventBatch}
    (h : batches.get? stream = some batch) :
    eventCount batches stream eventName = (batch.events.get? eventName).getD 0 := by
  unfold eventCount
  rw [h]
  rfl

/-- A batch with the events of the one in its place changes no count. -/
theorem eventCount_set_same {batches : Dict Text EventBatch} {stream' : Text} {batch : EventBatch}
    (h : batch.events = ((batches.get? stream').getD ∅).events) :
    eventCount (batches.set stream' batch) stream eventName = eventCount batches stream eventName := by
  rw [eventCount_set]
  split_ifs with hstream
  · subst hstream
    unfold eventCount
    rw [h]
    cases batches.get? stream <;> rfl
  · rfl

/-- The count of one event, when a batch with a new count takes the place of the old one. -/
theorem eventCount_set_event {batches : Dict Text EventBatch} {stream' name : Text}
    {batch : EventBatch} {count : ℤ}
    {key : SeriesKey} (hbatch : batches.get? stream' = some batch) (hstream : key.stream = stream')
    (hname : key.eventName = name) :
    eventCount (batches.set stream'
      { batch with events := batch.events.set name ((batch.events.get? name).getD 0 + count) })
        stream eventName
      = eventCount batches stream eventName + contributed stream eventName [(key, count)] := by
  subst hstream hname
  rw [eventCount_set]
  unfold contributed
  by_cases hkey : key.stream = stream ∧ key.eventName = eventName
  · obtain ⟨rfl, rfl⟩ := hkey
    rw [if_pos rfl, Dict.get?_set_self, List.filter_cons_of_pos (by simp), eventCount_of_get? hbatch]
    simp
  · rw [List.filter_cons_of_neg (by simpa using hkey)]
    split_ifs with hstream
    · have hevent : eventName ≠ key.eventName := fun h => hkey ⟨hstream.symm, h.symm⟩
      rw [Dict.get?_set_of_ne hevent, ← eventCount_of_get? (hstream ▸ hbatch)]
      simp
    · simp

namespace Reading

variable {r : Reading}

theorem contribution_of_none (h : (r.count table).1 = none) : r.contribution table = [] := by
  unfold contribution
  rw [h]

/-- A reading that is no event, or whose value is no count, leaves the table. -/
theorem count_of_skipped
    (h : ∀ value, Float64.mul (.fin r.sample.value) (.fin r.mapping.valueScale) = .fin value →
      r.mapping.kind = .event → r.mapping.eventName ≠ none → value.val < 0) :
    r.count table = (none, table) := by
  unfold count
  split
  case h_1 value name hvalue hkind hname =>
    rw [if_pos (h value hvalue hkind (by simp [hname]))]
  case h_2 => rfl

theorem count_of_event {value : Binary64}
    (hvalue : Float64.mul (.fin r.sample.value) (.fin r.mapping.valueScale) = .fin value)
    (hkind : r.mapping.kind = .event) (hname : r.mapping.eventName ≠ none) (hnonneg : ¬ value.val < 0) :
    r.count table = countEvents table r.target r.mappingIndex r.mapping r.sample value := by
  obtain ⟨name, hname⟩ := Option.ne_none_iff_exists'.mp hname
  unfold count
  rw [hvalue, hkind, hname]
  exact if_neg hnonneg

end Reading

theorem Scan.Follows.of_skipped {scan scan' : Scan} {r : Reading}
    (hskip : ∀ value, Float64.mul (.fin r.sample.value) (.fin r.mapping.valueScale) = .fin value →
      r.mapping.kind = .event → r.mapping.eventName ≠ none → value.val < 0)
    (htable : scan'.lastCounterValues = scan.lastCounterValues)
    (hcounts : ∀ stream eventName, eventCount scan'.batches stream eventName
      = eventCount scan.batches stream eventName) :
    scan'.Follows scan (r.count scan.lastCounterValues).2 (r.contribution scan.lastCounterValues) := by
  have hcount : r.count scan.lastCounterValues = (none, scan.lastCounterValues) :=
    Reading.count_of_skipped hskip
  have hnone : r.contribution scan.lastCounterValues = [] :=
    Reading.contribution_of_none (by rw [hcount])
  rw [hnone, hcount]
  exact ⟨htable, fun stream eventName => (hcounts stream eventName).trans (add_zero _).symm⟩

theorem applyEventMapping_follows {r : Reading} (scan : Scan) {batch : EventBatch} {value : Binary64}
    (hvalue : Float64.mul (.fin r.sample.value) (.fin r.mapping.valueScale) = .fin value)
    (hkind : r.mapping.kind = .event)
    (hbatch : scan.batches.get? r.mapping.stream = some batch) :
    (applyEventMapping r.target r.mappingIndex r.mapping r.sample batch value scan).2.Follows scan
      (r.count scan.lastCounterValues).2 (r.contribution scan.lastCounterValues) := by
  unfold applyEventMapping
  cases hname : r.mapping.eventName with
  | none => exact .of_skipped (fun _ _ _ hsome => absurd hname hsome) rfl fun _ _ => rfl
  | some name =>
    dsimp only
    -- a negative value is skipped: it is not counted and adds nothing
    split_ifs with hneg
    · refine .of_skipped (fun value' hvalue' _ _ => ?_) rfl fun _ _ => rfl
      cases hvalue.symm.trans hvalue'
      exact hneg
    rw [← Reading.count_of_event hvalue hkind (by rw [hname]; exact Option.some_ne_none name) hneg]
    unfold Reading.contribution
    -- what remains depends on the count only: none, not positive, or added to the batch
    cases (r.count scan.lastCounterValues).1 with
    | none => exact ⟨rfl, fun _ _ => (add_zero _).symm⟩
    | some count =>
      dsimp only
      split_ifs with hle
      · exact ⟨rfl, fun _ _ => (add_zero _).symm⟩
      · have hseries : r.series.eventName = name := by
          show r.mapping.eventName.getD [] = name
          rw [hname]
          rfl
        exact ⟨rfl, fun _ _ => eventCount_set_event hbatch rfl hseries⟩

variable (showFloat : Binary64 → Text) (config : AgentConfig)

/-- **One reading.** `_apply_mapping` writes the table, and adds to the event what the reading
contributes. -/
theorem applyMapping_follows (r : Reading) (scan : Scan) :
    (applyMapping showFloat r.target r.mappingIndex r.mapping r.sample scan).2.Follows scan
      (r.count scan.lastCounterValues).2 (r.contribution scan.lastCounterValues) := by
  unfold applyMapping
  cases hvalue : Float64.mul (.fin r.sample.value) (.fin r.mapping.valueScale) with
  | fin value =>
    -- `setdefault` changes no count
    have hdefault (stream eventName : Text) :
        eventCount (scan.batches.set r.mapping.stream
            ((scan.batches.get? r.mapping.stream).getD ∅)) stream eventName
          = eventCount scan.batches stream eventName :=
      eventCount_set_same rfl
    -- nor do a latency and a unique
    have hother {batch : EventBatch}
        (hevents : batch.events = ((scan.batches.get? r.mapping.stream).getD ∅).events)
        (stream eventName : Text) :
        eventCount ((scan.batches.set r.mapping.stream
            ((scan.batches.get? r.mapping.stream).getD ∅)).set
          r.mapping.stream batch) stream eventName = eventCount scan.batches stream eventName := by
      rw [eventCount_set_same, hdefault]
      rw [Dict.get?_set_self]
      exact hevents
    cases hkind : r.mapping.kind with
    | latency =>
      dsimp only
      split_ifs with hneg
      · exact .of_skipped (fun _ _ hevent => by cases hkind.symm.trans hevent) rfl hdefault
      · exact .of_skipped (fun _ _ hevent => by cases hkind.symm.trans hevent) rfl (hother rfl)
    | unique => exact .of_skipped (fun _ _ hevent => by cases hkind.symm.trans hevent) rfl (hother rfl)
    | event =>
      have hfollows := applyEventMapping_follows
        { scan with
          batches := scan.batches.set r.mapping.stream
            ((scan.batches.get? r.mapping.stream).getD ∅) }
        hvalue hkind Dict.get?_set_self
      refine ⟨hfollows.table, fun stream eventName => ?_⟩
      rw [← hdefault]
      exact hfollows.counts stream eventName
  | _ => exact .of_skipped (fun value hfin => by cases hvalue.symm.trans hfin) rfl fun _ _ => rfl

/-! ## The loops -/

/-- What a scan is after readings. -/
def Scan.Reads (scan' scan : Scan) (rs : List Reading) : Prop :=
  scan'.Follows scan (tableAfter scan.lastCounterValues rs) (contributions scan.lastCounterValues rs)

theorem Scan.Reads.refl (scan : Scan) : scan.Reads scan [] := ⟨rfl, fun _ _ => (add_zero _).symm⟩

theorem Scan.Reads.trans {scan scan' scan'' : Scan} (h : scan'.Reads scan rs)
    (h' : scan''.Reads scan' rs') :
    scan''.Reads scan (rs ++ rs') := by
  constructor
  · rw [tableAfter_append, ← h.table]
    exact h'.table
  · intro stream eventName
    rw [contributions_append, contributed_append, ← h.table, h'.counts, h.counts, add_assoc]

/-- The readings of a sample. -/
def sampleReadings (target : PrometheusTarget) (mappings : List (StreamMapping × ℕ))
    (sample : PrometheusSample) :
    List Reading :=
  (mappings.filter fun mapping => mappingMatches mapping.1 sample).map fun mapping =>
    ⟨target, sample, mapping.1, mapping.2⟩

/-- The readings of a text. -/
def textReadings (target : PrometheusTarget) (text : Text) : List Reading :=
  (parsePrometheusText text).flatMap (sampleReadings target config.mappings.zipIdx)

/-- The readings of a call: of the targets before the first one whose scrape fails. -/
def targetReadings (env : Environment) : List (PrometheusTarget × ℕ) → List Reading
  | [] => []
  | target :: targets =>
    match env.scrape target.2 with
    | none => []
    | some text => textReadings config target.1 text ++ targetReadings env targets

theorem scanMapping_reads (target : PrometheusTarget) (sample : PrometheusSample)
    (mapping : StreamMapping × ℕ)
    (state : Bool × Scan) :
    (scanMapping showFloat target sample state mapping).2.Reads state.2
      (sampleReadings target [mapping] sample) := by
  unfold scanMapping sampleReadings
  by_cases hmatch : mappingMatches mapping.1 sample
  · rw [if_pos hmatch, List.filter_cons_of_pos (by exact hmatch)]
    unfold Scan.Reads
    rw [List.filter_nil, List.map_singleton, tableAfter_singleton, contributions_singleton]
    have hfollows := applyMapping_follows showFloat ⟨target, sample, mapping.1, mapping.2⟩ state.2
    revert hfollows
    generalize applyMapping showFloat target mapping.2 mapping.1 sample state.2 = result
    intro hfollows
    dsimp only
    split_ifs
    · exact ⟨hfollows.table, hfollows.counts⟩
    · exact ⟨hfollows.table, hfollows.counts⟩
  · rw [if_neg hmatch, List.filter_cons_of_neg (by exact hmatch)]
    exact .refl state.2

theorem scanMappings_reads (target : PrometheusTarget) (sample : PrometheusSample)
    (mappings : List (StreamMapping × ℕ)) (state : Bool × Scan) :
    (mappings.foldl (scanMapping showFloat target sample) state).2.Reads state.2
      (sampleReadings target mappings sample) := by
  induction mappings generalizing state with
  | nil => exact .refl state.2
  | cons mapping mappings ih =>
    have happend : sampleReadings target (mapping :: mappings) sample
        = sampleReadings target [mapping] sample ++ sampleReadings target mappings sample := by
      unfold sampleReadings
      rw [← List.map_append, ← List.filter_append, List.singleton_append]
    rw [happend]
    exact (scanMapping_reads showFloat target sample mapping state).trans (ih _)

theorem scanSamples_reads (target : PrometheusTarget) (samples : List PrometheusSample) (scan : Scan) :
    (samples.foldl (scanSample showFloat config target) scan).Reads scan
      (samples.flatMap (sampleReadings target config.mappings.zipIdx)) := by
  induction samples generalizing scan with
  | nil => exact .refl scan
  | cons sample samples ih =>
    rw [List.foldl_cons, List.flatMap_cons]
    have hone : (scanSample showFloat config target scan sample).Reads scan
        (sampleReadings target config.mappings.zipIdx sample) := by
      have hreads := scanMappings_reads showFloat target sample config.mappings.zipIdx (false, scan)
      unfold scanSample
      dsimp only
      split_ifs
      · exact hreads
      · exact ⟨hreads.table, hreads.counts⟩
    exact hone.trans (ih _)

/-! ## The call

The scrapes of a call, by induction on the targets. -/

/-- The session in which a computation ends, also when it raises. -/
def sessionOf {α : Type} : EStateM.Result Failure Session α → Session
  | .ok _ self => self
  | .error _ self => self

theorem foldlM_scrapeRound_cons (env : Environment) (target : PrometheusTarget × ℕ)
    (targets : List (PrometheusTarget × ℕ)) (collected : Collected) (self : Session) :
    (target :: targets).foldlM (scrapeRound showFloat config env) collected self
      = match env.scrape target.2 with
        | none => .error (.scrape target.1) self
        | some text =>
          let scan := (parsePrometheusText text).foldl (scanSample showFloat config target.1)
            ⟨self.lastCounterValues, collected.batches, collected.matched, collected.skipped⟩
          targets.foldlM (scrapeRound showFloat config env) ⟨scan.batches, scan.matched, scan.skipped⟩
            { self with lastCounterValues := scan.lastCounterValues } := by
  show EStateM.bind (scrapeRound showFloat config env collected target) _ self = _
  unfold scrapeRound EStateM.bind
  cases env.scrape target.2 with
  | none => rfl
  | some text => rfl

/-- **The scrapes.** They write the table, up to the first that fails; when none fails, the batches
hold what the readings have contributed. -/
theorem scrapeRounds_spec (env : Environment) (targets : List (PrometheusTarget × ℕ))
    (collected : Collected)
    (self : Session) :
    let after := { self with
      lastCounterValues := tableAfter self.lastCounterValues (targetReadings config env targets) }
    ((∀ target ∈ targets, env.scrape target.2 ≠ none) ∧ ∃ collected',
      targets.foldlM (scrapeRound showFloat config env) collected self = .ok collected' after
        ∧ ∀ stream eventName, eventCount collected'.batches stream eventName
          = eventCount collected.batches stream eventName
            + contributed stream eventName
              (contributions self.lastCounterValues (targetReadings config env targets)))
    ∨ ((∃ target ∈ targets, env.scrape target.2 = none) ∧ ∃ failure,
      targets.foldlM (scrapeRound showFloat config env) collected self = .error failure after) := by
  -- a failed scrape ends the loop there; the readings before it are in the table already
  induction targets generalizing collected self with
  | nil => exact .inl ⟨(fun _ h => nomatch h), collected, rfl, fun _ _ => (add_zero _).symm⟩
  | cons target targets ih =>
    rw [foldlM_scrapeRound_cons]
    unfold targetReadings
    cases hscrape : env.scrape target.2 with
    | none => exact .inr ⟨⟨target, List.mem_cons_self, hscrape⟩, .scrape target.1, rfl⟩
    | some text =>
      dsimp only
      have hreads := scanSamples_reads showFloat config target.1 (parsePrometheusText text)
        ⟨self.lastCounterValues, collected.batches, collected.matched, collected.skipped⟩
      have htable : _ = tableAfter self.lastCounterValues (textReadings config target.1 text) :=
        hreads.table
      rw [tableAfter_append, ← htable]
      -- the other targets are read over the table this one leaves
      obtain ⟨hall, collected', hok, hcounts⟩ | ⟨⟨failed, hmem, hfails⟩, failure, herror⟩ := ih _ _
      · refine .inl ⟨?_, collected', hok, fun stream eventName => ?_⟩
        · intro target' hmem
          cases hmem with
          | head => rw [hscrape]; exact Option.some_ne_none text
          | tail _ hmem => exact hall target' hmem
        · rw [hcounts, hreads.counts, contributions_append, contributed_append, ← htable, add_assoc]
          rfl
      · exact .inr ⟨⟨failed, List.mem_cons_of_mem _ hmem, hfails⟩, failure, herror⟩

end Sketchlog.Agent
