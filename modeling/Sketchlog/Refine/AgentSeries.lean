import Sketchlog.Lib.Runs
import Sketchlog.Refine.AgentPosts

/-!
# A series over calls

A series of a mapping in `delta` mode is a sequence of values, each scaled. A reading contributes
the integer nearest to what its value has gained since the one before it.

* `share_contributions_scaled`: what a series contributes in a call is the sum of its gains, and the
  table keeps its last value;
* `delivered_eq`: a call delivers the share of the series when the POST with its event is reached,
  and nothing otherwise;
* `deliveredOver_of_returns`: calls that return deliver all gains.
-/

namespace Sketchlog.Agent

open Otel Binary64

variable (showFloat : Binary64 → Text) (config : AgentConfig) (key : SeriesKey)

/-! ## A series -/

/-- A mapping for the deltas of events. -/
structure StreamMapping.CountsDeltas (mapping : StreamMapping) : Prop where
  event : mapping.kind = .event
  delta : mapping.counterMode = .delta
  named : mapping.eventName ≠ none

/-- The value of a reading that `_apply_event_mapping` counts with. -/
def Reading.scaledValue (r : Reading) : Option Binary64 :=
  match Float64.mul (.fin r.sample.value) (.fin r.mapping.valueScale) with
  | .fin value => if value.val < 0 then none else some value
  | _ => none

/-- The scaled values of a series among readings. -/
def scaled (rs : List Reading) : List Binary64 :=
  rs.filterMap fun r => if r.series = key then r.scaledValue else none

/-- The readings of a call. -/
def callReadings (env : Environment) : List Reading :=
  targetReadings config env config.prometheusTargets.zipIdx

/-- The scaled values of a series in a run of calls. -/
def scaledOver (envs : List Environment) : List Binary64 :=
  envs.flatMap fun env => scaled key (callReadings config env)

/-- The count that a reading adds after another one. -/
def gain (previous value : Binary64) : ℤ := max 0 (intRound (positiveDelta value previous))

/-- The counts that values add one after the other. -/
def gains : List Binary64 → ℤ
  | previous :: value :: values => gain previous value + gains (value :: values)
  | _ => 0

variable {values values' : List Binary64}

theorem gains_append (values values' : List Binary64) :
    gains (values ++ values') = gains values + gains (values.getLast?.toList ++ values') := by
  fun_induction gains values with
  | case1 previous value values ih =>
    show gain previous value + gains (value :: values ++ values') = _
    rw [ih, List.getLast?_cons_cons, add_assoc]
  | case2 values hshort =>
    cases values with
    | nil => exact (zero_add _).symm
    | cons previous values =>
      cases values with
      | nil => exact (zero_add _).symm
      | cons value values => exact absurd rfl (hshort previous value values)

theorem gains_nonneg (values : List Binary64) : 0 ≤ gains values := by
  fun_induction gains values with
  | case1 previous value values ih => exact add_nonneg (le_max_left 0 _) ih
  | case2 => exact le_refl 0

/-! ## What a series contributes

Over the readings of a call, a series contributes the gains from the value in the table on. -/

/-- The part of a series in what is contributed. -/
def share (counts : List (SeriesKey × ℤ)) : ℤ := ((counts.filter fun c => c.1 = key).map Prod.snd).sum

variable {key config showFloat} {rs : List Reading} {table : Dict SeriesKey Binary64}

/-- A reading counts from the value in the table, and leaves its own there. -/
theorem Reading.count_of_delta {r : Reading} (hdelta : r.mapping.CountsDeltas) :
    r.count table = match r.scaledValue with
      | some value =>
          ((table.get? r.series).map fun previous => intRound (positiveDelta value previous),
          table.set r.series value)
      | none => (none, table) := by
  unfold scaledValue
  cases hvalue : Float64.mul (.fin r.sample.value) (.fin r.mapping.valueScale) with
  | fin value =>
    by_cases hneg : value.val < 0
    · have hskip : r.count table = (none, table) :=
        Reading.count_of_skipped fun value' hvalue' _ _ => by
        cases hvalue.symm.trans hvalue'
        exact hneg
      dsimp only
      rw [hskip, if_pos hneg]
    · dsimp only
      rw [Reading.count_of_event hvalue hdelta.event hdelta.named hneg, if_neg hneg]
      unfold countEvents
      rw [hdelta.delta]
      rfl
  | _ => exact Reading.count_of_skipped fun value' hvalue' _ _ => nomatch hvalue.symm.trans hvalue'

/-- A reading writes the table at no other key than its own. -/
theorem Reading.get?_count {r : Reading} (hne : key ≠ r.series) :
    (r.count table).2.get? key = table.get? key := by
  unfold Reading.count
  split
  · split_ifs
    · rfl
    · unfold countEvents
      cases r.mapping.counterMode with
      | absolute => rfl
      | delta => exact Dict.get?_set_of_ne hne
  · rfl

theorem share_append (counts counts' : List (SeriesKey × ℤ)) :
    share key (counts ++ counts') = share key counts + share key counts' := by
  unfold share
  rw [List.filter_append, List.map_append, List.sum_append]

/-- The contribution of a reading of another series. -/
theorem share_of_ne {r : Reading} (hne : key ≠ r.series) : share key (r.contribution table) = 0 := by
  unfold Reading.contribution
  split
  · rfl
  · split_ifs
    · rfl
    · unfold share
      rw [List.filter_cons_of_neg (by simpa using Ne.symm hne)]
      rfl

variable (table) in
theorem share_of_delta {r : Reading} (hdelta : r.mapping.CountsDeltas) :
    share r.series (r.contribution table) = gains ((table.get? r.series).toList ++ r.scaledValue.toList)
      ∧ (r.count table).2.get? r.series
        = ((table.get? r.series).toList ++ r.scaledValue.toList).getLast? := by
  unfold Reading.contribution
  rw [Reading.count_of_delta hdelta]
  -- a reading without a value leaves the table; the first value of a series counts nothing
  cases r.scaledValue with
  | none =>
    cases table.get? r.series with
    | none => exact ⟨rfl, rfl⟩
    | some previous => exact ⟨rfl, rfl⟩
  | some value =>
    refine ⟨?_, Dict.get?_set_self.trans List.getLast?_concat.symm⟩
    cases table.get? r.series with
    | none => rfl
    | some previous =>
      show share r.series (if intRound (positiveDelta value previous) ≤ 0 then []
          else [(r.series, intRound (positiveDelta value previous))])
        = max 0 (intRound (positiveDelta value previous)) + 0
      -- a count that is not positive is not added, so its share is the maximum with zero
      generalize intRound (positiveDelta value previous) = count
      unfold share
      split_ifs with hle
      · rw [max_eq_left hle]
        rfl
      · rw [max_eq_right (by omega), List.filter_cons_of_pos (by simp), List.filter_nil,
          List.map_singleton,
          List.sum_singleton, add_zero]

/-- **A series in a call.** It contributes its gains, and the table keeps its last value. The
induction is on the readings, and the last value so far is the first of the rest. -/
theorem share_contributions_scaled (table : Dict SeriesKey Binary64)
    (hdelta : ∀ r ∈ rs, r.series = key → r.mapping.CountsDeltas) :
    share key (contributions table rs) = gains ((table.get? key).toList ++ scaled key rs)
      ∧ (tableAfter table rs).get? key = ((table.get? key).toList ++ scaled key rs).getLast? := by
  -- the table after the first reading holds the last value seen, which the rest starts from
  induction rs generalizing table with
  | nil =>
    show (0 : ℤ) = gains ((table.get? key).toList ++ []) ∧ table.get? key
      = ((table.get? key).toList ++ []).getLast?
    cases table.get? key with
    | none => exact ⟨rfl, rfl⟩
    | some previous => exact ⟨rfl, rfl⟩
  | cons r rs ih =>
    obtain ⟨hshare, htable⟩ := ih (r.count table).2 fun r' hr' => hdelta r' (List.mem_cons_of_mem _ hr')
    rw [contributions, tableAfter, share_append]
    -- only readings of the series enter
    by_cases hkey : r.series = key
    · have hscaled : scaled key (r :: rs) = r.scaledValue.toList ++ scaled key rs := by
        unfold scaled
        rw [List.filterMap_cons, if_pos hkey]
        cases r.scaledValue <;> rfl
      obtain ⟨hone, hlast⟩ := share_of_delta table (hdelta r List.mem_cons_self hkey)
      rw [hkey] at hone hlast
      rw [hlast] at hshare htable
      rw [hscaled, ← List.append_assoc]
      constructor
      · rw [hone, hshare, gains_append (_ ++ _) (scaled key rs)]
      · rw [htable]
        generalize (table.get? key).toList ++ r.scaledValue.toList = seen
        rw [List.getLast?_append, List.getLast?_append]
        cases seen.getLast? <;> rfl
    · have hscaled : scaled key (r :: rs) = scaled key rs := List.filterMap_cons_none (if_neg hkey)
      rw [Reading.get?_count (Ne.symm hkey)] at hshare htable
      rw [hscaled, share_of_ne (Ne.symm hkey), zero_add]
      exact ⟨hshare, htable⟩

/-! ## A call

What a call delivers of a series: its share, if the post that carries it was applied. -/

theorem getElem?_of_mem {env : Environment} {r : Reading} (hr : r ∈ callReadings config env) :
    config.mappings[r.mappingIndex]? = some r.mapping := by
  unfold callReadings at hr
  revert hr
  induction config.prometheusTargets.zipIdx with
  | nil => exact fun hr => absurd hr List.not_mem_nil
  | cons target targets ih =>
    unfold targetReadings
    cases env.scrape target.2 with
    | none => exact fun hr => absurd hr List.not_mem_nil
    | some text =>
      intro hr
      cases List.mem_append.mp hr with
      | inr hr => exact ih hr
      | inl hr =>
        obtain ⟨sample, -, hsample⟩ := List.mem_flatMap.mp hr
        obtain ⟨mapping, hmapping, rfl⟩ := List.mem_map.mp hsample
        exact List.mem_zipIdx_iff_getElem?.mp (List.mem_filter.mp hmapping).1

variable (showFloat config key)

/-- The session after a call. -/
def nextSession (self : Session) (env : Environment) : Session :=
  sessionOf (runOnce showFloat config env self)

/-- The batches that a call collects. -/
def collectedBatches (self : Session) (env : Environment) : Dict Text EventBatch :=
  match config.prometheusTargets.zipIdx.foldlM (scrapeRound showFloat config env) ⟨∅, 0, 0⟩ self with
  | .ok collected _ => collected.batches
  | .error _ _ => ∅

/-- What a call delivers for a series: its share, with every POST that the server applies and that
carries the event. -/
def delivered (self : Session) (env : Environment) : ℤ :=
  ((nextSession showFloat config self env).applied.drop self.applied.length).countP
    (carries key.stream key.eventName)
    * share key (contributions self.lastCounterValues (callReadings config env))

/-- No scrape of the call fails, and no POST up to the one with the event of the series. -/
def Delivers (self : Session) (env : Environment) : Prop :=
  (∀ target ∈ config.prometheusTargets.zipIdx, env.scrape target.2 ≠ none)
    ∧ ∃ post, carries key.stream key.eventName post
      ∧ Reached env (posts config (collectedBatches showFloat config self env)).zipIdx post

variable {showFloat config key}

theorem nextSession_lastCounterValues (self : Session) (env : Environment) :
    (nextSession showFloat config self env).lastCounterValues
      = tableAfter self.lastCounterValues (callReadings config env) := by
  unfold nextSession
  obtain ⟨_, _, _, _, hsession⟩ | ⟨_, _, _, hsession⟩ := sessionOf_runOnce config env showFloat self
  · rw [hsession]
    rfl
  · rw [hsession]
    rfl

/-- The number that a POST carries for an event is what the series of the event have contributed in
the call. -/
theorem count_of_post {self : Session} {env : Environment} {post : Text × EventBatch}
    {eventName : Text} {count : ℤ}
    (hpost : post ∈ posts config (collectedBatches showFloat config self env))
    (hcount : post.2.events.get? eventName = some count) :
    count = contributed post.1 eventName
      (contributions self.lastCounterValues (callReadings config env)) := by
  rw [← eventCount_of_mem_posts hpost hcount]
  unfold collectedBatches at hpost ⊢
  obtain ⟨_, collected, hok, hcounts, _⟩ | ⟨_, failure, herror, _⟩ :=
    sessionOf_runOnce config env showFloat self
  · rw [hok]
    exact hcounts post.1 eventName
  · rw [herror] at hpost
    exact absurd hpost List.not_mem_nil

variable (showFloat config key) in
/-- **What a call delivers.** The share of the series when its POST is reached, and nothing
otherwise. -/
theorem delivered_eq (self : Session) (env : Environment) :
    (Delivers showFloat config key self env → delivered showFloat config key self env
      = share key (contributions self.lastCounterValues (callReadings config env)))
    ∧ (¬ Delivers showFloat config key self env → delivered showFloat config key self env = 0) := by
  obtain ⟨hall, collected, hok, -, hsession⟩ | ⟨⟨target, hmem, hfails⟩, failure, -, hsession⟩ :=
    sessionOf_runOnce config env showFloat self
  · have hbatches : collectedBatches showFloat config self env = collected.batches := by
      unfold collectedBatches
      rw [hok]
    have happlied : (nextSession showFloat config self env).applied.drop self.applied.length
        = appliedPosts env (posts config collected.batches).zipIdx := by
      unfold nextSession
      rw [hsession]
      exact List.drop_left
    unfold delivered
    rw [happlied]
    constructor
    · -- one POST of the call carries the event
      intro ⟨_, post, hcarries, hreached⟩
      rw [hbatches, ← mem_appliedPosts] at hreached
      have hpos := List.countP_pos_iff.mpr ⟨post, hreached, hcarries⟩
      have hsublist := sublist_appliedPosts env (posts config collected.batches).zipIdx
      rw [List.zipIdx_map_fst] at hsublist
      have hle : (appliedPosts env (posts config collected.batches).zipIdx).countP
        (carries key.stream key.eventName) ≤ 1 :=
        hsublist.countP_le.trans countP_posts_le
      rw [le_antisymm hle hpos]
      exact one_mul _
    · intro hdelivers
      have hnone : (appliedPosts env (posts config collected.batches).zipIdx).countP
        (carries key.stream key.eventName) = 0 := by
        refine List.countP_eq_zero.mpr fun post hpost hcarries => hdelivers ⟨hall, post, hcarries, ?_⟩
        rw [hbatches]
        exact (mem_appliedPosts env).mp hpost
      rw [hnone]
      exact zero_mul _
  · refine ⟨fun hdelivers => absurd hfails (hdelivers.1 target hmem), fun _ => ?_⟩
    unfold delivered nextSession
    rw [hsession]
    dsimp only
    rw [List.drop_length]
    exact zero_mul _

/-- What a series contributes is part of what is contributed to its event. -/
theorem share_le_contributed (rs : List Reading) (table : Dict SeriesKey Binary64) :
    share key (contributions table rs) ≤ contributed key.stream key.eventName
      (contributions table rs) := by
  induction rs generalizing table with
  | nil => exact le_refl 0
  | cons r rs ih =>
    rw [contributions, share_append, contributed_append]
    refine add_le_add ?_ (ih _)
    unfold Reading.contribution
    split
    · exact le_refl 0
    · split_ifs with hle
      · exact le_refl 0
      · unfold share contributed
        by_cases hkey : r.series = key
        · subst hkey
          rw [List.filter_cons_of_pos (by simp), List.filter_cons_of_pos (by simp), List.filter_nil,
            List.filter_nil]
        · rw [List.filter_cons_of_neg (by simpa using hkey), List.filter_cons]
          split
          · simpa using le_of_lt (not_le.mp hle)
          · simp

theorem send_ok_of_forM {env : Environment} (ps : List ((Text × EventBatch) × ℕ)) {self self' : Session}
    (h : ps.forM (sendBatch env) self = .ok () self') : ∀ post ∈ ps, env.send post.2 = .ok := by
  induction ps generalizing self with
  | nil => exact fun post hpost => absurd hpost List.not_mem_nil
  | cons first rest ih =>
    change EStateM.bind (sendBatch env first) (fun _ => rest.forM (sendBatch env)) self
      = .ok () self' at h
    unfold EStateM.bind sendBatch at h
    cases hsend : env.send first.2 with
    | ok =>
      rw [hsend] at h
      exact List.forall_mem_cons.mpr ⟨hsend, ih h⟩
    | lost =>
      rw [hsend] at h
      cases h
    | refused =>
      rw [hsend] at h
      cases h

variable (showFloat config key) in
/-- The call returns. -/
def Returns (self : Session) (env : Environment) : Prop :=
  ∃ stats self', runOnce showFloat config env self = .ok stats self'

/-- A call that returns has scraped every target, and every POST of it was answered. -/
theorem Returns.posted {self : Session} {env : Environment} (h : Returns showFloat config self env) :
    (∀ target ∈ config.prometheusTargets.zipIdx, env.scrape target.2 ≠ none)
      ∧ ∀ post ∈ (posts config (collectedBatches showFloat config self env)).zipIdx, env.send post.2
        = .ok := by
  obtain ⟨stats, self', hrun⟩ := h
  change EStateM.bind _ _ self = _ at hrun
  unfold EStateM.bind at hrun
  -- a round that returns has scraped every target
  obtain ⟨hscrapes, collected, hok, -, -⟩ | ⟨-, failure, herror, -⟩ :=
    sessionOf_runOnce config env showFloat self
  · refine ⟨hscrapes, ?_⟩
    unfold collectedBatches
    rw [hok] at hrun ⊢
    change EStateM.bind (flushBatches config env collected.batches) _ _ = _ at hrun
    unfold flushBatches at hrun
    change EStateM.bind (EStateM.bind ((posts config collected.batches).zipIdx.forM (sendBatch env))
      _) _ _ = _ at hrun
    unfold EStateM.bind at hrun
    dsimp only at hrun
    -- and its loop over the posts did not raise
    cases hposts : (posts config collected.batches).zipIdx.forM (sendBatch env)
        ⟨tableAfter self.lastCounterValues
          (targetReadings config env config.prometheusTargets.zipIdx), self.applied⟩ with
    | ok _ _ => exact send_ok_of_forM _ hposts
    | error _ _ =>
      rw [hposts] at hrun
      cases hrun
  · rw [herror] at hrun
    cases hrun

theorem share_nonneg (rs : List Reading) (table : Dict SeriesKey Binary64) :
    0 ≤ share key (contributions table rs) := by
  induction rs generalizing table with
  | nil => exact le_refl 0
  | cons r rs ih =>
    rw [contributions, share_append]
    refine add_nonneg ?_ (ih _)
    unfold Reading.contribution
    split
    · exact le_refl 0
    · split_ifs with hle
      · exact le_refl 0
      · unfold share
        by_cases hkey : r.series = key
        · rw [List.filter_cons_of_pos (by simpa using hkey)]
          simpa using le_of_lt (not_le.mp hle)
        · rw [List.filter_cons_of_neg (by simpa using hkey)]
          exact le_refl 0

/-- A call that returns delivers what the series contributes. -/
theorem Returns.delivers {self : Session} {env : Environment} (h : Returns showFloat config self env)
    (hshare : 0 < share key (contributions self.lastCounterValues (callReadings config env))) :
    Delivers showFloat config key self env := by
  obtain ⟨hscrapes, hsent⟩ := h.posted
  refine ⟨hscrapes, ?_⟩
  obtain ⟨_, collected, hcollected, hcounts, _⟩ | ⟨⟨target, hmem, hfails⟩, _⟩ :=
    sessionOf_runOnce config env showFloat self
  · have hcount : eventCount collected.batches key.stream key.eventName ≠ 0 := by
      rw [hcounts]
      exact ne_of_gt (lt_of_lt_of_le hshare (share_le_contributed _ _))
    obtain ⟨post, hpost, hcarries⟩ := exists_carries config hcount
    have hbatches : collectedBatches showFloat config self env = collected.batches := by
      unfold collectedBatches
      rw [hcollected]
    rw [hbatches] at hsent ⊢
    rw [← List.zipIdx_map_fst 0 (posts config collected.batches)] at hpost
    obtain ⟨⟨post', j⟩, hin, rfl⟩ := List.mem_map.mp hpost
    obtain ⟨before, after, hsplit⟩ := List.append_of_mem hin
    refine ⟨post', hcarries, before, j, after, hsplit, fun earlier hearlier => hsent earlier ?_, ?_⟩
    · rw [hsplit]
      exact List.mem_append_left _ hearlier
    · rw [hsent _ hin]
      exact nofun
  · exact absurd hfails (hscrapes target hmem)

/-- A call in which nothing fails delivers what the series contributes. -/
theorem delivers_of_ok {self : Session} {env : Environment}
    (hscrapes : ∀ target ∈ config.prometheusTargets.zipIdx, env.scrape target.2 ≠ none)
    (hok : ∀ j, env.send j = .ok)
    (hshare : 0 < share key (contributions self.lastCounterValues (callReadings config env))) :
    Delivers showFloat config key self env :=
  Returns.delivers (runOnce_ok config env showFloat self hscrapes hok) hshare

/-! ## A run

If every call returns, the deliveries add up to the gains over all values. -/

variable (showFloat config key) in
/-- What the calls of a run deliver for a series. -/
def deliveredOver : Session → List Environment → ℤ
  | _, [] => 0
  | self, env :: envs =>
    delivered showFloat config key self env + deliveredOver (nextSession showFloat config self env) envs

variable (config key) in
/-- The series belongs to a mapping for the deltas of events. -/
def CountsDeltas : Prop :=
  ∃ mapping, config.mappings[key.mappingIndex]? = some mapping ∧ mapping.CountsDeltas

theorem mapping_of_mem {mapping : StreamMapping}
    (hmapping : config.mappings[key.mappingIndex]? = some mapping)
    {env : Environment} {r : Reading} (hr : r ∈ callReadings config env)
    (hseries : r.series = key) : r.mapping = mapping := by
  have hindex : r.mappingIndex = key.mappingIndex := congrArg SeriesKey.mappingIndex hseries
  rw [← hindex, getElem?_of_mem hr] at hmapping
  exact Option.some.inj hmapping

theorem countsDeltas_of_mem (hkey : CountsDeltas config key) {env : Environment} {r : Reading}
    (hr : r ∈ callReadings config env) (hseries : r.series = key) : r.mapping.CountsDeltas := by
  obtain ⟨mapping, hmapping, hdelta⟩ := hkey
  rw [mapping_of_mem hmapping hr hseries]
  exact hdelta

/-- **Calls that return.** They deliver all gains of the series. -/
theorem deliveredOver_of_returns (hkey : CountsDeltas config key) (envs : List Environment)
    (self : Session)
    (hreturns : Runs.Meets (fun self env => some (nextSession showFloat config self env))
      (Returns showFloat config) self
      envs) :
    deliveredOver showFloat config key self envs
      = gains ((self.lastCounterValues.get? key).toList ++ scaledOver config key envs) := by
  -- over the rounds; the table hands on the last value of each
  induction envs generalizing self with
  | nil => cases self.lastCounterValues.get? key <;> rfl
  | cons env envs ih =>
    obtain ⟨hfirst, hrest⟩ := hreturns
    have happend : scaledOver config key (env :: envs)
        = scaled key (callReadings config env) ++ scaledOver config key envs := List.flatMap_cons
    have hdeltas (r : Reading) (hr : r ∈ callReadings config env) (hseries : r.series = key) :
      r.mapping.CountsDeltas :=
      countsDeltas_of_mem hkey hr hseries
    obtain ⟨hshare, htable⟩ := share_contributions_scaled self.lastCounterValues hdeltas
    have hnext := ih (nextSession showFloat config self env) (hrest _ rfl)
    rw [nextSession_lastCounterValues, htable] at hnext
    have hnow : delivered showFloat config key self env
        = share key (contributions self.lastCounterValues (callReadings config env)) := by
      obtain ⟨hreached, hlost⟩ := delivered_eq showFloat config key self env
      -- a round that adds something for the series delivers it, since it returned
      by_cases hdelivers : Delivers showFloat config key self env
      · exact hreached hdelivers
      · rw [hlost hdelivers]
        have hnonneg : 0 ≤ share key
          (contributions self.lastCounterValues (callReadings config env)) := share_nonneg _ _
        by_contra hne
        exact hdelivers (hfirst.delivers (by omega))
    rw [deliveredOver, hnow, hshare, hnext, happend, ← List.append_assoc, ← gains_append]

end Sketchlog.Agent
