import Sketchlog.Lib.Runs
import Sketchlog.Properties.PrometheusText
import Sketchlog.Refine.AgentSeries

/-!
# Counter deltas

A series of a mapping in `delta` mode is a counter: each reading contributes what the counter has
gained since the reading before it. The table of the last values is written while the samples are
read, and the POSTs come at the end of the call, so the gain of a call whose POST does not arrive is
in no later call.

* `gains_eq_rise`: the gains of a counter add up to its rise;
* `deliveredOver_eq_rise_iff`: over a run of calls the server receives the last value less the first
  exactly when every call in which the series rises delivers it.
-/

namespace Sketchlog.Agent

open Otel Binary64

variable (showFloat : Binary64 → Text) (config : AgentConfig) (key : SeriesKey)

/-! ## A series

A counter that is read without scaling and whose differences are doubles. -/

/-- A mapping for the deltas of events that does not scale. -/
structure StreamMapping.IsDelta (mapping : StreamMapping) : Prop where
  event : mapping.kind = .event
  delta : mapping.counterMode = .delta
  named : mapping.eventName ≠ none
  unscaled : mapping.valueScale.val = 1

/-- The series belongs to such a mapping. -/
def IsDelta : Prop := ∃ mapping, config.mappings[key.mappingIndex]? = some mapping ∧ mapping.IsDelta

/-- The values of a series among readings. -/
def scraped (rs : List Reading) : List Binary64 :=
  rs.filterMap fun r => if r.series = key then some r.sample.value else none

/-- The values of a series in a run of calls. -/
def scrapedOver (envs : List Environment) : List Binary64 :=
  envs.flatMap fun env => scraped key (callReadings config env)

/-- The values of a non-decreasing integer counter. -/
structure IsCounter (values : List Binary64) : Prop where
  natural : ∀ value ∈ values, ∃ n : ℕ, value.val = n
  increasing : values.IsChain fun previous value => previous.val ≤ value.val

/-- The differences of the values are floats. -/
def Exact (values : List Binary64) : Prop :=
  values.IsChain fun previous value => IsBinary64 (value.val - previous.val)

/-- The last value less the first. -/
def rise (values : List Binary64) : ℚ :=
  match values.head?, values.getLast? with
  | some first, some last => last.val - first.val
  | _, _ => 0

/-! ## Gains and rises

For such a counter the rounding is exact, so the gains telescope. -/

variable {values values' : List Binary64}

theorem rise_cons (previous value : Binary64) (values : List Binary64) :
    rise (previous :: value :: values) = (value.val - previous.val) + rise (value :: values) := by
  unfold rise
  rw [List.getLast?_cons_cons]
  cases hlast : (value :: values).getLast? with
  | none => exact absurd (List.getLast?_eq_none_iff.mp hlast) (List.cons_ne_nil _ _)
  | some last =>
    show last.val - previous.val = value.val - previous.val + (last.val - value.val)
    ring

/-- The gain between two values whose difference is a float. -/
theorem gain_eq {previous value : Binary64} {m n : ℕ} (hprevious : previous.val = m)
    (hvalue : value.val = n)
    (hle : previous.val ≤ value.val) (hexact : IsBinary64 (value.val - previous.val)) :
    (gain previous value : ℚ) = value.val - previous.val := by
  have hmn : m ≤ n := by
    rw [hprevious, hvalue] at hle
    exact_mod_cast hle
  have hdelta : value.val - previous.val = ((n - m : ℤ) : ℚ) := by
    rw [hprevious, hvalue]
    push_cast
    ring
  -- the difference is an integer, so the conversion to a count is exact
  have hcount : intRound (positiveDelta value previous) = n - m := by
    unfold positiveDelta
    rw [Float64.fin_sub_fin, Float64.ofRat_of_isBinary64 hexact]
    dsimp only
    rw [Float64.zero_lt_fin]
    split_ifs with hpos
    · show halfEven (value.val - previous.val) = _
      rw [hdelta, halfEven_intCast]
    · -- a difference that is not positive is zero here
      have hzero : ((n - m : ℤ) : ℚ) ≤ 0 := by
        rw [← hdelta]
        exact not_lt.mp (of_decide_eq_false (Bool.eq_false_iff.mpr hpos))
      have hzero' : (n - m : ℤ) ≤ 0 := by exact_mod_cast hzero
      show halfEven ((0 : ℤ) : ℚ) = _
      rw [halfEven_intCast]
      omega
  unfold gain
  rw [hcount, max_eq_right (by omega), ← hdelta]

theorem gains_eq_rise (hcounter : IsCounter values) (hexact : Exact values) :
    (gains values : ℚ) = rise values := by
  fun_induction gains values with
  | case1 previous value values ih =>
    have hrest : IsCounter (value :: values) :=
      ⟨fun v hv => hcounter.natural v (List.mem_cons_of_mem _ hv), hcounter.increasing.tail⟩
    obtain ⟨m, hm⟩ := hcounter.natural previous List.mem_cons_self
    obtain ⟨n, hn⟩ := hcounter.natural value (List.mem_cons_of_mem _ List.mem_cons_self)
    have hgain := gain_eq hm hn (List.isChain_cons_cons.mp hcounter.increasing).1
      (List.isChain_cons_cons.mp hexact).1
    rw [Int.cast_add, hgain, ih hrest hexact.tail, rise_cons]
  | case2 values hshort =>
    cases values with
    | nil => rfl
    | cons previous values =>
      cases values with
      | nil =>
        show ((0 : ℤ) : ℚ) = previous.val - previous.val
        simp
      | cons value values => exact absurd rfl (hshort previous value values)

/-! ## What a series contributes -/

variable {key config showFloat} {rs : List Reading} {table : Dict SeriesKey Binary64}

theorem StreamMapping.IsDelta.countsDeltas {mapping : StreamMapping} (h : mapping.IsDelta) :
    mapping.CountsDeltas :=
  ⟨h.event, h.delta, h.named⟩

/-- The scale `1` leaves a value as it is. -/
theorem Reading.scaledValue_of_unscaled {r : Reading} (hunscaled : r.mapping.valueScale.val = 1)
    (hnonneg : 0 ≤ r.sample.value.val) : r.scaledValue = some r.sample.value := by
  have hvalue : Float64.mul (.fin r.sample.value) (.fin r.mapping.valueScale)
    = .fin r.sample.value := by
    rw [Float64.fin_mul_fin, hunscaled, mul_one]
    exact Float64.ofRat_of_isBinary64 r.sample.value.isBinary64
  unfold scaledValue
  rw [hvalue]
  dsimp only
  rw [if_neg (not_lt.mpr hnonneg)]

theorem scaled_eq_scraped (hdelta : ∀ r ∈ rs, r.series = key → r.mapping.IsDelta)
    (hnonneg : ∀ value ∈ scraped key rs, 0 ≤ value.val) : scaled key rs = scraped key rs := by
  refine List.filterMap_congr fun r hr => ?_
  split_ifs with hkey
  · have hmem : r.sample.value ∈ scraped key rs := List.mem_filterMap.mpr ⟨r, hr, if_pos hkey⟩
    exact Reading.scaledValue_of_unscaled (hdelta r hr hkey).unscaled (hnonneg _ hmem)
  · rfl

/-- **A series in a call.** It contributes its gains, and the table keeps its last value. -/
theorem share_contributions (table : Dict SeriesKey Binary64)
    (hdelta : ∀ r ∈ rs, r.series = key → r.mapping.IsDelta)
    (hnonneg : ∀ value ∈ scraped key rs, 0 ≤ value.val) :
    share key (contributions table rs) = gains ((table.get? key).toList ++ scraped key rs)
      ∧ (tableAfter table rs).get? key = ((table.get? key).toList ++ scraped key rs).getLast? := by
  rw [← scaled_eq_scraped hdelta hnonneg]
  exact share_contributions_scaled table fun r hr hkey => (hdelta r hr hkey).countsDeltas

/-! ## A call -/

theorem isDelta_of_mem (hkey : IsDelta config key) {env : Environment} {r : Reading}
    (hr : r ∈ callReadings config env)
    (hseries : r.series = key) : r.mapping.IsDelta := by
  obtain ⟨mapping, hmapping, hdelta⟩ := hkey
  rw [mapping_of_mem hmapping hr hseries]
  exact hdelta

/-! ## A run

What is delivered is the rise exactly when every call in which the series rises delivers it. -/

variable (showFloat config key)

/-- The series does not rise in the call, or the call delivers it. -/
def Safe (self : Session) (env : Environment) : Prop :=
  rise ((self.lastCounterValues.get? key).toList ++ scraped key (callReadings config env)) = 0
    ∨ Delivers showFloat config key self env

variable {showFloat config key}

theorem suffix_last (values values' : List Binary64) :
    values.getLast?.toList ++ values' <:+ values ++ values' := by
  cases hlast : values.getLast? with
  | none => exact List.suffix_append values values'
  | some last =>
    obtain ⟨init, rfl⟩ := List.getLast?_eq_some_iff.mp hlast
    rw [List.append_assoc]
    exact List.suffix_append init _

/-- The deliveries of a run against the gains of the series in it. -/
theorem deliveredOver_spec (hkey : IsDelta config key) (envs : List Environment) (self : Session)
    (hcounter : IsCounter ((self.lastCounterValues.get? key).toList ++ scrapedOver config key envs))
    (hexact : Exact ((self.lastCounterValues.get? key).toList ++ scrapedOver config key envs)) :
    deliveredOver showFloat config key self envs
        ≤ gains ((self.lastCounterValues.get? key).toList ++ scrapedOver config key envs)
      ∧ (deliveredOver showFloat config key self envs
          = gains ((self.lastCounterValues.get? key).toList ++ scrapedOver config key envs)
        ↔ Runs.Meets (fun self env => some (nextSession showFloat config self env))
          (Safe showFloat config key) self
          envs) := by
  induction envs generalizing self with
  | nil =>
    have hzero : gains ((self.lastCounterValues.get? key).toList ++ scrapedOver config key []) = 0 := by
      cases self.lastCounterValues.get? key <;> rfl
    rw [hzero]
    exact ⟨le_refl 0, fun _ => trivial, fun _ => rfl⟩
  | cons env envs ih =>
    have happend : scrapedOver config key (env :: envs)
        = scraped key (callReadings config env) ++ scrapedOver config key envs := List.flatMap_cons
    rw [happend, ← List.append_assoc] at hcounter hexact ⊢
    -- the call
    have hnow : IsCounter ((self.lastCounterValues.get? key).toList ++ scraped key
      (callReadings config env)) :=
      ⟨fun v hv => hcounter.natural v (List.mem_append_left _ hv), hcounter.increasing.left_of_append⟩
    have hnonneg (value : Binary64) (hvalue : value ∈ scraped key (callReadings config env)) :
      0 ≤ value.val := by
      obtain ⟨n, hn⟩ := hnow.natural value (List.mem_append_right _ hvalue)
      rw [hn]
      exact Nat.cast_nonneg n
    obtain ⟨hshare, htable⟩ := share_contributions self.lastCounterValues
      (fun r hr hseries => isDelta_of_mem hkey hr hseries) hnonneg
    have hrise := gains_eq_rise hnow hexact.left_of_append
    have hgains := gains_nonneg
      ((self.lastCounterValues.get? key).toList ++ scraped key (callReadings config env))
    obtain ⟨hreached, hlost⟩ := delivered_eq showFloat config key self env
    -- the calls after it
    have hnext := ih (nextSession showFloat config self env)
    rw [nextSession_lastCounterValues, htable] at hnext
    have hsuffix := suffix_last
      ((self.lastCounterValues.get? key).toList ++ scraped key (callReadings config env))
      (scrapedOver config key envs)
    obtain ⟨hle, hiff⟩ := hnext
      ⟨fun v hv => hcounter.natural v (hsuffix.subset hv), hcounter.increasing.suffix hsuffix⟩
        (hexact.suffix hsuffix)
    rw [hshare] at hreached
    rw [gains_append, deliveredOver]
    have hsafe : Safe showFloat config key self env
        ↔ gains ((self.lastCounterValues.get? key).toList ++ scraped key (callReadings config env)) = 0
          ∨ Delivers showFloat config key self env := by
      unfold Safe
      rw [← hrise, Int.cast_eq_zero]
    have hmeets : Runs.Meets (fun self env => some (nextSession showFloat config self env))
      (Safe showFloat config key)
        self (env :: envs) ↔ Safe showFloat config key self env
          ∧ Runs.Meets (fun self env => some (nextSession showFloat config self env))
            (Safe showFloat config key)
            (nextSession showFloat config self env) envs := by
      constructor
      · exact fun h => ⟨h.1, h.2 _ rfl⟩
      · intro hboth
        exact ⟨hboth.1, fun s hs => Option.some.inj hs ▸ hboth.2⟩
    rw [hmeets, ← hiff, hsafe]
    by_cases hdelivers : Delivers showFloat config key self env
    · rw [hreached hdelivers]
      simp only [hdelivers, or_true, true_and]
      omega
    · rw [hlost hdelivers]
      simp only [hdelivers, or_false]
      omega

/-- The decimal `0`. -/
def nought : Decimal := ⟨none, ['0'], none, none⟩

theorem isDigits_nought : IsDigits ['0'] := by
  refine ⟨List.cons_ne_nil _ _, fun c hc => ?_⟩
  rw [List.mem_singleton.mp hc]
  rfl

theorem value_nought : nought.value = ((0 : ℤ) : ℚ) := by
  have hdigits : digitsValue (['0'] ++ []) = 0 := by decide
  unfold Decimal.value nought
  simp only [Option.getD_none, Option.map_none, hdigits]
  norm_num

/-- `m 0` and `m 5`. -/
def counterLine (five? : Bool) : SampleLine where
  sample := ⟨['m'], ∅, if five? then .ofInt 5 Binary64.abs_five_lt else .ofInt 0 Binary64.abs_zero_lt⟩
  text := if five? then five else nought
  timestamp := none
  name_valid := isName_m
  labels_valid := fun _ hlabel => absurd hlabel List.not_mem_nil
  text_valid := by
    cases five? with
    | false => exact ⟨fun _ h => (nomatch h), isDigits_nought, fun _ h => (nomatch h), fun _ h =>
        (nomatch h)⟩
    | true => exact ⟨fun _ h => (nomatch h), isDigits_five, fun _ h => (nomatch h), fun _ h =>
        (nomatch h)⟩
  text_value := by
    cases five? with
    | false =>
      show Float64.ofRat nought.value = _
      rw [value_nought, Float64.ofRat_intCast 0 (by decide)]
      rfl
    | true =>
      show Float64.ofRat five.value = _
      rw [value_five, Float64.ofRat_intCast 5 (by decide)]
      rfl
  timestamp_valid := no_timestamp

/-- One target, and the counter `m` as the event `e` of the stream `s`. -/
def counterConfig : AgentConfig where
  prometheusTargets := [⟨['t'], ['u']⟩]
  mappings := [⟨['m'], ['s'], .event, some ['e'], ∅, .ofInt 1 Binary64.abs_one_lt, .delta⟩]
  maxBatchItems := 500

def counterKey : SeriesKey := ⟨['t'], ['u'], 0, ['m'], [], ['s'], ['e']⟩

/-- A call that scrapes `m 0` or `m 5`, and whose POSTs all end in one way. -/
def counterCall (five? : Bool) (result : SendResult) : Environment :=
  ⟨fun _ => some (renderLines [.sample (counterLine five?)]), fun _ => result⟩

theorem isDelta_counter : IsDelta counterConfig counterKey :=
  ⟨_, rfl, rfl, rfl, Option.some_ne_none _, Int.cast_one⟩

theorem parse_counterLine (five? : Bool) :
    parsePrometheusText (renderLines [.sample (counterLine five?)]) = [(counterLine five?).sample] := by
  have hplain : (counterLine five?).Plain :=
    ⟨fun _ h => absurd h List.not_mem_nil, fun _ h => by cases h⟩
  rw [parse_renderLines]
  · show [SampleLine.render _].filterMap parseLine = _
    rw [List.filterMap_cons_some (SampleLine.parseLine_of_plain hplain)]
    rfl
  · intro line hline
    rw [List.mem_singleton.mp hline]
    exact hplain.1

theorem callReadings_counterCall (five? : Bool) (result : SendResult) :
    ∃ mapping, callReadings counterConfig (counterCall five? result)
      = [⟨⟨['t'], ['u']⟩, (counterLine five?).sample, mapping, 0⟩]
        ∧ seriesKey ⟨['t'], ['u']⟩ 0 mapping (counterLine five?).sample = counterKey := by
  refine ⟨⟨['m'], ['s'], .event, some ['e'], ∅, .ofInt 1 Binary64.abs_one_lt, .delta⟩, ?_, ?_⟩
  · show textReadings counterConfig ⟨['t'], ['u']⟩ (renderLines [.sample (counterLine five?)]) ++ [] = _
    unfold textReadings
    rw [parse_counterLine]
    rfl
  · show SeriesKey.mk _ _ _ _ (List.mergeSort [] _) _ _ = _
    rw [List.mergeSort_nil]
    rfl

theorem scraped_counterCall (five? : Bool) (result : SendResult) :
    scraped counterKey (callReadings counterConfig (counterCall five? result))
      = [(counterLine five?).sample.value] := by
  obtain ⟨mapping, hreadings, hseries⟩ := callReadings_counterCall five? result
  rw [hreadings]
  exact List.filterMap_cons_some (if_pos hseries)

theorem val_counterLine (five? : Bool) :
    (counterLine five?).sample.value.val = ((if five? then 5 else 0 : ℕ) : ℚ) := by
  cases five? with
  | false => exact Int.cast_zero
  | true => norm_num [counterLine]

/-- The values `0` and `5`, in that order, are a counter. -/
theorem isCounter_counterLines (flags : List Bool) (h : flags.IsChain fun a b => a = true → b = true) :
    IsCounter (flags.map fun five? => (counterLine five?).sample.value)
      ∧ Exact (flags.map fun five? => (counterLine five?).sample.value) := by
  constructor
  · constructor
    · intro value hvalue
      obtain ⟨five?, -, rfl⟩ := List.mem_map.mp hvalue
      exact ⟨_, val_counterLine five?⟩
    · refine (List.isChain_map _).mpr (h.imp fun a b hab => ?_)
      rw [val_counterLine, val_counterLine]
      cases a with
      | false => exact_mod_cast Nat.zero_le _
      | true => rw [hab rfl]
  · refine (List.isChain_map _).mpr (h.imp fun a b hab => ?_)
    rw [val_counterLine, val_counterLine]
    cases a with
    | false =>
      have hfloat := (counterLine b).sample.value.isBinary64
      rw [val_counterLine] at hfloat
      simpa using hfloat
    | true =>
      rw [hab rfl, sub_self]
      exact ⟨0, 0, by norm_num, by norm_num, by norm_num, by norm_num⟩

theorem scrapedOver_counterCalls (calls : List (Bool × SendResult)) :
    scrapedOver counterConfig counterKey (calls.map fun call => counterCall call.1 call.2)
      = (calls.map Prod.fst).map fun five? => (counterLine five?).sample.value := by
  induction calls with
  | nil => rfl
  | cons call calls ih =>
    unfold scrapedOver at ih ⊢
    rw [List.map_cons, List.flatMap_cons, ih, scraped_counterCall]
    rfl

/-- What the counter contributes in a call, and the table after it. -/
theorem share_counterCall (self : Session) (five? : Bool) (result : SendResult) :
    share counterKey (contributions self.lastCounterValues
        (callReadings counterConfig (counterCall five? result)))
      = gains ((self.lastCounterValues.get? counterKey).toList ++ [(counterLine five?).sample.value])
    ∧ (nextSession (fun _ => []) counterConfig self
      (counterCall five? result)).lastCounterValues.get? counterKey
      = some (counterLine five?).sample.value := by
  have hnonneg (value : Binary64)
    (hvalue : value ∈ scraped counterKey (callReadings counterConfig (counterCall five? result))) :
      0 ≤ value.val := by
    rw [scraped_counterCall] at hvalue
    rw [List.mem_singleton.mp hvalue, val_counterLine]
    exact Nat.cast_nonneg _
  have hspec := share_contributions self.lastCounterValues
    (fun r hr hseries => isDelta_of_mem isDelta_counter hr hseries) hnonneg
  rw [scraped_counterCall] at hspec
  refine ⟨hspec.1, ?_⟩
  rw [nextSession_lastCounterValues, hspec.2, List.getLast?_concat]

/-- From `0` to `5` the counter rises. -/
theorem rise_counterLines : rise [(counterLine false).sample.value, (counterLine true).sample.value]
    = 5 := by
  show (counterLine true).sample.value.val - (counterLine false).sample.value.val = 5
  rw [val_counterLine, val_counterLine]
  norm_num

theorem gains_counterLines :
    gains [(counterLine false).sample.value, (counterLine true).sample.value] = 5 := by
  have hcounter := isCounter_counterLines [false, true] (by decide)
  have hgains := gains_eq_rise hcounter.1 hcounter.2
  have hrise : ((gains [(counterLine false).sample.value, (counterLine true).sample.value] : ℤ) : ℚ)
    = 5 :=
    hgains.trans rise_counterLines
  exact_mod_cast hrise

theorem gains_same (five? : Bool) :
    gains [(counterLine five?).sample.value, (counterLine five?).sample.value] = 0 := by
  have hcounter := isCounter_counterLines [five?, five?] (List.isChain_pair.mpr id)
  have hgains := gains_eq_rise hcounter.1 hcounter.2
  have hrise : ((gains [(counterLine five?).sample.value, (counterLine five?).sample.value] : ℤ) :
    ℚ) = 0 :=
    hgains.trans (sub_self _)
  exact_mod_cast hrise

/-- A value that does not rise delivers nothing. -/
theorem delivered_counterCall_of_gains {self : Session} {five? : Bool} {result : SendResult}
    (hgains : gains ((self.lastCounterValues.get? counterKey).toList
      ++ [(counterLine five?).sample.value]) = 0) :
    delivered (fun _ => []) counterConfig counterKey self (counterCall five? result) = 0 := by
  by_cases hdelivers : Delivers (fun _ => []) counterConfig counterKey self (counterCall five? result)
  · rw [(delivered_eq _ _ _ _ _).1 hdelivers, (share_counterCall self five? result).1, hgains]
  · exact (delivered_eq _ _ _ _ _).2 hdelivers

theorem delivered_counterCall_same {self : Session} {five? : Bool} {result : SendResult}
    (hlast : self.lastCounterValues.get? counterKey = some (counterLine five?).sample.value) :
    delivered (fun _ => []) counterConfig counterKey self (counterCall five? result) = 0 := by
  apply delivered_counterCall_of_gains
  rw [hlast, Option.toList_some, List.singleton_append]
  exact gains_same five?

/-- Nor does a call whose POSTs are refused. -/
theorem delivered_counterCall_refused (self : Session) (five? : Bool) :
    delivered (fun _ => []) counterConfig counterKey self (counterCall five? .refused) = 0 := by
  apply (delivered_eq _ _ _ _ _).2
  intro hdelivers
  obtain ⟨_, post, _, before, j, after, _, _, hsent⟩ := hdelivers
  exact hsent rfl

/-- The call after a refused one finds the value it scrapes in the table. -/
theorem delivered_after_refused :
    delivered (fun _ => []) counterConfig counterKey (nextSession (fun _ => []) counterConfig
      (nextSession (fun _ => []) counterConfig ⟨∅, []⟩ (counterCall false .ok))
        (counterCall true .refused))
      (counterCall true .ok) = 0 :=
  delivered_counterCall_same (share_counterCall (nextSession (fun _ => []) counterConfig ⟨∅, []⟩
    (counterCall false .ok)) true .refused).2

end Sketchlog.Agent
