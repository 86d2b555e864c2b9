import Mathlib.Data.Finset.Insert
import Sketchlog.Alerting.AlertManager
import Sketchlog.Lib.Runs

/-!
# Resolving what was delivered

An alert that was sent out as firing is owed a resolution (`Watched.owed`). `resolve` looks it up in
the active table, from which it is also taken when the same alert is ingested again while a silence
matches it, or with the status `silenced`. From then on `resolve` returns `None` and no channel
hears of the end of the alert.

A run keeps every owed alert resolvable exactly when none of its ingestions does that to an owed alert
(`delivered_alert_resolvable_iff`).
-/

namespace Sketchlog.Alerting

open Runs

/-- The manager, and the ids that were sent out as firing and not resolved since. -/
structure Watched where
  manager : AlertManager
  owed : Finset String

namespace Watched

inductive Action where
  | ingest (alert : Alert) (now : ℚ) (posts : Attempts)
  | resolve (alertId : String) (now : ℚ) (posts : Attempts)
  | addSilence (silence : Silence)
  | removeSilence (silenceId : String)
  | addRoute (route : Route)

/-- Some channel was reached. -/
def Reached (records : List DeliveryRecord) : Prop := ∃ r ∈ records, r.status = .sent

instance (records : List DeliveryRecord) : Decidable (Reached records) :=
  inferInstanceAs (Decidable (∃ r ∈ records, _))

/-- Whom an ingestion is owed to. -/
def owedAfter (owed : Finset String) (alert : Alert) (records : List DeliveryRecord) : Finset String :=
  if alert.status = .resolved then owed.erase alert.alertId
  else if alert.status = .firing ∧ Reached records then insert alert.alertId owed
  else owed

def step (s : Watched) : Action → Option Watched
  | .ingest alert now posts =>
    let (records, manager) := s.manager.ingest alert now posts
    some ⟨manager, owedAfter s.owed alert records⟩
  | .resolve alertId now posts => some ⟨(s.manager.resolve alertId now posts).2, s.owed.erase alertId⟩
  | .addSilence silence => some ⟨s.manager.addSilence silence, s.owed⟩
  | .removeSilence silenceId => some ⟨(s.manager.removeSilence silenceId).2, s.owed⟩
  | .addRoute route => some ⟨s.manager.addRoute route, s.owed⟩

/-- Whatever is owed can be resolved, with records for it. -/
def Resolvable (s : Watched) : Prop :=
  ∀ id ∈ s.owed, ∀ now posts, ∃ records, (s.manager.resolve id now posts).1 = some records
    ∧ ∀ r ∈ records, r.alertId = id

/-- An ingestion of an owed alert is not silenced. -/
def Audible (s : Watched) : Action → Prop
  | .ingest alert now _ => alert.alertId ∈ s.owed → alert.status ≠ .resolved →
      s.manager.isSilenced alert now = false ∧ alert.status ≠ .silenced
  | _ => True

/-- Owed alerts are active, under their own ids. -/
structure Kept (s : Watched) : Prop where
  ids : ∀ id alert, s.manager.active.get? id = some alert → alert.alertId = id
  active : ∀ id ∈ s.owed, (s.manager.active.get? id).isSome

variable {s s' : Watched} {a : Action}

theorem step_ingest (alert : Alert) (now : ℚ) (posts : Attempts) :
    s.step (.ingest alert now posts) = some ⟨(s.manager.ingest alert now posts).2,
      owedAfter s.owed alert (s.manager.ingest alert now posts).1⟩ := rfl

/-! ## What the calls do to the active table

Delivery adds records only; ingestion and resolution change one entry. -/

theorem deliver_active (m : AlertManager) (posts : Attempts) (alert : Alert) (channels : List String) :
    (m.deliver posts alert channels).2.active = m.active := rfl

theorem deliverAttempts_alertId (outcome : ℕ → Option String) (l : List ℕ) (r : DeliveryRecord) :
    (deliverAttempts outcome l r).alertId = r.alertId := by
  induction l generalizing r with
  | nil => rfl
  | cons k l ih =>
    unfold deliverAttempts
    split
    · rfl
    · dsimp only
      split
      · exact ih _
      · rfl

theorem deliver_alertId (m : AlertManager) (posts : Attempts) (alert : Alert) (channels : List String) :
    ∀ r ∈ (m.deliver posts alert channels).1, r.alertId = alert.alertId := by
  intro r hr
  obtain ⟨ch, -, rfl⟩ := List.mem_map.mp hr
  unfold deliverOne
  split
  · rfl
  · split
    · rfl
    · exact deliverAttempts_alertId _ _ _

theorem upsert_active (m : AlertManager) (alert : Alert) :
    (m.upsert alert).active = if alert.status = .resolved ∨ alert.status = .silenced then
      m.active.pop alert.alertId
      else m.active.set alert.alertId alert := by
  unfold AlertManager.upsert
  split <;> rfl

/-- The active table after an ingestion. -/
theorem ingest_active (m : AlertManager) (alert : Alert) (now : ℚ) (posts : Attempts) :
    (m.ingest alert now posts).2.active
      = if m.isSilenced alert now = true ∨ alert.status ≠ .firing then m.active.pop alert.alertId
        else m.active.set alert.alertId alert := by
  unfold AlertManager.ingest
  by_cases hsilenced : m.isSilenced alert now = true
  · rw [if_pos hsilenced, if_pos (.inl hsilenced), upsert_active, if_pos (.inr rfl)]
    rfl
  · rw [if_neg hsilenced]
    have htable : ∀ channels : List String, (if channels = [] then ([], m.upsert alert)
        else (m.upsert alert).deliver posts alert channels).2.active = (m.upsert alert).active := by
      intro channels
      split
      · rfl
      · exact deliver_active _ _ _ _
    dsimp only
    rw [htable, upsert_active]
    cases hstatus : alert.status with
    | firing => simp [hsilenced]
    | resolved => simp
    | silenced => simp

/-- The active table after `resolve`. -/
theorem resolve_active (m : AlertManager) (hids : ∀ id alert, m.active.get? id = some alert
    → alert.alertId = id)
    (id : String) (now : ℚ) (posts : Attempts) (k : String) :
    (m.resolve id now posts).2.active.get? k = if k = id then none else m.active.get? k := by
  unfold AlertManager.resolve
  cases hget : m.active.get? id with
  | none =>
    by_cases hk : k = id
    · rw [if_pos hk, hk]
      exact hget
    · rw [if_neg hk]
  | some alert =>
    have htable : ∀ channels : List String,
        (if channels = [] then (some [], m.upsert (alert.resolve now))
        else (some ((m.upsert (alert.resolve now)).deliver posts (alert.resolve now) channels).1,
          ((m.upsert (alert.resolve now)).deliver posts (alert.resolve now) channels).2)).2.active
          = (m.upsert (alert.resolve now)).active := by
      intro channels
      split
      · rfl
      · exact deliver_active _ _ _ _
    have hid : (alert.resolve now).alertId = id := hids id alert hget
    show (if _ = [] then (some [], m.upsert (alert.resolve now)) else _).2.active.get? k = _
    rw [htable, upsert_active, if_pos (.inl rfl), Dict.get?_pop, hid]

/-- `resolve` of an alert in the table returns its records. -/
theorem resolve_isSome (m : AlertManager) {id : String} {alert : Alert}
    (hget : m.active.get? id = some alert)
    (hid : alert.alertId = id) (now : ℚ) (posts : Attempts) :
    ∃ records, (m.resolve id now posts).1 = some records ∧ ∀ r ∈ records, r.alertId = id := by
  unfold AlertManager.resolve
  rw [hget]
  dsimp only
  split
  · exact ⟨[], rfl, fun r hr => absurd hr List.not_mem_nil⟩
  · refine ⟨_, rfl, fun r hr => ?_⟩
    exact (deliver_alertId _ posts (alert.resolve now) _ r hr).trans hid

theorem resolve_eq_none (m : AlertManager) {id : String} (hget : m.active.get? id = none) (now : ℚ)
    (posts : Attempts) : (m.resolve id now posts).1 = none := by
  unfold AlertManager.resolve
  rw [hget]

/-! ## One step

An alert that was delivered is owed a recovery, and stays resolvable as long as it is audible
whenever it is ingested again. -/

theorem Kept.resolvable (h : s.Kept) : s.Resolvable := by
  intro id hid now posts
  obtain ⟨alert, hget⟩ := Option.isSome_iff_exists.mp (h.active id hid)
  exact resolve_isSome s.manager hget (h.ids id alert hget) now posts

theorem mem_owedAfter {owed : Finset String} {alert : Alert} {records : List DeliveryRecord}
    {id : String}
    (h : id ∈ owedAfter owed alert records) :
    (id ∈ owed ∧ (alert.status = .resolved → id ≠ alert.alertId))
      ∨ (id = alert.alertId ∧ alert.status = .firing ∧ Reached records) := by
  unfold owedAfter at h
  split at h
  · next hresolved =>
    obtain ⟨hne, hmem⟩ := Finset.mem_erase.mp h
    exact .inl ⟨hmem, fun _ => hne⟩
  · next hresolved =>
    split at h
    · next hfiring =>
      rcases Finset.mem_insert.mp h with rfl | hmem
      · exact .inr ⟨rfl, hfiring⟩
      · exact .inl ⟨hmem, fun hr => absurd hr hresolved⟩
    · exact .inl ⟨h, fun hr => absurd hr hresolved⟩

/-- A silenced alert is sent to nobody. -/
theorem not_reached_of_silenced {m : AlertManager} {alert : Alert} {now : ℚ} (posts : Attempts)
    (h : m.isSilenced alert now = true) : ¬ Reached (m.ingest alert now posts).1 := by
  rintro ⟨r, hr, -⟩
  unfold AlertManager.ingest at hr
  rw [if_pos h] at hr
  exact absurd hr List.not_mem_nil

/-- **A step keeps owed alerts active**, when it is audible. -/
theorem Kept.step (h : s.Kept) (hcond : s.Audible a) (hstep : s.step a = some s') : s'.Kept := by
  cases a with
  | ingest alert now posts =>
    rw [step_ingest] at hstep
    obtain rfl := Option.some.inj hstep
    have htable := ingest_active s.manager alert now posts
    refine ⟨fun id other hget => ?_, fun id hid => ?_⟩
    · dsimp only at hget
      rw [htable] at hget
      split at hget
      · rw [Dict.get?_pop] at hget
        split at hget
        · cases hget
        · exact h.ids id other hget
      · rw [Dict.get?_set] at hget
        split at hget
        · next hk =>
          cases hget
          exact hk.symm
        · exact h.ids id other hget
    · dsimp only at hid ⊢
      rw [htable]
      rcases mem_owedAfter hid with ⟨hmem, hne⟩ | ⟨rfl, hfiring, hreached⟩
      · by_cases hk : id = alert.alertId
        · -- an owed alert is ingested again, and it is firing
          have hstatus : alert.status ≠ .resolved := fun hr => hne hr hk
          obtain ⟨hsilence, hsilenced⟩ := hcond (hk ▸ hmem) hstatus
          have hfiring : alert.status = .firing := by
            cases hs : alert.status with
            | firing => rfl
            | resolved => exact absurd hs hstatus
            | silenced => exact absurd hs hsilenced
          have hnot : ¬ (s.manager.isSilenced alert now = true ∨ alert.status ≠ .firing) := by
            rintro (hs | hs)
            · rw [hsilence] at hs
              cases hs
            · exact hs hfiring
          rw [if_neg hnot, Dict.get?_set, if_pos hk]
          rfl
        · have hactive := h.active id hmem
          split
          · rw [Dict.get?_pop, if_neg hk]
            exact hactive
          · rw [Dict.get?_set, if_neg hk]
            exact hactive
      · have hnot : ¬ (s.manager.isSilenced alert now = true ∨ alert.status ≠ .firing) := by
          rintro (hs | hs)
          · exact not_reached_of_silenced posts hs hreached
          · exact hs hfiring
        rw [if_neg hnot, Dict.get?_set, if_pos rfl]
        rfl
  | resolve id now posts =>
    cases hstep
    have htable := resolve_active s.manager h.ids id now posts
    refine ⟨fun k other hget => ?_, fun k hk => ?_⟩
    · dsimp only at hget
      rw [htable] at hget
      split at hget
      · cases hget
      · exact h.ids k other hget
    · obtain ⟨hne, hmem⟩ := Finset.mem_erase.mp hk
      dsimp only
      rw [htable, if_neg hne]
      exact h.active k hmem
  | addSilence silence =>
    cases hstep
    exact ⟨h.ids, h.active⟩
  | removeSilence silenceId =>
    cases hstep
    exact ⟨h.ids, h.active⟩
  | addRoute route =>
    cases hstep
    exact ⟨h.ids, h.active⟩

/-- An ingestion that silences an owed alert leaves it unresolvable. -/
theorem audible_of_resolvable (hstep : s.step a = some s') (hgood : s'.Resolvable) : s.Audible a := by
  -- of the five calls only an ingestion can take an alert off the table
  cases a with
  | ingest alert now posts =>
    rw [step_ingest] at hstep
    obtain rfl := Option.some.inj hstep
    intro howed hstatus
    by_contra hnot
    -- if it was not audible, it was silenced or not firing, and then the entry is popped
    have hpop : s.manager.isSilenced alert now = true ∨ alert.status ≠ .firing := by
      by_contra hn
      obtain ⟨hs, hf⟩ := not_or.mp hn
      refine hnot ⟨Bool.eq_false_iff.mpr hs, ?_⟩
      rw [not_not.mp hf]
      decide
    have htable := ingest_active s.manager alert now posts
    rw [if_pos hpop] at htable
    have hmem : alert.alertId ∈ owedAfter s.owed alert (s.manager.ingest alert now posts).1 := by
      unfold owedAfter
      rw [if_neg hstatus]
      split
      · exact Finset.mem_insert_self _ _
      · -- it is still owed, but nothing is left to resolve
        exact howed
    obtain ⟨records, hsome, -⟩ := hgood alert.alertId hmem now posts
    have hnone : ((s.manager.ingest alert now posts).2.resolve alert.alertId now posts).1 = none := by
      apply resolve_eq_none
      rw [htable, Dict.get?_pop_self]
    rw [hnone] at hsome
    cases hsome
  | resolve id now posts => trivial
  | addSilence silence => trivial
  | removeSilence silenceId => trivial
  | addRoute route => trivial

/-- **Every delivered alert can be resolved**, in all states of a run, exactly when no ingestion of
the run silences an alert that is owed a resolution. A manager may start with alerts that it has
loaded. -/
theorem delivered_alert_resolvable_iff (manager : AlertManager)
    (hids : ∀ id alert, manager.active.get? id = some alert → alert.alertId = id)
    {actions : List Action}
    (hrun : run step ⟨manager, ∅⟩ actions = some s) :
    Meets step Audible ⟨manager, ∅⟩ actions
      ↔ ∀ calls, calls <+: actions → ∀ t, run step ⟨manager, ∅⟩ calls = some t → t.Resolvable := by
  refine meets_iff_forall_reached (I := Kept) (fun _ h => h.resolvable) (fun _ _ _ h hcond hstep =>
    h.step hcond hstep)
    (fun _ _ _ _ hstep hgood => audible_of_resolvable hstep hgood) ?_ hrun
  exact ⟨hids, fun id hid => absurd hid (Finset.notMem_empty id)⟩

/-! ## One alert -/

/-- A matcher that accepts every alert. -/
def anyAlert : Matcher := ⟨"", "", none, "", ∅⟩

/-- One channel, for all alerts. -/
def oneChannel : AlertManager where
  active := ∅
  history := []
  silences := ∅
  routes := []
  defaultChannels := ["ops"]
  channels := Dict.set ∅ "ops" ⟨"ops", "webhook", true⟩
  records := ∅

/-- Every attempt succeeds. -/
def allSent : Attempts := ⟨fun _ _ => none, fun s => "'" ++ s ++ "'"⟩

def latencyAlert : Alert :=
  ⟨"HighLatency", "prod", "api_latency", .critical, .firing, ∅, none, "", "a1"⟩

def maintenance : Silence :=
  { anyAlert with startsAt := 0, endsAt := 10, silenceId := "s1", starts_lt := by decide +kernel }

/-- An alert, a silence, and the same alert when the silence has ended. -/
def audibleCalls : List Action :=
  [.ingest latencyAlert 0 allSent, .addSilence maintenance, .ingest latencyAlert 20 allSent]

theorem delivered_alert_resolvable_audible : ∃ s, run step ⟨oneChannel, ∅⟩ audibleCalls = some s
    ∧ "a1" ∈ s.owed ∧ s.Resolvable := by
  have hmeets : Meets step Audible ⟨oneChannel, ∅⟩ audibleCalls := by
    refine ⟨fun h => absurd h (Finset.notMem_empty _), fun t ht =>
      ⟨trivial, fun t' ht' => ⟨?_, fun _ _ => trivial⟩⟩⟩
    cases ht
    cases ht'
    exact fun _ _ => ⟨by decide +kernel, by decide⟩
  have hids : ∀ id alert, oneChannel.active.get? id = some alert → alert.alertId = id := by
    intro id alert hget
    cases hget
  exact ⟨_, rfl, by decide +kernel,
    (delivered_alert_resolvable_iff oneChannel hids rfl).mp hmeets _ List.prefix_rfl _ rfl⟩

/-- The alert is ingested again while the silence matches it: then `resolve` returns `None`. -/
theorem silenced_again_unresolvable : ∃ s, run step ⟨oneChannel, ∅⟩
      [.ingest latencyAlert 0 allSent, .addSilence maintenance, .ingest latencyAlert 5 allSent] = some s
    ∧ "a1" ∈ s.owed ∧ ¬ s.Resolvable := by
  have howed : (run step ⟨oneChannel, ∅⟩ [.ingest latencyAlert 0 allSent, .addSilence maintenance,
      .ingest latencyAlert 5 allSent]).map (fun s =>
        (decide ("a1" ∈ s.owed), (s.manager.active.get? "a1").isSome))
      = some (true, false) := by decide +kernel
  obtain ⟨s, hrun, hs⟩ := Option.map_eq_some_iff.mp howed
  obtain ⟨hmem, hnone⟩ := Prod.mk.inj hs
  refine ⟨s, hrun, of_decide_eq_true hmem, fun hgood => ?_⟩
  obtain ⟨records, hsome, -⟩ := hgood "a1" (of_decide_eq_true hmem) 6 allSent
  rw [resolve_eq_none s.manager
    (Option.not_isSome_iff_eq_none.mp (Bool.eq_false_iff.mp hnone))] at hsome
  cases hsome

end Watched

end Sketchlog.Alerting
