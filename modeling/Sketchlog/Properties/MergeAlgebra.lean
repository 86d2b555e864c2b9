import Sketchlog.Refine.CppReachable

/-!
# The algebra of `merge`

As a partial operation on sketch states, `merge` is commutative and associative over reachable logs,
the empty log of a configuration is its identity, and ingestion is a homomorphism into it. Rejections
are part of each law: a grouping that succeeds is never rejected under another grouping. The laws are
those of guarded addition (`Backend`), read at the Python log and at the C++ log.
-/

namespace Sketchlog

/-- The laws, for one type of logs. `Fresh` logs are newly constructed; `SameConfig` and `SameState`
compare the configurations and the sketch states of two logs. -/
structure MergeLaws {Log Op : Type} (Reachable Fresh : Log → Prop)
    (SameConfig SameState : Log → Log → Prop) (ingest : Op → EStateM PyError Log Unit)
    (merge : Log → EStateM PyError Log Unit) : Prop where
  comm : ∀ a b, Reachable a → Reachable b →
    ((∃ r, (merge b).run a = .ok () r) ↔ ∃ r, (merge a).run b = .ok () r)
      ∧ ∀ r r', (merge b).run a = .ok () r → (merge a).run b = .ok () r' → SameState r r'
  assoc : ∀ a b c, Reachable a → Reachable b → Reachable c →
    ((∃ ab r, (merge b).run a = .ok () ab ∧ (merge c).run ab = .ok () r)
        ↔ ∃ bc r, (merge c).run b = .ok () bc ∧ (merge bc).run a = .ok () r)
      ∧ ∀ ab r bc r', (merge b).run a = .ok () ab → (merge c).run ab = .ok () r →
        (merge c).run b = .ok () bc → (merge bc).run a = .ok () r' → SameState r r'
  identity : ∀ a e, Reachable a → Fresh e → SameConfig e a →
    (∃ r, (merge e).run a = .ok () r ∧ SameState r a)
      ∧ ∃ r, (merge a).run e = .ok () r ∧ SameState r a
  homomorphism : ∀ e₁ e₂ e a b (xs ys : List Op), Fresh e₁ → Fresh e₂ → Fresh e → SameConfig e₁ e →
    SameConfig e₂ e → (xs.forM ingest).run e₁ = .ok () a → (ys.forM ingest).run e₂ = .ok () b →
    ((∃ r, (merge b).run a = .ok () r) ↔ ∃ r, ((xs ++ ys).forM ingest).run e = .ok () r)
      ∧ ∀ r r', (merge b).run a = .ok () r → ((xs ++ ys).forM ingest).run e = .ok () r' →
        SameState r r'

/-- The laws hold in every backend. -/
theorem Backend.mergeLaws {M : IndexMapping} (B : Backend M) {Reachable Fresh : B.Log → Prop}
    {SameConfig SameState : B.Log → B.Log → Prop} (hholds : ∀ log, Reachable log → B.Holds log)
    (hfresh : ∀ e, Fresh e → Reachable e ∧ SameConfig e e)
    (hempty : ∀ (S : Shape) (c : Contents S) (a e : B.Log), B.Represents a S c → Fresh e →
      SameConfig e a → B.Empty e S)
    (hsame : ∀ a b, B.Same a b → SameState a b) :
    MergeLaws Reachable Fresh SameConfig SameState B.ingest B.merge where
  comm := by
    intro a b ha hb
    obtain ⟨hiff, hres⟩ := merge_comm (hholds a ha) (hholds b hb)
    exact ⟨hiff, fun r r' hr hr' => hsame r r' (hres r r' hr hr')⟩
  assoc := by
    intro a b c ha hb hc
    obtain ⟨hiff, hres⟩ := merge_assoc (hholds a ha) (hholds b hb) (hholds c hc)
    exact ⟨hiff, fun ab r bc r' h₁ h₂ h₃ h₄ => hsame r r' (hres ab r bc r' h₁ h₂ h₃ h₄)⟩
  identity := by
    intro a e ha he hcfg
    obtain ⟨S, c, hrep, hf⟩ := hholds a ha
    -- merging with an empty log is accepted from either side, and neither changes the contents
    obtain ⟨⟨r, hr, hres⟩, r', hr', hres'⟩ := merge_empty hrep hf (hempty S c a e hrep he hcfg)
    exact ⟨⟨r, hr, hsame r a hres⟩, r', hr', hsame r' a hres'⟩
  homomorphism := by
    intro e₁ e₂ e a b xs ys h₁ h₂ he hcfg₁ hcfg₂ hxs hys
    obtain ⟨hreach, hcfg⟩ := hfresh e he
    obtain ⟨S, c, hrep, -⟩ := hholds e hreach
    have hempty' := hempty S c e
    obtain ⟨hiff, hres⟩ := merge_runs (hempty' e₁ hrep h₁ hcfg₁) (hempty' e₂ hrep h₂ hcfg₂)
      (hempty' e hrep he hcfg) hxs hys
    exact ⟨hiff, fun r r' hr hr' => hsame r r' (hres r r' hr hr')⟩

namespace StreamLog

/-- A newly constructed log. -/
def Fresh (log : StreamLog) : Prop := ∃ cfg, new cfg = .ok log

/-- The two logs have the same accuracy, precision, width and depth. -/
def SameConfig (a b : StreamLog) : Prop :=
  a.latency.alpha = b.latency.alpha ∧ a.uniques.p = b.uniques.p ∧ a.events.width = b.events.width
    ∧ a.events.depth = b.events.depth

/-- The two logs agree in everything but the `deterministic` flag. -/
def SameState (a b : StreamLog) : Prop :=
  a.latency = b.latency ∧ a.events = b.events ∧ a.uniques = b.uniques ∧ a.total = b.total

variable {M : IndexMapping} {a b : StreamLog} {S : Shape}

theorem sameState_of_same (h : (backend M).Same a b) : SameState a b := by
  obtain ⟨S, c, ha, hb⟩ := h
  have heq := Represents.log_eq ha hb
  rw [SameState, heq]
  exact ⟨rfl, rfl, rfl, rfl⟩

/-- A fresh log with the configuration of a log of shape `S` is the empty log of shape `S`. -/
theorem empty_of_fresh {c : Contents S} (hb : b.Represents c) (ha : Fresh a) (h : SameConfig a b) :
    (backend M).Empty a S := by
  obtain ⟨cfg, hnew⟩ := ha
  obtain ⟨S', -, -, -, -, -, rfl⟩ := new_eq_ok.mp hnew
  have hrep := represents_emptyOf S' cfg.deterministic
  obtain ⟨halpha, hp, hwidth, hdepth⟩ := h
  rw [hrep.alpha, hb.alpha] at halpha
  rw [hrep.uniques, hb.uniques] at hp
  rw [hrep.events, hb.events] at hwidth hdepth
  obtain rfl : S' = S := Shape.ext halpha hp hwidth hdepth
  exact hrep

theorem mergeLaws (M : IndexMapping) :
    MergeLaws (Reachable M) Fresh SameConfig SameState (ingest M) merge := by
  refine (backend M).mergeLaws (fun log h => ?_) (fun e he => ?_)
    (fun S c a e hrep he hcfg => empty_of_fresh hrep he hcfg) fun a b h => sameState_of_same h
  · obtain ⟨S, c, -, hrep, hf⟩ := h.holds
    exact ⟨S, c, hrep, hf⟩
  · obtain ⟨cfg, hnew⟩ := he
    exact ⟨.new cfg hnew, rfl, rfl, rfl, rfl⟩

end StreamLog

namespace Cpp.StreamLog

/-- A newly constructed log. -/
def Fresh (log : StreamLog) : Prop :=
  ∃ relativeAccuracy hllPrecision cmsWidth cmsDepth,
    new relativeAccuracy hllPrecision cmsWidth cmsDepth = .ok log

/-- The two logs have the same accuracy, precision, width and depth. -/
def SameConfig (a b : StreamLog) : Prop :=
  a.latency.alpha = b.latency.alpha ∧ a.uniques.p = b.uniques.p ∧ a.events.width = b.events.width
    ∧ a.events.depth = b.events.depth

variable {M : IndexMapping} {a b : StreamLog} {S : Shape}

theorem eq_of_same (h : (backend M).Same a b) : a = b := by
  obtain ⟨S, c, ha, hb⟩ := h
  exact Represents.log_eq ha hb

theorem empty_of_fresh {c : Contents S} (hb : b.Represents c) (ha : Fresh a) (h : SameConfig a b) :
    (backend M).Empty a S := by
  obtain ⟨x, p, w, dp, hnew⟩ := ha
  obtain ⟨S', -, -, -, -, rfl⟩ := new_eq_ok hnew
  have hrep := represents_emptyOf S'
  obtain ⟨halpha, hp, hwidth, hdepth⟩ := h
  have halpha' : S'.alpha = S.alpha := (congrArg Binary64.val halpha).trans hb.alpha
  rw [hrep.uniques, hb.uniques] at hp
  rw [hrep.events, hb.events] at hwidth hdepth
  obtain rfl : S' = S := Shape.ext halpha' hp hwidth hdepth
  exact hrep

theorem mergeLaws (M : IndexMapping) :
    MergeLaws (Reachable M) Fresh SameConfig (· = ·) (ingest M) merge := by
  refine (backend M).mergeLaws (fun log h => h.holds) (fun e he => ?_)
    (fun S c a e hrep he hcfg => empty_of_fresh hrep he hcfg) fun a b h => eq_of_same h
  obtain ⟨x, p, w, dp, hnew⟩ := he
  exact ⟨.new x p w dp hnew, rfl, rfl, rfl, rfl⟩

end Cpp.StreamLog

/-- **The algebra of `merge`, including rejections**, in the Python backend and in the C++ backend. -/
theorem merge_algebra (M : IndexMapping) :
    MergeLaws (StreamLog.Reachable M) StreamLog.Fresh StreamLog.SameConfig StreamLog.SameState
        (StreamLog.ingest M) StreamLog.merge
      ∧ MergeLaws (Cpp.StreamLog.Reachable M) Cpp.StreamLog.Fresh Cpp.StreamLog.SameConfig (· = ·)
        (Cpp.StreamLog.ingest M) Cpp.StreamLog.merge :=
  ⟨StreamLog.mergeLaws M, Cpp.StreamLog.mergeLaws M⟩

end Sketchlog
