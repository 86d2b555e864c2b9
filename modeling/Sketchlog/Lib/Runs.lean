import Mathlib.Data.List.Infix

/-!
# Runs of a transition function

A program that takes one action after another is a function `step : σ → α → Option σ`, where `none` says
that the action is not possible in the state. `run` performs a list of actions. What one step keeps a
whole run keeps (`run_invariant`); a step may be asked to meet a condition on the state it is taken
in, and then so may every step of the run (`Meets`).
-/

namespace Runs

variable {σ α : Type*} {step : σ → α → Option σ} {s t : σ} {a : α} {as bs : List α}

/-- The state after a list of actions, when all of them are possible. -/
def run (step : σ → α → Option σ) (s : σ) (as : List α) : Option σ := as.foldlM step s

@[simp] theorem run_nil : run step s [] = some s := rfl

theorem run_cons : run step s (a :: as) = some t ↔ ∃ s', step s a = some s' ∧ run step s' as
    = some t := by
  show (step s a).bind (fun s' => run step s' as) = some t ↔ _
  exact Option.bind_eq_some_iff

theorem run_append :
    run step s (as ++ bs) = some t ↔ ∃ s', run step s as = some s' ∧ run step s' bs = some t := by
  induction as generalizing s with
  | nil => simp
  | cons a as ih =>
    rw [List.cons_append, run_cons]
    constructor
    · intro ⟨s₁, hstep, hrun⟩
      obtain ⟨s₂, hrun₁, hrun₂⟩ := ih.mp hrun
      exact ⟨s₂, run_cons.mpr ⟨s₁, hstep, hrun₁⟩, hrun₂⟩
    · intro ⟨s₂, hrun₁, hrun₂⟩
      obtain ⟨s₁, hstep, hrun⟩ := run_cons.mp hrun₁
      exact ⟨s₁, hstep, ih.mpr ⟨s₂, hrun, hrun₂⟩⟩

/-- Every action of a run meets a condition in the state it is taken in. -/
def Meets (step : σ → α → Option σ) (cond : σ → α → Prop) (s : σ) : List α → Prop
  | [] => True
  | a :: as => cond s a ∧ ∀ s', step s a = some s' → Meets step cond s' as

instance decidableMeets {cond : σ → α → Prop} [∀ s a, Decidable (cond s a)] :
    ∀ (s : σ) (as : List α), Decidable (Meets step cond s as)
  | _, [] => .isTrue trivial
  | s, a :: as =>
    match h : step s a with
    | none => decidable_of_iff (cond s a)
        ⟨fun hcond => ⟨hcond, fun s' hs' =>
          absurd (h.symm.trans hs') (Option.some_ne_none s').symm⟩, fun h => h.1⟩
    | some s' =>
      have : Decidable (Meets step cond s' as) := decidableMeets s' as
      decidable_of_iff (cond s a ∧ Meets step cond s' as)
        ⟨fun hmeets => ⟨hmeets.1, fun _ hs'' => Option.some.inj (h.symm.trans hs'') ▸ hmeets.2⟩,
          fun hmeets => ⟨hmeets.1, hmeets.2 s' h⟩⟩

/-- **Invariants.** What every step that meets the condition keeps, a run that meets it keeps. -/
theorem run_invariant {cond : σ → α → Prop} {I : σ → Prop}
    (hstep : ∀ s a s', I s → cond s a → step s a = some s' → I s') (hs : I s)
    (hmeets : Meets step cond s as) (hrun : run step s as = some t) : I t := by
  induction as generalizing s with
  | nil =>
    cases hrun
    exact hs
  | cons a as ih =>
    obtain ⟨s', hs', hrun'⟩ := run_cons.mp hrun
    exact ih (hstep s a s' hs hmeets.1 hs') (hmeets.2 s' hs') hrun'

/-- One more step at the front of a run that meets a condition. -/
theorem run_meets_cons {cond : σ → α → Prop} {s' : σ} (hstep : step s a = some s') (hcond : cond s a)
    (h : run step s' as = some t ∧ Meets step cond s' as) :
    run step s (a :: as) = some t ∧ Meets step cond s (a :: as) := by
  refine ⟨run_cons.mpr ⟨s', hstep, h.1⟩, hcond, fun s'' hs'' => ?_⟩
  cases hstep.symm.trans hs''
  exact h.2

/-- A run that meets a condition meets it from its start on. -/
theorem meets_initial {cond : σ → α → Prop} (hbs : bs <+: as) (h : Meets step cond s as) :
    Meets step cond s bs := by
  induction bs generalizing s as with
  | nil => trivial
  | cons b bs ih =>
    obtain ⟨rest, rfl⟩ := hbs
    exact ⟨h.1, fun s' hs' => ih (List.prefix_append bs rest) (h.2 s' hs')⟩

/-- The condition that asks nothing. -/
theorem meets_true : Meets step (fun _ _ => True) s as := by
  induction as generalizing s with
  | nil => trivial
  | cons a as ih => exact ⟨trivial, fun _ _ => ih⟩

/-- **A condition that is exact.** When the steps from an invariant state that meet the condition
are those that reach a good state, the runs that meet it are those all of whose states are good. -/
theorem meets_iff_forall_reached {cond : σ → α → Prop} {I good : σ → Prop}
    (hgood : ∀ s, I s → good s)
    (hkeep : ∀ s a s', I s → cond s a → step s a = some s' → I s')
    (hneed : ∀ s a s', I s → step s a = some s' → good s' → cond s a)
    (hs : I s) (hrun : run step s as = some t) :
    Meets step cond s as ↔ ∀ bs, bs <+: as → ∀ s', run step s bs = some s' → good s' := by
  -- the invariant goes along the prefix as long as the condition holds
  constructor
  · intro hmeets bs
    induction bs generalizing s as with
    | nil =>
      intro _ s' hs'
      cases hs'
      exact hgood s hs
    | cons b bs ih =>
      intro hprefix s' hs'
      obtain ⟨rest, rfl⟩ := hprefix
      obtain ⟨s₁, hstep, hrun₁⟩ := run_cons.mp hs'
      obtain ⟨s₂, hstep₂, hrun₂⟩ := run_cons.mp hrun
      cases hstep.symm.trans hstep₂
      exact ih (hkeep s b s₁ hs hmeets.1 hstep) hrun₂ (hmeets.2 s₁ hstep)
        (List.prefix_append bs rest) s'
        hrun₁
  · intro hall
    induction as generalizing s with
    | nil => trivial
    | cons a as ih =>
      obtain ⟨s₁, hstep, hrun₁⟩ := run_cons.mp hrun
      -- the state after one more step is reached by a prefix, so it is good, and the step needed the
      -- condition
      have hgood₁ : good s₁ := hall [a] ⟨as, rfl⟩ s₁ (run_cons.mpr ⟨s₁, hstep, rfl⟩)
      have hcond := hneed s a s₁ hs hstep hgood₁
      refine ⟨hcond, fun s₁' hstep' => ?_⟩
      cases hstep.symm.trans hstep'
      refine ih (hkeep s a s₁ hs hcond hstep) hrun₁ fun bs hprefix s' hs' => ?_
      exact hall (a :: bs) (List.cons_prefix_cons.mpr ⟨rfl, hprefix⟩) s'
        (run_cons.mpr ⟨s₁, hstep, hs'⟩)

/-- A run meets a condition when every one of its steps does. -/
theorem meets_iff_forall_steps {cond : σ → α → Prop} :
    Meets step cond s as ↔ ∀ bs a, bs ++ [a] <+: as → ∀ t, run step s bs = some t → cond t a := by
  constructor
  · intro hmeets bs a hprefix t hrun
    have hmeets' := meets_initial hprefix hmeets
    clear hprefix hmeets
    induction bs generalizing s with
    | nil =>
      cases hrun
      exact hmeets'.1
    | cons b bs ih =>
      obtain ⟨s', hstep, hrun'⟩ := run_cons.mp hrun
      exact ih hrun' (hmeets'.2 s' hstep)
  · intro hall
    induction as generalizing s with
    | nil => trivial
    | cons b as ih =>
      refine ⟨hall [] b ⟨as, rfl⟩ s rfl, fun s' hstep => ih fun bs a hprefix t hrun => ?_⟩
      exact hall (b :: bs) a (List.cons_prefix_cons.mpr ⟨rfl, hprefix⟩) t
        (run_cons.mpr ⟨s', hstep, hrun⟩)

/-- **Projections.** A run is followed step by step by a run of another transition function. -/
theorem run_follows {τ : Type*} {step' : τ → α → Option τ} {R : σ → τ → Prop}
    (hstep : ∀ s a s' t, R s t → step s a = some s' → ∃ t', step' t a = some t' ∧ R s' t')
    {s' : σ} {t : τ} (hR : R s t) (hrun : run step s as = some s') :
    ∃ t', run step' t as = some t' ∧ R s' t' := by
  induction as generalizing s t with
  | nil =>
    cases hrun
    exact ⟨t, rfl, hR⟩
  | cons a as ih =>
    obtain ⟨s₁, hs₁, hrun₁⟩ := run_cons.mp hrun
    obtain ⟨t₁, ht₁, hR₁⟩ := hstep s a s₁ t hR hs₁
    obtain ⟨t', hrun', hR'⟩ := ih hR₁ hrun₁
    exact ⟨t', run_cons.mpr ⟨t₁, ht₁, hrun'⟩, hR'⟩

/-- A run whose steps are all possible where the invariant holds is possible. -/
theorem exists_run {I : σ → Prop} (hstep : ∀ s a, I s → ∃ s', step s a = some s' ∧ I s') (hs : I s) :
    ∃ t, run step s as = some t ∧ I t := by
  induction as generalizing s with
  | nil => exact ⟨s, rfl, hs⟩
  | cons a as ih =>
    obtain ⟨s', hs', hI⟩ := hstep s a hs
    obtain ⟨t, hrun, ht⟩ := ih hI
    exact ⟨t, run_cons.mpr ⟨s', hs', hrun⟩, ht⟩

/-- **Two transition functions.** Their runs from one state agree as long as their steps do. -/
theorem runs_agree_iff {step' : σ → α → Option σ} :
    (∀ bs, bs <+: as → run step s bs = run step' s bs)
      ↔ Meets step (fun t a => step t a = step' t a) s as := by
  induction as generalizing s with
  | nil =>
    refine ⟨fun _ => trivial, fun _ bs hbs => ?_⟩
    rw [List.prefix_nil.mp hbs]
    rfl
  -- both runs take their first step from one state, and the rest is the induction hypothesis
  | cons a as ih =>
    have hcons : ∀ bs, run step s (a :: bs) = (step s a).bind fun s' => run step s' bs := fun _ => rfl
    have hcons' : ∀ bs, run step' s (a :: bs) = (step' s a).bind fun s' => run step' s' bs :=
      fun _ => rfl
    constructor
    · intro h
      have hfirst : step s a = step' s a := by
        have hone := h [a] ⟨as, rfl⟩
        rw [hcons, hcons'] at hone
        simpa using hone
      refine ⟨hfirst, fun s' hs' => ih.mp fun bs hbs => ?_⟩
      have hrest := h (a :: bs) (List.cons_prefix_cons.mpr ⟨rfl, hbs⟩)
      rw [hcons, hcons', ← hfirst, hs'] at hrest
      exact hrest
    · intro ⟨hfirst, hmeets⟩ bs hbs
      cases bs with
      | nil => rfl
      | cons b bs =>
        obtain ⟨rfl, hbs'⟩ := List.cons_prefix_cons.mp hbs
        rw [hcons, hcons', ← hfirst]
        cases hs' : step s b with
        | none => rfl
        | some s' => exact ih.mpr (hmeets s' hs') bs hbs'

end Runs
