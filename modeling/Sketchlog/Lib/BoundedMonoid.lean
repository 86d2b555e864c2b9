import Sketchlog.Lib.Guarded

/-!
# Bounded commutative monoids

A commutative monoid of contents together with a predicate `Fits` that is inherited by parts: what
fits was built from things that fit. Adding under the condition that the sum fits is a partial
operation: regrouping never changes which sums succeed (`regroup`), and a program loop whose body adds
one delta after another succeeds at every step exactly when the total fits (`forM_outcome`).
-/

namespace BoundedMonoid

open Imperative

variable {A : Type} [AddCommMonoid A]

variable {Fits : A → Prop}

/-- Both groupings of three succeed at every step exactly when the sum of the three fits. -/
theorem regroup (hparts : ∀ a b, Fits (a + b) → Fits a) (a b c : A) :
    (Fits (a + b) ∧ Fits (a + b + c)) ↔ (Fits (b + c) ∧ Fits (a + (b + c))) := by
  constructor
  · rintro ⟨-, habc⟩
    rw [add_assoc] at habc
    exact ⟨hparts (b + c) a (by rwa [add_comm]), habc⟩
  · rintro ⟨-, habc⟩
    rw [← add_assoc] at habc
    exact ⟨hparts (a + b) c habc, habc⟩

/-- A loop whose body adds `delta b`, when the argument `b` is valid and the sum fits, adds the sum of
the deltas, when all arguments are valid and the total fits. -/
theorem forM_outcome {ε σ β : Type} {step : β → EStateM ε σ Unit} (Rep : σ → A → Prop)
    (Valid : β → Prop) (delta : β → A) (hparts : ∀ a b, Fits (a + b) → Fits a) (l : List β)
    (hstep : ∀ b ∈ l, ∀ s a, Rep s a → Fits a →
      Outcome (step b) s (Valid b ∧ Fits (a + delta b)) (Rep · (a + delta b)))
    {s : σ} {a : A} (hs : Rep s a) (ha : Fits a) :
    Outcome (l.forM step) s ((∀ b ∈ l, Valid b) ∧ Fits (a + (l.map delta).sum))
      (Rep · (a + (l.map delta).sum)) := by
  induction l generalizing s a with
  | nil =>
    refine .accept ⟨by simp, by simpa using ha⟩ s rfl ?_
    simpa using hs
  | cons b l ih =>
    show Outcome (step b >>= fun _ => l.forM step) s _ _
    rw [List.map_cons, List.sum_cons, ← add_assoc]
    have hhead := hstep b List.mem_cons_self s a hs ha
    have hstep' := fun b' hb' => hstep b' (List.mem_cons_of_mem b hb')
    -- the first sum is a part of the total, so the loop never raises before it has to
    refine (hhead.bind fun s' hb hs' => ih hstep' hs' hb.2).imp ?_ fun _ _ hR => hR
    constructor
    · rintro ⟨⟨hb, -⟩, hl, hsum⟩
      exact ⟨List.forall_mem_cons.mpr ⟨hb, hl⟩, hsum⟩
    · rintro ⟨hall, hsum⟩
      obtain ⟨hb, hl⟩ := List.forall_mem_cons.mp hall
      exact ⟨⟨hb, hparts _ _ hsum⟩, hl, hsum⟩

end BoundedMonoid
