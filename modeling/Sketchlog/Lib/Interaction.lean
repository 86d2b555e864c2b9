import Mathlib

/-!
# Programs that call their environment

A program makes calls and goes on with their answers (`Program`); an environment answers from a
state, which a call changes (`Program.run`). A cost of the answers is paid from a potential of the
state (`Program.cost_le`). Two environments that answer alike give the same run (`Program.run_eq`),
and for that they need to answer alike only up to the end: the rule asks it of the calls after which
some property still holds that is never regained.
-/

namespace Interaction

universe u v w

/-- What a program does next: it returns, or makes a call and goes on with the answer. -/
inductive Program {Op : Type u} (Ans : Op → Type v) (α : Type w) where
  | ret (a : α)
  | call (op : Op) (next : Ans op → Program Ans α)

namespace Program

variable {Op : Type u} {Ans : Op → Type v} {α : Type w} {σ τ : Type*}

/-- What the program returns, and the state that it leaves. -/
def run (handle : (op : Op) → σ → Ans op × σ) : Program Ans α → σ → α × σ
  | .ret a, s => (a, s)
  | .call op next, s => (next (handle op s).1).run handle (handle op s).2

/-- The calls, and their answers. -/
def trace (handle : (op : Op) → σ → Ans op × σ) : Program Ans α → σ → List ((op : Op) × Ans op)
  | .ret _, _ => []
  | .call op next, s => ⟨op, (handle op s).1⟩ :: (next (handle op s).1).trace handle (handle op s).2

variable {handle : (op : Op) → σ → Ans op × σ} {handle' : (op : Op) → τ → Ans op × τ}

/-- What the answers cost is paid from the potential. -/
theorem cost_le (cost : (op : Op) × Ans op → ℕ) (potential : σ → ℕ)
    (hpay : ∀ op s, cost ⟨op, (handle op s).1⟩ + potential (handle op s).2 ≤ potential s)
    (p : Program Ans α) (s : σ) :
    ((p.trace handle s).map cost).sum + potential (p.run handle s).2 ≤ potential s := by
  induction p generalizing s with
  | ret a => exact Nat.le_of_eq (Nat.zero_add _)
  | call op next ih =>
    -- the call is paid first, and the rest from what it leaves
    have hcall := hpay op s
    have hrest := ih (handle op s).1 (handle op s).2
    show (cost ⟨op, (handle op s).1⟩ :: ((next _).trace handle (handle op s).2).map cost).sum
      + potential ((next _).run handle (handle op s).2).2 ≤ potential s
    rw [List.sum_cons]
    omega

/-- What holds at the end, and is never regained, has held all the time. -/
theorem of_run {P : σ → Prop} (hlost : ∀ op s, P (handle op s).2 → P s) {p : Program Ans α} {s : σ}
    (hend : P (p.run handle s).2) : P s := by
  induction p generalizing s with
  | ret a => exact hend
  | call op next ih => exact hlost op s (ih _ hend)

/-- Two environments that answer alike until the property is lost. -/
theorem run_eq {P : σ → Prop} {R : σ → τ → Prop} (hlost : ∀ op s, P (handle op s).2 → P s)
    (hcall : ∀ op s t, R s t → P (handle op s).2 →
      (handle' op t).1 = (handle op s).1 ∧ R (handle op s).2 (handle' op t).2)
    {p : Program Ans α} {s : σ} {t : τ} (hR : R s t) (hend : P (p.run handle s).2) :
    (p.run handle' t).1 = (p.run handle s).1 ∧ R (p.run handle s).2 (p.run handle' t).2 := by
  induction p generalizing s t with
  | ret a => exact ⟨rfl, hR⟩
  | call op next ih =>
    -- what holds at the end holds after this call
    obtain ⟨hans, hR'⟩ := hcall op s t hR (of_run hlost hend)
    show ((next (handle' op t).1).run handle' (handle' op t).2).1 = _
      ∧ R _ ((next _).run handle' (handle' op t).2).2
    rw [hans]
    exact ih _ hR' hend

end Program

end Interaction
