import Mathlib.Data.List.Basic
import Mathlib.Logic.Function.Basic

/-!
# Series behind keys

Observations of several series arrive interleaved, and a table keeps the last value under the key of
each series; what an observation gives depends on the value that is found there. Where the key
separates the series, each gets what it would get alone (`feed_eq_alone`).
-/

namespace Keyed

variable {ι κ β γ : Type*} [DecidableEq κ] (key : ι → κ) (out : Option β → β → γ)

/-- What each observation gives, with the table that the observations before it have left. -/
def feed (table : κ → Option β) : List (ι × β) → List (ι × γ)
  | [] => []
  | (i, b) :: rest => (i, out (table (key i)) b) :: feed (Function.update table (key i) (some b)) rest

/-- What the observations of one series give, after the value `prev`. -/
def alone (prev : Option β) : List β → List γ
  | [] => []
  | b :: rest => out prev b :: alone (some b) rest

/-- The part of a trace that belongs to one series. -/
def ofSeries {δ : Type*} [DecidableEq ι] (i : ι) (trace : List (ι × δ)) : List δ :=
  (trace.filter fun x => x.1 = i).map Prod.snd

variable {key out} [DecidableEq ι]

theorem ofSeries_cons_self {δ : Type*} {i : ι} {b : δ} {rest : List (ι × δ)} :
    ofSeries i ((i, b) :: rest) = b :: ofSeries i rest := by
  simp [ofSeries]

theorem ofSeries_cons_of_ne {δ : Type*} {i j : ι} {b : δ} {rest : List (ι × δ)} (h : j ≠ i) :
    ofSeries i ((j, b) :: rest) = ofSeries i rest := by
  simp [ofSeries, h]

/-- **Separation.** A series whose key no other series of the trace has gets what it would get alone. -/
theorem feed_eq_alone {i : ι} {obs : List (ι × β)} {table : κ → Option β}
    (hsep : ∀ x ∈ obs, key x.1 = key i → x.1 = i) :
    ofSeries i (feed key out table obs) = alone out (table (key i)) (ofSeries i obs) := by
  induction obs generalizing table with
  | nil => rfl
  | cons x rest ih =>
    obtain ⟨j, b⟩ := x
    have hrest : ∀ x ∈ rest, key x.1 = key i → x.1 = i := fun x hx => hsep x (List.mem_cons_of_mem _ hx)
    show ofSeries i ((j, out (table (key j)) b) :: feed key out
      (Function.update table (key j) (some b)) rest) = _
    by_cases hj : j = i
    · rw [hj, ofSeries_cons_self, ofSeries_cons_self, ih hrest, Function.update_self]
      rfl
    · have hkey : key i ≠ key j := fun h => hj (hsep (j, b) List.mem_cons_self h.symm)
      rw [ofSeries_cons_of_ne hj, ofSeries_cons_of_ne hj, ih hrest, Function.update_of_ne hkey]

end Keyed
