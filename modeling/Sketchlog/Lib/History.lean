import Mathlib.Algebra.BigOperators.Group.List.Basic

/-!
# Histories of adds and merges

`Built start Adds Merges s h`: the state `s` was built from fresh states by adding items and merging
states so built, and `h` lists the items added along the way. When adding an item and merging both are
additions in a commutative monoid, a state so built holds the sum over its history (`Built.sum`).
-/

namespace History

/-- The states built from `start`, with the items added. -/
inductive Built {σ ι : Type*} (start : σ) (Adds : σ → ι → σ → Prop) (Merges : σ → σ → σ → Prop) :
    σ → List ι → Prop where
  | start : Built start Adds Merges start []
  | add {s s' : σ} {h : List ι} {e : ι} (hs : Built start Adds Merges s h) (he : Adds s e s') :
      Built start Adds Merges s' (h ++ [e])
  | merge {s o s' : σ} {h k : List ι} (hs : Built start Adds Merges s h)
      (ho : Built start Adds Merges o k) (hm : Merges s o s') : Built start Adds Merges s' (h ++ k)

variable {σ ι N : Type*} {start s : σ} {Adds : σ → ι → σ → Prop} {Merges : σ → σ → σ → Prop}
  {h : List ι}

/-- The state holds the sum over the history, and every item of the history was acceptable. -/
theorem Built.sum [AddCommMonoid N] {R : σ → N → Prop} {P : ι → Prop} (δ : ι → N) (hstart : R start 0)
    (hadd : ∀ s x e s', R s x → Adds s e s' → P e ∧ R s' (x + δ e))
    (hmerge : ∀ s o s' x y, R s x → R o y → Merges s o s' → R s' (x + y))
    (hb : Built start Adds Merges s h) : (∀ e ∈ h, P e) ∧ R s (h.map δ).sum := by
  -- an addition appends one entry, a merge appends the other history
  induction hb with
  | start =>
    refine ⟨fun e he => absurd he List.not_mem_nil, ?_⟩
    rw [List.map_nil, List.sum_nil]
    exact hstart
  | @add s s' h e _ he ih =>
    obtain ⟨hP, hR⟩ := ih
    obtain ⟨hPe, hRe⟩ := hadd s _ e s' hR he
    refine ⟨fun x hx => ?_, ?_⟩
    · rcases List.mem_append.mp hx with hx | hx
      · exact hP x hx
      · rw [List.mem_singleton.mp hx]
        exact hPe
    · rw [List.map_append, List.sum_append, List.map_singleton, List.sum_singleton]
      exact hRe
  | @merge s o s' h k _ _ hm ih ih' =>
    obtain ⟨hP, hR⟩ := ih
    obtain ⟨hP', hR'⟩ := ih'
    refine ⟨fun x hx => (List.mem_append.mp hx).elim (hP x) (hP' x), ?_⟩
    rw [List.map_append, List.sum_append]
    exact hmerge s o s' _ _ hR hR' hm

end History
