import Mathlib.Data.Set.Finite.Lemmas
import Mathlib.Data.Set.Finite.List

/-!
# Locks taken in order

When every process takes its locks in increasing order, they cannot all wait for each other: the
process that waits for the largest lock would wait for one that waits for a larger lock still.
-/

namespace LockOrder

/-- The locks a process takes, in this order, and how many of them it has. -/
structure Claim where
  locks : List ℕ
  taken : ℕ

namespace Claim

/-- The locks it has. -/
def held (p : Claim) : List ℕ := p.locks.take p.taken

/-- The lock it waits for. -/
def wanted (p : Claim) : Option ℕ := p.locks[p.taken]?

end Claim

/-- **No deadlock.** Of some processes that take their locks in order, one does not wait, or waits
for a lock that none of them has. -/
theorem exists_unblocked {ps : List Claim} (hne : ps ≠ [])
    (hsorted : ∀ p ∈ ps, p.locks.Pairwise (· < ·)) :
    ∃ p ∈ ps, ∀ l, p.wanted = some l → ∀ q ∈ ps, l ∉ q.held := by
  by_contra hblocked
  push Not at hblocked
  obtain ⟨p, hp, hmax⟩ := Set.exists_max_image {p | p ∈ ps} (fun p =>
    p.wanted.getD 0) (List.finite_toSet ps)
    (List.exists_mem_of_ne_nil ps hne)
  obtain ⟨l, hl, q, hq, hheld⟩ := hblocked p hp
  obtain ⟨l', hl', -⟩ := hblocked q hq
  -- the holder waits for a larger lock
  have hlt : l < l' := by
    obtain ⟨i, hi, hget⟩ := List.mem_take_iff_getElem.mp hheld
    obtain ⟨hlen, hget'⟩ := List.getElem?_eq_some_iff.mp hl'
    have hord := List.pairwise_iff_getElem.mp (hsorted q hq) i q.taken (by omega) hlen (by omega)
    rwa [hget, hget'] at hord
  have hle := hmax q hq
  rw [hl, hl'] at hle
  exact absurd hlt (not_lt.mpr hle)

end LockOrder
