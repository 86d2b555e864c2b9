import Mathlib

/-!
# Last-writer-wins registers

A register keeps the write with the greatest version it has seen: `write` drops a write whose version
is not above the kept one. After any sequence of writes it keeps one with the greatest version
(`foldl_write`). When no two writes share a version, which one that is does not depend on the order or
on repetitions (`foldl_write_eq_some_iff`).
-/

namespace LastWriter

variable {W V : Type*} [LinearOrder V] {version : W → V}

/-- One write to a register; an empty register takes every write. -/
def write (version : W → V) (r : Option W) (w : W) : Option W :=
  match r with
  | none => some w
  | some kept => if version w ≤ version kept then some kept else some w

/-- `w` is among the writes and none is newer. -/
def Newest (version : W → V) (ws : List W) (w : W) : Prop := w ∈ ws ∧ ∀ x ∈ ws, version x ≤ version w

/-- A register that has kept `kept`. -/
theorem foldl_write (ws : List W) (kept : W) :
    ∃ w, ws.foldl (write version) (some kept) = some w ∧ Newest version (kept :: ws) w := by
  -- the newest of what is kept and the rest is the newest of all, whichever of the two is kept
  induction ws generalizing kept with
  | nil => exact ⟨kept, rfl, List.mem_cons_self, fun x hx => (List.mem_singleton.mp hx ▸ le_rfl)⟩
  | cons x ws ih =>
    rw [List.foldl_cons]
    by_cases hx : version x ≤ version kept
    · obtain ⟨w, hw, hmem, hle⟩ := ih kept
      refine ⟨w, ?_, ?_, ?_⟩
      · rw [write, if_pos hx, hw]
      · rcases List.mem_cons.mp hmem with rfl | hmem
        · exact List.mem_cons_self
        · exact List.mem_cons_of_mem _ (List.mem_cons_of_mem _ hmem)
      · intro y hy
        rcases List.mem_cons.mp hy with rfl | hy
        · exact hle y List.mem_cons_self
        · rcases List.mem_cons.mp hy with rfl | hy
          · exact le_trans hx (hle kept List.mem_cons_self)
          · exact hle y (List.mem_cons_of_mem _ hy)
    · obtain ⟨w, hw, hmem, hle⟩ := ih x
      refine ⟨w, ?_, List.mem_cons_of_mem _ hmem, ?_⟩
      · rw [write, if_neg hx, hw]
      · intro y hy
        rcases List.mem_cons.mp hy with rfl | hy
        · exact le_trans (le_of_not_ge hx) (hle x List.mem_cons_self)
        · exact hle y hy

/-- No two writes share a version. -/
def Distinct (version : W → V) (ws : List W) : Prop :=
  ∀ x ∈ ws, ∀ y ∈ ws, version x = version y → x = y

/-- **The newest write is kept.** -/
theorem foldl_write_eq_some_iff {ws : List W} (h : Distinct version ws) (w : W) :
    ws.foldl (write version) none = some w ↔ Newest version ws w := by
  cases ws with
  | nil => exact iff_of_false (fun hn => by cases hn) fun hn => absurd hn.1 List.not_mem_nil
  | cons x ws =>
    obtain ⟨w', hw', hmem, hle⟩ := @foldl_write W V _ version ws x
    rw [List.foldl_cons]
    show ws.foldl (write version) (some x) = some w ↔ _
    rw [hw', Option.some.injEq]
    constructor
    · intro heq
      subst heq
      exact ⟨hmem, hle⟩
    · intro hnewest
      exact h w' hmem w hnewest.1 (le_antisymm (hnewest.2 w' hmem) (hle w hnewest.1))

end LastWriter
