import Sketchlog.Lib.LastWriter

/-!
# Copies that may be stale

A value is changed in place, each change with a greater version, and copies of it are written to a
register that keeps the greatest version. A copy is honest when it is not newer than the value, and
is the value if it is as new. Then a write of the value itself is kept whatever the register has
seen (`write_current`), and a write of a copy never takes the value's place (`write_stale`).
-/

namespace LastWriter

variable {W V : Type*} [LinearOrder V] {version : W → V} {current next copy kept : W} {r : Option W}

/-- A copy that claims no more than it has. -/
def Honest (version : W → V) (current copy : W) : Prop :=
  version copy ≤ version current ∧ (version copy = version current → copy = current)

theorem Honest.refl (current : W) : Honest version current current := ⟨le_rfl, fun _ => rfl⟩

/-- A change makes every copy stale. -/
theorem Honest.of_lt (h : Honest version current copy) (hlt : version current < version next) :
    Honest version next copy :=
  ⟨(h.1.trans_lt hlt).le, fun heq => absurd (heq ▸ h.1) (not_le.mpr hlt)⟩

/-- What a register keeps is what it kept or what is written. -/
theorem write_induction {P : W → Prop} (hr : ∀ kept, r = some kept → P kept) (hcopy : P copy)
    (hkept : LastWriter.write version r copy = some kept) : P kept := by
  cases r with
  | none =>
    cases hkept
    exact hcopy
  | some old =>
    by_cases hle : version copy ≤ version old
    · rw [LastWriter.write, if_pos hle] at hkept
      cases hkept
      exact hr _ rfl
    · rw [LastWriter.write, if_neg hle] at hkept
      cases hkept
      exact hcopy

/-- The value itself is stored, or is stored already. -/
theorem write_current (hr : ∀ kept, r = some kept → Honest version current kept) :
    LastWriter.write version r current = some current := by
  cases r with
  | none => rfl
  | some old =>
    obtain ⟨hle, heq⟩ := hr old rfl
    by_cases hskip : version current ≤ version old
    · rw [LastWriter.write, if_pos hskip, heq (le_antisymm hle hskip)]
    · rw [LastWriter.write, if_neg hskip]

/-- A copy does not replace the value. -/
theorem write_stale (h : Honest version current copy) :
    LastWriter.write version (some current) copy = some current := if_pos h.1

end LastWriter
