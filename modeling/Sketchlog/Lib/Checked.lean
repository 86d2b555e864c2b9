import Mathlib

/-!
# Readers that validate as they go

A validator is a computation `Except ε α` built from reads and checks. What it accepts is read off
its text: a sequence of statements succeeds when every statement does, a check when its condition is
false, a loop over a list when it succeeds at every element. What it may raise is what its statements
may raise (`Raises`).
-/

namespace Checked

variable {ε α β : Type}

/-- `if c: raise e`, on local variables. -/
def failIf (c : Prop) [Decidable c] (e : ε) : Except ε Unit :=
  if c then .error e else .ok ()

theorem bind_eq_ok {x : Except ε α} {f : α → Except ε β} {b : β} :
    (x >>= f) = .ok b ↔ ∃ a, x = .ok a ∧ f a = .ok b := by
  cases x with
  | error e =>
    constructor
    · intro h
      cases h
    · rintro ⟨a, ha, -⟩
      cases ha
  | ok a =>
    constructor
    · intro h
      exact ⟨a, rfl, h⟩
    · rintro ⟨a', ha, hb⟩
      cases ha
      exact hb

theorem ok_bind (a : α) (f : α → Except ε β) : (.ok a >>= f) = f a := rfl

theorem ite_ok_eq_ok {c : Prop} [Decidable c] {a b : α} {e : ε} :
    (if c then .ok a else .error e : Except ε α) = .ok b ↔ c ∧ a = b := by
  split
  · next h => simp [h]
  · next h => simp [h]

@[simp] theorem failIf_eq_ok {c : Prop} [Decidable c] {e : ε} {u : Unit} :
    failIf c e = .ok u ↔ ¬ c := by
  unfold failIf
  split
  · next h => simp [h]
  · next h => simp [h]

/-- Statements that return nothing. -/
theorem exists_unit {p : Unit → Prop} : (∃ u, p u) ↔ p () :=
  ⟨fun ⟨_, h⟩ => h, fun h => ⟨(), h⟩⟩

/-- A loop over a list succeeds when it succeeds at every element. -/
theorem mapM_eq_ok {f : α → Except ε β} {xs : List α} {ys : List β} :
    xs.mapM f = .ok ys ↔ List.Forall₂ (fun x y => f x = .ok y) xs ys := by
  induction xs generalizing ys with
  | nil =>
    rw [List.mapM_nil, List.forall₂_nil_left_iff]
    exact ⟨fun h => by cases h; rfl, fun h => by rw [h]; rfl⟩
  | cons x xs ih =>
    rw [List.mapM_cons, bind_eq_ok, List.forall₂_cons_left_iff]
    simp only [bind_eq_ok]
    constructor
    · rintro ⟨y, hy, ys', hys, h⟩
      cases h
      exact ⟨y, ys', hy, ih.mp hys, rfl⟩
    · rintro ⟨y, ys', hy, hys, rfl⟩
      exact ⟨y, hy, ys', ih.mpr hys, rfl⟩

/-- A loop whose rounds all succeed succeeds. -/
theorem exists_mapM {f : α → Except ε β} {xs : List α} (h : ∀ x ∈ xs, ∃ y, f x = .ok y) :
    ∃ ys, xs.mapM f = .ok ys := by
  induction xs with
  | nil => exact ⟨[], rfl⟩
  | cons x xs ih =>
    obtain ⟨y, hy⟩ := h x List.mem_cons_self
    obtain ⟨ys, hys⟩ := ih fun x hx => h x (List.mem_cons_of_mem _ hx)
    refine ⟨y :: ys, ?_⟩
    rw [List.mapM_cons, hy, hys]
    rfl

/-- A loop over statements that return nothing. -/
theorem forM_eq_ok {f : α → Except ε Unit} {xs : List α} : xs.forM f = .ok ()
    ↔ ∀ x ∈ xs, f x = .ok () := by
  induction xs with
  | nil => exact iff_of_true rfl fun x hx => absurd hx List.not_mem_nil
  | cons x xs ih =>
    show (f x >>= fun _ => xs.forM f) = .ok () ↔ _
    rw [bind_eq_ok, exists_unit, ih, List.forall_mem_cons]

/-- A loop with a reader that accepts exactly the values `g y` with `p y`. -/
theorem mapM_eq_ok_of_iff {f : α → Except ε β} {g : β → α} {p : β → Prop}
    (hf : ∀ x y, f x = .ok y ↔ x = g y ∧ p y) {xs : List α} {ys : List β} :
    xs.mapM f = .ok ys ↔ xs = ys.map g ∧ ∀ y ∈ ys, p y := by
  rw [mapM_eq_ok]
  simp only [hf]
  -- the head by the one-step equivalence, the tail by the induction hypothesis
  induction xs generalizing ys with
  | nil =>
    rw [List.forall₂_nil_left_iff]
    constructor
    · rintro rfl
      simp
    · rintro ⟨h, -⟩
      simpa using h.symm
  | cons x xs ih =>
    rw [List.forall₂_cons_left_iff]
    constructor
    · rintro ⟨y, ys', ⟨rfl, hy⟩, hys, rfl⟩
      obtain ⟨rfl, hall⟩ := ih.mp hys
      exact ⟨rfl, List.forall_mem_cons.mpr ⟨hy, hall⟩⟩
    · rintro ⟨h, hall⟩
      cases ys with
      | nil => cases h
      | cons y ys =>
        rw [List.map_cons, List.cons.injEq] at h
        rw [List.forall_mem_cons] at hall
        exact ⟨y, ys, ⟨h.1, hall.1⟩, ih.mpr ⟨h.2, hall.2⟩, rfl⟩

/-- What every step of a loop keeps, the loop keeps. -/
theorem foldlM_keeps {f : β → α → Except ε β} {I : β → Prop} {xs : List α} {b b' : β}
    (hstep : ∀ b x b', x ∈ xs → I b → f b x = .ok b' → I b') (h : I b)
    (hrun : xs.foldlM f b = .ok b') : I b' := by
  induction xs generalizing b with
  | nil =>
    cases hrun
    exact h
  | cons x xs ih =>
    rw [List.foldlM_cons, bind_eq_ok] at hrun
    obtain ⟨b₁, hfirst, hrest⟩ := hrun
    have hI := hstep b x b₁ List.mem_cons_self h hfirst
    exact ih (fun b y b' hy => hstep b y b' (List.mem_cons_of_mem _ hy)) hI hrest

/-- A loop whose steps succeed while an invariant holds is a loop without errors. -/
theorem foldlM_eq_foldl {f : β → α → Except ε β} {g : β → α → β} {I : β → Prop} {xs : List α} {b : β}
    (hstep : ∀ b x, x ∈ xs → I b → f b x = .ok (g b x) ∧ I (g b x)) (h : I b) :
    xs.foldlM f b = .ok (xs.foldl g b) ∧ I (xs.foldl g b) := by
  induction xs generalizing b with
  | nil => exact ⟨rfl, h⟩
  | cons x xs ih =>
    obtain ⟨hfirst, hI⟩ := hstep b x List.mem_cons_self h
    rw [List.foldlM_cons, hfirst]
    exact ih (fun b y hy => hstep b y (List.mem_cons_of_mem _ hy)) hI

/-- A loop whose steps succeed and keep an invariant succeeds and keeps it. -/
theorem foldlM_ok {f : β → α → Except ε β} {I : β → Prop} (xs : List α) {b : β}
    (hstep : ∀ b x, x ∈ xs → I b → ∃ b', f b x = .ok b' ∧ I b') (h : I b) :
      ∃ b', xs.foldlM f b = .ok b' ∧ I b' := by
  induction xs generalizing b with
  | nil => exact ⟨b, rfl, h⟩
  | cons x xs ih =>
    obtain ⟨b₁, hfirst, hI⟩ := hstep b x List.mem_cons_self h
    rw [List.foldlM_cons, hfirst]
    exact ih (fun b y hy => hstep b y (List.mem_cons_of_mem _ hy)) hI

/-! ## What a reader raises

`Raises p x` bounds the errors of a computation. It goes through binds and loops, so a parser is
checked by checking its primitive readers. -/

/-- Whatever the computation raises satisfies `p`. -/
def Raises (p : ε → Prop) (x : Except ε α) : Prop := ∀ e, x = .error e → p e

namespace Raises

variable {p : ε → Prop} {x : Except ε α}

theorem of_ok (a : α) : Raises p (.ok a : Except ε α) := fun _ h => nomatch h

theorem of_error {e : ε} (h : p e) : Raises p (.error e : Except ε α) :=
  fun _ he => Except.error.inj he ▸ h

theorem bind {f : α → Except ε β} (hx : Raises p x) (hf : ∀ a, x = .ok a → Raises p (f a)) :
    Raises p (x >>= f) := by
  intro e he
  cases hcase : x with
  | ok a =>
    rw [hcase] at he
    exact hf a hcase e he
  | error e' =>
    rw [hcase] at he
    cases he
    exact hx e hcase

theorem map {f : α → β} (hx : Raises p x) : Raises p (x.map f) := by
  intro e he
  cases hcase : x with
  | ok a =>
    rw [hcase] at he
    cases he
  | error e' =>
    rw [hcase] at he
    cases he
    exact hx e hcase

theorem failIf {c : Prop} [Decidable c] {e : ε} (h : p e) : Raises p (Checked.failIf c e) := by
  unfold Checked.failIf
  split
  · exact of_error h
  · exact of_ok ()

theorem mapM {f : α → Except ε β} (hf : ∀ a, Raises p (f a)) (xs : List α) : Raises p (xs.mapM f) := by
  induction xs with
  | nil => exact of_ok []
  | cons a xs ih =>
    rw [List.mapM_cons]
    exact (hf a).bind fun b _ => ih.bind fun bs _ => of_ok (b :: bs)

theorem forM {f : α → Except ε Unit} (hf : ∀ a, Raises p (f a)) (xs : List α) :
    Raises p (xs.forM f) := by
  induction xs with
  | nil => exact of_ok ()
  | cons a xs ih => exact (hf a).bind fun _ _ => ih

theorem foldlM {f : β → α → Except ε β} (hf : ∀ b a, Raises p (f b a)) (xs : List α) (b : β) :
    Raises p (xs.foldlM f b) := by
  induction xs generalizing b with
  | nil => exact of_ok b
  | cons a xs ih =>
    rw [List.foldlM_cons]
    exact (hf b a).bind fun b' _ => ih b'

end Raises

end Checked
