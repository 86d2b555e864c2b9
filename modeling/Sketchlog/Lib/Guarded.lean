import Mathlib

/-!
# Statements that mutate an object and may raise

A method that mutates its receiver and may raise is an `EStateM ε σ Unit`: the receiver is the
state, and, unlike in `StateT σ (Except ε)`, the writes made before an exception survive it. A
check placed after the first write is therefore visible here, and "a failed call leaves the
receiver as it was" is a statement one has to prove.

* **`raiseIf`**, **`zoom`**, **`onCopy`** — the shapes straight-line code is made of: `if c: raise e`,
  a call on a field, and work on a copy that is moved back at the end. A computation on local
  variables, which may raise and never writes the receiver, is core's `liftExcept`.
* **`Guarded x s P R`** — the specification every mutator is given: from `s`, the statement `x` is
  accepted exactly when `P` holds, and then leaves a state with `R`; otherwise it raises and leaves
  `s`.
* **`Maintains I x`** — from any state with `I`, `x` returns and leaves one: no promise beyond the
  invariant.
* **`Outcome x s P R`** — the same without a promise about the state an exception leaves: what a loop
  on a copy satisfies, and `onCopy` turns into `Guarded`;
* the composition rules derive both for a method body from its parts, in the order of its text.
-/

namespace Imperative

variable {ε σ τ α : Type}

/-! ## Statements

The small statements programs are built of, each with its run: raising under a condition, working on
a part of the state, working on a copy. `Atomic` says that a statement that raises has changed
nothing. -/

/-- `if c: raise e`. -/
def raiseIf (c : Prop) [Decidable c] (e : ε) : EStateM ε σ Unit :=
  if c then throw e else pure ()

/-- A call `self.field.method(..)`: the method's writes land in the field, also when it raises. -/
def zoom (get : σ → τ) (put : τ → σ → σ) (x : EStateM ε τ α) : EStateM ε σ α := fun s =>
  match x.run (get s) with
  | .ok a t => .ok a (put t s)
  | .error e t => .error e (put t s)

/-- Work on a copy that is moved back at the end: an exception discards the copy. -/
def onCopy (x : EStateM ε σ α) : EStateM ε σ α := fun s =>
  match x.run s with
  | .ok a t => .ok a t
  | .error e _ => .error e s

/-- The receiver after a call, whether the call returned or raised. -/
def after (x : EStateM ε σ α) (s : σ) : σ :=
  match x.run s with
  | .ok _ t => t
  | .error _ t => t

/-- The call returns. -/
def Accepts (x : EStateM ε σ α) (s : σ) : Prop := ∃ a t, x.run s = .ok a t

instance (x : EStateM ε σ α) (s : σ) : Decidable (Accepts x s) :=
  match h : x.run s with
  | .ok a t => .isTrue ⟨a, t, h⟩
  | .error _ _ => .isFalse fun ⟨_, _, h'⟩ => by cases h.symm.trans h'

/-- An exception leaves the receiver as it was. -/
def Atomic (x : EStateM ε σ α) : Prop := ∀ s e t, x.run s = .error e t → t = s

@[simp] theorem run_raiseIf (c : Prop) [Decidable c] (e : ε) (s : σ) :
    (raiseIf c e : EStateM ε σ Unit).run s = if c then .error e s else .ok () s := by
  unfold raiseIf
  split <;> rfl

@[simp] theorem run_ite (c : Prop) [Decidable c] (x y : EStateM ε σ α) (s : σ) :
    (if c then x else y).run s = if c then x.run s else y.run s := by
  split <;> rfl

@[simp] theorem run_liftExcept_ok (a : α) (s : σ) :
    (liftExcept (.ok a : Except ε α) : EStateM ε σ α).run s = .ok a s := rfl

@[simp] theorem run_liftExcept_error (e : ε) (s : σ) :
    (liftExcept (.error e : Except ε α) : EStateM ε σ α).run s = .error e s := rfl

theorem run_zoom (get : σ → τ) (put : τ → σ → σ) (x : EStateM ε τ α) (s : σ) :
    (zoom get put x).run s = match x.run (get s) with
      | .ok a t => .ok a (put t s)
      | .error e t => .error e (put t s) := rfl

theorem run_onCopy (x : EStateM ε σ α) (s : σ) :
    (onCopy x).run s = match x.run s with
      | .ok a t => .ok a t
      | .error e _ => .error e s := rfl

/-! ## Statements that always return

`Maintains I x` says that `x` returns from every state in which `I` holds, and that `I` holds after
it. Binding, branching and looping keep it; the two loops go by induction on their lists. -/

/-- From a state with `I` the statement returns, and leaves one. -/
def Maintains (I : σ → Prop) (x : EStateM ε σ α) : Prop := ∀ s, I s → ∃ a t, x.run s = .ok a t ∧ I t

namespace Maintains

variable {β : Type} {I : σ → Prop} {x y : EStateM ε σ α}

theorem pure (a : α) : Maintains I (Pure.pure a : EStateM ε σ α) := fun s hs => ⟨a, s, rfl, hs⟩

theorem bind {f : α → EStateM ε σ β} (hx : Maintains I x) (hf : ∀ a, Maintains I (f a)) :
    Maintains I (x >>= f) := by
  intro s hs
  obtain ⟨a, t, hrun, ht⟩ := hx s hs
  obtain ⟨b, u, hrun', hu⟩ := hf a t ht
  refine ⟨b, u, ?_, hu⟩
  rw [EStateM.run_bind, hrun]
  exact hrun'

theorem ite {c : Prop} [Decidable c] (hx : Maintains I x) (hy : Maintains I y) :
    Maintains I (if c then x else y) := by
  split
  · exact hx
  · exact hy

/-- A loop whose rounds return. -/
theorem mapM {f : β → EStateM ε σ α} {xs : List β} (hf : ∀ b ∈ xs, Maintains I (f b)) :
    Maintains I (xs.mapM f) := by
  induction xs with
  | nil =>
    rw [List.mapM_nil]
    exact pure []
  | cons b bs ih =>
    rw [List.mapM_cons]
    have hrest := ih fun b hb => hf b (List.mem_cons_of_mem _ hb)
    exact (hf b List.mem_cons_self).bind fun a => hrest.bind fun as => pure (a :: as)

/-- A loop of statements that return nothing. -/
theorem forM {f : β → EStateM ε σ Unit} {xs : List β} (hf : ∀ b ∈ xs, Maintains I (f b)) :
    Maintains I (xs.forM f) := by
  induction xs with
  | nil => exact pure ()
  | cons b bs ih =>
    have hrest := ih fun b hb => hf b (List.mem_cons_of_mem _ hb)
    exact (hf b List.mem_cons_self).bind fun _ => hrest

end Maintains

/-! ## Guarded statements

`Guarded x s P R` is a whole specification of `x` at `s`: it returns exactly when `P` holds, what it
leaves satisfies `R`, and where it raises the state is `s` again. -/

/-- The specification of a mutator at a state: accepted exactly when `P` holds, leaving a state
with `R`, and otherwise raising with the state untouched. -/
inductive Guarded (x : EStateM ε σ Unit) (s : σ) (P : Prop) (R : σ → Prop) : Prop where
  | accept (hP : P) (s' : σ) (hrun : x.run s = .ok () s') (hR : R s')
  | reject (hP : ¬ P) (e : ε) (hrun : x.run s = .error e s)

namespace Guarded

variable {x y : EStateM ε σ Unit} {s : σ} {P Q : Prop} {R T : σ → Prop}

theorem run_ok (h : Guarded x s P R) (hP : P) : ∃ s', x.run s = .ok () s' ∧ R s' := by
  cases h with
  | accept _ s' hrun hR => exact ⟨s', hrun, hR⟩
  | reject hn => exact absurd hP hn

theorem run_error (h : Guarded x s P R) (hP : ¬ P) : ∃ e, x.run s = .error e s := by
  cases h with
  | accept hp => exact absurd hp hP
  | reject _ e hrun => exact ⟨e, hrun⟩

theorem accepts_iff (h : Guarded x s P R) : Accepts x s ↔ P := by
  cases h with
  | accept hP s' hrun => exact ⟨fun _ => hP, fun _ => ⟨(), s', hrun⟩⟩
  | reject hP e hrun =>
    refine ⟨fun ⟨a, t, hok⟩ => ?_, fun hp => absurd hp hP⟩
    rw [hrun] at hok
    cases hok

theorem of_run_ok (h : Guarded x s P R) {t : σ} (hrun : x.run s = .ok () t) : P ∧ R t := by
  cases h with
  | accept hP s' hrun' hR =>
    rw [hrun'] at hrun
    cases hrun
    exact ⟨hP, hR⟩
  | reject _ e hrun' =>
    rw [hrun'] at hrun
    cases hrun

theorem error_state (h : Guarded x s P R) {e : ε} {t : σ} (he : x.run s = .error e t) : t = s := by
  cases h with
  | accept _ _ hrun => rw [hrun] at he; cases he
  | reject _ _ hrun => rw [hrun] at he; cases he; rfl

theorem after_of_pos (h : Guarded x s P R) (hP : P) : R (after x s) := by
  obtain ⟨s', hrun, hR⟩ := h.run_ok hP
  unfold after
  rwa [hrun]

theorem after_of_neg (h : Guarded x s P R) (hP : ¬ P) : after x s = s := by
  obtain ⟨e, he⟩ := h.run_error hP
  unfold after
  rw [he]

/-- Replace the guard by an equivalent one and weaken the postcondition. -/
theorem imp (h : Guarded x s P R) (hPQ : P ↔ Q) (hRT : ∀ t, Q → R t → T t) : Guarded x s Q T := by
  cases h with
  | accept hP s' hrun hR => exact .accept (hPQ.mp hP) s' hrun (hRT s' (hPQ.mp hP) hR)
  | reject hP e hrun => exact .reject (fun hq => hP (hPQ.mpr hq)) e hrun

/-! ### Composition, in the order of a method's text -/

/-- Statements that cannot fail. -/
theorem of_ok {s' : σ} (h : y.run s = .ok () s') (hR : R s') : Guarded y s True R :=
  .accept trivial s' h hR

/-- `self` is read before the rest of the body. -/
theorem get_bind {k : σ → EStateM ε σ Unit} (h : Guarded (k s) s P R) :
    Guarded (get >>= k) s P R := by
  cases h with
  | accept hP s' hrun hR =>
    exact .accept hP s' (by rw [EStateM.run_bind, EStateM.run_get]; exact hrun) hR
  | reject hP e hrun => exact .reject hP e (by rw [EStateM.run_bind, EStateM.run_get]; exact hrun)

/-- A statement that only checks, followed by the rest of the body. -/
theorem bind (h : Guarded x s P (· = s)) (hy : P → Guarded y s Q R) :
    Guarded (x >>= fun _ => y) s (P ∧ Q) R := by
  cases h with
  | accept hP s' hrun hs =>
    subst hs
    cases hy hP with
    | accept hQ t hrun' hR =>
      exact .accept ⟨hP, hQ⟩ t (by rw [EStateM.run_bind, hrun]; exact hrun') hR
    | reject hQ e hrun' =>
      exact .reject (fun hn => hQ hn.2) e (by rw [EStateM.run_bind, hrun]; exact hrun')
  | reject hP e hrun => exact .reject (fun hn => hP hn.1) e (by rw [EStateM.run_bind, hrun])

/-- A check on its own. -/
theorem raiseIf {c : Prop} [Decidable c] {e : ε} :
    Guarded (Imperative.raiseIf c e : EStateM ε σ Unit) s (¬ c) (· = s) := by
  by_cases hc : c
  · exact .reject (fun hn => hn hc) e (by simp [hc])
  · exact .accept hc s (by simp [hc]) rfl

/-- A check in front of the rest of the body adds its negation to the guard. -/
theorem raiseIf_bind {c : Prop} [Decidable c] {e : ε} (h : ¬ c → Guarded y s P R) :
    Guarded (Imperative.raiseIf c e >>= fun _ => y) s (¬ c ∧ P) R :=
  raiseIf.bind h

/-- A guarded statement followed by writes that cannot fail. -/
theorem bind_ok (h : Guarded x s P R)
    (hy : ∀ s', P → R s' → ∃ s'', y.run s' = .ok () s'' ∧ T s'') :
    Guarded (x >>= fun _ => y) s P T := by
  cases h with
  | accept hP s' hrun hR =>
    obtain ⟨s'', hrun', hT⟩ := hy s' hP hR
    exact .accept hP s'' (by rw [EStateM.run_bind, hrun]; exact hrun') hT
  | reject hP e hrun => exact .reject hP e (by rw [EStateM.run_bind, hrun])

/-- A computation on local variables: it raises, or yields a value with `U`. -/
theorem liftExcept_bind {r : Except ε α} {k : α → EStateM ε σ Unit} {U : α → Prop}
    (hr : (P ∧ ∃ a, r = .ok a ∧ U a) ∨ (¬ P ∧ ∃ e, r = .error e))
    (hk : ∀ a, P → U a → Guarded (k a) s Q R) :
    Guarded ((liftExcept r : EStateM ε σ α) >>= k) s (P ∧ Q) R := by
  rcases hr with ⟨hP, a, rfl, hU⟩ | ⟨hP, e, rfl⟩
  · cases hk a hP hU with
    | accept hQ t hrun hR => exact .accept ⟨hP, hQ⟩ t hrun hR
    | reject hQ e hrun => exact .reject (fun hn => hQ hn.2) e hrun
  · exact .reject (fun hn => hP hn.1) e rfl

/-- A guarded call on a field. `put (get s) s = s` says that writing a field back is no write. -/
theorem zoom {get : σ → τ} {put : τ → σ → σ} {y : EStateM ε τ Unit} {U : τ → Prop}
    (hput : put (get s) s = s) (h : Guarded y (get s) P U) :
    Guarded (Imperative.zoom get put y) s P (fun s' => ∃ t, U t ∧ s' = put t s) := by
  cases h with
  | accept hP t hrun hU => exact .accept hP (put t s) (by rw [run_zoom, hrun]) ⟨t, hU, rfl⟩
  | reject hP e hrun => exact .reject hP e (by simp [run_zoom, hrun, hput])

end Guarded

/-! ## Outcomes

A statement that runs on a copy may leave anything behind when it raises: all that matters is when
it raises, and what it leaves otherwise. -/

inductive Outcome (x : EStateM ε σ Unit) (s : σ) (P : Prop) (R : σ → Prop) : Prop where
  | accept (hP : P) (s' : σ) (hrun : x.run s = .ok () s') (hR : R s')
  | reject (hP : ¬ P) (e : ε) (t : σ) (hrun : x.run s = .error e t)

theorem Guarded.outcome {x : EStateM ε σ Unit} {s : σ} {P : Prop} {R : σ → Prop}
    (h : Guarded x s P R) : Outcome x s P R := by
  cases h with
  | accept hP s' hrun hR => exact .accept hP s' hrun hR
  | reject hP e hrun => exact .reject hP e s hrun

namespace Outcome

variable {x y : EStateM ε σ Unit} {s : σ} {P Q : Prop} {R T : σ → Prop}

/-- A statement about which nothing is known. -/
theorem any (x : EStateM ε σ Unit) (s : σ) : Outcome x s (Accepts x s) fun _ => True := by
  cases hrun : x.run s with
  | ok a t => exact .accept ⟨a, t, hrun⟩ t hrun trivial
  | error e t =>
    refine .reject (fun ⟨a, t', hok⟩ => ?_) e t hrun
    rw [hrun] at hok
    cases hok

theorem imp (h : Outcome x s P R) (hPQ : P ↔ Q) (hRT : ∀ t, Q → R t → T t) : Outcome x s Q T := by
  cases h with
  | accept hP s' hrun hR => exact .accept (hPQ.mp hP) s' hrun (hRT s' (hPQ.mp hP) hR)
  | reject hP e t hrun => exact .reject (fun hq => hP (hPQ.mpr hq)) e t hrun

/-- Two statements in sequence, each with writes. -/
theorem bind (h : Outcome x s P R) (hy : ∀ s', P → R s' → Outcome y s' Q T) :
    Outcome (x >>= fun _ => y) s (P ∧ Q) T := by
  cases h with
  | accept hP s' hrun hR =>
    cases hy s' hP hR with
    | accept hQ t hrun' hT =>
      exact .accept ⟨hP, hQ⟩ t (by rw [EStateM.run_bind, hrun]; exact hrun') hT
    | reject hQ e t hrun' =>
      exact .reject (fun hn => hQ hn.2) e t (by rw [EStateM.run_bind, hrun]; exact hrun')
  | reject hP e t hrun => exact .reject (fun hn => hP hn.1) e t (by rw [EStateM.run_bind, hrun])

/-- A statement that raises, whatever comes after it. -/
theorem bind_of_raises (h : Outcome x s False R) : Outcome (x >>= fun _ => y) s False T :=
  (h.bind (Q := False) (T := T) fun _ hf _ => hf.elim).imp (iff_of_false And.left id) fun _ _ hT => hT

/-- Whatever a statement does, the next one raises. -/
theorem bind_raises (h : Outcome x s P R) (hy : ∀ s', R s' → Outcome y s' False T) :
    Outcome (x >>= fun _ => y) s False T :=
  (h.bind fun s' _ hR => hy s' hR).imp (iff_of_false And.right id) fun _ _ hT => hT

theorem get_bind {k : σ → EStateM ε σ Unit} (h : Outcome (k s) s P R) :
    Outcome (get >>= k) s P R := by
  cases h with
  | accept hP s' hrun hR =>
    exact .accept hP s' (by rw [EStateM.run_bind, EStateM.run_get]; exact hrun) hR
  | reject hP e t hrun =>
    exact .reject hP e t (by rw [EStateM.run_bind, EStateM.run_get]; exact hrun)

/-- A check in front of the rest of the body. -/
theorem raiseIf_bind {c : Prop} [Decidable c] {e : ε} (h : ¬ c → Outcome y s P R) :
    Outcome (Imperative.raiseIf c e >>= fun _ => y) s (¬ c ∧ P) R :=
  Guarded.raiseIf.outcome.bind fun s' hc hs => by
    subst hs
    exact h hc

/-- A write that cannot fail, in front of the rest of the body. -/
theorem modify_bind {f : σ → σ} (h : Outcome y (f s) P R) :
    Outcome (modify f >>= fun _ => y) s P R := by
  cases h with
  | accept hP s' hrun hR =>
      exact .accept hP s' (by rw [EStateM.run_bind, EStateM.run_modify]; exact hrun) hR
  | reject hP e t hrun =>
      exact .reject hP e t (by rw [EStateM.run_bind, EStateM.run_modify]; exact hrun)

/-- A call on a field. -/
theorem zoom {get : σ → τ} {put : τ → σ → σ} {y : EStateM ε τ Unit} {U : τ → Prop}
    (h : Outcome y (get s) P U) :
    Outcome (Imperative.zoom get put y) s P (fun s' => ∃ t, U t ∧ s' = put t s) := by
  cases h with
  | accept hP t hrun hU => exact .accept hP (put t s) (by rw [run_zoom, hrun]) ⟨t, hU, rfl⟩
  | reject hP e t hrun => exact .reject hP e (put t s) (by rw [run_zoom, hrun])

/-- On a copy, any outcome is guarded. -/
theorem onCopy (h : Outcome x s P R) : Guarded (Imperative.onCopy x) s P R := by
  cases h with
  | accept hP s' hrun hR => exact .accept hP s' (by rw [run_onCopy, hrun]) hR
  | reject hP e t hrun => exact .reject hP e (by rw [run_onCopy, hrun])

theorem of_run_ok (h : Outcome x s P R) {t : σ} (hrun : x.run s = .ok () t) : P ∧ R t := by
  cases h with
  | accept hP s' hrun' hR =>
    rw [hrun'] at hrun
    cases hrun
    exact ⟨hP, hR⟩
  | reject _ e t' hrun' =>
    rw [hrun'] at hrun
    cases hrun

theorem run_ok (h : Outcome x s P R) (hP : P) : ∃ s', x.run s = .ok () s' ∧ R s' := by
  cases h with
  | accept _ s' hrun hR => exact ⟨s', hrun, hR⟩
  | reject hn => exact absurd hP hn

theorem accepts_iff (h : Outcome x s P R) : Accepts x s ↔ P := by
  cases h with
  | accept hP s' hrun => exact ⟨fun _ => hP, fun _ => ⟨(), s', hrun⟩⟩
  | reject hP e t hrun =>
    refine ⟨fun ⟨a, s', hok⟩ => ?_, fun hp => absurd hp hP⟩
    rw [hrun] at hok
    cases hok

end Outcome

/-- A statement that is guarded at every state is atomic. -/
theorem atomic_of_guarded {x : EStateM ε σ Unit} {P : σ → Prop} {R : σ → σ → Prop}
    (h : ∀ s, Guarded x s (P s) (R s)) : Atomic x :=
  fun s _ _ he => (h s).error_state he

end Imperative
