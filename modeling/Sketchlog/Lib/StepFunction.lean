import Mathlib

/-!
# Step functions given by their jumps

A list of points, sorted by position, denotes the function that takes at `x` the value of the last
point that is not to the right of `x`, and zero to the left of all points.

* **`eval`** — the function a list of points denotes;
* **`advance`** — the pointer of a sweep: over a list sorted by position it holds, at `v`, the value
  at `v` (`Swept.advance`);
* **`eval_eq_of_gap`** — the function is constant where it has no point;
* **`area`** — the sum of values times widths over consecutive breakpoints, which is the integral of
  a function that is constant between them and zero outside (`integral_eq_area`).
-/

namespace StepFunction

section Eval

variable {α β : Type} [LinearOrder α]

/-- The last breakpoint up to `x`, if there is one. -/
theorem exists_break (breaks : List α) (x : α) :
    (∀ b ∈ breaks, x < b) ∨ ∃ b ∈ breaks, b ≤ x ∧ ∀ c ∈ breaks, c ≤ x → c ≤ b := by
  by_cases hleft : ∃ b ∈ breaks, b ≤ x
  · right
    obtain ⟨b, hb, hbx⟩ := hleft
    have hne : (breaks.filter fun c => c ≤ x).toFinset.Nonempty := ⟨b, by simpa using ⟨hb, hbx⟩⟩
    have hmem := Finset.max'_mem _ hne
    simp only [List.mem_toFinset, List.mem_filter, decide_eq_true_eq] at hmem
    refine ⟨_, hmem.1, hmem.2, fun c hc hcx => ?_⟩
    apply Finset.le_max'
    simpa using ⟨hc, hcx⟩
  · left
    intro b hb
    exact not_le.mp fun hbx => hleft ⟨b, hb, hbx⟩

/-- The value at `x` of the function that `points` denotes, or `zero`. -/
def eval (zero : β) (points : List (α × β)) (x : α) : β :=
  ((points.filter fun p => p.1 ≤ x).getLast?.map Prod.snd).getD zero

/-- `while points and points[0][0] <= v: value = points.pop(0)[1]`. -/
def advance (v : α) : List (α × β) → β → List (α × β) × β
  | [], value => ([], value)
  | p :: rest, value => if p.1 ≤ v then advance v rest p.2 else (p :: rest, value)

theorem advance_eq (v : α) (points : List (α × β)) (value : β) :
    advance v points value = (points.dropWhile fun p => p.1 ≤ v,
      ((points.takeWhile fun p => p.1 ≤ v).getLast?.map Prod.snd).getD value) := by
  induction points generalizing value with
  | nil => rfl
  | cons p rest ih =>
    by_cases hp : p.1 ≤ v
    · rw [advance, if_pos hp, ih, List.dropWhile_cons_of_pos (by simpa using hp),
        List.takeWhile_cons_of_pos (by simpa using hp), List.getLast?_cons]
      cases (rest.takeWhile fun p => p.1 ≤ v).getLast? <;> rfl
    · rw [advance, if_neg hp, List.dropWhile_cons_of_neg (by simpa using hp),
        List.takeWhile_cons_of_neg (by simpa using hp)]
      rfl

/-- The pointer moves over values that are replaced as over the values themselves. -/
theorem advance_map {γ : Type} (f : β → γ) (v : α) (points : List (α × β)) (value : β) :
    advance v (points.map (Prod.map id f)) (f value)
      = ((advance v points value).1.map (Prod.map id f), f (advance v points value).2) := by
  induction points generalizing value with
  | nil => rfl
  | cons p rest ih =>
    rw [List.map_cons, advance, advance]
    by_cases hp : p.1 ≤ v
    · rw [if_pos hp, if_pos (show (Prod.map id f p).1 ≤ v from hp)]
      exact ih p.2
    · rw [if_neg hp, if_neg (show ¬ (Prod.map id f p).1 ≤ v from hp)]
      rfl

/-- What holds of all values holds of the one that the pointer has. -/
theorem advance_forall {P : β → Prop} (v : α) {points : List (α × β)} {value : β}
    (hpoints : ∀ p ∈ points, P p.2) (hvalue : P value) :
    (∀ p ∈ (advance v points value).1, P p.2) ∧ P (advance v points value).2 := by
  induction points generalizing value with
  | nil => exact ⟨hpoints, hvalue⟩
  | cons p rest ih =>
    rw [advance]
    split
    · exact ih (fun q hq => hpoints q (List.mem_cons_of_mem p hq)) (hpoints p List.mem_cons_self)
    · exact ⟨hpoints, hvalue⟩

/-- On a sorted list, the points up to `x` are a prefix. -/
theorem takeWhile_eq_filter {points : List (α × β)} (h : points.Pairwise fun p q => p.1 ≤ q.1) (x : α) :
    points.takeWhile (fun p => p.1 ≤ x) = points.filter fun p => p.1 ≤ x := by
  induction points with
  | nil => rfl
  | cons p rest ih =>
    obtain ⟨hhead, htail⟩ := List.pairwise_cons.mp h
    by_cases hp : p.1 ≤ x
    · rw [List.takeWhile_cons_of_pos (by simpa using hp),
        List.filter_cons_of_pos (by simpa using hp), ih htail]
    · rw [List.takeWhile_cons_of_neg (by simpa using hp), List.filter_cons_of_neg (by simpa using hp)]
      refine (List.filter_eq_nil_iff.mpr fun q hq => ?_).symm
      simpa using (not_le.mp hp).trans_le (hhead q hq)

/-- What a sweep holds of a list once it has passed the points that satisfy `q`: the rest, and the
last value. -/
structure Swept (zero : β) (points : List (α × β)) (q : α × β → Bool) (state : List (α × β) × β) :
    Prop where
  rest : state.1 = points.dropWhile q
  value : state.2 = ((points.takeWhile q).getLast?.map Prod.snd).getD zero

omit [LinearOrder α] in
theorem swept_start (zero : β) (points : List (α × β)) :
    Swept zero points (fun _ => false) (points, zero) := by
  cases points with
  | nil => exact ⟨rfl, rfl⟩
  | cons p rest => exact ⟨rfl, rfl⟩

omit [LinearOrder α] in
theorem takeWhile_split {q r : α × β → Bool} (h : ∀ p, q p = true → r p = true)
    (points : List (α × β)) :
    points.takeWhile r = points.takeWhile q ++ (points.dropWhile q).takeWhile r
      ∧ points.dropWhile r = (points.dropWhile q).dropWhile r := by
  induction points with
  | nil => exact ⟨rfl, rfl⟩
  | cons p rest ih =>
    cases hq : q p with
    | true => simp [hq, h p hq, ih.1, ih.2]
    | false => simp [hq]

/-- Moving the pointer on to `v`. -/
theorem Swept.advance {zero : β} {points : List (α × β)} {q : α × β → Bool} {state : List (α × β) × β}
    (h : Swept zero points q state) {v : α} (hq : ∀ p, q p = true → p.1 ≤ v) :
    Swept zero points (fun p => p.1 ≤ v) (advance v state.1 state.2) := by
  obtain ⟨htake, hdrop⟩ := takeWhile_split (r := fun p => p.1 ≤ v) (fun p hp => by
    simpa using hq p hp) points
  rw [advance_eq, h.rest, h.value]
  refine ⟨hdrop.symm, ?_⟩
  rw [htake, List.getLast?_append]
  cases ((points.dropWhile q).takeWhile fun p => p.1 ≤ v).getLast? <;> rfl

/-- At `v` the pointer holds the value at `v`. -/
theorem Swept.value_eq_eval {zero : β} {points : List (α × β)}
    (hsorted : points.Pairwise fun p q => p.1 ≤ q.1) {v : α} {state : List (α × β) × β}
    (h : Swept zero points (fun p => p.1 ≤ v) state) : state.2 = eval zero points v := by
  rw [h.value, takeWhile_eq_filter hsorted, eval]

/-- No point lies in `(a, x]`. -/
theorem eval_eq_of_gap {zero : β} {points : List (α × β)} {a x : α} (hax : a ≤ x)
    (hgap : ∀ p ∈ points, p.1 ≤ x → p.1 ≤ a) : eval zero points x = eval zero points a := by
  have hfilter : (points.filter fun p => p.1 ≤ x) = points.filter fun p => p.1 ≤ a := by
    refine List.filter_congr fun p hp => ?_
    exact decide_eq_decide.mpr ⟨hgap p hp, fun h => h.trans hax⟩
  rw [eval, eval, hfilter]

/-- To the left of all points. -/
theorem eval_of_lt {zero : β} {points : List (α × β)} {x : α} (h : ∀ p ∈ points, x < p.1) :
    eval zero points x = zero := by
  have hfilter : (points.filter fun p => p.1 ≤ x) = [] :=
    List.filter_eq_nil_iff.mpr fun p hp => by simpa using h p hp
  rw [eval, hfilter]
  rfl

/-- From the last point on. -/
theorem eval_of_ge {zero : β} {points : List (α × β)} {x : α} {p : α × β}
    (hlast : points.getLast? = some p)
    (h : ∀ q ∈ points, q.1 ≤ x) : eval zero points x = p.2 := by
  have hfilter : (points.filter fun q => q.1 ≤ x) = points :=
    List.filter_eq_self.mpr fun q hq => by simpa using h q hq
  rw [eval, hfilter, hlast]
  rfl

/-- A value that is taken is the value of a point, or `zero`. -/
theorem eval_mem (zero : β) (points : List (α × β)) (x : α) :
    eval zero points x = zero ∨ ∃ p ∈ points, eval zero points x = p.2 := by
  unfold eval
  cases hlast : (points.filter fun p => p.1 ≤ x).getLast? with
  | none => exact .inl rfl
  | some p => exact .inr ⟨p, List.mem_of_mem_filter (List.mem_of_getLast? hlast), rfl⟩

/-- A change of positions that keeps their order, and of values. -/
theorem eval_map {α' β' : Type} [LinearOrder α'] {f : α → α'} (hf : ∀ a b, f a ≤ f b ↔ a ≤ b)
    (g : β → β') (zero : β)
    (points : List (α × β)) (x : α) :
    eval (g zero) (points.map fun p => (f p.1, g p.2)) (f x) = g (eval zero points x) := by
  have hfilter : ((points.map fun p => (f p.1, g p.2)).filter fun p => p.1 ≤ f x)
      = (points.filter fun p => p.1 ≤ x).map fun p => (f p.1, g p.2) := by
    rw [List.filter_map]
    congr 1
    exact List.filter_congr fun p _ => decide_eq_decide.mpr (hf p.1 x)
  rw [eval, eval, hfilter, List.getLast?_map]
  cases (points.filter fun p => p.1 ≤ x).getLast? <;> rfl

end Eval

/-! ## Areas

The area under a step function, as a sum over its breakpoints and as an integral. By induction on
the list of breakpoints the two agree. -/

section Area

open MeasureTheory

/-- `sum(g(a) * (b - a))` over consecutive breakpoints `a`, `b`. -/
def area {K : Type} [Ring K] (g : K → K) : List K → K
  | a :: b :: rest => g a * (b - a) + area g (b :: rest)
  | _ => 0

/-- The function that takes the value `g a` between consecutive breakpoints `a`, `b`. -/
noncomputable def steps (g : ℝ → ℝ) : List ℝ → ℝ → ℝ
  | a :: b :: rest => fun x => (Set.Ico a b).indicator (fun _ => g a) x + steps g (b :: rest) x
  | _ => fun _ => 0

theorem steps_cons_cons (g : ℝ → ℝ) (a b : ℝ) (rest : List ℝ) (x : ℝ) :
    steps g (a :: b :: rest) x = (Set.Ico a b).indicator (fun _ => g a) x + steps g (b :: rest) x := rfl

theorem integrable_steps (g : ℝ → ℝ) (breaks : List ℝ) : Integrable (steps g breaks) := by
  induction breaks with
  | nil => exact integrable_zero ℝ ℝ volume
  | cons a rest ih =>
    cases rest with
    | nil => exact integrable_zero ℝ ℝ volume
    | cons b rest =>
      have hpiece : Integrable ((Set.Ico a b).indicator fun _ => g a) :=
        (integrable_indicator_iff measurableSet_Ico).mpr (integrableOn_const (by simp))
      exact hpiece.add ih

theorem integral_steps (g : ℝ → ℝ) {breaks : List ℝ} (h : breaks.Pairwise (· ≤ ·)) :
    ∫ x, steps g breaks x = area g breaks := by
  induction breaks with
  | nil => exact integral_zero ℝ ℝ
  | cons a rest ih =>
    cases rest with
    | nil => exact integral_zero ℝ ℝ
    | cons b rest =>
      obtain ⟨hhead, htail⟩ := List.pairwise_cons.mp h
      have hpiece : Integrable ((Set.Ico a b).indicator fun _ => g a) :=
        (integrable_indicator_iff measurableSet_Ico).mpr (integrableOn_const (by simp))
      have hwidth : volume.real (Set.Ico a b) = b - a := by
        rw [Measure.real, Real.volume_Ico,
          ENNReal.toReal_ofReal (sub_nonneg.mpr (hhead b List.mem_cons_self))]
      have hsum := integral_add hpiece (integrable_steps g (b :: rest))
      rw [ih htail, integral_indicator_const _ measurableSet_Ico, hwidth, smul_eq_mul] at hsum
      rw [area, mul_comm (g a), ← hsum]
      rfl

theorem steps_of_lt {g : ℝ → ℝ} {a : ℝ} {rest : List ℝ} (h : (a :: rest).Pairwise (· ≤ ·)) {x : ℝ}
    (hx : x < a) :
    steps g (a :: rest) x = 0 := by
  induction rest generalizing a with
  | nil => rfl
  | cons b rest ih =>
    obtain ⟨hhead, htail⟩ := List.pairwise_cons.mp h
    have hnot : x ∉ Set.Ico a b := fun hmem => absurd hmem.1 (not_le.mpr hx)
    rw [steps_cons_cons, Set.indicator_of_notMem hnot, zero_add]
    exact ih htail (hx.trans_le (hhead b List.mem_cons_self))

/-- `g` is constant from each breakpoint to the next, and zero from the last one on. -/
def ConstantBetween (g : ℝ → ℝ) : List ℝ → Prop
  | a :: b :: rest => (∀ x, a ≤ x → x < b → g x = g a) ∧ ConstantBetween g (b :: rest)
  | [a] => ∀ x, a ≤ x → g x = 0
  | [] => True

theorem steps_eq {g : ℝ → ℝ} {a : ℝ} {rest : List ℝ} (h : (a :: rest).Pairwise (· ≤ ·))
    (hconst : ConstantBetween g (a :: rest)) {x : ℝ} (hx : a ≤ x) : steps g (a :: rest) x = g x := by
  induction rest generalizing a with
  | nil => exact (hconst x hx).symm
  | cons b rest ih =>
    obtain ⟨-, htail⟩ := List.pairwise_cons.mp h
    rcases lt_or_ge x b with hb | hb
    · rw [steps_cons_cons, steps_of_lt htail hb, add_zero,
        Set.indicator_of_mem (Set.mem_Ico.mpr ⟨hx, hb⟩), hconst.1 x hx hb]
    · have hnot : x ∉ Set.Ico a b := fun hmem => absurd hmem.2 (not_lt.mpr hb)
      rw [steps_cons_cons, Set.indicator_of_notMem hnot, zero_add]
      exact ih htail hconst.2 hb

/-- It suffices that `g` does not change between breakpoints. -/
theorem constantBetween_of_gaps {g : ℝ → ℝ} {breaks : List ℝ} (h : breaks.Pairwise (· < ·))
    (hgap : ∀ a ∈ breaks, ∀ x, a ≤ x → (∀ b ∈ breaks, b ≤ x → b ≤ a) → g x = g a)
    (hlast : ∀ a, breaks.getLast? = some a → g a = 0) : ConstantBetween g breaks := by
  induction breaks with
  | nil => trivial
  | cons a rest ih =>
    obtain ⟨hhead, htail⟩ := List.pairwise_cons.mp h
    cases rest with
    | nil =>
      intro x hx
      have hsame := hgap a List.mem_cons_self x hx fun b hb _ => (List.mem_singleton.mp hb).le
      rw [hsame, hlast a rfl]
    | cons b rest =>
      refine ⟨fun x hx hxb => hgap a List.mem_cons_self x hx fun c hc hcx => ?_, ih htail ?_ ?_⟩
      · -- the other breakpoints are from `b` on
        rcases List.mem_cons.mp hc with rfl | hc
        · exact le_refl c
        · have hbc : b ≤ c := by
            rcases List.mem_cons.mp hc with rfl | hc
            · exact le_refl c
            · exact ((List.pairwise_cons.mp htail).1 c hc).le
          exact absurd hcx (not_le.mpr (hxb.trans_le hbc))
      · intro c hc x hx hcx
        apply hgap c (List.mem_cons_of_mem a hc) x hx
        intro d hd hdx
        rcases List.mem_cons.mp hd with rfl | hd
        · exact (hhead c hc).le
        · exact hcx d hd hdx
      · intro c hc
        apply hlast c
        rw [List.getLast?_cons_cons, hc]

/-- **The integral of a step function is its area.** -/
theorem integral_eq_area {g : ℝ → ℝ} {a : ℝ} {rest : List ℝ} (h : (a :: rest).Pairwise (· ≤ ·))
    (hconst : ConstantBetween g (a :: rest)) (hzero : ∀ x, x < a → g x = 0) :
    Integrable g ∧ ∫ x, g x = area g (a :: rest) := by
  have hsteps : g = steps g (a :: rest) := by
    funext x
    rcases lt_or_ge x a with hx | hx
    · rw [hzero x hx, steps_of_lt h hx]
    · exact (steps_eq h hconst hx).symm
  refine ⟨hsteps ▸ integrable_steps g (a :: rest), ?_⟩
  rw [← integral_steps g h, ← hsteps]

theorem area_map {K L : Type} [Ring K] [Ring L] (f : K →+* L) {g : K → K} {g' : L → L} {breaks : List K}
    (h : ∀ a ∈ breaks, g' (f a) = f (g a)) : area g' (breaks.map f) = f (area g breaks) := by
  induction breaks with
  | nil => exact (map_zero f).symm
  | cons a rest ih =>
    cases rest with
    | nil => exact (map_zero f).symm
    | cons b rest =>
      have hrest := ih fun c hc => h c (List.mem_cons_of_mem a hc)
      rw [List.map_cons, List.map_cons, area, area, ← List.map_cons, hrest, h a List.mem_cons_self,
        map_add, map_mul,
        map_sub]

theorem area_nonneg {g : ℚ → ℚ} (hg : ∀ a, 0 ≤ g a) {breaks : List ℚ} (h : breaks.Pairwise (· < ·)) :
    0 ≤ area g breaks := by
  induction breaks with
  | nil => exact le_refl 0
  | cons a rest ih =>
    cases rest with
    | nil => exact le_refl 0
    | cons b rest =>
      obtain ⟨hhead, htail⟩ := List.pairwise_cons.mp h
      exact add_nonneg (mul_nonneg (hg a) (sub_nonneg.mpr (hhead b List.mem_cons_self).le)) (ih htail)

/-- Where there is no area, there is no value. -/
theorem eq_zero_of_area {g : ℚ → ℚ} (hg : ∀ a, 0 ≤ g a) {breaks : List ℚ} (h : breaks.Pairwise (· < ·))
    (hlast : ∀ a, breaks.getLast? = some a → g a = 0) (harea : area g breaks = 0) :
      ∀ a ∈ breaks, g a = 0 := by
  induction breaks with
  | nil => intro a ha; cases ha
  | cons a rest ih =>
    cases rest with
    | nil =>
      intro c hc
      rw [List.mem_singleton.mp hc]
      exact hlast a rfl
    | cons b rest =>
      obtain ⟨hhead, htail⟩ := List.pairwise_cons.mp h
      have hwidth : 0 < b - a := sub_pos.mpr (hhead b List.mem_cons_self)
      have hpiece : 0 ≤ g a * (b - a) := mul_nonneg (hg a) hwidth.le
      have hrest : 0 ≤ area g (b :: rest) := area_nonneg hg htail
      rw [area] at harea
      have hfirst : g a * (b - a) = 0 := by linarith
      intro c hc
      rcases List.mem_cons.mp hc with rfl | hc
      · exact (mul_eq_zero.mp hfirst).resolve_right hwidth.ne'
      · refine ih htail (fun d hd => ?_) (by linarith) c hc
        apply hlast d
        rw [List.getLast?_cons_cons, hd]

end Area

end StepFunction
