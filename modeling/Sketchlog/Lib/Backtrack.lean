import Mathlib.Data.List.Basic

/-!
# Backtracking matchers

A regular expression that is matched by backtracking tries its alternatives in an order: a matcher
gives, for a list of tokens, all the ways to match an initial part of it, the preferred way first,
each with what it captured and what is left. `Prefers m s b r` says that the first way captures `b`
and leaves `r`. A sequence prefers what its parts prefer one after another, so a match that never
has to be taken back is found without looking at the others; what holds of every way (`mem_many`,
`mem_bind`) holds of the one that is found.
-/

namespace Backtrack

variable {α β γ : Type*}

/-- The ways to match, in order of preference. -/
abbrev Matcher (α β : Type*) := List α → List (β × List α)

/-- The first way to match. -/
def first? (m : Matcher α β) (s : List α) : Option β := (m s).head?.map Prod.fst

def succeed (b : β) : Matcher α β := fun s => [(b, s)]

/-- One token. -/
def one (p : α → Bool) : Matcher α α
  | [] => []
  | a :: s => if p a then [(a, s)] else []

/-- As many tokens as possible, or fewer. -/
def many (p : α → Bool) : Matcher α (List α)
  | [] => [([], [])]
  | a :: s => if p a then (many p s).map (fun way => (a :: way.1, way.2)) ++ [([], a :: s)]
      else [([], a :: s)]

def bind (m : Matcher α β) (k : β → Matcher α γ) : Matcher α γ :=
  fun s => (m s).flatMap fun way => k way.1 way.2

def many1 (p : α → Bool) : Matcher α (List α) :=
  bind (one p) fun a => bind (many p) fun as => succeed (a :: as)

def opt (m : Matcher α β) : Matcher α (Option β) :=
  fun s => (m s).map (fun way => (some way.1, way.2)) ++ [(none, s)]

def alt (m m' : Matcher α β) : Matcher α β := fun s => m s ++ m' s

/-- `m` as often as possible, `n` times at most. -/
def star (m : Matcher α β) : ℕ → Matcher α (List β)
  | 0 => succeed []
  | n + 1 => alt (bind m fun b => bind (star m n) fun bs => succeed (b :: bs)) (succeed [])

/-- Given tokens. -/
def literal [DecidableEq α] : List α → Matcher α Unit
  | [] => succeed ()
  | a :: as => bind (one fun a' => decide (a' = a)) fun _ => literal as

/-- All matches that do not overlap, from left to right; `n` bounds the steps. A match of `m` is not
empty. -/
def findAll (m : Matcher α β) : ℕ → List α → List β
  | 0, _ => []
  | n + 1, s =>
    match (m s).head? with
    | some (b, r) => b :: findAll m n r
    | none =>
      match s with
      | [] => []
      | _ :: s => findAll m n s

/-- The end of the list. -/
def atEnd : Matcher α Unit
  | [] => [((), [])]
  | _ :: _ => []

/-! ## The preferred way

An expression matches in many ways, in an order. `Prefers` gives the first one, by its parts: a
sequence prefers the first way of its first part for which the rest matches. -/

def Prefers (m : Matcher α β) (s : List α) (b : β) (r : List α) : Prop := (m s).head? = some (b, r)

variable {m : Matcher α β} {s r : List α} {b : β}

theorem Prefers.first? (h : Prefers m s b r) : first? m s = some b := by
  unfold Backtrack.first?
  rw [h]
  rfl

theorem prefers_succeed (b : β) (s : List α) : Prefers (succeed b) s b s := rfl

theorem prefers_one {p : α → Bool} {a : α} (h : p a = true) (s : List α) :
    Prefers (one p) (a :: s) a s := by
  have hone : one p (a :: s) = [(a, s)] := if_pos h
  unfold Prefers
  rw [hone]
  rfl

theorem prefers_atEnd : Prefers (α := α) atEnd [] () [] := rfl

theorem Prefers.bind {k : β → Matcher α γ} {c : γ} {r' : List α} (h : Prefers m s b r)
    (hk : Prefers (k b) r c r') :
    Prefers (bind m k) s c r' := by
  unfold Prefers Backtrack.bind at *
  obtain ⟨rest, hrest⟩ := List.head?_eq_some_iff.mp h
  obtain ⟨rest', hrest'⟩ := List.head?_eq_some_iff.mp hk
  rw [hrest, List.flatMap_cons, hrest']
  rfl

theorem Prefers.opt (h : Prefers m s b r) : Prefers (opt m) s (some b) r := by
  unfold Prefers Backtrack.opt at *
  rw [List.head?_append, List.head?_map, h]
  rfl

theorem prefers_opt_none (h : m s = []) : Prefers (opt m) s none s := by
  unfold Prefers Backtrack.opt
  rw [h]
  rfl

theorem Prefers.alt (h : Prefers m s b r) (m' : Matcher α β) : Prefers (alt m m') s b r := by
  unfold Prefers Backtrack.alt at *
  rw [List.head?_append, h]
  rfl

theorem prefers_alt_right {m' : Matcher α β} (hm : m s = []) (h : Prefers m' s b r) :
    Prefers (alt m m') s b r := by
  unfold Prefers Backtrack.alt at *
  rw [hm, List.nil_append, h]

/-- A run of tokens is taken whole. -/
theorem prefers_many {p : α → Bool} {as : List α} (has : ∀ a ∈ as, p a = true)
    (hr : ∀ a ∈ r.head?, p a = false) :
    Prefers (many p) (as ++ r) as r := by
  induction as with
  | nil =>
    cases r with
    | nil => rfl
    | cons a r =>
      unfold Prefers many
      rw [List.nil_append]
      simp only [hr a rfl, Bool.false_eq_true, if_false, List.head?_cons]
  | cons a as ih =>
    obtain ⟨ha, has'⟩ := List.forall_mem_cons.mp has
    have hmany : many p (a :: (as ++ r))
        = (many p (as ++ r)).map (fun way => (a :: way.1, way.2)) ++ [([], a :: (as ++ r))] := if_pos ha
    have hih : (many p (as ++ r)).head? = some (as, r) := ih has'
    unfold Prefers
    rw [List.cons_append, hmany, List.head?_append, List.head?_map, hih]
    rfl

theorem prefers_many1 {p : α → Bool} {a : α} {as : List α} (has : ∀ a' ∈ a :: as, p a' = true)
    (hr : ∀ a' ∈ r.head?, p a' = false) : Prefers (many1 p) (a :: as ++ r) (a :: as) r := by
  obtain ⟨ha, has'⟩ := List.forall_mem_cons.mp has
  exact (prefers_one ha _).bind ((prefers_many has' hr).bind (prefers_succeed _ _))

theorem prefers_literal [DecidableEq α] (as r : List α) : Prefers (literal as) (as ++ r) () r := by
  induction as with
  | nil => rfl
  | cons a as ih =>
    have ha : decide (a = a) = true := decide_eq_true rfl
    exact Prefers.bind (prefers_one (p := fun a' => decide (a' = a)) ha _) ih

theorem one_eq_nil {p : α → Bool} (h : ∀ a ∈ s.head?, p a = false) : one p s = [] := by
  cases s with
  | nil => rfl
  | cons a s => exact if_neg (by rw [h a rfl]; exact Bool.false_ne_true)

theorem bind_eq_nil {k : β → Matcher α γ} (h : m s = []) : bind m k s = [] := by
  unfold bind
  rw [h]
  rfl

/-- A repetition goes on as long as `m` matches. -/
theorem Prefers.star_succ {n : ℕ} {bs : List β} {r' : List α} (h : Prefers m s b r)
    (hrest : Prefers (star m n) r bs r') :
    Prefers (star m (n + 1)) s (b :: bs) r' := by
  have hcons : Prefers (Backtrack.bind (star m n) fun bs => succeed (b :: bs)) r (b :: bs) r' :=
    Prefers.bind hrest (prefers_succeed (b :: bs) r')
  exact Prefers.alt (Prefers.bind h hcons) _

theorem prefers_star_nil {n : ℕ} (h : m s = []) : Prefers (star m n) s [] s := by
  cases n with
  | zero => rfl
  | succ n => exact prefers_alt_right (bind_eq_nil h) (prefers_succeed _ _)

theorem Prefers.findAll (h : Prefers m s b r) (n : ℕ) : findAll m (n + 1) s = b :: findAll m n r := by
  unfold Prefers at h
  simp only [Backtrack.findAll, h]

theorem findAll_cons {a : α} (h : m (a :: s) = []) (n : ℕ) :
    findAll m (n + 1) (a :: s) = findAll m n s := by
  rw [findAll, h]
  rfl

theorem findAll_nil (h : m [] = []) (n : ℕ) : findAll m n [] = [] := by
  cases n with
  | zero => rfl
  | succ n =>
    rw [findAll, h]
    rfl

/-! ## Every way

What any way of matching takes from the text, for statements about all parses. -/

theorem mem_bind {k : β → Matcher α γ} {c : γ} {r' : List α} :
    (c, r') ∈ bind m k s ↔ ∃ b r, (b, r) ∈ m s ∧ (c, r') ∈ k b r := by
  simp [bind, List.mem_flatMap]

theorem mem_succeed {b' : β} : (b', r) ∈ succeed b s ↔ b' = b ∧ r = s := by
  simp [succeed]

theorem mem_one {p : α → Bool} {a : α} : (a, r) ∈ one p s ↔ s = a :: r ∧ p a = true := by
  cases s with
  | nil => simp [one]
  | cons a' s =>
    by_cases h : p a' = true
    · have hone : one p (a' :: s) = [(a', s)] := if_pos h
      rw [hone, List.mem_singleton, Prod.mk.injEq, List.cons.injEq]
      constructor
      · rintro ⟨rfl, rfl⟩
        exact ⟨⟨rfl, rfl⟩, h⟩
      · rintro ⟨⟨rfl, rfl⟩, -⟩
        exact ⟨rfl, rfl⟩
    · have hone : one p (a' :: s) = [] := if_neg h
      rw [hone, List.cons.injEq]
      constructor
      · intro hmem
        exact absurd hmem List.not_mem_nil
      · rintro ⟨⟨rfl, -⟩, h'⟩
        exact absurd h' h

theorem mem_literal [DecidableEq α] {as : List α} {u : Unit} (h : (u, r) ∈ literal as s) :
    s = as ++ r := by
  induction as generalizing s with
  | nil => exact ((mem_succeed.mp h).2).symm
  | cons a as ih =>
    obtain ⟨a', r', ha, hrest⟩ := mem_bind.mp h
    obtain ⟨rfl, hp⟩ := mem_one.mp ha
    rw [of_decide_eq_true hp, ih hrest]
    rfl

theorem mem_atEnd {u : Unit} : (u, r) ∈ atEnd s ↔ s = [] ∧ r = [] := by
  cases s <;> simp [atEnd]

theorem mem_opt {o : Option β} : (o, r) ∈ opt m s ↔ (∃ b, o = some b ∧ (b, r) ∈ m s)
    ∨ (o = none ∧ r = s) := by
  simp only [opt, List.mem_append, List.mem_map, Prod.mk.injEq, Prod.exists, List.mem_singleton]
  constructor
  · rintro (⟨b, r', hmem, rfl, rfl⟩ | ⟨rfl, rfl⟩)
    · exact .inl ⟨b, rfl, hmem⟩
    · exact .inr ⟨rfl, rfl⟩
  · rintro (⟨b, rfl, hmem⟩ | ⟨rfl, rfl⟩)
    · exact .inl ⟨b, r, hmem, rfl, rfl⟩
    · exact .inr ⟨rfl, rfl⟩

theorem mem_alt {m' : Matcher α β} : (b, r) ∈ alt m m' s ↔ (b, r) ∈ m s ∨ (b, r) ∈ m' s :=
  List.mem_append

/-- A run is an initial part of tokens of its kind. -/
theorem mem_many {p : α → Bool} {as : List α} (h : (as, r) ∈ many p s) : s = as ++ r ∧ ∀ a ∈ as,
    p a = true := by
  induction s generalizing as r with
  | nil =>
    obtain ⟨rfl, rfl⟩ := Prod.mk.inj (List.mem_singleton.mp h)
    exact ⟨rfl, fun a ha => absurd ha List.not_mem_nil⟩
  | cons a s ih =>
    unfold many at h
    have hnone : (as, r) = ([], a :: s) → a :: s = as ++ r ∧ ∀ a ∈ as, p a = true := by
      intro heq
      obtain ⟨rfl, rfl⟩ := Prod.mk.inj heq
      exact ⟨rfl, fun a ha => absurd ha List.not_mem_nil⟩
    split at h
    · next ha =>
      rcases List.mem_append.mp h with h | h
      · obtain ⟨way, hway, heq⟩ := List.mem_map.mp h
        obtain ⟨rfl, rfl⟩ := Prod.mk.inj heq
        obtain ⟨hs, hall⟩ := ih hway
        exact ⟨by rw [hs]; rfl, List.forall_mem_cons.mpr ⟨ha, hall⟩⟩
      · exact hnone (List.mem_singleton.mp h)
    · exact hnone (List.mem_singleton.mp h)

theorem mem_many1 {p : α → Bool} {as : List α} (h : (as, r) ∈ many1 p s) :
    s = as ++ r ∧ as ≠ [] ∧ ∀ a ∈ as, p a = true := by
  obtain ⟨a, r₁, ha, h⟩ := mem_bind.mp h
  obtain ⟨as', r₂, has, h⟩ := mem_bind.mp h
  obtain ⟨rfl, rfl⟩ := mem_succeed.mp h
  obtain ⟨rfl, hp⟩ := mem_one.mp ha
  obtain ⟨rfl, hall⟩ := mem_many has
  exact ⟨rfl, List.cons_ne_nil _ _, List.forall_mem_cons.mpr ⟨hp, hall⟩⟩

/-- Every way takes tokens of a kind, and leaves the rest. -/
def Takes (P : α → Prop) (m : Matcher α β) : Prop :=
  ∀ s b r, (b, r) ∈ m s → ∃ v, s = v ++ r ∧ ∀ a ∈ v, P a

section Takes

variable {P : α → Prop}

theorem takes_succeed (b : β) : Takes P (succeed b : Matcher α β) := by
  intro s b' r h
  obtain ⟨-, rfl⟩ := mem_succeed.mp h
  exact ⟨[], rfl, fun a ha => absurd ha List.not_mem_nil⟩

theorem takes_one {p : α → Bool} (hp : ∀ a, p a = true → P a) : Takes P (one p) := by
  intro s a r h
  obtain ⟨rfl, ha⟩ := mem_one.mp h
  refine ⟨[a], rfl, fun a' ha' => ?_⟩
  rw [List.mem_singleton.mp ha']
  exact hp a ha

theorem takes_many {p : α → Bool} (hp : ∀ a, p a = true → P a) : Takes P (many p) := by
  intro s as r h
  obtain ⟨heq, hall⟩ := mem_many h
  exact ⟨as, heq, fun a ha => hp a (hall a ha)⟩

theorem Takes.bind {k : β → Matcher α γ} (hm : Takes P m) (hk : ∀ b, Takes P (k b)) :
    Takes P (bind m k) := by
  intro s c r h
  obtain ⟨b, r', hb, hc⟩ := mem_bind.mp h
  obtain ⟨v, rfl, hv⟩ := hm _ _ _ hb
  obtain ⟨v', rfl, hv'⟩ := hk b _ _ _ hc
  exact ⟨v ++ v', (List.append_assoc _ _ _).symm, List.forall_mem_append.mpr ⟨hv, hv'⟩⟩

theorem takes_many1 {p : α → Bool} (hp : ∀ a, p a = true → P a) : Takes P (many1 p) :=
  (takes_one hp).bind fun _ => (takes_many hp).bind fun _ => takes_succeed _

theorem Takes.opt (hm : Takes P m) : Takes P (opt m) := by
  intro s o r h
  rcases mem_opt.mp h with ⟨b, -, hb⟩ | ⟨-, rfl⟩
  · exact hm _ _ _ hb
  · exact ⟨[], rfl, fun a ha => absurd ha List.not_mem_nil⟩

theorem Takes.alt {m' : Matcher α β} (hm : Takes P m) (hm' : Takes P m') : Takes P (alt m m') := by
  intro s b r h
  rcases mem_alt.mp h with hb | hb
  · exact hm _ _ _ hb
  · exact hm' _ _ _ hb

theorem Takes.star (hm : Takes P m) (n : ℕ) : Takes P (star m n) := by
  induction n with
  | zero => exact takes_succeed _
  | succ n ih => exact (hm.bind fun _ => ih.bind fun _ => takes_succeed _).alt (takes_succeed _)

theorem takes_literal [DecidableEq α] {as : List α} (has : ∀ a ∈ as, P a) : Takes P (literal as) := by
  intro s u r h
  exact ⟨as, mem_literal h, has⟩

end Takes

/-- Every match that is found is one at some place, for a matcher that leaves the end of what it is
given. -/
theorem exists_of_mem_findAll {n : ℕ} (hm : Takes (fun _ => True) m) (h : b ∈ findAll m n s) :
    ∃ s' r, s' <:+ s ∧ (b, r) ∈ m s' := by
  induction n generalizing s with
  | zero => exact absurd h List.not_mem_nil
  | succ n ih =>
    unfold findAll at h
    split at h
    · next b' r' hhead =>
      have hway : (b', r') ∈ m s := List.mem_of_mem_head? hhead
      rcases List.mem_cons.mp h with rfl | h
      · exact ⟨s, r', List.suffix_rfl, hway⟩
      · obtain ⟨s', r, hs', hmem⟩ := ih h
        obtain ⟨v, hv, -⟩ := hm _ _ _ hway
        exact ⟨s', r, hs'.trans ⟨v, hv.symm⟩, hmem⟩
    · split at h
      · exact absurd h List.not_mem_nil
      · next a s hhead =>
        obtain ⟨s', r, hs', hmem⟩ := ih h
        exact ⟨s', r, hs'.trans (List.suffix_cons a s), hmem⟩

theorem exists_of_first? (h : first? m s = some b) : ∃ r, (b, r) ∈ m s := by
  obtain ⟨way, hway, rfl⟩ := Option.map_eq_some_iff.mp h
  exact ⟨way.2, List.mem_of_mem_head? hway⟩

end Backtrack
