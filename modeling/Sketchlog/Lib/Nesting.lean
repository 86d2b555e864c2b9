import Mathlib.Data.List.Basic

/-!
# Quotes and parentheses

A scanner that respects quotes and parentheses keeps the quote that is open and the depth of the
parentheses. Inside quotes a doubled quote stands for one: whether it is read as such, or as the end
of one quoted part and the start of the next, the state behind it is the same. So `track` reads one
token after another.
-/

namespace Nesting

variable {α : Type*} [DecidableEq α]

/-- The tokens that nest. -/
structure Delimiters (α : Type*) where
  isQuote : α → Bool
  opening : α
  closing : α

/-- The quote that is open, and the depth of the parentheses. -/
structure State (α : Type*) where
  quote : Option α
  depth : ℕ
deriving DecidableEq

/-- Outside everything. -/
def top : State α := ⟨none, 0⟩

variable (d : Delimiters α)

/-- A token that does not nest. -/
def Delimiters.Plain (c : α) : Prop := d.isQuote c = false ∧ c ≠ d.opening ∧ c ≠ d.closing

/-- One token; a closing parenthesis without its opening one is an error. -/
def advance (s : State α) (c : α) : Option (State α) :=
  match s.quote with
  | some q => some ⟨if c = q then none else some q, s.depth⟩
  | none =>
    if d.isQuote c then some ⟨some c, s.depth⟩
    else if c = d.opening then some ⟨none, s.depth + 1⟩
    else if c = d.closing then if s.depth = 0 then none else some ⟨none, s.depth - 1⟩
    else some s

def track (s : State α) : List α → Option (State α)
  | [] => some s
  | c :: text => (advance d s c).bind fun s => track s text

variable {d} {s s' : State α} {text rest : List α}

theorem advance_plain (hs : s.quote = none) {c : α} (hc : d.Plain c) : advance d s c = some s := by
  obtain ⟨hquote, hopening, hclosing⟩ := hc
  unfold advance
  rw [hs]
  simp [hquote, hopening, hclosing]

theorem advance_quoted {q c : α} (hs : s.quote = some q) (hc : c ≠ q) : advance d s c = some s := by
  obtain ⟨quote, depth⟩ := s
  unfold advance
  simp only at hs
  rw [hs]
  simp [hc]

theorem advance_close {q : α} (depth : ℕ) : advance d ⟨some q, depth⟩ q = some ⟨none, depth⟩ := by
  unfold advance
  simp

theorem advance_open {q : α} (hq : d.isQuote q = true) (depth : ℕ) :
    advance d ⟨none, depth⟩ q = some ⟨some q, depth⟩ := by
  unfold advance
  simp [hq]

/-- **What one token does.** -/
theorem advance_cases {quote : Option α} {depth : ℕ} {c : α}
    (h : advance d ⟨quote, depth⟩ c = some s') :
    (∃ q, quote = some q ∧ c = q ∧ s' = ⟨none, depth⟩)
      ∨ (∃ q, quote = some q ∧ c ≠ q ∧ s' = ⟨some q, depth⟩)
      ∨ (quote = none ∧ d.isQuote c = true ∧ s' = ⟨some c, depth⟩)
      ∨ (quote = none ∧ c = d.opening ∧ s' = ⟨none, depth + 1⟩)
      ∨ (quote = none ∧ c = d.closing ∧ depth ≠ 0 ∧ s' = ⟨none, depth - 1⟩)
      ∨ (quote = none ∧ d.Plain c ∧ s' = ⟨none, depth⟩) := by
  -- inside quotes only the closing quote counts; outside, the character decides
  cases quote with
  | some q =>
    by_cases hc : c = q
    · rw [hc, advance_close] at h
      exact .inl ⟨q, rfl, hc, (Option.some.inj h).symm⟩
    · rw [advance_quoted rfl hc] at h
      exact .inr (.inl ⟨q, rfl, hc, (Option.some.inj h).symm⟩)
  | none =>
    unfold advance at h
    simp only at h
    split at h
    · next hquote => exact .inr (.inr (.inl ⟨rfl, hquote, (Option.some.inj h).symm⟩))
    next hquote =>
    split at h
    · next hopening => exact .inr (.inr (.inr (.inl ⟨rfl, hopening, (Option.some.inj h).symm⟩)))
    next hopening =>
    split at h
    · next hclosing =>
      split at h
      · cases h
      · next hdepth =>
        exact .inr (.inr (.inr (.inr (.inl ⟨rfl, hclosing, hdepth, (Option.some.inj h).symm⟩))))
    · next hclosing =>
      have hplain : d.Plain c := ⟨Bool.eq_false_iff.mpr hquote, hopening, hclosing⟩
      exact .inr (.inr (.inr (.inr (.inr ⟨rfl, hplain, (Option.some.inj h).symm⟩))))

/-- A quote that is open is one of the quotes. -/
theorem isQuote_advance (hs : ∀ q ∈ s.quote, d.isQuote q = true) {c : α} (h : advance d s c = some s') :
    ∀ q ∈ s'.quote, d.isQuote q = true := by
  obtain ⟨quote, depth⟩ := s
  rcases advance_cases h with ⟨q, rfl, rfl, rfl⟩ | ⟨q, rfl, hc, rfl⟩ | ⟨rfl, hc, rfl⟩ | ⟨rfl, rfl, rfl⟩
    | ⟨rfl, rfl, hdepth, rfl⟩ | ⟨rfl, hc, rfl⟩
  · exact fun _ hq => nomatch hq
  · exact hs
  · exact fun q hq => Option.some.inj hq ▸ hc
  · exact fun _ hq => nomatch hq
  · exact fun _ hq => nomatch hq
  · exact fun _ hq => nomatch hq

/-- **A token keeps states apart.** Whether a quote is open, and which, is permuted by a quote and
kept by the rest. -/
theorem advance_injective {t : State α} {c : α} (hs : ∀ q ∈ s.quote, d.isQuote q = true)
    (hs' : ∀ q ∈ s'.quote, d.isQuote q = true) (h : advance d s c = some t)
    (h' : advance d s' c = some t) : s = s' := by
  obtain ⟨quote, depth⟩ := s
  obtain ⟨quote', depth'⟩ := s'
  cases quote with
  | some q =>
    have hq : d.isQuote q = true := hs q rfl
    cases quote' with
    | some q' =>
      unfold advance at h h'
      grind
    | none =>
      unfold advance at h h'
      grind
  | none =>
    cases quote' with
    | some q' =>
      have hq' : d.isQuote q' = true := hs' q' rfl
      unfold advance at h h'
      grind
    | none =>
      unfold advance at h h'
      grind

theorem track_cons {c : α} (h : advance d s c = some s') : track d s (c :: text) = track d s' text := by
  rw [track, h]
  rfl

theorem track_append : track d s (text ++ rest) = (track d s text).bind fun s => track d s rest := by
  induction text generalizing s with
  | nil => rfl
  | cons c text ih =>
    rw [List.cons_append, track, track]
    cases advance d s c with
    | none => rfl
    | some s' => exact ih

theorem track_append_of (h : track d s text = some s') :
    track d s (text ++ rest) = track d s' rest := by
  rw [track_append, h]
  rfl

/-- Behind a text, scans that started in different states are in different states. -/
theorem track_injective {t : State α} (hs : ∀ q ∈ s.quote, d.isQuote q = true)
    (hs' : ∀ q ∈ s'.quote, d.isQuote q = true)
    (h : track d s text = some t) (h' : track d s' text = some t) : s = s' := by
  induction text generalizing s s' with
  | nil => exact Option.some.inj (h.trans h'.symm)
  | cons c text ih =>
    obtain ⟨s₁, hadvance, hrest⟩ := Option.bind_eq_some_iff.mp h
    obtain ⟨s₂, hadvance', hrest'⟩ := Option.bind_eq_some_iff.mp h'
    have heq := ih (isQuote_advance hs hadvance) (isQuote_advance hs' hadvance') hrest hrest'
    subst heq
    exact advance_injective hs hs' hadvance hadvance'

theorem isQuote_track (hs : ∀ q ∈ s.quote, d.isQuote q = true) (h : track d s text = some s') :
    ∀ q ∈ s'.quote, d.isQuote q = true := by
  induction text generalizing s with
  | nil =>
    cases Option.some.inj h
    exact hs
  | cons c text ih =>
    obtain ⟨s₁, hadvance, hrest⟩ := Option.bind_eq_some_iff.mp h
    exact ih (isQuote_advance hs hadvance) hrest

theorem track_plain (hs : s.quote = none) (h : ∀ c ∈ text, d.Plain c) : track d s text = some s := by
  induction text with
  | nil => rfl
  | cons c text ih =>
    obtain ⟨hc, htext⟩ := List.forall_mem_cons.mp h
    rw [track_cons (advance_plain hs hc), ih htext]

/-- A text in parentheses. -/
theorem track_parens (hquote : d.isQuote d.opening = false) (hquote' : d.isQuote d.closing = false)
    (hne : d.closing ≠ d.opening) (h : ∀ c ∈ text, d.Plain c) (depth : ℕ) :
    track d ⟨none, depth⟩ (d.opening :: (text ++ [d.closing])) = some ⟨none, depth⟩ := by
  have hopen : advance d ⟨none, depth⟩ d.opening = some ⟨none, depth + 1⟩ := by
    unfold advance
    simp [hquote]
  have hclose : advance d ⟨none, depth + 1⟩ d.closing = some ⟨none, depth⟩ := by
    unfold advance
    simp [hquote', hne]
  rw [track_cons hopen, track_append_of (track_plain rfl h), track_cons hclose]
  rfl

/-! ## Quoted texts

A quote inside quotes is doubled. The automaton is outside again behind the closing quote, and not
before. -/

/-- Every quote is doubled. -/
def double (q : α) (content : List α) : List α := content.flatMap fun c => if c = q then [q, q] else [c]

theorem double_cons_self (q : α) (content : List α) :
    double q (q :: content) = q :: q :: double q content := by
  simp [double]

theorem double_cons_of_ne {q c : α} (hc : c ≠ q) (content : List α) :
    double q (c :: content) = c :: double q content := by
  simp [double, hc]

theorem track_double {q : α} (hq : d.isQuote q = true) (content : List α) (depth : ℕ) :
    track d ⟨some q, depth⟩ (double q content) = some ⟨some q, depth⟩ := by
  induction content with
  | nil => rfl
  | cons c content ih =>
    by_cases hc : c = q
    · rw [hc, double_cons_self, track_cons (advance_close depth),
        track_cons (advance_open hq depth), ih]
    · rw [double_cons_of_ne hc, track_cons (advance_quoted rfl hc), ih]

def quoted (q : α) (content : List α) : List α := q :: (double q content ++ [q])

theorem track_quoted {q : α} (hq : d.isQuote q = true) (content : List α) (depth : ℕ) :
    track d ⟨none, depth⟩ (quoted q content) = some ⟨none, depth⟩ := by
  rw [quoted, track_cons (advance_open hq depth), track_append_of (track_double hq content depth),
    track_cons (advance_close depth)]
  rfl

/-- Where the quotes are closed, a quote has just been read. -/
theorem getLast?_of_track_double {q : α} {content before after : List α} {depth : ℕ}
    (hq : d.isQuote q = true)
    (h : double q content ++ [q] = before ++ after)
    (htrack : track d ⟨some q, depth⟩ before = some s) (hs : s.quote = none) :
    before.getLast? = some q := by
  -- a doubled quote closes and opens again, so the state is quoted behind both
  induction content generalizing before with
  | nil =>
    cases before with
    | nil =>
      cases Option.some.inj htrack
      cases hs
    | cons c before =>
      obtain ⟨rfl, hrest⟩ := List.cons.inj h
      obtain ⟨rfl, -⟩ := List.append_eq_nil_iff.mp hrest.symm
      rfl
  | cons c content ih =>
    by_cases hc : c = q
    · subst hc
      rw [double_cons_self] at h
      cases before with
      | nil =>
        cases Option.some.inj htrack
        cases hs
      -- the tracked part cannot end between the two
      | cons c₁ before =>
        obtain ⟨rfl, hrest⟩ := List.cons.inj h
        cases before with
        | nil => rfl
        | cons c₂ before =>
          rw [List.append_eq, List.append_eq, List.cons_append, List.cons_append] at hrest
          obtain ⟨rfl, hrest'⟩ := List.cons.inj hrest
          rw [track_cons (advance_close depth), track_cons (advance_open hq depth)] at htrack
          have hlast := ih hrest' htrack
          rw [List.getLast?_cons, List.getLast?_cons, hlast]
          rfl
    · rw [double_cons_of_ne hc] at h
      cases before with
      | nil =>
        cases Option.some.inj htrack
        cases hs
      | cons c₁ before =>
        obtain ⟨rfl, hrest⟩ := List.cons.inj h
        rw [track_cons (advance_quoted rfl hc)] at htrack
        have hlast := ih hrest htrack
        rw [List.getLast?_cons, hlast]
        rfl

end Nesting
