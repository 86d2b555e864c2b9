import Sketchlog.Lib.Nesting
import Sketchlog.Sql.Parser

/-!
# The scanners of the SQL parser

Each scanner reads one character after another, as `Nesting.track` does: a doubled quote is one step
of the code and two of the automaton, with the same state behind it. So a scanner goes over a text
that is in balance, and is then where it was (`normalize_word`, `find_skip`, `split_append`).
-/

namespace Sketchlog.Sql

open Nesting

/-- The quotes and parentheses of the scanners. -/
def delimiters : Delimiters Char := ⟨isQuote, '(', ')'⟩

/-- In balance: outside everything at the end, as at the start. -/
def Balanced (text : Text) : Prop := track delimiters top text = some top

theorem plain_of_isAlphanum {c : Char} (h : c.isAlphanum = true ∨ c = '_') : delimiters.Plain c := by
  have hne : ∀ d : Char, d.isAlphanum = false → d ≠ '_' → c ≠ d := by
    rintro d hd hne rfl
    rcases h with h | h
    · rw [h] at hd
      cases hd
    · exact hne h
  refine ⟨?_, hne _ rfl (by decide), hne _ rfl (by decide)⟩
  unfold delimiters isQuote
  rw [Bool.or_eq_false_iff, decide_eq_false_iff_not, decide_eq_false_iff_not]
  exact ⟨hne _ rfl (by decide), hne _ rfl (by decide)⟩

theorem isSpace_of_isQuote {q : Char} (h : isQuote q = true) : isSpace q = false := by
  rcases Bool.or_eq_true_iff.mp h with h | h <;> rw [of_decide_eq_true h] <;> decide

/-! ## White space

The normalizer as a fold over a small state. It shortens the text, and outside quotes it leaves no
two blanks next to each other. -/

/-- What `_normalize_whitespace` keeps. -/
structure NormState where
  quote : Option Char
  pending : Bool
  output : Text

namespace NormState

/-- The output, with the white space that is pending. -/
def spaced (s : NormState) : Text := if s.pending ∧ s.output ≠ [] then s.output ++ [' '] else s.output

def step (s : NormState) (c : Char) : NormState :=
  match s.quote with
  | some q => { s with quote := if c = q then none else some q, output := s.output ++ [c] }
  | none =>
    if isQuote c then ⟨some c, false, s.spaced ++ [c]⟩
    else if isSpace c then ⟨none, true, s.output⟩
    else ⟨none, false, s.spaced ++ [c]⟩

theorem step_close (q : Char) (pending : Bool) (output : Text) :
    step ⟨some q, pending, output⟩ q = ⟨none, pending, output ++ [q]⟩ := by simp [step]

theorem step_quoted {q c : Char} (hc : c ≠ q) (pending : Bool) (output : Text) :
    step ⟨some q, pending, output⟩ c = ⟨some q, pending, output ++ [c]⟩ := by simp [step, hc]

theorem step_open {s : NormState} (hs : s.quote = none) {c : Char} (hc : isQuote c = true) :
    s.step c = ⟨some c, false, s.spaced ++ [c]⟩ := by
  unfold step
  rw [hs]
  exact if_pos hc

theorem step_space {s : NormState} (hs : s.quote = none) {c : Char} (hc : isSpace c = true) :
    s.step c = ⟨none, true, s.output⟩ := by
  have hquote : isQuote c = false := by
    rw [Bool.eq_false_iff]
    intro hq
    rw [isSpace_of_isQuote hq] at hc
    cases hc
  unfold step
  rw [hs]
  simp only [hquote, hc, if_true, Bool.false_eq_true, if_false]

theorem step_other {s : NormState} (hs : s.quote = none) {c : Char} (hquote : isQuote c = false)
    (hc : isSpace c = false) :
    s.step c = ⟨none, false, s.spaced ++ [c]⟩ := by
  unfold step
  rw [hs]
  simp only [hquote, hc, Bool.false_eq_true, if_false]

/-- Inside quotes nothing is pending. -/
def Valid (s : NormState) : Prop := ∀ q ∈ s.quote, isQuote q = true ∧ s.pending = false

theorem valid_none (pending : Bool) (output : Text) : (⟨none, pending, output⟩ : NormState).Valid := by
  intro q hq
  cases hq

end NormState

open NormState

/-- **The scanner, one character after another.** -/
theorem normalizeFrom_eq_foldl {quote : Option Char} {pending : Bool} {output text : Text}
    (h : (⟨quote, pending, output⟩ : NormState).Valid) :
    normalizeFrom quote pending output text = (text.foldl step ⟨quote, pending, output⟩).output := by
  fun_induction normalizeFrom quote pending output text with
  | case1 => rfl
  | case2 pending output q rest ih =>
    -- a doubled quote: the automaton closes the quotes and opens them again
    obtain ⟨hq, hpending⟩ := h q rfl
    have hpending' : pending = false := hpending
    have hopen : step ⟨none, pending, output ++ [q]⟩ q = ⟨some q, pending, output ++ [q, q]⟩ := by
      rw [step_open rfl hq, spaced, hpending']
      simp
    rw [List.foldl_cons, List.foldl_cons, step_close, hopen]
    exact ih h
  | case3 pending output q c rest hc ih =>
    rw [List.foldl_cons, step_close]
    exact ih (valid_none _ _)
  | case4 pending output q ih =>
    rw [List.foldl_cons, step_close]
    exact ih (valid_none _ _)
  | case5 pending output c rest q hc ih =>
    rw [List.foldl_cons, step_quoted hc]
    exact ih h
  | case6 pending output c rest spaced hc ih =>
    rw [List.foldl_cons, step_open rfl hc]
    apply ih
    intro q hq
    cases hq
    exact ⟨hc, rfl⟩
  | case7 pending output c rest hquote hc ih =>
    rw [List.foldl_cons, step_space rfl hc]
    exact ih (valid_none _ _)
  | case8 pending output c rest spaced hquote hc ih =>
    rw [List.foldl_cons, step_other rfl (Bool.eq_false_iff.mpr hquote) (Bool.eq_false_iff.mpr hc)]
    exact ih (valid_none _ _)

theorem normalizeWhitespace_eq (text : Text) :
    normalizeWhitespace text = (text.foldl step ⟨none, false, []⟩).output :=
      normalizeFrom_eq_foldl (valid_none _ _)

theorem NormState.Valid.step {s : NormState} (h : s.Valid) (c : Char) : (s.step c).Valid := by
  obtain ⟨quote, pending, output⟩ := s
  cases quote with
  | some q =>
    by_cases hc : c = q
    · rw [hc, step_close]
      exact valid_none _ _
    · rw [step_quoted hc]
      exact h
  | none =>
    by_cases hquote : isQuote c = true
    · rw [step_open rfl hquote]
      intro q hq
      cases hq
      exact ⟨hquote, rfl⟩
    by_cases hspace : isSpace c = true
    · rw [step_space rfl hspace]
      exact valid_none _ _
    · rw [step_other rfl (Bool.eq_false_iff.mpr hquote) (Bool.eq_false_iff.mpr hspace)]
      exact valid_none _ _

/-- The length of the output, with a blank for the white space that is pending. -/
def weight (s : NormState) : ℕ := s.output.length + if s.pending ∧ s.output ≠ [] then 1 else 0

theorem weight_not_pending (quote : Option Char) (output : Text) :
    weight ⟨quote, false, output⟩ = output.length := by
  simp [weight]

theorem length_spaced (s : NormState) : s.spaced.length = weight s := by
  unfold spaced weight
  split <;> simp

theorem weight_step_le {s : NormState} (h : s.Valid) (c : Char) : weight (s.step c) ≤ weight s + 1 := by
  obtain ⟨quote, pending, output⟩ := s
  -- inside quotes one character is written; outside, a pending blank may be written before it
  cases quote with
  | some q =>
    have hpending : pending = false := (h q rfl).2
    subst hpending
    by_cases hc : c = q
    · rw [hc, step_close, weight_not_pending, weight_not_pending, List.length_append,
        List.length_singleton]
    · rw [step_quoted hc, weight_not_pending, weight_not_pending, List.length_append,
        List.length_singleton]
  | none =>
    by_cases hquote : isQuote c = true
    · rw [step_open rfl hquote, weight_not_pending, List.length_append, length_spaced,
        List.length_singleton]
    -- white space writes nothing yet, but owes a blank
    by_cases hspace : isSpace c = true
    · have hle : weight ⟨none, true, output⟩ ≤ output.length + 1 := by
        unfold weight
        split <;> simp
      have hge : output.length ≤ weight ⟨none, pending, output⟩ := Nat.le_add_right _ _
      rw [step_space rfl hspace]
      exact hle.trans (Nat.succ_le_succ hge)
    · rw [step_other rfl (Bool.eq_false_iff.mpr hquote) (Bool.eq_false_iff.mpr hspace),
        weight_not_pending,
        List.length_append, length_spaced, List.length_singleton]

theorem weight_foldl_le {s : NormState} (h : s.Valid) (text : Text) :
    weight (text.foldl step s) ≤ weight s + text.length := by
  induction text generalizing s with
  | nil => exact le_rfl
  | cons c text ih =>
    have hstep := weight_step_le h c
    have hrest := ih (h.step c)
    rw [List.foldl_cons, List.length_cons]
    omega

/-- More before the output. -/
def NormState.behind (before : Text) (s : NormState) : NormState :=
  { s with output := before ++ s.output }

/-- Once something is put out, what stands before it makes no difference. -/
theorem step_behind (before : Text) {s : NormState} (hne : s.output ≠ []) (c : Char) :
    (s.behind before).step c = (s.step c).behind before ∧ (s.step c).output ≠ [] := by
  obtain ⟨quote, pending, output⟩ := s
  have hspaced : (⟨none, pending, before ++ output⟩ : NormState).spaced ++ [c]
      = before ++ ((⟨none, pending, output⟩ : NormState).spaced ++ [c]) := by
    have hne' : output ≠ [] := hne
    unfold spaced
    cases pending <;> simp [hne']
  -- what stands before the output is never looked at once there is output
  cases quote with
  | some q =>
    by_cases hc : c = q
    · rw [hc, behind, step_close, step_close, behind, List.append_assoc]
      exact ⟨rfl, by simp⟩
    · rw [behind, step_quoted hc, step_quoted hc, behind, List.append_assoc]
      exact ⟨rfl, by simp⟩
  | none =>
    by_cases hquote : isQuote c = true
    · rw [behind, step_open rfl hquote, step_open rfl hquote, behind, hspaced]
      exact ⟨rfl, by simp⟩
    by_cases hspace : isSpace c = true
    · rw [behind, step_space rfl hspace, step_space rfl hspace, behind]
      exact ⟨rfl, hne⟩
    · have hquote' := Bool.eq_false_iff.mpr hquote
      have hspace' := Bool.eq_false_iff.mpr hspace
      rw [behind, step_other rfl hquote' hspace', step_other rfl hquote' hspace', behind, hspaced]
      exact ⟨rfl, by simp⟩

theorem foldl_step_behind (before text : Text) {s : NormState} (hne : s.output ≠ []) :
    text.foldl step (s.behind before) = (text.foldl step s).behind before := by
  induction text generalizing s with
  | nil => rfl
  | cons c text ih =>
    obtain ⟨hstep, hne'⟩ := step_behind before hne c
    rw [List.foldl_cons, List.foldl_cons, hstep, ih hne']

/-- The quote that is open is the one of the automaton. -/
theorem quote_foldl {s : NormState} {t t' : Nesting.State Char} (hs : s.quote = t.quote) {text : Text}
    (h : track delimiters t text = some t') : (text.foldl step s).quote = t'.quote := by
  -- the normalizer sees the quotes as the scanner does, character by character
  induction text generalizing s t with
  | nil =>
    cases Option.some.inj h
    exact hs
  | cons c text ih =>
    obtain ⟨t'', hadvance, htrack⟩ := Option.bind_eq_some_iff.mp h
    apply ih _ htrack
    obtain ⟨quote, pending, output⟩ := s
    obtain ⟨quote', depth⟩ := t
    have hs' : quote = quote' := hs
    subst hs'
    have hother : quote = none → isQuote c = false → (step ⟨quote, pending, output⟩ c).quote
      = none := by
      intro hnone hquote
      by_cases hspace : isSpace c = true
      · rw [step_space hnone hspace]
      · rw [step_other hnone hquote (Bool.eq_false_iff.mpr hspace)]
    -- the scanner's six transitions; brackets are plain characters to the normalizer
    rcases advance_cases hadvance with ⟨q, rfl, rfl, rfl⟩ | ⟨q, rfl, hc, rfl⟩ | ⟨rfl, hc,
      rfl⟩ | ⟨rfl, rfl, rfl⟩
      | ⟨rfl, rfl, hdepth, rfl⟩ | ⟨rfl, hc, rfl⟩
    · rw [step_close]
    · rw [step_quoted hc]
    · have hquote : isQuote c = true := hc
      rw [step_open rfl hquote]
    · exact hother rfl rfl
    · exact hother rfl rfl
    · exact hother rfl hc.1

/-- A part of the normal form of a query: in balance, and with no white space to collapse. -/
structure Word (text : Text) : Prop where
  ne_nil : text ≠ []
  balanced : Balanced text
  normal : normalizeWhitespace text = text

/-- A word starts with a character that is not white space. -/
theorem Word.head {text : Text} (h : Word text) : ∃ c rest, text = c :: rest ∧ isSpace c = false := by
  obtain ⟨c, rest, rfl⟩ := List.exists_cons_of_ne_nil h.ne_nil
  refine ⟨c, rest, rfl, ?_⟩
  rw [Bool.eq_false_iff]
  intro hspace
  have hnormal := h.normal
  rw [normalizeWhitespace_eq, List.foldl_cons, step_space rfl hspace] at hnormal
  have hle := weight_foldl_le (valid_none true []) rest
  have hzero : weight ⟨none, true, []⟩ = 0 := by simp [weight]
  have hge : (rest.foldl step ⟨none, true, []⟩).output.length
    ≤ weight (rest.foldl step ⟨none, true, []⟩) :=
    Nat.le_add_right _ _
  rw [hnormal, List.length_cons] at hge
  omega

/-- **A word is taken over as it is**, behind the white space that is pending. -/
theorem Word.foldl_step {text : Text} (h : Word text) (pending : Bool) (output : Text) :
    text.foldl step ⟨none, pending, output⟩
      = ⟨none, false, (⟨none, pending, output⟩ : NormState).spaced ++ text⟩ := by
  obtain ⟨c, rest, rfl, hspace⟩ := h.head
  -- the first character, behind any output
  have hfirst : ∀ pending output, step ⟨none, pending, output⟩ c
      = (step ⟨none, false, []⟩ c).behind (⟨none, pending, output⟩ : NormState).spaced
        ∧ (step ⟨none, false, []⟩ c).output = [c] := by
    intro pending output
    by_cases hquote : isQuote c = true
    · rw [step_open rfl hquote, step_open rfl hquote]
      exact ⟨rfl, rfl⟩
    · have hquote' := Bool.eq_false_iff.mpr hquote
      rw [step_other rfl hquote' hspace, step_other rfl hquote' hspace]
      exact ⟨rfl, rfl⟩
  have hne : (step ⟨none, false, []⟩ c).output ≠ [] := by
    rw [(hfirst false []).2]
    exact List.cons_ne_nil _ _
  rw [List.foldl_cons, (hfirst pending output).1, foldl_step_behind _ _ hne, ← List.foldl_cons]
  have houtput : ((c :: rest).foldl step ⟨none, false, []⟩).output = c :: rest := by
    rw [← normalizeWhitespace_eq]
    exact h.normal
  have hquote : ((c :: rest).foldl step ⟨none, false, []⟩).quote = none := quote_foldl rfl h.balanced
  have hpending : ((c :: rest).foldl step ⟨none, false, []⟩).pending = false := by
    have hle := weight_foldl_le (valid_none false []) (c :: rest)
    rw [weight_not_pending, List.length_nil, Nat.zero_add] at hle
    unfold weight at hle
    rw [houtput] at hle
    cases hp : ((c :: rest).foldl step ⟨none, false, []⟩).pending with
    | false => rfl
    | true =>
      rw [hp] at hle
      simp at hle
  unfold behind
  rw [houtput, hquote, hpending]

/-- White space is put off. -/
theorem foldl_step_blank {blank : Text} (hne : blank ≠ []) (h : ∀ c ∈ blank, isSpace c = true)
    (pending : Bool) (output : Text) :
    blank.foldl step ⟨none, pending, output⟩ = ⟨none, true, output⟩ := by
  induction blank generalizing pending with
  | nil => exact absurd rfl hne
  | cons c blank ih =>
    obtain ⟨hc, hblank⟩ := List.forall_mem_cons.mp h
    rw [List.foldl_cons, step_space rfl hc]
    cases blank with
    | nil => rfl
    | cons c' blank => exact ih (List.cons_ne_nil _ _) hblank true

/-- A word ends with a character that is not white space. -/
theorem Word.getLast {text : Text} (h : Word text) : ∃ init c, text = init ++ [c] ∧ isSpace c
    = false := by
  obtain ⟨init, c, rfl⟩ := (List.eq_nil_or_concat text).resolve_left h.ne_nil
  rw [List.concat_eq_append] at h ⊢
  refine ⟨init, c, rfl, ?_⟩
  rw [Bool.eq_false_iff]
  -- a blank at the end would leave the reader inside quotes, or owing a blank
  intro hspace
  have hfold := h.foldl_step false []
  rw [List.foldl_append, List.foldl_cons, List.foldl_nil] at hfold
  -- the state before the last character is a valid one
  have hvalid : (init.foldl step ⟨none, false, []⟩).Valid := by
    clear hfold h
    induction init using List.reverseRecOn with
    | nil => exact valid_none _ _
    | append_singleton init c' ih =>
      rw [List.foldl_append]
      exact ih.step c'
  generalize init.foldl step ⟨none, false, []⟩ = before at hfold hvalid
  obtain ⟨quote, pending, output⟩ := before
  have hnot : ∀ q, isQuote q = true → c ≠ q := by
    rintro q hq rfl
    rw [isSpace_of_isQuote hq] at hspace
    cases hspace
  cases quote with
  | none =>
    rw [step_space rfl hspace] at hfold
    cases congrArg NormState.pending hfold
  | some q =>
    rw [step_quoted (hnot q (hvalid q rfl).1)] at hfold
    cases congrArg NormState.quote hfold

/-! ## Words and blanks

A text of words with white space between them is normalized to the words with single blanks. -/

/-- Words, each with a blank behind it. -/
def flat (words : List Text) : Text := words.flatMap (· ++ [' '])

/-- Words with blanks between them. -/
def joined : List Text → Text
  | [] => []
  | [word] => word
  | word :: words => word ++ ' ' :: joined words

/-- Words with white space between them, which `blank` gives by the number of words behind it. -/
def spread (blank : ℕ → Text) : List Text → Text
  | [] => []
  | [word] => word
  | word :: words => word ++ (blank words.length ++ spread blank words)

theorem joined_concat (words : List Text) (word : Text) :
    joined (words ++ [word]) = flat words ++ word := by
  induction words with
  | nil => rfl
  | cons first words ih =>
    have hcons : joined (first :: (words ++ [word])) = first ++ ' ' :: joined (words ++ [word]) := by
      cases words <;> rfl
    rw [List.cons_append, hcons, ih]
    simp [flat]

theorem joined_append {words words' : List Text} (h : words ≠ []) (h' : words' ≠ []) :
    joined (words ++ words') = joined words ++ ' ' :: joined words' := by
  induction words with
  | nil => exact absurd rfl h
  | cons word words ih =>
    cases words with
    | nil =>
      obtain ⟨word', words', rfl⟩ := List.exists_cons_of_ne_nil h'
      rfl
    | cons next words =>
      have hrest := ih (List.cons_ne_nil _ _)
      show word ++ ' ' :: joined (next :: words ++ words') = _
      rw [hrest]
      simp [joined]

theorem flat_append (words words' : List Text) :
    flat (words ++ words') = flat words ++ flat words' := List.flatMap_append

/-- White space of any kind between words becomes one blank. -/
theorem foldl_step_spread {blank : ℕ → Text}
    (hblank : ∀ n, blank n ≠ [] ∧ ∀ c ∈ blank n, isSpace c = true) {words : List Text}
    (hwords : ∀ word ∈ words, Word word) (hne : words ≠ []) {pending : Bool} {output : Text} :
    (spread blank words).foldl step ⟨none, pending, output⟩
      = ⟨none, false, (⟨none, pending, output⟩ : NormState).spaced ++ joined words⟩ := by
  induction words generalizing pending output with
  | nil => exact absurd rfl hne
  | cons word words ih =>
    obtain ⟨hword, hrest⟩ := List.forall_mem_cons.mp hwords
    cases words with
    | nil => exact hword.foldl_step pending output
    | cons next words =>
      obtain ⟨hnil, hspace⟩ := hblank (next :: words).length
      have htext : spread blank (word :: next :: words)
          = word ++ (blank (next :: words).length ++ spread blank (next :: words)) := rfl
      rw [htext, List.foldl_append, List.foldl_append, hword.foldl_step, foldl_step_blank hnil hspace,
        ih hrest (List.cons_ne_nil _ _)]
      have hfull : ((⟨none, pending, output⟩ : NormState).spaced ++ word) ≠ [] := by simp [hword.ne_nil]
      have hspaced : (⟨none, true, (⟨none, pending, output⟩ : NormState).spaced ++ word⟩ :
        NormState).spaced
          = (⟨none, pending, output⟩ : NormState).spaced ++ word ++ [' '] := if_pos ⟨rfl, hfull⟩
      rw [hspaced]
      simp [joined]

/-- **The normal form of words.** -/
theorem normalize_spread {blank : ℕ → Text}
    (hblank : ∀ n, blank n ≠ [] ∧ ∀ c ∈ blank n, isSpace c = true) {words : List Text}
    (hwords : ∀ word ∈ words, Word word) (hne : words ≠ []) :
      normalizeWhitespace (spread blank words) = joined words := by
  rw [normalizeWhitespace_eq, foldl_step_spread hblank hwords hne]
  rfl

/-- Words start and end with a character that is not white space. -/
theorem strip_spread {blank : ℕ → Text} {words : List Text} (hwords : ∀ word ∈ words, Word word)
    (hne : words ≠ [])
    {lead trail : Text} (hlead : ∀ c ∈ lead, isSpace c = true)
    (htrail : ∀ c ∈ trail, isSpace c = true) :
    strip (lead ++ (spread blank words ++ trail)) = spread blank words := by
  -- the first word begins with a character that is no white space
  have hhead : ∃ c rest, spread blank words = c :: rest ∧ isSpace c = false := by
    obtain ⟨word, words, rfl⟩ := List.exists_cons_of_ne_nil hne
    obtain ⟨c, rest, rfl, hc⟩ := (hwords word List.mem_cons_self).head
    cases words with
    | nil => exact ⟨c, rest, rfl, hc⟩
    | cons next words => exact ⟨c, _, rfl, hc⟩
  -- and the last one ends with such a character
  have hlast : ∃ init c, spread blank words = init ++ [c] ∧ isSpace c = false := by
    clear hhead
    induction words with
    | nil => exact absurd rfl hne
    | cons word words ih =>
      cases words with
      | nil => exact (hwords word List.mem_cons_self).getLast
      | cons next words =>
        obtain ⟨init, c, heq, hc⟩ :=
          ih (fun w hw => hwords w (List.mem_cons_of_mem _ hw)) (List.cons_ne_nil _ _)
        refine ⟨word ++ (blank (next :: words).length ++ init), c, ?_, hc⟩
        show word ++ (blank (next :: words).length ++ spread blank (next :: words)) = _
        rw [heq]
        simp
  obtain ⟨c, rest, heq, hc⟩ := hhead
  obtain ⟨init, c', heq', hc'⟩ := hlast
  -- so stripping takes the lead away and nothing more, and likewise at the other end
  have hleft : (lead ++ (spread blank words ++ trail)).dropWhile isSpace
    = spread blank words ++ trail := by
    rw [List.dropWhile_append_of_pos hlead, heq, List.cons_append,
      List.dropWhile_cons_of_neg (by rw [hc]; exact Bool.false_ne_true)]
  unfold strip
  rw [hleft, List.rdropWhile, List.reverse_append,
    List.dropWhile_append_of_pos (fun c hc => htrail c (List.mem_reverse.mp hc)), heq',
      List.reverse_append]
  simp [hc']

end Sketchlog.Sql
