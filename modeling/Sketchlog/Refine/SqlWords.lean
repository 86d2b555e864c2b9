import Mathlib
import Sketchlog.Sql.Grammar

/-!
# The words of a query

The words of the grammar are in balance and avoid the keywords they are not; an item is read from
its words (`parseItem_text`).
-/

namespace Sketchlog.Sql

open Nesting

/-! ## Words

The words of a query are compact: without white space, quotes or brackets left open. Those that are
no keywords avoid them, and a quoted text is one word. -/

/-- A text without white space and quotes. -/
def Compact (text : Text) : Prop := ∀ c ∈ text, isSpace c = false ∧ isQuote c = false

theorem word_of_compact {text : Text} (hne : text ≠ []) (hbalanced : Balanced text)
    (h : Compact text) : Word text := by
  refine ⟨hne, hbalanced, ?_⟩
  have hfold : ∀ output, text.foldl NormState.step ⟨none, false, output⟩
    = ⟨none, false, output ++ text⟩ := by
    clear hbalanced hne
    induction text with
    | nil =>
      intro output
      rw [List.append_nil]
      rfl
    | cons c text ih =>
      intro output
      obtain ⟨⟨hspace, hquote⟩, hrest⟩ := List.forall_mem_cons.mp h
      rw [List.foldl_cons, NormState.step_other rfl hquote hspace, ih hrest]
      simp [NormState.spaced]
  rw [normalizeWhitespace_eq, hfold]
  rfl

/-- Without white space, the only word of a text is the text. -/
theorem avoids_of_compact {keyword text : Text} (h : Compact text)
    (hne : text.map Char.toUpper ≠ keyword) :
    Avoids keyword text := by
  intro before word after heq _ hbefore hafter hword
  have hbefore' : before = [] := by
    rcases List.eq_nil_or_concat before with rfl | ⟨init, c, rfl⟩
    · rfl
    · have hc := (h c (by rw [heq]; simp)).1
      rw [List.concat_eq_append, List.getLast?_append] at hbefore
      have hspace : isSpace c = true := hbefore
      rw [hc] at hspace
      cases hspace
  have hafter' : after = [] := by
    cases after with
    | nil => rfl
    | cons c after =>
      have hc := (h c (by rw [heq]; simp)).1
      have hspace : isSpace c = true := hafter
      rw [hc] at hspace
      cases hspace
  rw [heq, hbefore', hafter', List.append_nil, List.nil_append] at hne
  exact hne hword

theorem isAlphanum_of_mem_reserved {keyword : Text} (h : keyword ∈ reserved) :
    keyword ≠ [] ∧ ∀ c ∈ keyword, c.isAlphanum = true := by
  have hall : ∀ keyword ∈ reserved, keyword ≠ [] ∧ keyword.all Char.isAlphanum = true := by decide
  exact ⟨(hall keyword h).1, List.all_eq_true.mp (hall keyword h).2⟩

theorem toNat_of_isAlphanum {c : Char} (h : c.isAlphanum = true) :
    48 ≤ c.toNat ∧ c.toNat ≤ 57 ∨ 65 ≤ c.toNat ∧ c.toNat ≤ 90 ∨ 97 ≤ c.toNat ∧ c.toNat ≤ 122 := by
  simp only [Char.isAlphanum, Char.isAlpha, Char.isUpper, Char.isLower, Char.isDigit,
    Bool.or_eq_true, Bool.and_eq_true,
    decide_eq_true_eq, ge_iff_le, UInt32.le_iff_toNat_le] at h
  have hA : 'A'.val.toNat = 65 := rfl
  have hZ : 'Z'.val.toNat = 90 := rfl
  have ha : 'a'.val.toNat = 97 := rfl
  have hz : 'z'.val.toNat = 122 := rfl
  have h0 : '0'.val.toNat = 48 := rfl
  have h9 : '9'.val.toNat = 57 := rfl
  have hc : c.toNat = c.val.toNat := rfl
  omega

/-- A word with a comma or a parenthesis in it is no keyword. -/
theorem avoids_of_mem {keyword text : Text} {c : Char} (hkeyword : keyword ∈ reserved)
    (h : Compact text) (hc : c ∈ text)
    (hmark : c.toUpper.isAlphanum = false) : Avoids keyword text := by
  apply avoids_of_compact h
  rintro rfl
  have hletter := (isAlphanum_of_mem_reserved hkeyword).2 c.toUpper (List.mem_map.mpr ⟨c, hc, rfl⟩)
  rw [hmark] at hletter
  cases hletter

theorem isAlphanum_of_toUpper {c : Char} (h : c.toUpper.isAlphanum = true) : c.isAlphanum = true := by
  unfold Char.toUpper at h
  split at h
  · next hlower =>
    have hlow : c.isLower = true := by
      unfold Char.isLower
      rw [Bool.and_eq_true, decide_eq_true_eq, decide_eq_true_eq]
      exact hlower
    unfold Char.isAlphanum Char.isAlpha
    rw [hlow, Bool.or_true, Bool.true_or]
  · exact h

/-- What a word of the printed query has to be. -/
structure Sound (text : Text) : Prop where
  word : Word text
  ascii : IsAscii text

/-- The characters of names, and those that stand between them in a word. -/
def isBody (c : Char) : Bool := isNameChar c || c = '*' || c = ','

theorem compact_of_isBody {text : Text} (h : ∀ c ∈ text, isBody c = true ∨ c = '(' ∨ c = ')') :
    Compact text ∧ IsAscii text := by
  -- every such character lies between `(` and `z` in the character table
  have hcases : ∀ c ∈ text, c.isAlphanum = true ∨ c = '_' ∨ c = '*' ∨ c = ',' ∨ c = '(' ∨ c = ')' := by
    intro c hc
    have := h c hc
    simp only [isBody, isNameChar, Bool.or_eq_true, decide_eq_true_eq] at this
    tauto
  have hbounds : ∀ c ∈ text, 40 ≤ c.toNat ∧ c.toNat ≤ 122 := by
    intro c hc
    rcases hcases c hc with h | rfl | rfl | rfl | rfl | rfl
    · -- white space lies below that range
      have := toNat_of_isAlphanum h
      omega
    all_goals decide
  refine ⟨fun c hc => ?_, fun c hc => ?_⟩
  · have := hbounds c hc
    constructor
    · simp only [isSpace, Bool.or_eq_false_iff, Bool.and_eq_false_iff, decide_eq_false_iff_not]
      omega
    · -- and of the quotes, one lies below and one is none of the characters
      unfold isQuote
      rw [Bool.or_eq_false_iff, decide_eq_false_iff_not, decide_eq_false_iff_not]
      constructor
      · rintro rfl
        exact absurd this (by decide)
      · rintro rfl
        exact absurd this (by decide)
  · have := hbounds c hc
    omega

theorem plain_of_isBody {c : Char} (h : isBody c = true) : delimiters.Plain c := by
  simp only [isBody, isNameChar, Bool.or_eq_true, decide_eq_true_eq] at h
  rcases h with (h | rfl) | rfl
  · exact plain_of_isAlphanum h
  · exact ⟨rfl, by decide, by decide⟩
  · exact ⟨rfl, by decide, by decide⟩

theorem balanced_of_isBody {text : Text} (h : ∀ c ∈ text, isBody c = true) : Balanced text :=
  track_plain rfl fun c hc => plain_of_isBody (h c hc)

theorem sound_of_isBody {text : Text} (hne : text ≠ []) (h : ∀ c ∈ text, isBody c = true) :
    Sound text := by
  obtain ⟨hcompact, hascii⟩ := compact_of_isBody fun c hc => .inl (h c hc)
  exact ⟨word_of_compact hne (balanced_of_isBody h) hcompact, hascii⟩

namespace Name

variable (n : Name)

theorem ne_nil : n.text ≠ [] := by
  intro h
  have hvalid := n.valid.1
  rw [h] at hvalid
  cases hvalid

theorem isBody {c : Char} (hc : c ∈ n.text) : isBody c = true := by
  unfold Sql.isBody
  rw [n.valid.2 c hc]
  rfl

theorem sound : Sound n.text := sound_of_isBody n.ne_nil fun _ hc => n.isBody hc

/-- A name is no keyword. -/
theorem avoids {keyword : Text} (h : keyword ∈ reserved) : Avoids keyword n.text := by
  obtain ⟨hcompact, -⟩ := compact_of_isBody fun c hc => .inl (n.isBody hc)
  exact avoids_of_compact hcompact fun heq => n.free (heq ▸ h)

end Name

theorem isBody_func (func : Func) : ∀ c ∈ func.text, isBody c = true := by
  cases func <;> exact forall_mem_of_all (by decide)

theorem isBody_argText (arg : Option Name) : ∀ c ∈ argText arg, isBody c = true := by
  cases arg with
  | none => exact forall_mem_of_all (by decide)
  | some n => exact fun c hc => n.isBody hc

theorem argText_ne_nil (arg : Option Name) : argText arg ≠ [] := by
  cases arg with
  | none => exact List.cons_ne_nil _ _
  | some n => exact n.ne_nil

/-- A comma or nothing. -/
def IsComma (comma : Text) : Prop := comma = [] ∨ comma = [',']

theorem IsComma.isBody {comma : Text} (h : IsComma comma) : ∀ c ∈ comma, isBody c = true := by
  rcases h with rfl | rfl
  · exact fun c hc => absurd hc List.not_mem_nil
  · intro c hc
    rw [List.mem_singleton.mp hc]
    rfl

theorem Name.sound_comma (n : Name) {comma : Text} (hcomma : IsComma comma) :
    Sound (n.text ++ comma) := by
  apply sound_of_isBody
  · simp [n.ne_nil]
  · exact List.forall_mem_append.mpr ⟨fun c hc => n.isBody hc, hcomma.isBody⟩

theorem Name.avoids_comma (n : Name) {keyword comma : Text} (hcomma : IsComma comma)
    (h : keyword ∈ reserved) :
    Avoids keyword (n.text ++ comma) := by
  rcases hcomma with rfl | rfl
  · rw [List.append_nil]
    exact n.avoids h
  · have hcompact : Compact (n.text ++ [',']) := (compact_of_isBody fun c hc =>
      .inl (List.forall_mem_append.mpr ⟨fun c hc => n.isBody hc, IsComma.isBody (.inr rfl)⟩ c hc)).1
    exact avoids_of_mem h hcompact (List.mem_append_right _ List.mem_cons_self) rfl

namespace Expr

variable (e : Expr)

theorem ne_nil : e.text ≠ [] := by
  cases e with
  | col name => exact name.ne_nil
  | agg func arg => cases func <;> exact List.cons_ne_nil _ _

theorem balanced_agg (func : Func) (arg : Option Name) : Balanced (agg func arg).text := by
  have hfunc : track delimiters top func.text = some top :=
    track_plain rfl fun c hc => plain_of_isBody (isBody_func func c hc)
  have hparens : track delimiters top ('(' :: (argText arg ++ [')'])) = some top :=
    track_parens (d := delimiters) rfl rfl (by decide) (fun c hc =>
      plain_of_isBody (isBody_argText arg c hc)) 0
  exact (track_append_of hfunc).trans hparens

theorem compact_comma {comma : Text} (hcomma : IsComma comma) :
    Compact (e.text ++ comma) ∧ IsAscii (e.text ++ comma) := by
  apply compact_of_isBody
  refine List.forall_mem_append.mpr ⟨?_, fun c hc => .inl (hcomma.isBody c hc)⟩
  cases e with
  | col name => exact fun c hc => .inl (name.isBody hc)
  | agg func arg =>
    intro c hc
    unfold text at hc
    simp only [List.mem_append, List.mem_cons, List.not_mem_nil, or_false] at hc
    rcases hc with hc | rfl | hc | rfl
    · exact .inl (isBody_func func c hc)
    · exact .inr (.inl rfl)
    · exact .inl (isBody_argText arg c hc)
    · exact .inr (.inr rfl)

theorem balanced_comma {comma : Text} (hcomma : IsComma comma) : Balanced (e.text ++ comma) := by
  have hexpr : Balanced e.text := by
    cases e with
    | col name => exact name.sound.word.balanced
    | agg func arg => exact balanced_agg func arg
  exact (track_append_of hexpr).trans (balanced_of_isBody hcomma.isBody)

theorem sound_comma {comma : Text} (hcomma : IsComma comma) : Sound (e.text ++ comma) := by
  obtain ⟨hcompact, hascii⟩ := e.compact_comma hcomma
  exact ⟨word_of_compact (by simp [e.ne_nil]) (e.balanced_comma hcomma) hcompact, hascii⟩

theorem avoids_comma {keyword comma : Text} (hcomma : IsComma comma) (h : keyword ∈ reserved) :
    Avoids keyword (e.text ++ comma) := by
  cases e with
  | col name => exact name.avoids_comma hcomma h
  | agg func arg =>
    refine avoids_of_mem (c := '(') h (compact_comma _ hcomma).1 ?_ rfl
    unfold text
    simp

end Expr

/-- A keyword in any case. -/
theorem sound_of_spells {text keyword : Text} (hkeyword : keyword ∈ reserved)
    (h : text.map Char.toUpper = keyword) :
    Sound text := by
  obtain ⟨hne, hletters⟩ := isAlphanum_of_mem_reserved hkeyword
  apply sound_of_isBody
  · rintro rfl
    exact hne h.symm
  · intro c hc
    have hletter := isAlphanum_of_toUpper (hletters c.toUpper (h ▸ List.mem_map.mpr ⟨c, hc, rfl⟩))
    unfold isBody isNameChar
    rw [hletter]
    rfl

/-- A keyword is not another one. -/
theorem avoids_of_spells {text keyword keyword' : Text} (hkeyword : keyword ∈ reserved)
    (h : text.map Char.toUpper = keyword) (hne : keyword ≠ keyword') : Avoids keyword' text := by
  obtain ⟨-, hletters⟩ := isAlphanum_of_mem_reserved hkeyword
  apply avoids_of_compact
  · intro c hc
    have hletter := isAlphanum_of_toUpper (hletters c.toUpper (h ▸ List.mem_map.mpr ⟨c, hc, rfl⟩))
    refine (compact_of_isBody ?_ : Compact [c] ∧ IsAscii [c]).1 c List.mem_cons_self
    intro c' hc'
    rw [List.mem_singleton.mp hc']
    unfold isBody isNameChar
    rw [hletter]
    exact .inl rfl
  · rw [h]
    exact hne

namespace Source

theorem mem_double {q c : Char} {content : Text} (h : c ∈ double q content) : c ∈ content := by
  obtain ⟨c', hc', hmem⟩ := List.mem_flatMap.mp h
  split at hmem
  · next heq =>
    simp only [List.mem_cons, List.not_mem_nil, or_false, or_self] at hmem
    rw [hmem, ← heq]
    exact hc'
  · rw [List.mem_singleton.mp hmem]
    exact hc'

theorem foldl_step_double {q : Char} (hq : isQuote q = true) (content output : Text) :
    (double q content).foldl NormState.step ⟨some q, false, output⟩
      = ⟨some q, false, output ++ double q content⟩ := by
  induction content generalizing output with
  | nil =>
    rw [show double q [] = [] from rfl, List.append_nil]
    rfl
  | cons c content ih =>
    by_cases hc : c = q
    · have hopen : NormState.step ⟨none, false, output ++ [q]⟩ q
        = ⟨some q, false, output ++ [q] ++ [q]⟩ :=
        NormState.step_open rfl hq
      rw [hc, double_cons_self, List.foldl_cons, List.foldl_cons, NormState.step_close, hopen, ih]
      simp
    · rw [double_cons_of_ne hc, List.foldl_cons, NormState.step_quoted hc, ih]
      simp

theorem sound_quoted {q : Char} (hq : isQuote q = true) {content : Text} (hascii : IsAscii content) :
    Sound (Nesting.quoted q content) := by
  refine ⟨⟨List.cons_ne_nil _ _, track_quoted hq content 0, ?_⟩, ?_⟩
  · rw [normalizeWhitespace_eq, Nesting.quoted, List.foldl_cons, NormState.step_open rfl hq,
      List.foldl_append,
      foldl_step_double hq, List.foldl_cons, NormState.step_close]
    rfl
  · have hqascii : q.toNat < 128 := by
      rcases Bool.or_eq_true_iff.mp hq with h | h <;> rw [of_decide_eq_true h] <;> decide
    intro c hc
    rcases List.mem_cons.mp hc with rfl | hc
    · exact hqascii
    rcases List.mem_append.mp hc with hc | hc
    · exact hascii c (mem_double hc)
    · rw [List.mem_singleton.mp hc]
      exact hqascii

/-- Inside quotes nothing is found: behind the first character the quotes are open, or a quote has
just been read. -/
theorem avoids_quoted {q : Char} (hq : isQuote q = true) (content : Text) {keyword : Text}
    (h : keyword ∈ reserved) :
    Avoids keyword (Nesting.quoted q content) := by
  obtain ⟨hne, hletters⟩ := isAlphanum_of_mem_reserved h
  -- a keyword stands between white space, and a quoted text begins with a quote
  intro before word after heq htrack hbefore hafter hword
  cases before with
  | nil =>
    cases word with
    | nil => exact hne hword.symm
    | cons c word =>
      have hc : q = c := (List.cons.inj heq).1
      have hletter := hletters c.toUpper (hword ▸ List.mem_map.mpr ⟨c, List.mem_cons_self, rfl⟩)
      have hplain := (plain_of_toUpper hletter).1
      have hquote : isQuote c = false := hplain
      -- what precedes the word ends with the closing quote, which is no white space
      rw [← hc, hq] at hquote
      cases hquote
  | cons c before =>
    obtain ⟨rfl, hrest⟩ := List.cons.inj heq
    have hopen : advance delimiters top q = some ⟨some q, 0⟩ := advance_open (d := delimiters) hq 0
    rw [track_cons hopen] at htrack
    have hlast := getLast?_of_track_double (d := delimiters) hq hrest htrack rfl
    rw [List.getLast?_cons, hlast] at hbefore
    have hspace : isSpace q = true := hbefore
    rw [isSpace_of_isQuote hq] at hspace
    cases hspace

variable (source : Source)

theorem sound : Sound source.text := by
  cases source with
  | name ident => exact ident.sound
  | quoted quote content hquote hascii => exact sound_quoted hquote hascii

theorem avoids {keyword : Text} (h : keyword ∈ reserved) : Avoids keyword source.text := by
  cases source with
  | name ident => exact ident.avoids h
  | quoted quote content hquote hascii => exact avoids_quoted hquote content h

end Source

theorem Having.sound (having : Having) : Sound having.text :=
  ⟨⟨having.ne_nil, having.balanced, having.normal⟩, having.ascii⟩

/-! ## Lists of words

Joined with blanks, such words are balanced, and stripping takes nothing from them. -/

theorem joined_cons {word : Text} {words : List Text} (h : words ≠ []) :
    joined (word :: words) = word ++ ' ' :: joined words :=
  joined_append (List.cons_ne_nil word []) h

theorem balanced_joined {words : List Text} (h : ∀ word ∈ words, Balanced word) :
    Balanced (joined words) := by
  induction words with
  | nil => rfl
  | cons word words ih =>
    obtain ⟨hword, hrest⟩ := List.forall_mem_cons.mp h
    cases words with
    | nil => exact hword
    | cons next words =>
      have hblank : advance delimiters top ' ' = some top :=
        advance_plain rfl ⟨rfl, by decide, by decide⟩
      rw [joined_cons (List.cons_ne_nil _ _)]
      exact (track_append_of hword).trans ((track_cons hblank).trans (ih hrest))

theorem forall_mem_joined {P : Char → Prop} (hblank : P ' ') {words : List Text}
    (h : ∀ word ∈ words, ∀ c ∈ word, P c) :
    ∀ c ∈ joined words, P c := by
  induction words with
  | nil => exact fun c hc => absurd hc List.not_mem_nil
  | cons word words ih =>
    obtain ⟨hword, hrest⟩ := List.forall_mem_cons.mp h
    cases words with
    | nil => exact hword
    | cons next words =>
      rw [joined_cons (List.cons_ne_nil _ _)]
      exact List.forall_mem_append.mpr ⟨hword, List.forall_mem_cons.mpr ⟨hblank, ih hrest⟩⟩

theorem joined_eq_spread (words : List Text) : joined words = spread (fun _ => [' ']) words := by
  induction words with
  | nil => rfl
  | cons word words ih =>
    cases words with
    | nil => rfl
    | cons next words =>
      rw [joined_cons (List.cons_ne_nil _ _), ih]
      rfl

/-- Blanks around words are stripped. -/
theorem strip_joined {words : List Text} (h : ∀ word ∈ words, Word word) (hne : words ≠ [])
    {lead trail : Text}
    (hlead : ∀ c ∈ lead, isSpace c = true) (htrail : ∀ c ∈ trail, isSpace c = true) :
    strip (lead ++ (joined words ++ trail)) = joined words := by
  rw [joined_eq_spread]
  exact strip_spread h hne hlead htrail

theorem isSpace_nil : ∀ c ∈ ([] : Text), isSpace c = true := fun _ hc => absurd hc List.not_mem_nil

theorem isSpace_blank : ∀ c ∈ [' '], isSpace c = true := by
  intro c hc
  rw [List.mem_singleton.mp hc]
  rfl

theorem flat_eq_joined {words : List Text} (hne : words ≠ []) : flat words = joined words ++ [' '] := by
  rcases List.eq_nil_or_concat words with rfl | ⟨init, word, rfl⟩
  · exact absurd rfl hne
  · rw [List.concat_eq_append, joined_concat, flat_append]
    simp [flat]

theorem strip_word {word : Text} (h : Word word) {lead trail : Text}
    (hlead : ∀ c ∈ lead, isSpace c = true)
    (htrail : ∀ c ∈ trail, isSpace c = true) : strip (lead ++ (word ++ trail)) = word :=
  strip_joined (List.forall_mem_singleton.mpr h) (List.cons_ne_nil word []) hlead htrail

/-! ## Items

An item of the select list is parsed back: its expression, its argument, its alias. -/

theorem mem_reserved_as : Keyword.as ∈ reserved := by decide

namespace Item

variable (item : Item) {as comma : Text}

theorem words_ne_nil (as comma : Text) : item.words as comma ≠ [] := by
  unfold words
  split <;> exact List.cons_ne_nil _ _

theorem sound_words (has : as.map Char.toUpper = Keyword.as) (hcomma : IsComma comma) :
    ∀ word ∈ item.words as comma, Sound word := by
  have hexpr : Sound item.expr.text := by
    have hnone := item.expr.sound_comma (.inl rfl : IsComma [])
    rw [List.append_nil] at hnone
    exact hnone
  unfold words
  cases item.alias_ with
  | none => exact List.forall_mem_singleton.mpr (item.expr.sound_comma hcomma)
  | some name =>
    refine List.forall_mem_cons.mpr
      ⟨hexpr, List.forall_mem_cons.mpr ⟨sound_of_spells mem_reserved_as has, ?_⟩⟩
    exact List.forall_mem_singleton.mpr (name.sound_comma hcomma)

theorem avoids_words (has : as.map Char.toUpper = Keyword.as) (hcomma : IsComma comma) {keyword : Text}
    (h : keyword ∈ reserved) (hne : keyword ≠ Keyword.as) : ∀ word ∈ item.words as comma,
      Avoids keyword word := by
  have hexpr : Avoids keyword item.expr.text := by
    have hnone := item.expr.avoids_comma (.inl rfl : IsComma []) h
    rw [List.append_nil] at hnone
    exact hnone
  unfold words
  cases item.alias_ with
  | none => exact List.forall_mem_singleton.mpr (item.expr.avoids_comma hcomma h)
  | some name =>
    refine List.forall_mem_cons.mpr ⟨hexpr, List.forall_mem_cons.mpr ⟨?_, ?_⟩⟩
    · exact avoids_of_spells mem_reserved_as has hne.symm
    · exact List.forall_mem_singleton.mpr (name.avoids_comma hcomma h)

theorem joined_words (as comma : Text) :
    joined (item.words as comma) = joined (item.words as []) ++ comma := by
  unfold words
  cases item.alias_ with
  | none => simp [joined]
  | some name => simp [joined]

theorem no_comma_words (has : as.map Char.toUpper = Keyword.as) : ∀ word ∈ item.words as [],
    ∀ c ∈ word, c ≠ ',' := by
  -- names have no comma by their own rule
  have hname : ∀ n : Name, ∀ c ∈ n.text, c ≠ ',' := by
    rintro n c hc rfl
    have hchar := n.valid.2 ',' hc
    cases hchar
  -- an expression is made of names, brackets and a star
  have hexpr : ∀ c ∈ item.expr.text, c ≠ ',' := by
    cases item.expr with
    | col name => exact hname name
    | agg func arg =>
      intro c hc
      unfold Expr.text at hc
      simp only [List.mem_append, List.mem_cons, List.not_mem_nil, or_false] at hc
      rcases hc with hc | rfl | hc | rfl
      · revert c
        cases func <;> exact forall_mem_of_all (by decide)
      · decide
      · cases arg with
        | none =>
          rw [List.mem_singleton.mp hc]
          decide
        | some n => exact hname n c hc
      · decide
  have has' : ∀ c ∈ as, c ≠ ',' := by
    rintro c hc rfl
    have hletter : ',' ∈ Keyword.as := has ▸ List.mem_map.mpr ⟨',', hc, rfl⟩
    exact absurd hletter (by decide)
  unfold words
  cases item.alias_ with
  | none =>
    rw [List.append_nil]
    exact List.forall_mem_singleton.mpr hexpr
  | some name =>
    refine List.forall_mem_cons.mpr ⟨hexpr, List.forall_mem_cons.mpr ⟨has', ?_⟩⟩
    rw [List.append_nil]
    exact List.forall_mem_singleton.mpr (hname name)

/-- The text of an item is one part of the select clause. -/
theorem part_words (has : as.map Char.toUpper = Keyword.as) : Part (joined (item.words as [])) := by
  have hsound := item.sound_words has (.inl rfl : IsComma [])
  have hstrip := strip_joined (fun word hword => (hsound word hword).word)
    (item.words_ne_nil as []) isSpace_nil isSpace_nil
  rw [List.append_nil, List.nil_append] at hstrip
  refine ⟨?_, balanced_joined fun word hword => (hsound word hword).word.balanced, ?_, hstrip⟩
  · unfold words
    cases item.alias_ <;> simp [joined, item.expr.ne_nil]
  · intro hmem
    exact forall_mem_joined (P := (· ≠ ',')) (by decide) (item.no_comma_words has) ',' hmem rfl

end Item

variable (u : Unicode)

/-- **An aggregate is read.** -/
theorem parseAgg_text (func : Func) (arg : Option Name) (alias_ : Text) :
    parseAgg u (Expr.agg func arg).text alias_
      func.text.length = .ok (.agg func (argText arg) alias_) := by
  -- the argument is read whole: it has no blank and no comma
  have hsound : Sound (argText arg) := sound_of_isBody (argText_ne_nil arg) (isBody_argText arg)
  have htake : (Expr.agg func arg).text.take func.text.length = func.text := List.take_left
  have hstrip : strip func.text = func.text := by cases func <;> decide
  have hascii : IsAscii func.text :=
    (sound_of_isBody (by cases func <;> decide) (isBody_func func)).ascii
  have hlower : u.lower func.text = func.text := by
    rw [u.lower_ascii _ hascii]
    cases func <;> decide
  have halnum : u.isAlnum (func.text.map fun c => if c = '_' then 'a' else c) = true := by
    rw [u.isAlnum_ascii]
    · cases func <;> decide
    · intro c hc
      obtain ⟨c', hc', rfl⟩ := List.mem_map.mp hc
      split
      · decide
      · exact hascii c' hc'
  -- the function is not the one that takes several columns
  have hcount : func.text ≠ Func.countUnique := by cases func <;> decide
  have hfunc : Func.ofText? func.text = some func := by cases func <;> decide
  -- between the brackets stands the argument
  have hcol : (Expr.agg func arg).text.dropLast.drop (func.text.length + 1) = argText arg := by
    have htext : (Expr.agg func arg).text = (func.text ++ '(' :: argText arg) ++ [')'] := by
      simp [Expr.text]
    rw [htext, List.dropLast_concat, ← List.drop_drop, List.drop_left]
    rfl
  have hstripped : strip (argText arg) = argText arg := by
    have h := strip_word hsound.word isSpace_nil isSpace_nil
    rw [List.append_nil, List.nil_append] at h
    exact h
  -- and it is its own only part
  have hsplit : splitTopLevel (argText arg) = .ok [argText arg] := by
    refine splitTopLevel_commaList (List.cons_ne_nil (argText arg) [])
      (List.forall_mem_singleton.mpr ?_)
    refine ⟨argText_ne_nil arg, hsound.word.balanced, ?_, hstripped⟩
    cases arg with
    | none => decide
    | some n =>
      intro hc
      have hchar := n.valid.2 ',' hc
      cases hchar
  unfold parseAgg
  simp only [htake, hstrip, hlower, halnum, hcount, hfunc, hcol, hstripped, argText_ne_nil arg,
    if_false, if_true]
  split
  · next hevent =>
    rw [hsplit]
    rfl
  · rfl

theorem isAscii_keyword {keyword : Text} (h : keyword ∈ reserved) :
    IsAscii keyword ∧ keyword.map Char.toUpper = keyword := by
  have hall : ∀ keyword ∈ reserved,
      (keyword.all fun c => decide (c.toNat < 128)) = true ∧ keyword.map Char.toUpper
        = keyword := by decide
  exact ⟨forall_mem_of_all (hall keyword h).1, (hall keyword h).2⟩

/-- The search of the code, from a place on. -/
theorem findKeyword_eq {keyword lead rest : Text} (hascii : IsAscii (lead ++ rest))
    (hkeyword : IsAscii keyword)
    (hupper : keyword.map Char.toUpper = keyword) :
    ∃ upper before, upper.drop lead.length = rest.map Char.toUpper
      ∧ (lead.getLast?.all isSpace = true → before.all isSpace = true)
      ∧ findKeyword u (lead ++ rest) keyword lead.length
        = findKeywordFrom upper keyword none 0 lead.length before rest := by
  refine ⟨(lead ++ rest).map Char.toUpper, if lead.length = 0 then none
    else (lead ++ rest)[lead.length - 1]?, ?_, ?_, ?_⟩
  · rw [← List.map_drop, List.drop_left]
  · intro hlast
    split
    · rfl
    · next hlength =>
      rw [List.getElem?_append_left (by omega), ← List.getLast?_eq_getElem?]
      exact hlast
  · unfold findKeyword
    rw [u.upper_ascii _ hascii, u.upper_ascii _ hkeyword, hupper, List.drop_left]

theorem target_self {keyword : Text} (h : keyword ∈ reserved) : Target keyword keyword := by
  obtain ⟨hne, hletters⟩ := isAlphanum_of_mem_reserved h
  refine ⟨.inl rfl, hne, fun hmem => ?_⟩
  have hblank := hletters ' ' hmem
  cases hblank

theorem parseExpr_text (e : Expr) (alias_ : Text) :
    parseExpr u e.text alias_ = .ok (e.select alias_) := by
  unfold parseExpr
  cases e with
  | col name =>
    have hno : name.text.findIdx? (· = '(') = none := by
      rw [List.findIdx?_eq_none_iff]
      -- a bracket opens an aggregate; a name has none
      intro c hc
      refine decide_eq_false ?_
      rintro rfl
      have hchar := name.valid.2 '(' hc
      cases hchar
    have htext : (Expr.col name).text = name.text := rfl
    rw [htext, hno]
    rfl
  | agg func arg =>
    have hindex : (Expr.agg func arg).text.findIdx? (· = '(') = some func.text.length := by
      have hno : func.text.findIdx? (· = '(') = none := by cases func <;> decide
      unfold Expr.text
      rw [List.findIdx?_append, hno]
      simp [List.findIdx?_cons]
    have hlast : (Expr.agg func arg).text.getLast? = some ')' := by
      have htext : (Expr.agg func arg).text = (func.text ++ '(' :: argText arg) ++ [')'] := by
        simp [Expr.text]
      rw [htext, List.getLast?_concat]
    have hpos : 0 < func.text.length := by cases func <;> decide
    rw [hindex, hlast]
    simp only [hpos, and_self, if_true]
    exact parseAgg_text u func arg alias_

/-- **An item is read.** -/
theorem parseItem_text (item : Item) {as : Text} (has : as.map Char.toUpper = Keyword.as) :
    parseItem u (joined (item.words as [])) = .ok item.select := by
  have hpart := item.part_words has
  have hsound := item.sound_words has (.inl rfl : IsComma [])
  -- neither the expression nor the alias holds the keyword
  have hexpr : Sound item.expr.text ∧ Avoids Keyword.as item.expr.text := by
    have hword := item.expr.sound_comma (.inl rfl : IsComma [])
    have havoids := item.expr.avoids_comma (.inl rfl : IsComma []) mem_reserved_as
    rw [List.append_nil] at hword havoids
    exact ⟨hword, havoids⟩
  obtain ⟨hkeyword, hupper⟩ := isAscii_keyword mem_reserved_as
  have hascii : IsAscii ([] ++ joined (item.words as [])) :=
    forall_mem_joined (by decide) fun word hword => (hsound word hword).ascii
  -- the search for `AS` starts at the beginning of the item
  obtain ⟨upper, before, hdrop, hbefore, hfind⟩ := findKeyword_eq u hascii hkeyword hupper
  have hsplit : splitAlias u (joined (item.words as []))
    = .ok (item.expr.text, item.alias_.elim item.expr.text Name.text) := by
    unfold splitAlias
    -- without an alias the search finds nothing, and the text names the item
    cases halias : item.alias_ with
    | none =>
      have htext : joined (item.words as []) = flat [] ++ item.expr.text := by
        simp [Item.words, halias, joined, flat]
      have hnone : findKeyword u (joined (item.words as [])) Keyword.as 0 = .ok none := by
        refine hfind.trans ?_
        rw [htext] at hdrop ⊢
        exact find_none (target_self mem_reserved_as)
          (List.forall_mem_singleton.mpr ⟨hexpr.1.word.balanced, hexpr.2⟩) hdrop
      rw [hnone, htext]
      rfl
    -- with one it stops behind the expression
    | some name =>
      have htext : joined (item.words as []) = flat [item.expr.text] ++ (as ++ ' ' :: name.text) := by
        simp [Item.words, halias, joined, flat]
      have hsome : findKeyword u (joined (item.words as [])) Keyword.as 0
          = .ok (some (0 + (flat [item.expr.text]).length)) := by
        refine hfind.trans ?_
        rw [htext] at hdrop ⊢
        exact find_some (target_self mem_reserved_as)
          (List.forall_mem_singleton.mpr ⟨hexpr.1.word.balanced, hexpr.2⟩) has
          (isAlphanum_of_mem_reserved mem_reserved_as).2 (hbefore rfl) rfl hdrop
      have hlength : Keyword.as.length = as.length := by rw [← has, List.length_map]
      have htake : strip ((joined (item.words as [])).take (0 + (flat [item.expr.text]).length))
        = item.expr.text := by
        rw [htext, Nat.zero_add, List.take_left, flat_eq_joined (List.cons_ne_nil _ _)]
        exact strip_word hexpr.1.word isSpace_nil isSpace_blank
      have hdropped : strip ((joined (item.words as [])).drop
        (0 + (flat [item.expr.text]).length + Keyword.as.length))
          = name.text := by
        rw [htext, Nat.zero_add, hlength, ← List.drop_drop, List.drop_left, List.drop_left]
        have hstrip := strip_word name.sound.word isSpace_blank isSpace_nil
        rw [List.append_nil] at hstrip
        exact hstrip
      rw [hsome]
      simp only [bind, Except.bind, pure, Except.pure, htake, hdropped, item.expr.ne_nil,
        name.ne_nil, or_self, if_false]
      rfl
  unfold parseItem
  rw [hpart.stripped, hsplit]
  exact parseExpr_text u item.expr _

end Sketchlog.Sql
