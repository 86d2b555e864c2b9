import Sketchlog.Refine.SqlScanners

/-!
# Keywords and commas

`_find_keyword` goes over words that avoid the keyword, whatever stands in their quotes and
parentheses, and stops at the first word that spells it (`find_some`, `find_none`).
`_split_top_level` gives back the parts of a list with commas (`splitTopLevel_commaList`).
-/

namespace Sketchlog.Sql

open Nesting

/-- The keyword stands in the text nowhere as a word of its own, outside quotes and parentheses. -/
def Avoids (keyword text : Text) : Prop :=
  ∀ before word after, text = before ++ (word ++ after) → track delimiters top before = some top →
    before.getLast?.all isSpace = true → after.head?.all isSpace = true
      → word.map Char.toUpper ≠ keyword

/-! ## One place

Whether the keyword stands at a place, from the characters before and behind it. -/

section Place

variable {upper target rest : Text} {index : ℕ} {before : Option Char}

theorem keywordAt_true {word after : Text}
    (hupper : upper.drop index = (word ++ after).map Char.toUpper)
    (hword : word.map Char.toUpper = target) (hbefore : before.all isSpace = true)
    (hafter : after.head?.all isSpace = true) :
    keywordAt upper target index before (word ++ after) = .ok true := by
  have hprefix : target <+: upper.drop index :=
    ⟨after.map Char.toUpper, by rw [hupper, List.map_append, hword]⟩
  have hlength : target.length = word.length := by rw [← hword, List.length_map]
  unfold keywordAt
  rw [if_pos hprefix, hbefore, hlength, List.drop_left]
  cases after with
  | nil => simp
  | cons c after => exact congrArg Except.ok hafter

theorem keywordAt_false (hupper : upper.drop index = rest.map Char.toUpper)
    (h : ∀ word after, rest = word ++ after → word.map Char.toUpper = target
      → before.all isSpace = true →
      after.head?.all isSpace = true → False) : keywordAt upper target index before rest
        = .ok false := by
  unfold keywordAt
  split
  · next hprefix =>
    obtain ⟨tail, htail⟩ := hprefix
    rw [hupper] at htail
    have hword : (rest.take target.length).map Char.toUpper = target := by
      rw [List.map_take, ← htail, List.take_left]
    have hsplit : rest = rest.take target.length ++ rest.drop target.length :=
      (List.take_append_drop _ _).symm
    have hno := h _ _ hsplit hword
    -- the capitals are as long as the text, so there is room for the keyword
    have hroom : ¬ rest.length < target.length := by
      have hlength := congrArg List.length htail
      rw [List.length_append, List.length_map] at hlength
      omega
    cases hbefore : before.all isSpace with
    | false => cases rest.drop target.length <;> simp [hroom]
    | true =>
      cases hdrop : rest.drop target.length with
      | nil =>
        rw [hdrop] at hno
        exact (hno hbefore rfl).elim
      | cons c after =>
        rw [hdrop] at hno
        cases hc : isSpace c with
        | false => simp [hc]
        | true => exact (hno hbefore hc).elim
  · rfl

end Place

/-! ## One character after another

One lemma for each transition of the scan, and `find_skip` for a stretch of text, by induction on
it. -/

section Find

attribute [local simp] findKeywordFrom

variable {upper target : Text} {index : ℕ} {before : Option Char}

/-- A doubled quote is one step of the code, and two here. -/
theorem findKeywordFrom_quote {q : Char} (hq : isQuote q = true) (depth : ℕ) (rest : Text) :
    findKeywordFrom upper target (some q) depth index before (q :: rest)
      = findKeywordFrom upper target none depth (index + 1) (some q) rest := by
  cases rest with
  | nil => simp
  | cons c rest =>
    by_cases hc : c = q
    · subst hc
      simp [hq]
    · rw [findKeywordFrom]
      simp [hc]

theorem findKeywordFrom_quoted {q c : Char} (hc : c ≠ q) (depth : ℕ) (rest : Text) :
    findKeywordFrom upper target (some q) depth index before (c :: rest)
      = findKeywordFrom upper target (some q) depth (index + 1) (some c) rest := by
  cases rest <;> simp [hc]

theorem findKeywordFrom_open {c : Char} (hc : isQuote c = true) (depth : ℕ) (rest : Text) :
    findKeywordFrom upper target none depth index before (c :: rest)
      = findKeywordFrom upper target (some c) depth (index + 1) (some c) rest := by
  simp [hc]

theorem findKeywordFrom_opening (depth : ℕ) (rest : Text) :
    findKeywordFrom upper target none depth index before ('(' :: rest)
      = findKeywordFrom upper target none (depth + 1) (index + 1) (some '(') rest := by
  have hquote : isQuote '(' = false := rfl
  simp [hquote]

theorem findKeywordFrom_closing {depth : ℕ} (hdepth : depth ≠ 0) (rest : Text) :
    findKeywordFrom upper target none depth index before (')' :: rest)
      = findKeywordFrom upper target none (depth - 1) (index + 1) (some ')') rest := by
  have hquote : isQuote ')' = false := rfl
  simp [hquote, hdepth]

theorem findKeywordFrom_plain {c : Char} (hc : delimiters.Plain c) {depth : ℕ} {rest : Text}
    (hno : depth = 0 → keywordAt upper target index before (c :: rest) = .ok false) :
    findKeywordFrom upper target none depth index before (c :: rest)
      = findKeywordFrom upper target none depth (index + 1) (some c) rest := by
  obtain ⟨hquote, hopening, hclosing⟩ := hc
  have hquote' : isQuote c = false := hquote
  have hopening' : c ≠ '(' := hopening
  have hclosing' : c ≠ ')' := hclosing
  by_cases hdepth : depth = 0
  · rw [findKeywordFrom]
    simp only [hquote', hopening', hclosing', hdepth, Bool.false_eq_true, if_false, if_true, hno hdepth]
    rfl
  · simp [hquote', hopening', hclosing', hdepth]

theorem findKeywordFrom_cons {s s' : State Char} {c : Char} {rest : Text}
    (hs : ∀ q ∈ s.quote, isQuote q = true)
    (hadvance : advance delimiters s c = some s')
    (hno : s = top → delimiters.Plain c → keywordAt upper target index before (c :: rest) = .ok false) :
    findKeywordFrom upper target s.quote s.depth index before (c :: rest)
      = findKeywordFrom upper target s'.quote s'.depth (index + 1) (some c) rest := by
  obtain ⟨quote, depth⟩ := s
  rcases advance_cases hadvance with ⟨q, rfl, rfl, rfl⟩ | ⟨q, rfl, hc, rfl⟩ | ⟨rfl, hc, rfl⟩ | ⟨rfl,
    rfl, rfl⟩
    | ⟨rfl, rfl, hdepth, rfl⟩ | ⟨rfl, hc, rfl⟩
  · exact findKeywordFrom_quote (hs c rfl) depth rest
  · exact findKeywordFrom_quoted hc depth rest
  · exact findKeywordFrom_open hc depth rest
  · exact findKeywordFrom_opening depth rest
  · exact findKeywordFrom_closing hdepth rest
  · exact findKeywordFrom_plain hc fun hdepth => hno (congrArg (State.mk none) hdepth) hc

/-- The search goes over a text in which the keyword is at no place outside quotes and parentheses. -/
theorem find_skip {text rest : Text} {s s' : State Char} (hs : ∀ q ∈ s.quote, isQuote q = true)
    (htrack : track delimiters s text = some s')
    (hno : ∀ pre c post, text = pre ++ c :: post → track delimiters s pre = some top
      → delimiters.Plain c →
      keywordAt upper target (index + pre.length) (pre.getLast?.or before) (c :: (post ++ rest))
        = .ok false) :
    findKeywordFrom upper target s.quote s.depth index before (text ++ rest)
      = findKeywordFrom upper target s'.quote s'.depth (index + text.length)
        (text.getLast?.or before) rest := by
  -- one character at a time: the first place is tested, and the rest is the induction hypothesis
  induction text generalizing s index before with
  | nil =>
    cases Option.some.inj htrack
    rfl
  | cons c text ih =>
    obtain ⟨s₁, hadvance, hrest⟩ := Option.bind_eq_some_iff.mp htrack
    have hfirst : findKeywordFrom upper target s.quote s.depth index before (c :: (text ++ rest))
        = findKeywordFrom upper target s₁.quote s₁.depth (index + 1) (some c) (text ++ rest) :=
      findKeywordFrom_cons hs hadvance fun htop => hno [] c text rfl (by rw [htop]; rfl)
    have hnext : findKeywordFrom upper target s₁.quote s₁.depth (index + 1) (some c) (text ++ rest)
        = findKeywordFrom upper target s'.quote s'.depth (index + 1 + text.length)
          (text.getLast?.or (some c)) rest := by
      refine ih (isQuote_advance hs hadvance) hrest ?_
      intro pre c' post heq htop hplain
      -- a place behind the first character is a place of the whole text
      have hplace := hno (c :: pre) c' post (by rw [heq]; rfl)
        (by rw [track_cons hadvance]; exact htop) hplain
      have hlast : (c :: pre).getLast?.or before = pre.getLast?.or (some c) := by
        rw [List.getLast?_cons]
        cases pre.getLast? <;> rfl
      rw [hlast, List.length_cons] at hplace
      rw [← hplace]
      congr 1
      omega
    have hlast : (c :: text).getLast?.or before = text.getLast?.or (some c) := by
      rw [List.getLast?_cons]
      cases text.getLast? <;> rfl
    rw [List.cons_append, hfirst, hnext, hlast, List.length_cons]
    congr 1
    omega

end Find

/-! ## Words that avoid the keyword

A word that does not begin with the keyword is passed over. So the search ends at the first word
that does. -/

theorem toUpper_eq_blank {c : Char} (h : c.toUpper = ' ') : c = ' ' := by
  unfold Char.toUpper at h
  split at h
  · next hlower =>
    have hval := congrArg Char.toNat h
    have hdiff : ('A'.val - 'a'.val).toNat = 4294967264 := by simp
    have hblank : ' '.val.toNat = 32 := rfl
    simp only [Char.toNat] at hval
    rw [UInt32.toNat_add, hdiff, hblank] at hval
    have hlo : 97 ≤ c.val.toNat := hlower.1
    have hhi : c.val.toNat ≤ 122 := hlower.2
    omega
  · exact h

/-- A keyword, or two with a blank: `first` is the word that has to be found. -/
structure Target (first target : Text) : Prop where
  shape : target = first ∨ ∃ second, target = first ++ ' ' :: second
  ne_nil : first ≠ []
  no_blank : ' ' ∉ first

section Words

variable {upper target first rest : Text} {index : ℕ} {before : Option Char}

/-- Where a target stands, its first word stands. -/
theorem Target.exists_first (h : Target first target) {word after : Text}
    (hword : word.map Char.toUpper = target)
    (hafter : after.head?.all isSpace = true) :
    ∃ word₁ after₁, word ++ after = word₁ ++ after₁ ∧ word₁.map Char.toUpper = first
      ∧ after₁.head?.all isSpace = true := by
  rcases h.shape with rfl | ⟨second, rfl⟩
  · exact ⟨word, after, rfl, hword, hafter⟩
  · obtain ⟨word₁, word₂, rfl, hfirst, hsecond⟩ := List.map_eq_append_iff.mp hword
    obtain ⟨c, word₃, rfl, hc, -⟩ := List.map_eq_cons_iff.mp hsecond
    refine ⟨word₁, c :: word₃ ++ after, List.append_assoc _ _ _, hfirst, ?_⟩
    rw [toUpper_eq_blank hc]
    rfl

/-- **A word that avoids the keyword is passed.** -/
theorem find_skip_word (ht : Target first target) {word : Text} (hbalanced : Balanced word)
    (havoids : Avoids first word)
    (hrest : ∀ c ∈ rest.head?, c = ' ') (hupper : upper.drop index = (word ++ rest).map Char.toUpper) :
    findKeywordFrom upper target none 0 index before (word ++ rest)
      = findKeywordFrom upper target none 0 (index + word.length) (word.getLast?.or before) rest := by
  have hquote : ∀ q ∈ (top : State Char).quote, isQuote q = true := fun _ h => nomatch h
  refine find_skip hquote hbalanced ?_
  intro pre c post heq htop _
  apply keywordAt_false
  · rw [← List.drop_drop, hupper, heq, ← List.map_drop, List.append_assoc, List.drop_left]
    rfl
  · intro word' after hsplit hword' hbefore hafter
    obtain ⟨word₁, after₁, hsplit₁, hfirst, hafter₁⟩ := ht.exists_first hword' hafter
    rw [hsplit₁] at hsplit
    have hblank : ' ' ∉ word₁ := by
      intro hmem
      apply ht.no_blank
      rw [← hfirst]
      exact List.mem_map.mpr ⟨' ', hmem, rfl⟩
    have hlast : pre.getLast?.all isSpace = true := by
      cases hpre : pre.getLast? with
      | none => rfl
      | some c' =>
        rw [hpre] at hbefore
        exact hbefore
    -- the first word of the target ends within the word
    have hinside : ∃ after₂, c :: post = word₁ ++ after₂ ∧ after₂.head?.all isSpace = true := by
      have hsplit' : (c :: post) ++ rest = word₁ ++ after₁ := hsplit
      rcases List.append_eq_append_iff.mp hsplit' with ⟨m, hm, hm'⟩ | ⟨m, hm, hm'⟩
      · cases m with
        | nil => exact ⟨[], by rw [hm, List.append_nil, List.append_nil], rfl⟩
        | cons c' m =>
          have hc' : c' = ' ' := hrest c' (by rw [hm']; rfl)
          exact absurd (by rw [hm, hc']; simp) hblank
      · refine ⟨m, hm, ?_⟩
        rw [hm'] at hafter₁
        cases m with
        | nil => rfl
        | cons c' m => exact hafter₁
    obtain ⟨after₂, hsplit₂, hafter₂⟩ := hinside
    exact havoids pre word₁ after₂ (by rw [heq, hsplit₂]) htop hlast hafter₂ hfirst

theorem find_skip_blank (ht : Target first target)
    (hupper : upper.drop index = (' ' :: rest).map Char.toUpper) :
    findKeywordFrom upper target none 0 index before (' ' :: rest)
      = findKeywordFrom upper target none 0 (index + 1) (some ' ') rest := by
  refine findKeywordFrom_plain ⟨rfl, by decide, by decide⟩ fun _ => ?_
  apply keywordAt_false hupper
  intro word after hsplit hword hbefore hafter
  clear hbefore
  obtain ⟨word₁, after₁, hsplit₁, hfirst, -⟩ := ht.exists_first hword hafter
  rw [hsplit₁] at hsplit
  cases word₁ with
  | nil => exact ht.ne_nil hfirst.symm
  | cons c word₁ =>
    apply ht.no_blank
    rw [← hfirst, ← (List.cons.inj hsplit).1]
    exact List.mem_cons_self

/-- Words that avoid the keyword are passed, with the blanks behind them. -/
theorem find_skip_flat (ht : Target first target) {words : List Text}
    (hwords : ∀ word ∈ words, Balanced word ∧ Avoids first word)
    (hupper : upper.drop index = (flat words ++ rest).map Char.toUpper) :
    findKeywordFrom upper target none 0 index before (flat words ++ rest)
      = findKeywordFrom upper target none 0 (index + (flat words).length)
        ((flat words).getLast?.or before) rest := by
  -- each word is passed over, then the blank behind it
  induction words generalizing index before with
  | nil => rfl
  | cons word words ih =>
    obtain ⟨⟨hbalanced, havoids⟩, hrest⟩ := List.forall_mem_cons.mp hwords
    have htext : flat (word :: words) = word ++ ' ' :: flat words := by simp [flat]
    rw [htext, List.append_assoc, List.cons_append] at hupper ⊢
    have hblank : ∀ c ∈ (' ' :: (flat words ++ rest)).head?, c = ' ' :=
      fun c hc => (Option.some.inj hc).symm
    -- the upper text is dropped in step with the text itself
    have hupper₁ : upper.drop (index + word.length)
      = (' ' :: (flat words ++ rest)).map Char.toUpper := by
      rw [← List.drop_drop, hupper, ← List.map_drop, List.drop_left]
    have hupper₂ : upper.drop (index + word.length + 1) = (flat words ++ rest).map Char.toUpper := by
      rw [← List.drop_drop, hupper₁, ← List.map_drop]
      rfl
    rw [find_skip_word ht hbalanced havoids hblank hupper, find_skip_blank ht hupper₁, ih hrest hupper₂]
    have hlast : (word ++ ' ' :: flat words).getLast?.or before = (flat words).getLast?.or
      (some ' ') := by
      rw [List.getLast?_append, List.getLast?_cons]
      cases (flat words).getLast? <;> rfl
    rw [hlast, List.length_append, List.length_cons]
    congr 1
    omega

theorem getLast?_flat {words : List Text} {c : Char} (h : c ∈ (flat words).getLast?) : c = ' ' := by
  rcases List.eq_nil_or_concat words with rfl | ⟨init, word, rfl⟩
  · cases h
  · rw [List.concat_eq_append, flat_append] at h
    have hlast : (flat init ++ flat [word]).getLast? = some ' ' := by simp [flat]
    rw [hlast] at h
    exact (Option.some.inj h).symm

theorem plain_of_toUpper {c : Char} (h : c.toUpper.isAlphanum = true) : delimiters.Plain c := by
  have hne : ∀ d : Char, d.toUpper.isAlphanum = false → c ≠ d := by
    rintro d hd rfl
    rw [h] at hd
    cases hd
  refine ⟨?_, hne _ rfl, hne _ rfl⟩
  unfold delimiters isQuote
  rw [Bool.or_eq_false_iff, decide_eq_false_iff_not, decide_eq_false_iff_not]
  exact ⟨hne _ rfl, hne _ rfl⟩

/-- **The first place of the keyword**: the words before it avoid it. -/
theorem find_some (ht : Target first target) {words : List Text}
    (hwords : ∀ word ∈ words, Balanced word ∧ Avoids first word)
    {word after : Text} (hword : word.map Char.toUpper = target)
    (hletters : ∀ c ∈ first, c.isAlphanum = true)
    (hbefore : before.all isSpace = true) (hafter : after.head?.all isSpace = true)
    (hupper : upper.drop index = (flat words ++ (word ++ after)).map Char.toUpper) :
    findKeywordFrom upper target none 0 index before (flat words ++ (word ++ after))
      = .ok (some (index + (flat words).length)) := by
  have hupper' : upper.drop (index + (flat words).length) = (word ++ after).map Char.toUpper := by
    rw [← List.drop_drop, hupper, ← List.map_drop, List.drop_left]
  -- before the keyword there is a blank or nothing
  have hbefore' : ((flat words).getLast?.or before).all isSpace = true := by
    cases hlast : (flat words).getLast? with
    | none => exact hbefore
    | some c =>
      rw [getLast?_flat hlast]
      rfl
  rw [find_skip_flat ht hwords hupper]
  have hat := keywordAt_true hupper' hword hbefore' hafter
  -- its first character is a letter, so the scanner tests there
  obtain ⟨c, rest, rfl, hplain⟩ : ∃ c rest, word = c :: rest ∧ delimiters.Plain c := by
    obtain ⟨word₁, after₁, hsplit, hfirst, -⟩ :=
      ht.exists_first hword (rfl : ([] : Text).head?.all isSpace = true)
    rw [List.append_nil] at hsplit
    cases word₁ with
    | nil => exact absurd hfirst.symm ht.ne_nil
    | cons c word₁ =>
      refine ⟨c, word₁ ++ after₁, hsplit, plain_of_toUpper (hletters _ ?_)⟩
      rw [← hfirst]
      exact List.mem_cons_self
  obtain ⟨hquote, hopening, hclosing⟩ := hplain
  have hquote' : isQuote c = false := hquote
  have hopening' : c ≠ '(' := hopening
  have hclosing' : c ≠ ')' := hclosing
  rw [List.cons_append] at hat ⊢
  -- at that place the test succeeds, and the search ends
  rw [findKeywordFrom]
  simp only [hquote', hopening', hclosing', Bool.false_eq_true, if_false, if_true, hat]
  rfl

/-- **No place**: all words avoid the keyword. -/
theorem find_none (ht : Target first target) {words : List Text} {word : Text}
    (hwords : ∀ word' ∈ words ++ [word], Balanced word' ∧ Avoids first word')
    (hupper : upper.drop index = (flat words ++ word).map Char.toUpper) :
    findKeywordFrom upper target none 0 index before (flat words ++ word) = .ok none := by
  obtain ⟨hfirst, hlast⟩ := List.forall_mem_append.mp hwords
  obtain ⟨hbalanced, havoids⟩ := hlast word (List.mem_singleton.mpr rfl)
  have hupper' : upper.drop (index + (flat words).length) = (word ++ []).map Char.toUpper := by
    rw [← List.drop_drop, hupper, ← List.map_drop, List.drop_left, List.append_nil]
  have hblank : ∀ c ∈ ([] : Text).head?, c = ' ' := fun c hc => by cases hc
  have hword : findKeywordFrom upper target none 0 (index + (flat words).length)
    ((flat words).getLast?.or before)
      (word ++ []) = _ := find_skip_word ht hbalanced havoids hblank hupper'
  rw [List.append_nil] at hword
  rw [find_skip_flat ht hfirst hupper, hword]
  rfl

end Words

/-! ## Commas

The split at top-level commas gives back the parts that were joined. -/

section Split

attribute [local simp] splitFrom

variable {parts : List Text} {current rest : Text}

/-- A doubled quote is one step of the code, and two here. -/
theorem splitFrom_quote {q : Char} (hq : isQuote q = true) (depth : ℕ) (rest : Text) :
    splitFrom (some q) depth parts current (q :: rest) = splitFrom none depth parts
      (current ++ [q]) rest := by
  cases rest with
  | nil => simp
  | cons c rest =>
    by_cases hc : c = q
    · subst hc
      simp [hq]
    · rw [splitFrom]
      simp [hc]

theorem splitFrom_quoted {q c : Char} (hc : c ≠ q) (depth : ℕ) (rest : Text) :
    splitFrom (some q) depth parts current (c :: rest) = splitFrom (some q) depth parts
      (current ++ [c]) rest := by
  cases rest <;> simp [hc]

theorem splitFrom_open {c : Char} (hc : isQuote c = true) (depth : ℕ) (rest : Text) :
    splitFrom none depth parts current (c :: rest) = splitFrom (some c) depth parts
      (current ++ [c]) rest := by
  simp [hc]

theorem splitFrom_opening (depth : ℕ) (rest : Text) :
    splitFrom none depth parts current ('(' :: rest) = splitFrom none (depth + 1) parts
      (current ++ ['(']) rest := by
  have hquote : isQuote '(' = false := rfl
  simp [hquote]

theorem splitFrom_closing {depth : ℕ} (hdepth : depth ≠ 0) (rest : Text) :
    splitFrom none depth parts current (')' :: rest) = splitFrom none (depth - 1) parts
      (current ++ [')']) rest := by
  have hquote : isQuote ')' = false := rfl
  simp [hquote, hdepth]

theorem splitFrom_plain {c : Char} (hc : delimiters.Plain c) {depth : ℕ}
    (hcomma : c = ',' → depth ≠ 0) (rest : Text) :
    splitFrom none depth parts current (c :: rest) = splitFrom none depth parts
      (current ++ [c]) rest := by
  obtain ⟨hquote, hopening, hclosing⟩ := hc
  have hquote' : isQuote c = false := hquote
  have hopening' : c ≠ '(' := hopening
  have hclosing' : c ≠ ')' := hclosing
  have hno : ¬ (c = ',' ∧ depth = 0) := fun h => hcomma h.1 h.2
  simp [hquote', hopening', hclosing', hno]

theorem splitFrom_comma (rest : Text) :
    splitFrom none 0 parts current (',' :: rest) = closePart parts current >>= fun parts =>
      splitFrom none 0 parts [] rest := by
  have hquote : isQuote ',' = false := rfl
  rw [splitFrom]
  simp [hquote]

/-- A character that ends no part is part of what is being read. -/
theorem splitFrom_cons {c : Char} {s s' : State Char} (hs : ∀ q ∈ s.quote, isQuote q = true)
    (hadvance : advance delimiters s c = some s') (hcomma : c = ',' → s ≠ top) :
    splitFrom s.quote s.depth parts current (c :: rest) = splitFrom s'.quote s'.depth parts
      (current ++ [c]) rest := by
  obtain ⟨quote, depth⟩ := s
  rcases advance_cases hadvance with ⟨q, rfl, rfl, rfl⟩ | ⟨q, rfl, hc, rfl⟩ | ⟨rfl, hc, rfl⟩ | ⟨rfl,
    rfl, rfl⟩
    | ⟨rfl, rfl, hdepth, rfl⟩ | ⟨rfl, hc, rfl⟩
  · exact splitFrom_quote (hs c rfl) depth _
  · exact splitFrom_quoted hc depth _
  · exact splitFrom_open hc depth _
  · exact splitFrom_opening depth _
  · exact splitFrom_closing hdepth _
  · exact splitFrom_plain hc (fun heq hdepth => hcomma heq (congrArg (State.mk none) hdepth)) _

/-- A text without commas is part of what is being read. -/
theorem splitFrom_append {text : Text} {s s' : State Char} (hs : ∀ q ∈ s.quote, isQuote q = true)
    (htrack : track delimiters s text = some s') (hcomma : ',' ∉ text) :
    splitFrom s.quote s.depth parts current (text ++ rest) = splitFrom s'.quote s'.depth parts
      (current ++ text) rest := by
  induction text generalizing s current with
  | nil =>
    cases Option.some.inj htrack
    rw [List.append_nil]
    rfl
  | cons c text ih =>
    obtain ⟨s₁, hadvance, hrest⟩ := Option.bind_eq_some_iff.mp htrack
    have hne : c ≠ ',' := fun h => hcomma (h ▸ List.mem_cons_self)
    rw [List.cons_append, splitFrom_cons hs hadvance fun h =>
      absurd h hne, ih (isQuote_advance hs hadvance) hrest fun h =>
      hcomma (List.mem_cons_of_mem _ h), List.append_assoc]
    rfl

end Split

/-- Parts with commas between them, and a blank behind each comma. -/
def commaList : List Text → Text
  | [] => []
  | [part] => part
  | part :: parts => part ++ ',' :: ' ' :: commaList parts

/-- What can be a part of such a list. -/
structure Part (text : Text) : Prop where
  ne_nil : text ≠ []
  balanced : Balanced text
  no_comma : ',' ∉ text
  stripped : strip text = text

theorem strip_blank (text : Text) : strip (' ' :: text) = strip text := by
  unfold strip
  rw [List.dropWhile_cons_of_pos (by decide)]

/-- **The parts come back.** -/
theorem splitTopLevel_commaList {parts : List Text} (hne : parts ≠ [])
    (hparts : ∀ part ∈ parts, Part part) :
    splitTopLevel (commaList parts) = .ok parts := by
  -- generalized over the parts that are done and over a blank in front
  have hgeneral : ∀ (parts done : List Text) (current : Text), parts ≠ []
    → (∀ part ∈ parts, Part part) →
      current = [] ∨ current = [' '] → splitFrom none 0 done current (commaList parts)
        = .ok (done ++ parts) := by
    intro parts
    induction parts with
    | nil => exact fun _ _ hne => absurd rfl hne
    | cons part parts ih =>
      intro done current _ hparts hcurrent
      obtain ⟨hpart, hrest⟩ := List.forall_mem_cons.mp hparts
      -- a part survives the strip that ends it
      have hstrip : strip (current ++ part) = part := by
        rcases hcurrent with rfl | rfl
        · exact hpart.stripped
        · exact (strip_blank part).trans hpart.stripped
      have hclose : closePart done (current ++ part) = .ok (done ++ [part]) := by
        unfold closePart
        rw [hstrip, if_neg hpart.ne_nil]
      -- within a part there is no comma at the top level, so it is read as a whole
      have hread : ∀ rest, splitFrom none 0 done current (part ++ rest) = splitFrom none 0 done
        (current ++ part) rest := by
        intro rest
        have hquote : ∀ q ∈ (top : State Char).quote, isQuote q = true := fun _ h => nomatch h
        exact splitFrom_append hquote hpart.balanced hpart.no_comma
      cases parts with
      | nil =>
        have hend := hread []
        rw [List.append_nil] at hend
        have hfinal : splitFrom none 0 done (current ++ part) [] = closePart done
          (current ++ part) := by simp [splitFrom]
        rw [commaList, hend, hfinal, hclose]
      -- behind a comma stands one blank, which the next part's strip takes away
      | cons next parts =>
        have htext : commaList (part :: next :: parts) = part ++ ',' :: ' ' :: commaList
          (next :: parts) := rfl
        have hblank : splitFrom none 0 (done ++ [part]) [] (' ' :: commaList (next :: parts))
            = splitFrom none 0 (done ++ [part]) [' '] (commaList (next :: parts)) :=
          splitFrom_plain ⟨rfl, by decide, by decide⟩ (by decide) _
        have hnext := ih (done ++ [part]) [' '] (List.cons_ne_nil _ _) hrest (.inr rfl)
        rw [htext, hread, splitFrom_comma, hclose]
        show splitFrom none 0 (done ++ [part]) [] (' ' :: commaList (next :: parts)) = _
        rw [hblank, hnext, List.append_assoc]
        rfl
  exact hgeneral parts [] [] hne hparts (.inl rfl)

end Sketchlog.Sql
