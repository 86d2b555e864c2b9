import Sketchlog.Refine.SqlScanners

/-!
# The lexemes of a query

A text is quoted segments and runs of characters that are not white space, with white space between
some of them. A quoted segment goes on behind a doubled quote, and up to the end of the text when
its quote is not closed.

* `spells_lexemes`: the lexemes are the text, with white space before those that say so and at the end;
* `render_lexFrom`, `emit_start`: `_normalize_whitespace` puts out the lexemes, with one blank where
  white space was;
* `lexFrom_emit`, `lexemes_emit`: and the lexemes of what it puts out are those of the text.

All go along with the scan, one step of the code at a time; white space that is pending closes a run
before it is put out.
-/

namespace Sketchlog.Sql

/-! ## Lexemes

A text as quoted parts, runs of characters and white space between them. `render` puts them together
with single blanks. -/

inductive Token where
  | run (text : Text)
  | quoted (text : Text)
deriving DecidableEq

def Token.text : Token → Text
  | .run text => text
  | .quoted text => text

/-- A token, and whether white space stands before it. -/
structure Lexeme where
  blank : Bool
  token : Token
deriving DecidableEq

/-- The run that is being read, when there is one. -/
def closeRun (blank : Bool) (current : Text) : List Lexeme :=
  if current = [] then [] else [⟨blank, .run current⟩]

/-- The lexemes from a state on: the quote that is open, white space before what is being read, and
what has been read of it. -/
def lexFrom (quote : Option Char) (blank : Bool) (current : Text) : Text → List Lexeme
  | [] =>
    match quote with
    | some _ => [⟨blank, .quoted current⟩]
    | none => closeRun blank current
  | c :: rest =>
    match quote with
    | some q =>
      if c = q then
        match rest with
        | c' :: rest' =>
          if c' = q then lexFrom (some q) blank (current ++ [c, c']) rest'
          else ⟨blank, .quoted (current ++ [c])⟩ :: lexFrom none false [] (c' :: rest')
        | [] => [⟨blank, .quoted (current ++ [c])⟩]
      else lexFrom (some q) blank (current ++ [c]) rest
    | none =>
      if isQuote c then closeRun blank current ++ lexFrom (some c) (blank && current.isEmpty) [c] rest
      else if isSpace c then closeRun blank current ++ lexFrom none true [] rest
      else lexFrom none blank (current ++ [c]) rest

def lexemes (text : Text) : List Lexeme := lexFrom none false [] text

/-- One blank where white space was. -/
def blankText (blank : Bool) : Text := if blank then [' '] else []

def render (ls : List Lexeme) : Text := ls.flatMap fun l => blankText l.blank ++ l.token.text

/-- No white space before the first lexeme. -/
def lead : List Lexeme → List Lexeme
  | [] => []
  | l :: ls => ⟨false, l.token⟩ :: ls

/-! ## What the scan puts out

The normalizer again, as a function of what is left of the text, so that it can be compared with the
lexer. -/

/-- What `_normalize_whitespace` puts out from a state on; `started` says whether it has put out
something. -/
def emit (quote : Option Char) (pending started : Bool) : Text → Text
  | [] => []
  | c :: rest =>
    match quote with
    | some q =>
      if c = q then
        match rest with
        | c' :: rest' =>
          if c' = q then c :: c' :: emit (some q) pending true rest'
          else c :: emit none pending true (c' :: rest')
        | [] => [c]
      else c :: emit (some q) pending true rest
    | none =>
      if isQuote c then blankText (pending && started) ++ c :: emit (some c) false true rest
      else if isSpace c then emit none true started rest
      else blankText (pending && started) ++ c :: emit none false true rest

section Emit

attribute [local simp] emit

variable {q c : Char} {rest : Text} (pending started : Bool)

theorem emit_nil (quote : Option Char) : emit quote pending started [] = [] := by
  unfold emit
  rfl

theorem emit_double : emit (some q) pending started (q :: q :: rest) = q :: q :: emit
    (some q) pending true rest := by
  rw [emit]
  simp

theorem emit_close (hc : c ≠ q) :
    emit (some q) pending started (q :: c :: rest) = q :: emit none pending true (c :: rest) := by
  rw [emit]
  simp [hc]

theorem emit_close_nil : emit (some q) pending started [q] = [q] := by
  rw [emit.eq_def]
  simp

theorem emit_quoted (hc : c ≠ q) :
    emit (some q) pending started (c :: rest) = c :: emit (some q) pending true rest := by
  cases rest <;> simp [hc]

theorem emit_open (hc : isQuote c = true) :
    emit none pending started (c :: rest) = blankText (pending && started) ++ c :: emit
      (some c) false true rest := by
  simp [hc]

theorem emit_space (hquote : isQuote c = false) (hc : isSpace c = true) :
    emit none pending started (c :: rest) = emit none true started rest := by
  simp [hquote, hc]

theorem emit_other (hquote : isQuote c = false) (hc : isSpace c = false) :
    emit none pending started (c :: rest) = blankText (pending && started) ++ c :: emit none false
      true rest := by
  simp [hquote, hc]

end Emit

/-- **The scan as a generator.** What is put out from a state on does not depend on what has been
put out, but for whether there is any. -/
theorem normalizeFrom_eq_emit (quote : Option Char) (pending : Bool) (output text : Text) :
    normalizeFrom quote pending output text = output ++ emit quote pending (!output.isEmpty) text := by
  have hspaced (pending : Bool) (output : Text) :
      (if pending ∧ output ≠ [] then output ++ [' '] else output) = output ++ blankText
        (pending && !output.isEmpty) := by
    cases pending <;> cases output <;> simp [blankText]
  have hstarted (output rest : Text) (c : Char) : (!(output ++ c :: rest).isEmpty) = true := by
    cases output <;> rfl
  fun_induction normalizeFrom quote pending output text with
  | case1 => rw [emit_nil, List.append_nil]
  | case2 pending output q rest ih => rw [ih, hstarted, emit_double, List.append_assoc]; rfl
  | case3 pending output q c rest hc ih => rw [ih, hstarted, emit_close _ _ hc, List.append_assoc]; rfl
  | case4 pending output q ih => rw [ih, emit_nil, emit_close_nil, List.append_nil]
  | case5 pending output c rest q hc ih => rw [ih, hstarted, emit_quoted _ _ hc, List.append_assoc]; rfl
  | case6 pending output c rest spaced hc ih =>
    rw [ih, hstarted, emit_open _ _ hc, List.append_assoc, ← List.append_assoc output, ← hspaced]
    rfl
  | case7 pending output c rest hquote hc ih =>
      rw [ih, emit_space _ _ (Bool.eq_false_iff.mpr hquote) hc]
  | case8 pending output c rest spaced hquote hc ih =>
    rw [ih, hstarted, emit_other _ _ (Bool.eq_false_iff.mpr hquote) (Bool.eq_false_iff.mpr hc),
      List.append_assoc,
      ← List.append_assoc output, ← hspaced]
    rfl

theorem normalizeWhitespace_eq_emit (text : Text) :
    normalizeWhitespace text = emit none false false text :=
  normalizeFrom_eq_emit none false [] text

/-! ## The lexemes are the text

`Spells` relates a text and its lexemes without running anything. -/

/-- A run, or a quoted segment: its quotes are doubled inside, and it may be the last one and not
closed. -/
def Token.Valid : Token → Prop
  | .run text => text ≠ [] ∧ ∀ c ∈ text, isQuote c = false ∧ isSpace c = false
  | .quoted text =>
      ∃ q content, isQuote q = true
      ∧ (text = Nesting.quoted q content ∨ text = q :: Nesting.double q content)

/-- A text is its lexemes, with white space before those that say so, and any at the end. -/
inductive Spells : List Lexeme → Text → Prop where
  | nil {space : Text} (hspace : ∀ c ∈ space, isSpace c = true) : Spells [] space
  | cons {space rest : Text} {l : Lexeme} {ls : List Lexeme} (hspace : ∀ c ∈ space, isSpace c = true)
      (hblank : l.blank = !space.isEmpty) (htoken : l.token.Valid) (hrest : Spells ls rest) :
      Spells (l :: ls) (space ++ (l.token.text ++ rest))

theorem double_concat (q c : Char) (content : Text) :
    Nesting.double q (content ++ [c]) = Nesting.double q content ++ if c = q then [q, q] else [c] := by
  unfold Nesting.double
  rw [List.flatMap_append, List.flatMap_singleton]

/-- What is being read is part of a token. -/
def Reading (current : Text) : Option Char → Prop
  | some q => isQuote q = true ∧ ∃ content, current = q :: Nesting.double q content
  | none => ∀ c ∈ current, isQuote c = false ∧ isSpace c = false

theorem spells_closeRun {blank : Bool} {current space rest : Text} {ls : List Lexeme}
    (hspace : ∀ c ∈ space, isSpace c = true)
    (hblank : blank = !space.isEmpty) (hreading : Reading current none) (hne : current ≠ [])
    (hrest : Spells ls rest) :
    Spells (closeRun blank current ++ ls) (space ++ (current ++ rest)) := by
  have hclose : closeRun blank current ++ ls = ⟨blank, .run current⟩ :: ls := by
    unfold closeRun
    rw [if_neg hne]
    rfl
  rw [hclose]
  exact .cons hspace hblank ⟨hne, hreading⟩ hrest

theorem spells_lexFrom {quote : Option Char} {blank : Bool} {current text : Text} (space : Text)
    (hspace : ∀ c ∈ space, isSpace c = true)
    (hblank : blank = !space.isEmpty) (hreading : Reading current quote) :
    Spells (lexFrom quote blank current text) (space ++ (current ++ text)) := by
  -- one case for each rule of the lexer; `space` is the white space since the last lexeme
  fun_induction lexFrom quote blank current text generalizing space with
  -- the text ends within quotes
  | case1 blank current q =>
    obtain ⟨hq, content, hcurrent⟩ := hreading
    exact .cons (l := ⟨blank, .quoted current⟩) hspace hblank ⟨q, content, hq, .inr hcurrent⟩
      (.nil fun _ h => absurd h List.not_mem_nil)
  | case2 blank current =>
    by_cases hne : current = []
    · rw [hne, closeRun, if_pos rfl, List.append_nil, List.append_nil]
      exact .nil hspace
    · have hempty : Spells [] [] := .nil fun _ h => absurd h List.not_mem_nil
      have h := spells_closeRun hspace hblank hreading hne hempty
      rwa [List.append_nil] at h
  -- a doubled quote goes on with the quoted part
  | case3 blank current q rest ih =>
    obtain ⟨hq, content, rfl⟩ := hreading
    have hnext := ih space hspace hblank ⟨hq, content ++ [q], by rw [double_concat, if_pos rfl]; rfl⟩
    rwa [List.append_assoc] at hnext
  -- a quote that is not doubled ends it
  | case4 blank current q c rest hc ih =>
    obtain ⟨hq, content, rfl⟩ := hreading
    have hnext := ih [] (fun _ h => absurd h List.not_mem_nil) rfl fun _ h => absurd h List.not_mem_nil
    have hclosed : (⟨blank, .quoted (q :: Nesting.double q content ++ [q])⟩ : Lexeme).token.Valid :=
      ⟨q, content, hq, .inl rfl⟩
    have h := Spells.cons hspace hblank hclosed hnext
    simpa [Token.text] using h
  | case5 blank current q =>
    obtain ⟨hq, content, rfl⟩ := hreading
    have h := Spells.cons (l := ⟨blank, .quoted (q :: Nesting.double q content ++ [q])⟩) hspace hblank
      ⟨q, content, hq, .inl rfl⟩ (.nil fun _ h => absurd h List.not_mem_nil)
    rwa [List.append_nil] at h
  | case6 blank current c rest q hc ih =>
    obtain ⟨hq, content, rfl⟩ := hreading
    have hnext := ih space hspace hblank ⟨hq, content ++ [c], by rw [double_concat, if_neg hc]; rfl⟩
    rwa [List.append_assoc] at hnext
  -- a quote opens; what was read before it is a lexeme of its own
  | case7 blank current c rest hc ih =>
    have hopen : Reading [c] (some c) := ⟨hc, [], rfl⟩
    by_cases hne : current = []
    · subst hne
      have hnext := ih space hspace (by rw [hblank]; simp) hopen
      simpa [closeRun] using hnext
    · have hempty : current.isEmpty = false := List.isEmpty_eq_false_iff.mpr hne
      have hnext := ih [] (fun _ h => absurd h List.not_mem_nil)
        (by rw [hempty, Bool.and_false]; rfl) hopen
      exact spells_closeRun hspace hblank hreading hne hnext
  -- white space ends a run, or adds to the white space before
  | case8 blank current c rest hquote hc ih =>
    by_cases hne : current = []
    · subst hne
      have hnext := ih (space ++ [c])
        (List.forall_mem_append.mpr ⟨hspace, List.forall_mem_singleton.mpr hc⟩)
        (by simp) fun _ h => absurd h List.not_mem_nil
      simpa [closeRun] using hnext
    · have hnext := ih [c] (List.forall_mem_singleton.mpr hc) rfl fun _ h => absurd h List.not_mem_nil
      exact spells_closeRun hspace hblank hreading hne hnext
  -- any other character goes on with the run
  | case9 blank current c rest hquote hc ih =>
    have hnext := ih space hspace hblank <| List.forall_mem_append.mpr
      ⟨hreading, List.forall_mem_singleton.mpr ⟨Bool.eq_false_iff.mpr hquote, Bool.eq_false_iff.mpr hc⟩⟩
    rwa [List.append_assoc] at hnext

/-- **The lexemes of a text spell it.** -/
theorem spells_lexemes (text : Text) : Spells (lexemes text) text := by
  have hnil : ∀ c ∈ ([] : Text), isSpace c = true := fun _ h => absurd h List.not_mem_nil
  exact spells_lexFrom [] hnil rfl fun _ h => absurd h List.not_mem_nil

/-! ## What is put out spells the lexemes

By induction along the lexer, with what the emitter still owes as an argument. -/

section Lex

attribute [local simp] lexFrom

variable {q c : Char} {rest : Text} (blank : Bool) (current : Text)

theorem lexFrom_double :
    lexFrom (some q) blank current (q :: q :: rest) = lexFrom (some q) blank
      (current ++ [q, q]) rest := by
  rw [lexFrom]
  simp

theorem lexFrom_close (hrest : rest.head? ≠ some q) :
    lexFrom (some q) blank current (q :: rest) = ⟨blank, .quoted (current ++ [q])⟩ :: lexFrom none
      false [] rest := by
  cases rest with
  | nil =>
    rw [lexFrom.eq_def]
    simp [closeRun]
  | cons c rest =>
    have hc : c ≠ q := fun h => hrest (congrArg some h)
    rw [lexFrom]
    simp [hc]

theorem lexFrom_quoted (hc : c ≠ q) :
    lexFrom (some q) blank current (c :: rest) = lexFrom (some q) blank (current ++ [c]) rest := by
  cases rest <;> simp [hc]

theorem lexFrom_open (hc : isQuote c = true) :
    lexFrom none blank current (c :: rest)
      = closeRun blank current ++ lexFrom (some c) (blank && current.isEmpty) [c] rest := by
  simp [hc]

theorem lexFrom_space (hc : isSpace c = true) :
    lexFrom none blank current (c :: rest) = closeRun blank current ++ lexFrom none true [] rest := by
  have hquote : isQuote c = false := Bool.eq_false_iff.mpr fun hquote => by
    rw [isSpace_of_isQuote hquote] at hc
    cases hc
  simp [hquote, hc]

theorem lexFrom_other (hquote : isQuote c = false) (hc : isSpace c = false) :
    lexFrom none blank current (c :: rest) = lexFrom none blank (current ++ [c]) rest := by
  simp [hquote, hc]

end Lex

theorem render_cons (l : Lexeme) (ls : List Lexeme) :
    render (l :: ls) = blankText l.blank ++ (l.token.text ++ render ls) := by
  unfold render
  rw [List.flatMap_cons, List.append_assoc]

theorem render_append (ls ls' : List Lexeme) : render (ls ++ ls') = render ls ++ render ls' :=
  List.flatMap_append

/-- What has been read of the lexeme, with the blank before it; white space alone is still pending. -/
def held (quote : Option Char) (blank : Bool) (current : Text) : Text :=
  if quote = none ∧ current = [] then [] else blankText blank ++ current

def owed (quote : Option Char) (blank : Bool) (current : Text) : Bool :=
  blank && quote.isNone && current.isEmpty

theorem held_some (q : Char) (blank : Bool) (current : Text) :
    held (some q) blank current = blankText blank ++ current := by
  simp [held]

theorem owed_some (q : Char) (blank : Bool) (current : Text) : owed (some q) blank current = false := by
  simp [owed]

theorem render_closeRun (blank : Bool) (current : Text) :
    render (closeRun blank current) = held none blank current := by
  unfold closeRun held
  by_cases hcurrent : current = []
  · simp [hcurrent, render]
  · simp [hcurrent, render, Token.text]

theorem held_concat (blank : Bool) (current : Text) (c : Char) :
    held none blank (current ++ [c]) = held none blank current
      ++ (blankText (owed none blank current) ++ [c])
      ∧ owed none blank (current ++ [c]) = false := by
  cases current with
  | nil => simp [held, owed]
  | cons c' current => simp [held, owed, blankText]

/-- **What is put out spells the lexemes**, with one blank for white space. -/
theorem render_lexFrom (quote : Option Char) (blank : Bool) (current text : Text) :
    render (lexFrom quote blank current text)
      = held quote blank current ++ emit quote (owed quote blank current) true text := by
  -- what is held back at each rule is what the emitter still owes
  fun_induction lexFrom quote blank current text with
  | case1 blank current q => simp [render, Token.text, held_some, emit_nil]
  | case2 blank current => rw [render_closeRun, emit_nil, List.append_nil]
  | case3 blank current q rest ih =>
    rw [ih, owed_some, owed_some, held_some, held_some, emit_double]
    simp
  | case4 blank current q c rest hc ih =>
    rw [render_cons, ih, owed_some, held_some, emit_close _ _ hc]
    simp [held, owed, Token.text]
  | case5 blank current q =>
    rw [owed_some, held_some, emit_close_nil]
    simp [render, Token.text]
  | case6 blank current c rest q hc ih =>
    rw [ih, owed_some, owed_some, held_some, held_some, emit_quoted _ _ hc]
    simp
  | case7 blank current c rest hc ih =>
    rw [render_append, render_closeRun, ih, owed_some, held_some, emit_open _ _ hc]
    simp [owed]
  | case8 blank current c rest hquote hc ih =>
    rw [render_append, render_closeRun, ih, emit_space _ _ (Bool.eq_false_iff.mpr hquote) hc]
    simp [held, owed]
  | case9 blank current c rest hquote hc ih =>
    obtain ⟨hheld, howed⟩ := held_concat blank current c
    rw [ih, hheld, howed, emit_other _ _ (Bool.eq_false_iff.mpr hquote) (Bool.eq_false_iff.mpr hc)]
    simp

/-- The flag of white space is that of the first lexeme. -/
theorem lead_lexFrom {quote : Option Char} {blank : Bool} {current text : Text}
    (h : quote ≠ none ∨ current ≠ []) :
    lead (lexFrom quote blank current text) = lexFrom quote false current text := by
  -- a lexeme has begun, so only its own blank flag differs
  fun_induction lexFrom quote blank current text with
  | case1 blank current q => simp [lead, lexFrom]
  | case2 blank current =>
    have hcurrent : current ≠ [] := h.resolve_left fun hnone => hnone rfl
    simp [lead, closeRun, lexFrom, hcurrent]
  | case3 blank current q rest ih =>
    rw [lexFrom_double]
    exact ih (.inl (Option.some_ne_none q))
  | case4 blank current q c rest hc ih =>
    rw [lexFrom_close _ _ (by simpa using hc)]
    rfl
  | case5 blank current q =>
    rw [lexFrom_close _ _ (by simp)]
    simp [lead, lexFrom, closeRun]
  | case6 blank current c rest q hc ih =>
    rw [lexFrom_quoted _ _ hc]
    exact ih (.inl (Option.some_ne_none q))
  | case7 blank current c rest hc ih =>
    have hcurrent : current ≠ [] := h.resolve_left fun hnone => hnone rfl
    have hempty : current.isEmpty = false := List.isEmpty_eq_false_iff.mpr hcurrent
    rw [lexFrom_open _ _ hc, hempty, Bool.and_false, Bool.false_and]
    simp [closeRun, hcurrent, lead]
  | case8 blank current c rest hquote hc ih =>
    have hcurrent : current ≠ [] := h.resolve_left fun hnone => hnone rfl
    rw [lexFrom_space _ _ hc]
    simp [closeRun, hcurrent, lead]
  | case9 blank current c rest hquote hc ih =>
    rw [lexFrom_other _ _ (Bool.eq_false_iff.mpr hquote) (Bool.eq_false_iff.mpr hc)]
    exact ih (.inr (List.append_ne_nil_of_right_ne_nil _ (List.cons_ne_nil _ _)))

/-- Before anything is put out, white space is dropped. -/
theorem emit_start (pending : Bool) (text : Text) :
    emit none pending false text = render (lead (lexFrom none pending [] text)) := by
  induction text generalizing pending with
  | nil =>
    rw [emit_nil]
    rfl
  | cons c rest ih =>
    by_cases hquote : isQuote c = true
    · rw [emit_open _ _ hquote, lexFrom_open _ _ hquote]
      show _ = render (lead (lexFrom (some c) (pending && true) [c] rest))
      rw [lead_lexFrom (.inr (List.cons_ne_nil _ _)), render_lexFrom, held_some, owed_some]
      simp [blankText]
    have hquote' := Bool.eq_false_iff.mpr hquote
    by_cases hspace : isSpace c = true
    · rw [emit_space _ _ hquote' hspace, lexFrom_space _ _ hspace, ih]
      rfl
    · rw [emit_other _ _ hquote' (Bool.eq_false_iff.mpr hspace),
        lexFrom_other _ _ hquote' (Bool.eq_false_iff.mpr hspace),
        lead_lexFrom (.inr (by simp)), render_lexFrom]
      simp [blankText, held, owed]

/-! ## The lexemes of what is put out

The emitter changes white space only, so the lexemes are read again. -/

/-- White space that is pending is put out as a blank, when anything follows. -/
theorem head?_emit_pending (text : Text) : ∀ c ∈ (emit none true true text).head?, c = ' ' := by
  induction text with
  | nil =>
    rw [emit_nil]
    exact fun _ h => nomatch h
  | cons c rest ih =>
    by_cases hquote : isQuote c = true
    · rw [emit_open _ _ hquote]
      exact fun _ h => (Option.some.inj h).symm
    have hquote' := Bool.eq_false_iff.mpr hquote
    by_cases hspace : isSpace c = true
    · rw [emit_space _ _ hquote' hspace]
      exact ih
    · rw [emit_other _ _ hquote' (Bool.eq_false_iff.mpr hspace)]
      exact fun _ h => (Option.some.inj h).symm

/-- Behind a quoted segment the quote is not doubled in what is put out. -/
theorem head?_emit_ne {q c : Char} (hq : isQuote q = true) (hc : c ≠ q) (rest : Text) :
    (emit none false true (c :: rest)).head? ≠ some q := by
  by_cases hquote : isQuote c = true
  · rw [emit_open _ _ hquote]
    exact fun h => hc (Option.some.inj h)
  have hquote' := Bool.eq_false_iff.mpr hquote
  by_cases hspace : isSpace c = true
  · rw [emit_space _ _ hquote' hspace]
    intro h
    have hblank := head?_emit_pending rest q h
    rw [hblank] at hq
    cases hq
  · rw [emit_other _ _ hquote' (Bool.eq_false_iff.mpr hspace)]
    exact fun h => hc (Option.some.inj h)

theorem closeRun_nil (blank : Bool) : closeRun blank [] = [] := if_pos rfl

theorem isSpace_blank_char : isSpace ' ' = true := by decide

theorem valid_unquoted (pending : Bool) : ∀ q ∈ (none : Option Char), isQuote q = true ∧ pending
    = false := by
  intro q hq
  cases hq

/-- **Lexing what is put out.** With nothing pending, it goes on as lexing the text does; white
space that is pending has already ended the run that is being read. Inside quotes nothing is
pending. -/
theorem lexFrom_emit {quote : Option Char} {pending started : Bool} {text : Text}
    (hstarted : started = true)
    (hvalid : ∀ q ∈ quote, isQuote q = true ∧ pending = false) (blank : Bool) (current : Text) :
    lexFrom quote blank current (emit quote pending started text)
      = if pending then closeRun blank current ++ lexFrom none true [] text
        else lexFrom quote blank current text := by
  -- the emitter's text read again; a pending blank closes the run first
  fun_induction emit quote pending started text generalizing blank current with
  | case1 quote pending started =>
    -- at the end a blank may still be pending, and it closes the run
    cases pending with
    | false => rfl
    | true =>
      have hquote : quote = none := Option.eq_none_iff_forall_ne_some.mpr fun q hq =>
        nomatch (hvalid q hq).2
      subst hquote
      show closeRun blank current = closeRun blank current ++ closeRun true []
      rw [closeRun_nil, List.append_nil]
  | case2 pending started q rest ih =>
    obtain ⟨hq, rfl⟩ := hvalid q rfl
    rw [lexFrom_double, ih rfl hvalid, if_neg Bool.false_ne_true, if_neg Bool.false_ne_true,
      lexFrom_double]
  | case3 pending started q c rest hc ih =>
    obtain ⟨hq, rfl⟩ := hvalid q rfl
    have hrest : (c :: rest).head? ≠ some q := fun h => hc (Option.some.inj h)
    rw [lexFrom_close _ _ (head?_emit_ne hq hc rest), ih rfl (valid_unquoted _),
      if_neg Bool.false_ne_true,
      if_neg Bool.false_ne_true, lexFrom_close _ _ hrest]
  | case4 pending started q =>
    obtain ⟨hq, rfl⟩ := hvalid q rfl
    rw [if_neg Bool.false_ne_true]
  | case5 pending started c rest q hc ih =>
    obtain ⟨hq, rfl⟩ := hvalid q rfl
    rw [lexFrom_quoted _ _ hc, ih rfl hvalid, if_neg Bool.false_ne_true, if_neg Bool.false_ne_true,
      lexFrom_quoted _ _ hc]
  | case6 pending started c rest hc ih =>
    subst hstarted
    have hquoted : ∀ q ∈ some c, isQuote q = true ∧ false = false :=
      fun q hq => ⟨Option.some.inj hq ▸ hc, rfl⟩
    cases pending with
    | false =>
      show lexFrom none blank current (c :: emit (some c) false true rest) = _
      rw [lexFrom_open _ _ hc, ih rfl hquoted, if_neg Bool.false_ne_true, if_neg Bool.false_ne_true,
        lexFrom_open _ _ hc]
    | true =>
      show lexFrom none blank current (' ' :: c :: emit (some c) false true rest) = _
      rw [lexFrom_space _ _ isSpace_blank_char, lexFrom_open _ _ hc, ih rfl hquoted,
        if_neg Bool.false_ne_true,
        if_pos rfl, lexFrom_open _ _ hc]
  -- white space is not written, but remembered
  | case7 pending started c rest hquote hc ih =>
    rw [ih hstarted (valid_unquoted _), if_pos rfl, lexFrom_space _ _ hc, closeRun_nil, List.nil_append]
    cases pending with
    | false => rw [if_neg Bool.false_ne_true, lexFrom_space _ _ hc]
    | true => rw [if_pos rfl]
  | case8 pending started c rest hquote hc ih =>
    subst hstarted
    have hquote' := Bool.eq_false_iff.mpr hquote
    have hspace := Bool.eq_false_iff.mpr hc
    cases pending with
    | false =>
      show lexFrom none blank current (c :: emit none false true rest) = _
      rw [lexFrom_other _ _ hquote' hspace, ih rfl (valid_unquoted _), if_neg Bool.false_ne_true,
        if_neg Bool.false_ne_true,
        lexFrom_other _ _ hquote' hspace]
    | true =>
      show lexFrom none blank current (' ' :: c :: emit none false true rest) = _
      rw [lexFrom_space _ _ isSpace_blank_char, lexFrom_other _ _ hquote' hspace,
        ih rfl (valid_unquoted _),
        if_neg Bool.false_ne_true, if_pos rfl, lexFrom_other _ _ hquote' hspace]

theorem lexemes_emit (pending : Bool) (text : Text) :
    lexemes (emit none pending false text) = lead (lexFrom none pending [] text) := by
  unfold lexemes
  -- nothing has been written, so no blank is written before the first lexeme
  induction text generalizing pending with
  | nil =>
    rw [emit_nil]
    rfl
  | cons c rest ih =>
    by_cases hquote : isQuote c = true
    · -- the first lexeme is read without its blank flag, as `lead` says
      have hquoted : ∀ q ∈ some c, isQuote q = true ∧ false = false :=
        fun q hq => ⟨Option.some.inj hq ▸ hquote, rfl⟩
      rw [emit_open _ _ hquote, Bool.and_false, lexFrom_open _ _ hquote]
      show lexFrom none false [] (c :: _) = lead (lexFrom (some c) _ [c] rest)
      rw [lexFrom_open _ _ hquote, closeRun_nil, List.nil_append, lexFrom_emit rfl hquoted,
        if_neg Bool.false_ne_true,
        lead_lexFrom (.inr (List.cons_ne_nil _ _))]
      rfl
    have hquote' := Bool.eq_false_iff.mpr hquote
    by_cases hspace : isSpace c = true
    · rw [emit_space _ _ hquote' hspace, ih, lexFrom_space _ _ hspace, closeRun_nil, List.nil_append]
    · have hspace' := Bool.eq_false_iff.mpr hspace
      rw [emit_other _ _ hquote' hspace', Bool.and_false, lexFrom_other _ _ hquote' hspace']
      show lexFrom none false [] (c :: _) = lead (lexFrom none _ [c] rest)
      rw [lexFrom_other _ _ hquote' hspace', lexFrom_emit rfl (valid_unquoted _),
        if_neg Bool.false_ne_true,
        lead_lexFrom (.inr (List.cons_ne_nil _ _))]
      rfl

end Sketchlog.Sql
