import Mathlib
import Sketchlog.Agent.Prometheus

/-!
# The text format, rendered

A scrape is a list of lines: samples, rendered with backslash, double quote and line feed escaped in
label values, and comments. A line whose label values hold no closing brace and no line boundary but
the line feed, and whose timestamp is not negative, is matched by the groups it was written from
(`prefers_sample`) and parsed to its sample (`parseLine_of_plain`).
-/

namespace Sketchlog.Agent

open Backtrack Otel

/-! ## Rendering -/

/-- One character of a label value, escaped. -/
def escapeChar (c : Char) : Text :=
  if c = '\\' then ['\\', '\\'] else if c = '"' then ['\\', '"'] else if c = '\n' then ['\\', 'n']
    else [c]

def escapeLabelValue (value : Text) : Text := value.flatMap escapeChar

def renderLabel (label : Text × Text) : Text :=
  label.1 ++ '=' :: '"' :: escapeLabelValue label.2 ++ ['"']

/-- The labels, separated by commas. -/
def renderLabels : List (Text × Text) → Text
  | [] => []
  | [label] => renderLabel label
  | label :: labels => renderLabel label ++ ',' :: renderLabels labels

def Decimal.render (d : Decimal) : Text :=
  d.sign.toList ++ (d.int ++ ((d.frac.elim [] fun digits => '.' :: digits)
    ++ d.exp.elim [] fun exp => 'e' :: (exp.1.toList ++ exp.2)))

/-- A name: `start`, and then characters of a class. -/
def IsName (start char : Char → Bool) : Text → Prop
  | [] => False
  | c :: cs => start c = true ∧ ∀ c' ∈ cs, char c' = true

def IsDigits (text : Text) : Prop := text ≠ [] ∧ ∀ c ∈ text, c.isDigit = true

structure Decimal.WellFormed (d : Decimal) : Prop where
  sign : ∀ c ∈ d.sign, isSign c = true
  int : IsDigits d.int
  frac : ∀ digits ∈ d.frac, IsDigits digits
  exp : ∀ exp ∈ d.exp, (∀ c ∈ exp.1, isSign c = true) ∧ IsDigits exp.2

/-- A sample and the way it is written: a decimal for its value, and perhaps a timestamp, with or
without a minus. -/
structure SampleLine where
  sample : PrometheusSample
  text : Decimal
  timestamp : Option (Bool × Text)
  name_valid : IsName isNameStart isNameChar sample.name
  labels_valid : ∀ label ∈ sample.labels.items, IsName isLabelStart isLabelChar label.1
  text_valid : text.WellFormed
  text_value : Float64.ofRat text.value = .fin sample.value
  timestamp_valid : ∀ timestamp' ∈ timestamp, IsDigits timestamp'.2

inductive Line where
  | sample (line : SampleLine)
  | comment (text : Text)

namespace SampleLine

def braces (s : SampleLine) : Text :=
  if s.sample.labels.items = [] then [] else '{' :: (renderLabels s.sample.labels.items ++ ['}'])

def renderTimestamp (s : SampleLine) : Text :=
  s.timestamp.elim [] fun timestamp => ' ' :: ((if timestamp.1 then ['-'] else []) ++ timestamp.2)

def render (s : SampleLine) : Text :=
  s.sample.name ++ (s.braces ++ ' ' :: (s.text.render ++ s.renderTimestamp))

/-- What the parser can give back: label values without a closing brace or a line boundary that is
not escaped, and a timestamp that is not negative. -/
def Plain (s : SampleLine) : Prop :=
  (∀ label ∈ s.sample.labels.items, ∀ c ∈ label.2, c ≠ '}' ∧ (isLineBoundary c = true → c = '\n'))
    ∧ ∀ timestamp ∈ s.timestamp, timestamp.1 = false

end SampleLine

namespace Line

def render : Line → Text
  | .sample line => line.render
  | .comment text => '#' :: text

def sample? : Line → Option PrometheusSample
  | .sample line => some line.sample
  | .comment _ => none

end Line

/-- One line after another, each with its line feed. -/
def renderLines (lines : List Line) : Text := lines.flatMap fun line => line.render ++ ['\n']

/-! ## Characters

The classes of characters that occur in a line, and what each of them is not. -/

theorem isDecimal_of_isDigit {c : Char} (h : c.isDigit = true) : isDecimal c = true := by
  simp only [Char.isDigit, Bool.and_eq_true, decide_eq_true_eq, ge_iff_le] at h
  have hlo : 48 ≤ c.toNat := h.1
  have hhi : c.toNat ≤ 57 := h.2
  unfold isDecimal decimalValue? decimalZeros
  rw [List.find?_cons_of_pos (by simp; omega)]
  rfl

/-- The code points of names and digits. -/
theorem toNat_of_isNameChar {c : Char} (h : isNameChar c = true) :
    48 ≤ c.toNat ∧ c.toNat ≤ 58 ∨ 65 ≤ c.toNat ∧ c.toNat ≤ 90 ∨ c.toNat = 95 ∨ 97 ≤ c.toNat
      ∧ c.toNat ≤ 122 := by
  simp only [isNameChar, isNameStart, Char.isAlpha, Char.isUpper, Char.isLower, Char.isDigit,
    Bool.or_eq_true,
    Bool.and_eq_true, decide_eq_true_eq, ge_iff_le, UInt32.le_iff_toNat_le] at h
  have hc : c.toNat = c.val.toNat := rfl
  have hA : 'A'.val.toNat = 65 := rfl
  have hZ : 'Z'.val.toNat = 90 := rfl
  have ha : 'a'.val.toNat = 97 := rfl
  have hz : 'z'.val.toNat = 122 := rfl
  have h0 : '0'.val.toNat = 48 := rfl
  have h9 : '9'.val.toNat = 57 := rfl
  rcases h with (((hupper | hlower) | rfl) | rfl) | hdigit
  · omega
  · omega
  · decide
  · decide
  · omega

theorem isNameChar_of_isDigit {c : Char} (h : c.isDigit = true) : isNameChar c = true := by
  unfold isNameChar
  rw [h, Bool.or_true]

theorem isNameChar_of_isLabelChar {c : Char} (h : isLabelChar c = true) : isNameChar c = true := by
  unfold isLabelChar isLabelStart at h
  unfold isNameChar isNameStart
  simp only [Bool.or_eq_true] at h ⊢
  tauto

theorem isSpace_of_isNameChar {c : Char} (h : isNameChar c = true) : isSpace c = false := by
  have hn := toNat_of_isNameChar h
  simp only [isSpace, Bool.or_eq_false_iff, Bool.and_eq_false_iff, decide_eq_false_iff_not]
  omega

theorem isLineBoundary_of_not_isSpace {c : Char} (h : isSpace c = false) :
    isLineBoundary c = false := by
  cases hb : isLineBoundary c with
  | false => rfl
  | true => exact absurd (isSpace_of_isLineBoundary hb) (by rw [h]; exact Bool.false_ne_true)

/-- A character of a name is none of the others. -/
theorem ne_of_isNameChar {c d : Char} (h : isNameChar c = true) (hd : isNameChar d = false) :
    c ≠ d := by
  rintro rfl
  rw [h] at hd
  cases hd

theorem IsName.forall_mem {start char : Char → Bool} (hstart : ∀ c, start c = true → char c = true)
    {name : Text}
    (h : IsName start char name) : ∀ c ∈ name, char c = true := by
  cases name with
  | nil => exact h.elim
  | cons c cs => exact List.forall_mem_cons.mpr ⟨hstart c h.1, h.2⟩

theorem isNameChar_of_isNameStart {c : Char} (h : isNameStart c = true) : isNameChar c = true := by
  unfold isNameChar
  rw [h, Bool.true_or]

theorem isLabelChar_of_isLabelStart {c : Char} (h : isLabelStart c = true) : isLabelChar c = true := by
  unfold isLabelChar
  rw [h, Bool.true_or]

/-! ## Label values

A value is escaped, matched piece by piece and unescaped. The pieces are found in order, so the
labels come back in order. -/

/-- A character is left as it is, or becomes a pair that unescapes to it. -/
theorem escapeChar_cases (c : Char) :
    (escapeChar c = [c] ∧ c ≠ '\\' ∧ c ≠ '"' ∧ c ≠ '\n')
      ∨ ∃ d, escapeChar c = ['\\', d] ∧ d ≠ '}' ∧ isLineBoundary d = false
        ∧ ∀ rest, unescapeLabelValue ('\\' :: d :: rest) = c :: unescapeLabelValue rest := by
  unfold escapeChar
  by_cases hback : c = '\\'
  · subst hback
    exact .inr ⟨'\\', rfl, by decide, by decide, fun _ => rfl⟩
  by_cases hquote : c = '"'
  · subst hquote
    exact .inr ⟨'"', rfl, by decide, by decide, fun _ => rfl⟩
  by_cases hfeed : c = '\n'
  · subst hfeed
    exact .inr ⟨'n', rfl, by decide, by decide, fun _ => rfl⟩
  · rw [if_neg hback, if_neg hquote, if_neg hfeed]
    exact .inl ⟨rfl, hback, hquote, hfeed⟩

theorem escapeLabelValue_cons (c : Char) (value : Text) :
    escapeLabelValue (c :: value) = escapeChar c ++ escapeLabelValue value := List.flatMap_cons

/-- Unescaping undoes escaping. -/
theorem unescape_escape (value : Text) : unescapeLabelValue (escapeLabelValue value) = value := by
  induction value with
  | nil => rfl
  | cons c value ih =>
    rw [escapeLabelValue_cons]
    rcases escapeChar_cases c with ⟨heq, hback, -, -⟩ | ⟨d, heq, -, -, hpair⟩
    · have hplain : unescapeLabelValue (c :: escapeLabelValue value) = c :: unescapeLabelValue
        (escapeLabelValue value) := by
        rw [unescapeLabelValue]
        exact fun _ _ h => absurd h hback
      rw [heq, List.singleton_append, hplain, ih]
    · rw [heq, List.cons_append, List.cons_append, List.nil_append, hpair, ih]

/-- The pieces of an escaped value. -/
theorem prefers_pieces (value rest : Text) (n : ℕ) (hn : value.length ≤ n) :
    ∃ pieces, Prefers (star pieceRe n) (escapeLabelValue value ++ '"' :: rest) pieces ('"' :: rest)
      ∧ pieces.flatten = escapeLabelValue value := by
  -- the star takes one piece for each character of the value
  induction value generalizing n with
  | nil => exact ⟨[], prefers_star_nil rfl, rfl⟩
  | cons c value ih =>
    obtain ⟨n, rfl⟩ : ∃ n', n = n' + 1 := ⟨n - 1, by rw [List.length_cons] at hn; omega⟩
    obtain ⟨pieces, hpieces, hflat⟩ := ih n (by rw [List.length_cons] at hn; omega)
    have hpiece : Prefers pieceRe (escapeChar c ++ (escapeLabelValue value ++ '"' :: rest))
      (escapeChar c)
        (escapeLabelValue value ++ '"' :: rest) := by
      -- a character stands for itself or is escaped by one more
      rcases escapeChar_cases c with ⟨heq, hback, hquote, -⟩ | ⟨d, heq, -, hd, -⟩
      · rw [heq]
        have hone : (decide (c ≠ '"') && decide (c ≠ '\\')) = true := by
          rw [Bool.and_eq_true, decide_eq_true_eq, decide_eq_true_eq]
          exact ⟨hquote, hback⟩
        -- a bare character is no backslash, so the first alternative fails
        refine prefers_alt_right (bind_eq_nil (one_eq_nil ?_)) ?_
        · intro a ha
          cases Option.some.inj ha
          exact decide_eq_false hback
        · exact Prefers.bind (prefers_one (p := fun c => decide (c ≠ '"') && decide (c ≠ '\\')) hone
            _) (prefers_succeed _ _)
      · rw [heq]
        have hfeed : d ≠ '\n' := by
          rintro rfl
          cases hd
        have hpair : Prefers (bind (one fun c => decide (c ≠ '\n')) fun c' => succeed ['\\', c'])
            (d :: (escapeLabelValue value ++ '"' :: rest)) ['\\', d]
              (escapeLabelValue value ++ '"' :: rest) :=
          Prefers.bind (prefers_one (p := fun c => decide (c ≠ '\n')) (decide_eq_true hfeed) _)
            (prefers_succeed _ _)
        exact Prefers.alt (Prefers.bind (prefers_one (p := fun c => decide (c = '\\')) rfl _) hpair) _
    -- the alternatives are tried in order, and the rest is matched by the induction hypothesis
    refine ⟨escapeChar c :: pieces, ?_, ?_⟩
    · rw [escapeLabelValue_cons, List.append_assoc]
      exact Prefers.star_succ hpiece hpieces
    · rw [List.flatten_cons, hflat, escapeLabelValue_cons]

theorem length_le_escape (value : Text) : value.length ≤ (escapeLabelValue value).length := by
  induction value with
  | nil => exact le_rfl
  | cons c value ih =>
    rw [escapeLabelValue_cons, List.length_append, List.length_cons]
    have hone : 1 ≤ (escapeChar c).length := by
      rcases escapeChar_cases c with ⟨heq, -⟩ | ⟨d, heq, -⟩ <;> rw [heq] <;> simp
    omega

theorem prefers_name {start char : Char → Bool} {name rest : Text} (hname : IsName start char name)
    (hrest : ∀ c ∈ rest.head?, char c = false) :
      Prefers (nameRe start char) (name ++ rest) name rest := by
  cases name with
  | nil => exact hname.elim
  | cons c cs =>
      exact (prefers_one hname.1 _).bind ((prefers_many hname.2 hrest).bind (prefers_succeed _ _))

/-- A rendered label is matched whole. -/
theorem prefers_label (label : Text × Text) (hname : IsName isLabelStart isLabelChar label.1)
    (rest : Text) :
    Prefers labelRe (renderLabel label ++ rest) (label.1, escapeLabelValue label.2) rest := by
  obtain ⟨name, value⟩ := label
  -- the value cannot run past its closing quote, as every quote inside is escaped
  have hlength : value.length ≤ (escapeLabelValue value ++ '"' :: rest).length := by
    have := length_le_escape value
    rw [List.length_append]
    omega
  obtain ⟨pieces, hpieces, hflat⟩ := prefers_pieces value rest _ hlength
  have hbody : Prefers bodyRe (escapeLabelValue value ++ '"' :: rest) pieces.flatten ('"' :: rest) :=
    Prefers.bind hpieces (prefers_succeed _ _)
  rw [hflat] at hbody
  have hquote : Prefers (one fun c => decide (c = '"')) ('"' :: rest) '"' rest :=
    prefers_one (p := fun c => decide (c = '"')) rfl rest
  have heq : Prefers (literal ['=', '"']) ('=' :: '"' :: (escapeLabelValue value ++ '"' :: rest)) ()
      (escapeLabelValue value ++ '"' :: rest) := prefers_literal ['=', '"'] _
  have htext : renderLabel (name, value) ++ rest
    = name ++ '=' :: '"' :: (escapeLabelValue value ++ '"' :: rest) := by
    simp [renderLabel]
  -- the parts of the label one after the other
  rw [htext]
  refine Prefers.bind (prefers_name hname ?_)
    (Prefers.bind heq (Prefers.bind hbody (Prefers.bind hquote (prefers_succeed _ _))))
  intro c hc
  cases Option.some.inj hc
  rfl

/-- At a comma no label starts. -/
theorem labelRe_comma (rest : Text) : labelRe (',' :: rest) = [] := rfl

theorem findAll_renderLabels (labels : List (Text × Text))
    (hlabels : ∀ label ∈ labels, IsName isLabelStart isLabelChar label.1)
    (n : ℕ) (hn : (renderLabels labels).length < n) :
    findAll labelRe n (renderLabels labels) = labels.map fun label =>
      (label.1, escapeLabelValue label.2) := by
  -- the star finds a label, then the comma, then the rest
  induction labels generalizing n with
  | nil =>
    obtain ⟨n, rfl⟩ : ∃ n', n = n' + 1 := ⟨n - 1, by omega⟩
    rfl
  | cons label labels ih =>
    obtain ⟨hlabel, hrest⟩ := List.forall_mem_cons.mp hlabels
    have hpos : 1 ≤ (renderLabel label).length := by
      simp [renderLabel]
      omega
    cases labels with
    | nil =>
      obtain ⟨n, rfl⟩ : ∃ n', n = n' + 1 := ⟨n - 1, by omega⟩
      have hwhole := (prefers_label label hlabel []).findAll n
      rw [List.append_nil, findAll_nil rfl] at hwhole
      exact hwhole
    | cons next labels =>
      have hlength : (renderLabel label).length + (renderLabels (next :: labels)).length + 1 < n := by
        rw [renderLabels, List.length_append, List.length_cons] at hn
        · omega
        · exact List.cons_ne_nil _ _
      obtain ⟨n, rfl⟩ : ∃ n', n = n' + 1 + 1 := ⟨n - 2, by omega⟩
      have htext : renderLabels (label :: next :: labels) = renderLabel label ++ ',' :: renderLabels
        (next :: labels) := rfl
      rw [htext, (prefers_label label hlabel _).findAll, findAll_cons (labelRe_comma _),
        ih hrest n (by omega)]
      rfl

/-- Items of new keys are set one after another. -/
theorem items_foldl_set (items : List (Text × Text)) (d : Dict Text Text)
    (h : (d.keys ++ items.map Prod.fst).Nodup) :
    (items.foldl (fun labels label => labels.set label.1 label.2) d).items = d.items ++ items := by
  induction items generalizing d with
  | nil => rw [List.foldl_nil, List.append_nil]
  | cons label items ih =>
    rw [List.map_cons] at h
    have hfresh : label.1 ∉ d.keys := by
      intro hmem
      exact (List.nodup_append.mp h).2.2 label.1 hmem label.1 List.mem_cons_self rfl
    have hset : (d.set label.1 label.2).items = d.items ++ [label] := if_neg hfresh
    rw [List.foldl_cons, ih, hset, List.append_assoc]
    · rfl
    · rw [Dict.keys_set, if_neg hfresh, List.append_assoc]
      exact h

/-- **The labels come back.** -/
theorem parseLabels_renderLabels (labels : Dict Text Text)
    (hlabels : ∀ label ∈ labels.items, IsName isLabelStart isLabelChar label.1) :
    parseLabels (renderLabels labels.items) = labels := by
  have hitems : (parseLabels (renderLabels labels.items)).items = labels.items := by
    unfold parseLabels
    rw [findAll_renderLabels labels.items hlabels _ (Nat.lt_succ_self _), List.foldl_map]
    simp only [unescape_escape]
    rw [items_foldl_set labels.items ∅ labels.nodup]
    rfl
  obtain ⟨items, hnodup⟩ := labels
  generalize parseLabels (renderLabels items) = d at hitems ⊢
  obtain ⟨items', hnodup'⟩ := d
  cases hitems
  rfl

/-! ## Values and whole lines

The number is matched as a whole, since what follows it is a blank or the end of the line. -/

theorem isDecimal_of_isDigits {text : Text} (h : IsDigits text) : ∀ c ∈ text, isDecimal c = true :=
  fun c hc => isDecimal_of_isDigit (h.2 c hc)

theorem prefers_digits {text rest : Text} (h : IsDigits text)
    (hrest : ∀ c ∈ rest.head?, isDecimal c = false) :
    Prefers (many1 isDecimal) (text ++ rest) text rest := by
  cases text with
  | nil => exact absurd rfl h.1
  | cons c cs => exact prefers_many1 (isDecimal_of_isDigits h) hrest

/-- An optional sign before digits. -/
theorem prefers_sign {sign : Option Char} {digits rest : Text} (hsign : ∀ c ∈ sign, isSign c = true)
    (hdigits : IsDigits digits) : Prefers (opt (one isSign)) (sign.toList ++ (digits ++ rest)) sign
    (digits ++ rest) := by
  cases sign with
  | none =>
    apply prefers_opt_none
    apply one_eq_nil
    cases digits with
    | nil => exact absurd rfl hdigits.1
    | cons c cs =>
      intro c' hc'
      cases Option.some.inj hc'
      have hdigit := hdigits.2 c List.mem_cons_self
      unfold isSign
      rw [Bool.or_eq_false_iff, decide_eq_false_iff_not, decide_eq_false_iff_not]
      exact ⟨ne_of_isNameChar (isNameChar_of_isDigit hdigit) rfl,
        ne_of_isNameChar (isNameChar_of_isDigit hdigit) rfl⟩
  | some c => exact Prefers.opt (prefers_one (hsign c rfl) _)

/-- The end of a line, or a blank. -/
def AtBlank (rest : Text) : Prop := rest = [] ∨ ∃ rest', rest = ' ' :: rest'

theorem AtBlank.head? {rest : Text} (h : AtBlank rest) {p : Char → Bool} (hp : p ' ' = false) :
    ∀ c ∈ rest.head?, p c = false := by
  rcases h with rfl | ⟨rest', rfl⟩
  · intro c hc
    cases hc
  · intro c hc
    cases Option.some.inj hc
    exact hp

/-- **The value**: a decimal is matched whole. -/
theorem prefers_value {d : Decimal} (h : d.WellFormed) {rest : Text} (hrest : AtBlank rest) :
    Prefers valueRe (d.render ++ rest) (.number d) rest := by
  obtain ⟨sign, int, frac, exp⟩ := d
  obtain ⟨hsign, hint, hfrac, hexp⟩ := h
  -- what follows the digits starts with a letter, a dot or a blank
  have hstopE : ∀ p : Char → Bool, p ' ' = false → p 'e' = false →
      ∀ c ∈ ((exp.elim [] fun exp => 'e' :: (exp.1.toList ++ exp.2)) ++ rest).head?, p c = false := by
    intro p hblank he
    cases exp with
    | none => exact hrest.head? hblank
    | some exp =>
      intro c hc
      cases Option.some.inj hc
      exact he
  have hstopF : ∀ p : Char → Bool, p ' ' = false → p 'e' = false → p '.' = false →
      ∀ c ∈ ((frac.elim [] fun digits => '.' :: digits)
        ++ ((exp.elim [] fun exp => 'e' :: (exp.1.toList ++ exp.2))
        ++ rest)).head?, p c = false := by
    intro p hblank he hdot
    cases frac with
    | none => exact hstopE p hblank he
    | some digits =>
      intro c hc
      cases Option.some.inj hc
      exact hdot
  have hexpo : Prefers (opt (bind (one fun c => c = 'e' || c = 'E') fun _ =>
    bind (opt (one isSign)) fun sign =>
      bind (many1 isDecimal) fun digits => succeed (sign, digits)))
      ((exp.elim [] fun exp => 'e' :: (exp.1.toList ++ exp.2)) ++ rest) exp rest := by
    cases exp with
    | none => exact prefers_opt_none (bind_eq_nil (one_eq_nil (hrest.head? rfl)))
    | some exp =>
      obtain ⟨hsign', hdigits⟩ := hexp exp rfl
      have hdigits' := prefers_digits hdigits (hrest.head? (p := isDecimal) (by decide))
      rw [Option.elim_some, List.cons_append, List.append_assoc]
      refine Prefers.opt (Prefers.bind (prefers_one (p := fun c => c = 'e' || c = 'E') rfl _) ?_)
      exact Prefers.bind (prefers_sign hsign' hdigits) (Prefers.bind hdigits' (prefers_succeed _ _))
  have hfraction : Prefers (opt (bind (one (· = '.')) fun _ => many1 isDecimal))
      ((frac.elim [] fun digits => '.' :: digits)
        ++ ((exp.elim [] fun exp => 'e' :: (exp.1.toList ++ exp.2)) ++ rest)) frac
      ((exp.elim [] fun exp => 'e' :: (exp.1.toList ++ exp.2)) ++ rest) := by
    cases frac with
    | none => exact prefers_opt_none (bind_eq_nil (one_eq_nil (hstopE _ rfl rfl)))
    | some digits =>
      have hdigits := prefers_digits (hfrac digits rfl) (hstopE isDecimal (by decide) (by decide))
      exact Prefers.opt (Prefers.bind (prefers_one (p := fun c => decide (c = '.')) rfl _) hdigits)
  have hinteger := prefers_digits hint (hstopF isDecimal (by decide) (by decide) (by decide))
  apply Prefers.alt
  unfold Decimal.render
  rw [List.append_assoc, List.append_assoc, List.append_assoc]
  refine Prefers.bind (prefers_sign hsign hint) (Prefers.bind hinteger ?_)
  exact Prefers.bind hfraction (Prefers.bind hexpo (prefers_succeed _ _))

/-! ## The characters of a line

No part of a line holds a line boundary, and no label holds the brace that closes the labels. So one
line is matched from its start to its end. -/

theorem forall_mem_escape {P : Char → Prop} (hback : P '\\') (hquote : P '"') (hn : P 'n')
    {value : Text}
    (hvalue : ∀ c ∈ value, c ≠ '\n' → P c) : ∀ c ∈ escapeLabelValue value, P c := by
  intro c hc
  obtain ⟨c', hc', hmem⟩ := List.mem_flatMap.mp hc
  -- a bare character, or one of the two escaped forms
  rcases escapeChar_cases c' with ⟨heq, -, -, hfeed⟩ | ⟨d, heq, -⟩
  · rw [heq, List.mem_singleton] at hmem
    exact hmem ▸ hvalue c' hc' hfeed
  · unfold escapeChar at hmem
    split at hmem
    · simp only [List.mem_cons, List.not_mem_nil, or_false, or_self] at hmem
      exact hmem ▸ hback
    split at hmem
    · simp only [List.mem_cons, List.not_mem_nil, or_false] at hmem
      rcases hmem with rfl | rfl
      · exact hback
      · exact hquote
    split at hmem
    · simp only [List.mem_cons, List.not_mem_nil, or_false] at hmem
      rcases hmem with rfl | rfl
      · exact hback
      · exact hn
    · next hfeed =>
      rw [List.mem_singleton.mp hmem]
      exact hvalue c' hc' hfeed

theorem forall_mem_renderLabels {P : Char → Prop} (hname : ∀ c, isLabelChar c = true → P c)
    (heq : P '=') (hquote : P '"')
    (hcomma : P ',') {labels : List (Text × Text)}
    (hlabels : ∀ label ∈ labels, IsName isLabelStart isLabelChar label.1)
    (hvalues : ∀ label ∈ labels, ∀ c ∈ escapeLabelValue label.2, P c) : ∀ c ∈ renderLabels labels,
      P c := by
  -- a label is its name, an equals sign and the value in quotes
  have hlabel : ∀ label ∈ labels, ∀ c ∈ renderLabel label, P c := by
    intro label hmem c hc
    unfold renderLabel at hc
    simp only [List.mem_append, List.mem_cons, List.not_mem_nil, or_false] at hc
    rcases hc with (hc | rfl | rfl | hc) | rfl
    · exact hname c ((hlabels label hmem).forall_mem (fun _ => isLabelChar_of_isLabelStart) c hc)
    · exact heq
    · exact hquote
    · exact hvalues label hmem c hc
    · exact hquote
  -- the labels are joined with commas
  clear hlabels hvalues
  induction labels with
  | nil => exact fun c hc => absurd hc List.not_mem_nil
  | cons label labels ih =>
    obtain ⟨hfirst, hrest⟩ := List.forall_mem_cons.mp hlabel
    cases labels with
    | nil => exact hfirst
    | cons next labels =>
      intro c hc
      rcases List.mem_append.mp hc with hc | hc
      · exact hfirst c hc
      rcases List.mem_cons.mp hc with rfl | hc
      · exact hcomma
      · exact ih hrest c hc

namespace SampleLine

variable {s : SampleLine}

/-- The label values hold no closing brace, and no line boundary that is not escaped. -/
def PlainLabels (s : SampleLine) : Prop :=
  ∀ label ∈ s.sample.labels.items, ∀ c ∈ label.2, c ≠ '}' ∧ (isLineBoundary c = true → c = '\n')

theorem forall_mem_labels (h : s.PlainLabels) :
    ∀ c ∈ renderLabels s.sample.labels.items, c ≠ '}' ∧ isLineBoundary c = false := by
  apply forall_mem_renderLabels
  · intro c hc
    have hname := isNameChar_of_isLabelChar hc
    exact ⟨ne_of_isNameChar hname rfl, isLineBoundary_of_not_isSpace (isSpace_of_isNameChar hname)⟩
  · decide
  · decide
  · decide
  · exact s.labels_valid
  · intro label hlabel
    apply forall_mem_escape (P := fun c => c ≠ '}' ∧ isLineBoundary c = false) (by decide)
      (by decide) (by decide)
    intro c hc hfeed
    obtain ⟨hbrace, hboundary⟩ := h label hlabel c hc
    exact ⟨hbrace, Bool.eq_false_iff.mpr fun hb => hfeed (hboundary hb)⟩

/-- The braces of a line: what their group captures. -/
def raw (s : SampleLine) : Option Text :=
  if s.sample.labels.items = [] then none else some (renderLabels s.sample.labels.items)

theorem prefers_braces (h : s.PlainLabels) (rest : Text) :
    Prefers bracesRe (s.braces ++ ' ' :: rest) s.raw (' ' :: rest) := by
  unfold braces raw
  split
  · exact prefers_opt_none (bind_eq_nil (one_eq_nil fun c hc => by cases Option.some.inj hc; rfl))
  · have hraw : Prefers (many fun c => decide (c ≠ '}'))
      (renderLabels s.sample.labels.items ++ '}' :: ' ' :: rest)
        (renderLabels s.sample.labels.items) ('}' :: ' ' :: rest) := by
      apply prefers_many
      · exact fun c hc => decide_eq_true (forall_mem_labels h c hc).1
      · intro c hc
        cases Option.some.inj hc
        rfl
    have htext : '{' :: (renderLabels s.sample.labels.items ++ ['}']) ++ ' ' :: rest
        = '{' :: (renderLabels s.sample.labels.items ++ '}' :: ' ' :: rest) := by simp
    rw [htext]
    refine Prefers.opt (Prefers.bind (prefers_one (p := fun c => decide (c = '{')) rfl _)
      (Prefers.bind hraw ?_))
    exact Prefers.bind (prefers_one (p := fun c => decide (c = '}')) rfl _) (prefers_succeed _ _)

/-- The first character of a decimal. -/
theorem head?_render {d : Decimal} (h : d.WellFormed) (rest : Text) :
    ∀ c ∈ (d.render ++ rest).head?, isSpace c = false := by
  unfold Decimal.render
  rw [List.append_assoc]
  cases hsign : d.sign with
  | some c =>
    intro c' hc'
    cases Option.some.inj hc'
    have hc := h.sign c (Option.mem_def.mpr hsign)
    unfold isSign at hc
    rcases Bool.or_eq_true_iff.mp hc with hc | hc <;> rw [of_decide_eq_true hc] <;> decide
  | none =>
    cases hint : d.int with
    | nil => exact absurd hint h.int.1
    | cons c cs =>
      intro c' hc'
      cases Option.some.inj hc'
      exact isSpace_of_isNameChar (isNameChar_of_isDigit (h.int.2 c (hint ▸ List.mem_cons_self)))

theorem atBlank_renderTimestamp : AtBlank s.renderTimestamp := by
  unfold renderTimestamp
  cases s.timestamp with
  | none => exact .inl rfl
  | some timestamp => exact .inr ⟨_, rfl⟩

theorem isSpace_blank : ∀ c ∈ [' '], isSpace c = true := by
  intro c hc
  rw [List.mem_singleton.mp hc]
  rfl

/-- **A plain line is matched** by its three groups. -/
theorem prefers_sample (h : s.Plain) :
    Prefers sampleRe s.render (s.sample.name, s.raw, .number s.text) [] := by
  have hblank : Prefers (many1 isSpace) (' ' :: (s.text.render ++ s.renderTimestamp)) [' ']
    (s.text.render ++ s.renderTimestamp) :=
    prefers_many1 isSpace_blank (head?_render s.text_valid _)
  -- no time, or a blank and its digits; a sign would not match
  have htime : ∃ digits, Prefers timestampRe s.renderTimestamp digits [] := by
    unfold renderTimestamp
    cases htimestamp : s.timestamp with
    | none => exact ⟨none, prefers_opt_none rfl⟩
    | some timestamp =>
      have hpositive : timestamp.1 = false := h.2 timestamp (Option.mem_def.mpr htimestamp)
      have hdigits := s.timestamp_valid timestamp (Option.mem_def.mpr htimestamp)
      have hfirst : ∀ c ∈ timestamp.2.head?, isSpace c = false := by
        intro c hc
        exact isSpace_of_isNameChar (isNameChar_of_isDigit (hdigits.2 c (List.mem_of_mem_head? hc)))
      have hspace : Prefers (many1 isSpace) (' ' :: timestamp.2) [' '] timestamp.2 :=
        prefers_many1 isSpace_blank hfirst
      have hall : Prefers (many1 isDecimal) timestamp.2 timestamp.2 [] := by
        have hend : Prefers (many1 isDecimal) (timestamp.2 ++ []) timestamp.2 [] :=
          prefers_digits hdigits fun c hc => by cases hc
        rw [List.append_nil] at hend
        exact hend
      refine ⟨some timestamp.2, ?_⟩
      rw [Option.elim_some, hpositive]
      exact Prefers.opt (Prefers.bind hspace hall)
  obtain ⟨digits, htime⟩ := htime
  -- the name ends where the braces or the blank begin
  have hname : ∀ c ∈ (s.braces ++ ' ' :: (s.text.render ++ s.renderTimestamp)).head?,
    isNameChar c = false := by
    unfold braces
    split
    · intro c hc
      cases Option.some.inj hc
      rfl
    · intro c hc
      cases Option.some.inj hc
      rfl
  -- name, braces, blank, value, time and end of line, in the order of the expression
  refine Prefers.bind (prefers_name s.name_valid hname)
    (Prefers.bind (prefers_braces h.1 _) (Prefers.bind hblank ?_))
  refine Prefers.bind (prefers_value s.text_valid atBlank_renderTimestamp) (Prefers.bind htime ?_)
  exact Prefers.bind prefers_atEnd (prefers_succeed _ _)

/-- A line ends with a digit. -/
theorem exists_render_eq (s : SampleLine) : ∃ before digits, s.render = before ++ digits
    ∧ IsDigits digits := by
  have htext : ∃ before digits, s.text.render = before ++ digits ∧ IsDigits digits := by
    unfold Decimal.render
    cases hexp : s.text.exp with
    | some exp =>
      refine ⟨s.text.sign.toList ++ (s.text.int ++ ((s.text.frac.elim [] fun digits => '.' :: digits)
        ++ 'e' :: exp.1.toList)), exp.2, by simp, (s.text_valid.exp exp (Option.mem_def.mpr hexp)).2⟩
    | none =>
      cases hfrac : s.text.frac with
      | some digits =>
        exact ⟨s.text.sign.toList ++ (s.text.int ++ ['.']), digits, by
          simp, s.text_valid.frac digits (Option.mem_def.mpr hfrac)⟩
      | none => exact ⟨s.text.sign.toList, s.text.int, by simp, s.text_valid.int⟩
  obtain ⟨before, digits, heq, hdigits⟩ := htext
  unfold render renderTimestamp
  cases htimestamp : s.timestamp with
  | none => exact ⟨s.sample.name ++ (s.braces ++ ' ' :: before), digits, by simp [heq], hdigits⟩
  | some timestamp =>
    refine ⟨s.sample.name ++ (s.braces ++ ' ' :: (s.text.render ++ ' ' :: if timestamp.1 then ['-']
      else [])), timestamp.2,
      by simp, s.timestamp_valid timestamp (Option.mem_def.mpr htimestamp)⟩

theorem strip_render (s : SampleLine) : strip s.render = s.render := by
  apply strip_eq_self
  · unfold render
    cases hname : s.sample.name with
    | nil => exact absurd s.name_valid (by rw [hname]; exact id)
    | cons c cs =>
      intro c' hc'
      cases Option.some.inj hc'
      have hvalid := s.name_valid
      rw [hname] at hvalid
      exact isSpace_of_isNameChar (isNameChar_of_isNameStart hvalid.1)
  · obtain ⟨before, digits, heq, hdigits⟩ := s.exists_render_eq
    intro c hc
    rw [heq, List.getLast?_append_of_ne_nil _ hdigits.1] at hc
    exact isSpace_of_isNameChar (isNameChar_of_isDigit (hdigits.2 c (List.mem_of_getLast? hc)))

/-- A line is neither empty nor a comment. -/
theorem not_skipped (s : SampleLine) : ¬ (s.render = [] ∨ s.render.head? = some '#') := by
  unfold render
  cases hname : s.sample.name with
  | nil => exact absurd s.name_valid (by rw [hname]; exact id)
  | cons c cs =>
    have hvalid := s.name_valid
    rw [hname] at hvalid
    rintro (h | h)
    · cases h
    · exact ne_of_isNameChar (isNameChar_of_isNameStart hvalid.1) rfl (Option.some.inj h)

/-- **A plain line is parsed.** -/
theorem parseLine_of_plain (h : s.Plain) : parseLine s.render = some s.sample := by
  have hlabels : parseLabels (s.raw.getD []) = s.sample.labels := by
    unfold raw
    split
    · next hnil =>
      have hround := parseLabels_renderLabels s.sample.labels s.labels_valid
      rw [hnil] at hround
      exact hround
    · exact parseLabels_renderLabels s.sample.labels s.labels_valid
  have hfloat : parseFloat (.number s.text) = some s.sample.value := by
    rw [parseFloat, s.text_value]
    rfl
  unfold parseLine
  rw [s.strip_render]
  simp only [if_neg s.not_skipped, (prefers_sample h).first?, hfloat, Option.map_some, hlabels]

theorem forall_mem_digits {text : Text} (h : IsDigits text) : ∀ c ∈ text, isSpace c = false :=
  fun c hc =>
  isSpace_of_isNameChar (isNameChar_of_isDigit (h.2 c hc))

theorem forall_mem_sign {sign : Option Char} (h : ∀ c ∈ sign, isSign c = true) :
    ∀ c ∈ sign.toList, isSpace c = false := by
  intro c hc
  rcases Bool.or_eq_true_iff.mp (h c (Option.mem_toList.mp hc)) with hc | hc
    <;> rw [of_decide_eq_true hc] <;> decide

theorem forall_mem_decimal {d : Decimal} (h : d.WellFormed) : ∀ c ∈ d.render, isSpace c = false := by
  intro c hc
  unfold Decimal.render at hc
  simp only [List.mem_append] at hc
  -- sign, integer digits, fraction, exponent
  rcases hc with hc | hc | hc | hc
  · exact forall_mem_sign h.sign c hc
  · exact forall_mem_digits h.int c hc
  · cases hfrac : d.frac with
    | none =>
      rw [hfrac] at hc
      exact absurd hc List.not_mem_nil
    | some digits =>
      rw [hfrac, Option.elim_some] at hc
      rcases List.mem_cons.mp hc with rfl | hc
      · decide
      · exact forall_mem_digits (h.frac digits (Option.mem_def.mpr hfrac)) c hc
  · cases hexp : d.exp with
    | none =>
      rw [hexp] at hc
      exact absurd hc List.not_mem_nil
    | some exp =>
      obtain ⟨hsign, hdigits⟩ := h.exp exp (Option.mem_def.mpr hexp)
      rw [hexp, Option.elim_some] at hc
      rcases List.mem_cons.mp hc with rfl | hc
      · decide
      rcases List.mem_append.mp hc with hc | hc
      · exact forall_mem_sign hsign c hc
      · exact forall_mem_digits hdigits c hc

/-- A line with plain labels is one line. -/
theorem forall_mem_render (h : s.PlainLabels) : ∀ c ∈ s.render, isLineBoundary c = false := by
  intro c hc
  unfold render at hc
  simp only [List.mem_append, List.mem_cons] at hc
  -- name, braces, blank, value, time: none of them holds a line boundary
  rcases hc with hc | hc | rfl | hc | hc
  · have hname := s.name_valid.forall_mem (fun _ => isNameChar_of_isNameStart) c hc
    exact isLineBoundary_of_not_isSpace (isSpace_of_isNameChar hname)
  · unfold braces at hc
    split at hc
    · exact absurd hc List.not_mem_nil
    · simp only [List.mem_cons, List.mem_append, List.not_mem_nil, or_false] at hc
      rcases hc with rfl | hc | rfl
      · decide
      · exact (forall_mem_labels h c hc).2
      · decide
  · decide
  · exact isLineBoundary_of_not_isSpace (forall_mem_decimal s.text_valid c hc)
  · unfold renderTimestamp at hc
    cases htimestamp : s.timestamp with
    | none =>
      rw [htimestamp] at hc
      exact absurd hc List.not_mem_nil
    | some timestamp =>
      rw [htimestamp, Option.elim_some] at hc
      rcases List.mem_cons.mp hc with rfl | hc
      · decide
      rcases List.mem_append.mp hc with hc | hc
      · split at hc
        · rw [List.mem_singleton.mp hc]
          decide
        · exact absurd hc List.not_mem_nil
      · have hdigits := s.timestamp_valid timestamp (Option.mem_def.mpr htimestamp)
        exact isLineBoundary_of_not_isSpace (forall_mem_digits hdigits c hc)

end SampleLine

end Sketchlog.Agent
