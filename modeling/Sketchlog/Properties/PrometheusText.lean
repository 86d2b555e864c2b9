import Sketchlog.Refine.PrometheusLines

/-!
# The text format, rendered and parsed

The parser gives back the samples of a scrape, in order, exactly when no label value holds a closing
brace or a line boundary other than the line feed, and no timestamp is negative
(`renderLines_round_trip_iff`): the class `[^}]*` ends the labels at the first closing brace,
`splitlines` cuts the line at every boundary of Unicode, and the timestamp is `\d+`.
-/

namespace Sketchlog.Agent

open Backtrack Otel

/-! ## What the parser can give back

The other direction: of whatever text, the samples that come out of the parser are plain ones. -/

/-- What follows the value of a sample. -/
def IsTail (tail : Text) : Prop :=
  tail = [] ∨ ∃ blank digits, tail = blank ++ digits ∧ blank ≠ [] ∧ (∀ c ∈ blank, isSpace c = true)
    ∧ ∀ c ∈ digits, isDecimal c = true

/-- Every way to match a sample, taken apart. -/
theorem mem_sampleRe {line rest name : Text} {raw : Option Text} {value : ValueText}
    (h : ((name, raw, value), rest) ∈ sampleRe line) :
    ∃ braces blank text tail, line = name ++ (braces ++ (blank ++ text))
      ∧ (∀ c ∈ name, isNameChar c = true)
      ∧ (raw = none ∧ braces = [] ∨ ∃ inner, raw = some inner ∧ braces = '{' :: (inner ++ ['}'])
        ∧ ∀ c ∈ inner, c ≠ '}')
      ∧ blank ≠ [] ∧ (∀ c ∈ blank, isSpace c = true) ∧ (value, tail) ∈ valueRe text ∧ IsTail tail := by
  -- the expression is a sequence, taken apart from the left
  obtain ⟨name', r₁, hname, h⟩ := mem_bind.mp h
  obtain ⟨raw', r₂, hbraces, h⟩ := mem_bind.mp h
  obtain ⟨blank, r₃, hblank, h⟩ := mem_bind.mp h
  obtain ⟨value', r₄, hvalue, h⟩ := mem_bind.mp h
  obtain ⟨timestamp, r₅, htimestamp, h⟩ := mem_bind.mp h
  obtain ⟨u, r₆, hend, h⟩ := mem_bind.mp h
  obtain ⟨heq, rfl⟩ := mem_succeed.mp h
  cases heq
  obtain ⟨rfl, rfl⟩ := mem_atEnd.mp hend
  obtain ⟨rfl, hne, hspace⟩ := mem_many1 hblank
  have hname' : line = name ++ r₁ ∧ ∀ c ∈ name, isNameChar c = true := by
    obtain ⟨c, r, hc, hname⟩ := mem_bind.mp hname
    obtain ⟨cs, r', hcs, hname⟩ := mem_bind.mp hname
    obtain ⟨rfl, rfl⟩ := mem_succeed.mp hname
    obtain ⟨rfl, hstart⟩ := mem_one.mp hc
    obtain ⟨rfl, hall⟩ := mem_many hcs
    exact ⟨rfl, List.forall_mem_cons.mpr ⟨isNameChar_of_isNameStart hstart, hall⟩⟩
  -- what follows the value is blank and digits, or nothing
  have htail : IsTail r₄ := by
    rcases mem_opt.mp htimestamp with ⟨digits, rfl, hdigits⟩ | ⟨rfl, rfl⟩
    · obtain ⟨blank', r, hblank', hmany⟩ := mem_bind.mp hdigits
      obtain ⟨rfl, hne', hspace'⟩ := mem_many1 hblank'
      obtain ⟨rfl, -, hall⟩ := mem_many1 hmany
      exact .inr ⟨blank', digits, by rw [List.append_nil], hne', hspace', hall⟩
    · exact .inl rfl
  -- with braces the text between them has no closing one
  rcases mem_opt.mp hbraces with ⟨inner, rfl, hinner⟩ | ⟨rfl, rfl⟩
  · obtain ⟨c, r, hc, hinner⟩ := mem_bind.mp hinner
    obtain ⟨inner', r', hmany, hinner⟩ := mem_bind.mp hinner
    obtain ⟨c', r'', hc', hinner⟩ := mem_bind.mp hinner
    obtain ⟨rfl, rfl⟩ := mem_succeed.mp hinner
    obtain ⟨rfl, hopen⟩ := mem_one.mp hc
    obtain ⟨rfl, hall⟩ := mem_many hmany
    obtain ⟨rfl, hclose⟩ := mem_one.mp hc'
    refine ⟨'{' :: (inner ++ ['}']), blank, r₃, r₄, ?_, hname'.2, .inr ⟨inner, rfl, rfl, ?_⟩, hne,
      hspace, hvalue, htail⟩
    · rw [hname'.1, of_decide_eq_true hopen, of_decide_eq_true hclose]
      simp
    · exact fun c hc => of_decide_eq_true (hall c hc)
  · exact ⟨[], blank, r₃, r₄, hname'.1, hname'.2, .inl ⟨rfl, rfl⟩, hne, hspace, hvalue, htail⟩

/-- A value has no blank in it. -/
theorem takes_valueRe : Takes (· ≠ ' ') valueRe := by
  have hsign : Takes (· ≠ ' ') (opt (one isSign)) :=
    (takes_one fun c hc h => by rw [h] at hc; cases hc).opt
  have hdigits : Takes (· ≠ ' ') (many1 isDecimal) :=
    takes_many1 fun c hc h => by rw [h] at hc; exact absurd hc (by decide)
  have hdot : Takes (· ≠ ' ') (one fun c => decide (c = '.')) :=
    takes_one fun c hc h => by rw [h] at hc; cases hc
  have hexp : Takes (· ≠ ' ') (one fun c => c = 'e' || c = 'E') :=
    takes_one fun c hc h => by rw [h] at hc; cases hc
  have hnumber : Takes (· ≠ ' ') numberRe := by
    refine hsign.bind fun _ => hdigits.bind fun _ => ?_
    refine (hdot.bind fun _ => hdigits).opt.bind fun _ => ?_
    exact (hexp.bind fun _ => hsign.bind fun _ => hdigits.bind fun _ => takes_succeed _).opt.bind
      fun _ => takes_succeed _
  have hinfinity : ∀ c ∈ ['I', 'n', 'f'], c ≠ ' ' := by simp
  have hnumeral : ∀ c ∈ ['N', 'a', 'N'], c ≠ ' ' := by simp
  have hinf : Takes (· ≠ ' ') infRe := hsign.bind fun _ => (takes_literal hinfinity).bind fun _ =>
    takes_succeed _
  have hnan : Takes (· ≠ ' ') nanRe := (takes_literal hnumeral).bind fun _ => takes_succeed _
  exact hnumber.alt (hinf.alt hnan)

/-- A run of one class ends where the class does. -/
theorem append_eq_append_of_span {p : Char → Bool} {xs ys r r' : Text} (hxs : ∀ c ∈ xs, p c = true)
    (hys : ∀ c ∈ ys, p c = true) (hr : ∀ c ∈ r.head?, p c = false) (hr' : ∀ c ∈ r'.head?, p c = false)
    (h : xs ++ r = ys ++ r') : xs = ys ∧ r = r' := by
  induction xs generalizing ys with
  | nil =>
    cases ys with
    | nil => exact ⟨rfl, h⟩
    | cons y ys =>
      rw [List.nil_append] at h
      subst h
      exact absurd (hys y List.mem_cons_self) (by rw [hr y rfl]; exact Bool.false_ne_true)
  | cons x xs ih =>
    cases ys with
    | nil =>
      rw [List.nil_append] at h
      subst h
      exact absurd (hxs x List.mem_cons_self) (by rw [hr' x rfl]; exact Bool.false_ne_true)
    | cons y ys =>
      obtain ⟨rfl, hrest⟩ := List.cons.inj h
      obtain ⟨rfl, rfl⟩ := ih (List.forall_mem_cons.mp hxs).2 (List.forall_mem_cons.mp hys).2 hrest
      exact ⟨rfl, rfl⟩

/-- What the labels of a sample are found in holds no closing brace, and a sample is read from one
line. -/
theorem exists_of_parseLine {line : Text} {sample : PrometheusSample}
    (h : parseLine line = some sample) :
    ∃ raw, sample.labels = parseLabels raw ∧ ∀ c ∈ raw, c ≠ '}' ∧ c ∈ line := by
  unfold parseLine at h
  simp only at h
  split at h
  · cases h
  split at h
  · cases h
  next name raw value hfirst =>
    obtain ⟨value', -, rfl⟩ := Option.map_eq_some_iff.mp h
    obtain ⟨rest, hmem⟩ := exists_of_first? hfirst
    obtain ⟨braces, blank, text, tail, hline, -, hraw, -⟩ := mem_sampleRe hmem
    refine ⟨raw.getD [], rfl, ?_⟩
    rcases hraw with ⟨rfl, -⟩ | ⟨inner, rfl, rfl, hinner⟩
    · exact fun c hc => absurd hc List.not_mem_nil
    · intro c hc
      refine ⟨hinner c hc, mem_of_mem_strip ?_⟩
      have hc' : c ∈ inner := hc
      rw [hline]
      simp [hc']

/-- The pieces of a label value, one after another, are what they match. -/
theorem mem_pieces {n : ℕ} {s r : Text} {pieces : List Text} (h : (pieces, r) ∈ star pieceRe n s) :
    s = pieces.flatten ++ r := by
  -- a piece is an escaped pair or a bare character
  have hpiece : ∀ {s r piece : Text}, (piece, r) ∈ pieceRe s → s = piece ++ r := by
    intro s r piece h
    rcases mem_alt.mp h with h | h
    · obtain ⟨b, r₁, hb, h⟩ := mem_bind.mp h
      obtain ⟨c, r₂, hc, h⟩ := mem_bind.mp h
      obtain ⟨rfl, rfl⟩ := mem_succeed.mp h
      rw [(mem_one.mp hb).1, (mem_one.mp hc).1]
      rfl
    · obtain ⟨c, r₁, hc, h⟩ := mem_bind.mp h
      obtain ⟨rfl, rfl⟩ := mem_succeed.mp h
      rw [(mem_one.mp hc).1]
      rfl
  induction n generalizing s pieces with
  | zero =>
    obtain ⟨rfl, rfl⟩ := mem_succeed.mp h
    rfl
  | succ n ih =>
    rcases mem_alt.mp h with h | h
    · obtain ⟨piece, r₁, hfirst, h⟩ := mem_bind.mp h
      obtain ⟨pieces', r₂, hrest, h⟩ := mem_bind.mp h
      obtain ⟨rfl, rfl⟩ := mem_succeed.mp h
      rw [hpiece hfirst, ih hrest, List.flatten_cons, List.append_assoc]
    · obtain ⟨rfl, rfl⟩ := mem_succeed.mp h
      rfl

theorem mem_bodyRe {s r body : Text} (h : (body, r) ∈ bodyRe s) : s = body ++ r := by
  obtain ⟨pieces, r', hpieces, h⟩ := mem_bind.mp h
  obtain ⟨rfl, rfl⟩ := mem_succeed.mp h
  exact mem_pieces hpieces

theorem takes_labelRe : Takes (fun _ => True) labelRe := by
  have hname : Takes (fun _ => True) (nameRe isLabelStart isLabelChar) :=
    (takes_one fun _ _ => trivial).bind fun _ => (takes_many fun _ _ => trivial).bind fun _ =>
      takes_succeed _
  have hbody : Takes (fun _ => True) bodyRe :=
    fun s body r h => ⟨body, mem_bodyRe h, fun _ _ => trivial⟩
  refine hname.bind fun _ => (takes_literal fun _ _ => trivial).bind fun _ => hbody.bind fun _ => ?_
  exact (takes_one fun _ _ => trivial).bind fun _ => takes_succeed _

/-- A label value that is found is part of the text. -/
theorem mem_of_mem_findAll {n : ℕ} {raw : Text} {label : Text × Text}
    (h : label ∈ findAll labelRe n raw) :
    ∀ c ∈ label.2, c ∈ raw := by
  obtain ⟨s, r, hsuffix, hlabel⟩ := exists_of_mem_findAll takes_labelRe h
  obtain ⟨name, r₁, hname, hlabel⟩ := mem_bind.mp hlabel
  obtain ⟨u, r₂, heq, hlabel⟩ := mem_bind.mp hlabel
  obtain ⟨body, r₃, hbody, hlabel⟩ := mem_bind.mp hlabel
  obtain ⟨c', r₄, hquote, hlabel⟩ := mem_bind.mp hlabel
  obtain ⟨rfl, rfl⟩ := mem_succeed.mp hlabel
  have htakes : Takes (fun _ => True) (nameRe isLabelStart isLabelChar) :=
    (takes_one fun _ _ => trivial).bind fun _ => (takes_many fun _ _ => trivial).bind fun _ =>
      takes_succeed _
  obtain ⟨v, rfl, -⟩ := htakes _ _ _ hname
  intro c hc
  apply hsuffix.subset
  rw [mem_literal heq, mem_bodyRe hbody]
  simp [show c ∈ body from hc]

/-- Unescaping makes no character but the line feed. -/
theorem mem_unescape {c : Char} {body : Text} (h : c ∈ unescapeLabelValue body) :
    c ∈ body ∨ c = '\n' := by
  fun_induction unescapeLabelValue body with
  | case1 c' rest ih =>
    rcases List.mem_append.mp h with h | h
    · split at h
      · exact .inr (List.mem_singleton.mp h)
      split at h
      · exact .inl (List.mem_cons_of_mem _ (List.mem_singleton.mp h ▸ List.mem_cons_self))
      · rcases List.mem_cons.mp h with rfl | h
        · exact .inl List.mem_cons_self
        · exact .inl (List.mem_cons_of_mem _ (List.mem_singleton.mp h ▸ List.mem_cons_self))
    · exact (ih h).imp_left fun h => List.mem_cons_of_mem _ (List.mem_cons_of_mem _ h)
  | case2 c' rest hnot ih =>
    rcases List.mem_cons.mp h with rfl | h
    · exact .inl List.mem_cons_self
    · exact (ih h).imp_left fun h => List.mem_cons_of_mem _ h
  | case3 => exact absurd h List.not_mem_nil

/-- Every value of the labels comes from a match. -/
theorem exists_of_mem_parseLabels {raw : Text} {label : Text × Text}
    (h : label ∈ (parseLabels raw).items) :
    ∃ m ∈ findAll labelRe (raw.length + 1) raw, label.2 = unescapeLabelValue m.2 := by
  unfold parseLabels at h
  generalize findAll labelRe (raw.length + 1) raw = ms at h ⊢
  have hstep : ∀ (ms : List (Text × Text)) (d : Dict Text Text), label ∈ (ms.foldl
      (fun labels m => labels.set m.1 (unescapeLabelValue m.2)) d).items →
        label ∈ d.items ∨ ∃ m ∈ ms, label.2 = unescapeLabelValue m.2 := by
    intro ms
    induction ms with
    | nil => exact fun d h => .inl h
    | cons m ms ih =>
      intro d h
      rcases ih _ h with h | ⟨m', hm', heq⟩
      · have hget := Dict.get?_eq_some_iff.mpr h
        rw [Dict.get?_set] at hget
        split at hget
        · exact .inr ⟨m, List.mem_cons_self, (Option.some.inj hget).symm⟩
        · exact .inl (Dict.get?_eq_some_iff.mp hget)
      · exact .inr ⟨m', List.mem_cons_of_mem _ hm', heq⟩
  rcases hstep ms ∅ h with h | h
  · exact absurd h List.not_mem_nil
  · exact h

/-- **What the parser can give back**: no closing brace, and no line boundary but the line feed. -/
theorem plain_of_mem_parse {text : Text} {sample : PrometheusSample}
    (h : sample ∈ parsePrometheusText text) :
    ∀ label ∈ sample.labels.items, ∀ c ∈ label.2, c ≠ '}' ∧ (isLineBoundary c = true → c = '\n') := by
  obtain ⟨line, hline, hparse⟩ := List.mem_filterMap.mp h
  obtain ⟨raw, hlabels, hraw⟩ := exists_of_parseLine hparse
  intro label hlabel c hc
  rw [hlabels] at hlabel
  obtain ⟨m, hm, heq⟩ := exists_of_mem_parseLabels hlabel
  rw [heq] at hc
  rcases mem_unescape hc with hc | rfl
  · obtain ⟨hbrace, hmem⟩ := hraw c (mem_of_mem_findAll hm c hc)
    refine ⟨hbrace, fun hboundary => ?_⟩
    rw [splitlines_boundary hline c hmem] at hboundary
    cases hboundary
  · exact ⟨by decide, fun _ => rfl⟩

/-! ## A negative timestamp

The expression for the time has no sign, so such a line is not matched. -/

/-- A match of a line starts as the line does. -/
theorem SampleLine.exists_of_mem {s : SampleLine} (h : s.PlainLabels) {name rest : Text}
    {raw : Option Text} {value : ValueText}
    (hmem : ((name, raw, value), rest) ∈ sampleRe s.render) :
    ∃ tail, (value, tail) ∈ valueRe (s.text.render ++ s.renderTimestamp) ∧ IsTail tail := by
  obtain ⟨braces, blank, text, tail, hline, hname, hbraces, hne, hblank, hvalue, htail⟩ :=
    mem_sampleRe hmem
  obtain ⟨b, bs, rfl⟩ := List.exists_cons_of_ne_nil hne
  have hb : isSpace b = true := hblank b List.mem_cons_self
  have hstop : ∀ c ∈ (braces ++ (b :: bs ++ text)).head?, isNameChar c = false := by
    rcases hbraces with ⟨-, rfl⟩ | ⟨inner, -, rfl, -⟩
    · intro c hc
      cases Option.some.inj hc
      refine Bool.eq_false_iff.mpr fun hchar => ?_
      rw [isSpace_of_isNameChar hchar] at hb
      cases hb
    · intro c hc
      cases Option.some.inj hc
      rfl
  have hstop' : ∀ c ∈ (s.braces ++ ' ' :: (s.text.render ++ s.renderTimestamp)).head?,
    isNameChar c = false := by
    unfold SampleLine.braces
    split
    · intro c hc
      cases Option.some.inj hc
      rfl
    · intro c hc
      cases Option.some.inj hc
      rfl
  have hsname := s.name_valid.forall_mem fun _ => isNameChar_of_isNameStart
  obtain ⟨-, hafter⟩ := append_eq_append_of_span hsname hname hstop' hstop hline
  -- the braces are the same, so a blank and then the value follow
  have hrest : ' ' :: (s.text.render ++ s.renderTimestamp) = b :: (bs ++ text) := by
    unfold SampleLine.braces at hafter
    split at hafter
    · rcases hbraces with ⟨-, rfl⟩ | ⟨inner, -, rfl, -⟩
      · exact hafter
      · exact absurd (List.cons.inj hafter).1 (by decide)
    · rcases hbraces with ⟨-, rfl⟩ | ⟨inner, -, rfl, hinner⟩
      · rw [← (List.cons.inj hafter).1] at hb
        cases hb
      · rw [List.cons_append, List.cons_append, List.append_assoc, List.append_assoc] at hafter
        have hinside := (List.cons.inj hafter).2
        have hclose : ∀ rest, ∀ c ∈ (['}'] ++ rest : Text).head?, decide (c ≠ '}') = false := by
          intro rest c hc
          cases Option.some.inj hc
          rfl
        obtain ⟨-, hclosed⟩ := append_eq_append_of_span (p := fun c => decide (c ≠ '}'))
          (fun c hc => decide_eq_true (SampleLine.forall_mem_labels h c hc).1) (fun c hc =>
            decide_eq_true (hinner c hc))
          (hclose _) (hclose _) hinside
        exact (List.cons.inj hclosed).2
  obtain ⟨-, htext⟩ := List.cons.inj hrest
  have hbs : bs = [] := by
    cases bs with
    | nil => rfl
    | cons c bs =>
      have hhead := SampleLine.head?_render s.text_valid s.renderTimestamp c (by rw [htext]; rfl)
      rw [hblank c (List.mem_cons_of_mem _ List.mem_cons_self)] at hhead
      cases hhead
  rw [hbs, List.nil_append] at htext
  exact ⟨tail, htext ▸ hvalue, htail⟩

/-- **A negative timestamp drops the sample.** -/
theorem SampleLine.parseLine_of_negative {s : SampleLine} (h : s.PlainLabels) {digits : Text}
    (htimestamp : s.timestamp = some (true, digits)) : parseLine s.render = none := by
  have hnone : first? sampleRe s.render = none := by
    rcases hfirst : first? sampleRe s.render with _ | ⟨name, raw, value⟩
    · rfl
    obtain ⟨rest, hmem⟩ := exists_of_first? hfirst
    obtain ⟨tail, hvalue, htail⟩ := SampleLine.exists_of_mem h hmem
    obtain ⟨v, hv, hblank⟩ := takes_valueRe _ _ _ hvalue
    have hrender : s.renderTimestamp = ' ' :: '-' :: digits := by
      unfold renderTimestamp
      rw [htimestamp]
      rfl
    rw [hrender] at hv
    have hminus : isSpace '-' = false := by decide
    -- the value ends at the blank: it has none, and the decimal has no white space
    have htail' : tail = ' ' :: '-' :: digits := by
      rcases List.append_eq_append_iff.mp hv with ⟨v', rfl, htail'⟩ | ⟨v', heq, rfl⟩
      · cases v' with
        | nil => exact htail'.symm
        | cons c v' =>
          have hc : ' ' = c := (List.cons.inj htail').1
          exact absurd rfl (hblank ' ' (by rw [hc]; simp))
      · cases v' with
        | nil => rfl
        | cons c v' =>
          have hc : isSpace c = false := forall_mem_decimal s.text_valid c (by rw [heq]; simp)
          rcases htail with htail | ⟨blank, digits', htail, hne, hspace, -⟩
          · cases htail
          · obtain ⟨b, bs, rfl⟩ := List.exists_cons_of_ne_nil hne
            have hcb : c = b := (List.cons.inj htail).1
            rw [hcb, hspace b List.mem_cons_self] at hc
            cases hc
    rw [htail'] at htail
    rcases htail with htail | ⟨blank, digits', htail, hne, hspace, hdecimal⟩
    · cases htail
    obtain ⟨b, bs, rfl⟩ := List.exists_cons_of_ne_nil hne
    have hrest : '-' :: digits = bs ++ digits' := (List.cons.inj htail).2
    cases bs with
    | nil =>
      have hd := hdecimal '-' (by rw [← List.nil_append digits', ← hrest]; exact List.mem_cons_self)
      exact absurd hd (by decide)
    | cons c bs =>
      have hc : '-' = c := (List.cons.inj hrest).1
      rw [hc, hspace c (List.mem_cons_of_mem _ List.mem_cons_self)] at hminus
      cases hminus
  unfold parseLine
  rw [s.strip_render]
  simp only [if_neg s.not_skipped, hnone]

/-! ## The round trip

Lines come back if and only if their labels are plain and no time is negative. -/

/-- What a line has to be, to be one line: plain labels, or a comment with no line boundary. -/
def Line.Single : Line → Prop
  | .sample s => s.PlainLabels
  | .comment text => ∀ c ∈ text, isLineBoundary c = false

theorem Line.Single.forall_mem {line : Line} (h : line.Single) :
    ∀ c ∈ line.render, isLineBoundary c = false := by
  cases line with
  | sample s => exact SampleLine.forall_mem_render h
  | comment text => exact List.forall_mem_cons.mpr ⟨by decide, h⟩

theorem splitlines_renderLines {lines : List Line} (h : ∀ line ∈ lines, line.Single) :
    splitlines (renderLines lines) = lines.map Line.render := by
  induction lines with
  | nil => rfl
  | cons line lines ih =>
    obtain ⟨hline, hrest⟩ := List.forall_mem_cons.mp h
    have htext : renderLines (line :: lines) = line.render ++ '\n' :: renderLines lines := by
      simp [renderLines]
    rw [htext, splitlines_append hline.forall_mem, ih hrest]
    rfl

theorem parse_renderLines {lines : List Line} (h : ∀ line ∈ lines, line.Single) :
    parsePrometheusText (renderLines lines) = lines.filterMap fun line => parseLine line.render := by
  unfold parsePrometheusText
  rw [splitlines_renderLines h, List.filterMap_map]
  rfl

/-- A comment is skipped: what `strip` leaves starts with its number sign. -/
theorem parseLine_comment (text : Text) : parseLine (Line.comment text).render = none := by
  have hhead : (strip ('#' :: text)).head? = some '#' := by
    have hleft : ('#' :: text).dropWhile isSpace = '#' :: text := List.dropWhile_cons_of_neg (by decide)
    obtain ⟨rest, hrest⟩ := List.rdropWhile_prefix isSpace ('#' :: text)
    unfold strip
    rw [hleft]
    cases hdrop : ('#' :: text).rdropWhile isSpace with
    | nil =>
      have hall := List.rdropWhile_eq_nil_iff.mp hdrop '#' List.mem_cons_self
      exact absurd hall (by decide)
    | cons c cs =>
      rw [hdrop, List.cons_append] at hrest
      rw [(List.cons.inj hrest).1]
      rfl
  unfold parseLine
  simp only [Line.render, hhead, or_true, if_true]

/-- A line of plain labels gives its sample, or, with a negative timestamp, nothing. -/
theorem parseLine_render {line : Line} (h : line.Single) :
    parseLine line.render = line.sample? ∨ parseLine line.render = none := by
  cases line with
  | comment text => exact .inr (parseLine_comment text)
  | sample s =>
    rcases htimestamp : s.timestamp with _ | ⟨negative, digits⟩
    · refine .inl (SampleLine.parseLine_of_plain ⟨h, fun t ht => ?_⟩)
      rw [htimestamp] at ht
      cases ht
    · cases negative with
      | true => exact .inr (SampleLine.parseLine_of_negative h htimestamp)
      | false =>
        refine .inl (SampleLine.parseLine_of_plain ⟨h, fun t ht => ?_⟩)
        rw [htimestamp] at ht
        cases Option.some.inj ht
        rfl

/-- Where one map keeps less than another and the results are the same, it keeps as much everywhere. -/
theorem eq_of_filterMap_eq {α β : Type*} {f g : α → Option β} {l : List α}
    (hle : ∀ x ∈ l, f x = g x ∨ f x = none)
    (h : l.filterMap f = l.filterMap g) : ∀ x ∈ l, f x = g x := by
  -- the shorter list is the one with more `none`
  have hlength : ∀ l : List α, (∀ x ∈ l, f x = g x ∨ f x = none) → (l.filterMap f).length
    ≤ (l.filterMap g).length := by
    intro l hle
    induction l with
    | nil => exact le_rfl
    | cons x l ih =>
      obtain ⟨hx, hl⟩ := List.forall_mem_cons.mp hle
      have := ih hl
      rw [List.filterMap_cons, List.filterMap_cons]
      rcases hx with hx | hx
      · rw [hx]
        cases g x with
        | none => exact this
        | some y => exact Nat.succ_le_succ this
      · rw [hx]
        cases g x with
        | none => exact this
        | some y => exact Nat.le_succ_of_le this
  induction l with
  | nil => exact fun x hx => absurd hx List.not_mem_nil
  | cons x l ih =>
    obtain ⟨hx, hl⟩ := List.forall_mem_cons.mp hle
    have hshorter := hlength l hl
    rw [List.filterMap_cons, List.filterMap_cons] at h
    -- if one were `none` on the left only, the lengths would differ
    have heq : f x = g x := by
      rcases hx with hx | hx
      · exact hx
      · rw [hx] at h ⊢
        cases hg : g x with
        | none => rfl
        | some y =>
          rw [hg] at h
          have hlen := congrArg List.length h
          simp only [List.length_cons] at hlen
          omega
    refine List.forall_mem_cons.mpr ⟨heq, ih hl ?_⟩
    rw [heq] at h
    split at h
    · exact h
    · exact (List.cons.inj h).2

/-- **The round trip.** The samples come back, in order, exactly when every line is plain. -/
theorem renderLines_round_trip_iff (lines : List Line)
    (hcomments : ∀ text, Line.comment text ∈ lines → ∀ c ∈ text, isLineBoundary c = false) :
    parsePrometheusText (renderLines lines) = lines.filterMap Line.sample?
      ↔ ∀ s, Line.sample s ∈ lines → s.Plain := by
  constructor
  · intro h
    -- whatever is parsed has labels that survive, so each line renders to one line
    have hlabels : ∀ s, Line.sample s ∈ lines → s.PlainLabels := by
      intro s hs
      refine plain_of_mem_parse (?_ : _ ∈ parsePrometheusText (renderLines lines))
      rw [h]
      exact List.mem_filterMap.mpr ⟨_, hs, rfl⟩
    have hsingle : ∀ line ∈ lines, line.Single := by
      intro line hline
      cases line with
      | sample s => exact hlabels s hline
      | comment text => exact hcomments text hline
    rw [parse_renderLines hsingle] at h
    intro s hs
    have hparsed := eq_of_filterMap_eq (fun line hline => parseLine_render (hsingle line hline)) h _ hs
    refine ⟨hlabels s hs, ?_⟩
    rintro ⟨negative, digits⟩ htimestamp
    -- a negative time is not matched, and the line would be missing from the parse
    cases negative with
    | false => rfl
    | true =>
      have hnone : parseLine s.render = none :=
        SampleLine.parseLine_of_negative (hlabels s hs) htimestamp
      have hsome : parseLine s.render = some s.sample := hparsed
      rw [hnone] at hsome
      cases hsome
  · intro h
    have hsingle : ∀ line ∈ lines, line.Single := by
      intro line hline
      cases line with
      | sample s => exact (h s hline).1
      | comment text => exact hcomments text hline
    rw [parse_renderLines hsingle]
    apply List.filterMap_congr
    intro line hline
    cases line with
    | sample s => exact SampleLine.parseLine_of_plain (h s hline)
    | comment text => exact parseLine_comment text

/-- The decimal `5`. -/
def five : Decimal := ⟨none, ['5'], none, none⟩

theorem isDigits_five : IsDigits ['5'] := by
  refine ⟨List.cons_ne_nil _ _, fun c hc => ?_⟩
  rw [List.mem_singleton.mp hc]
  rfl

theorem value_five : five.value = ((5 : ℤ) : ℚ) := by
  have hdigits : digitsValue (['5'] ++ []) = 5 := by decide
  have hsign : signValue none = 1 := rfl
  unfold Decimal.value five
  simp only [Option.getD_none, Option.map_none, hdigits, hsign]
  norm_num

theorem isName_m : IsName isNameStart isNameChar ['m'] := ⟨rfl, fun _ hc => absurd hc List.not_mem_nil⟩

theorem no_timestamp : ∀ timestamp ∈ (none : Option (Bool × Text)), IsDigits timestamp.2 :=
  fun _ h => by cases h

/-- `m{a="…"} 5`, with the value of its only label. -/
def labelled (value : Text) : SampleLine where
  sample := ⟨['m'], (∅ : Dict Text Text).set ['a'] value, .ofInt 5 Binary64.abs_five_lt⟩
  text := five
  timestamp := none
  name_valid := isName_m
  labels_valid := by
    intro label hlabel
    rw [List.mem_singleton.mp hlabel]
    exact ⟨rfl, fun _ hc => absurd hc List.not_mem_nil⟩
  text_valid := ⟨fun _ h => (nomatch h), isDigits_five, fun _ h => (nomatch h), fun _ h => (nomatch h)⟩
  text_value := by rw [value_five, Float64.ofRat_intCast 5 (by decide)]
  timestamp_valid := no_timestamp

theorem mem_labels_labelled {value : Text} {label : Text × Text}
    (h : label ∈ (labelled value).sample.labels.items) :
    label = (['a'], value) := List.mem_singleton.mp h

theorem plain_labelled (value : Text)
    (h : ∀ c ∈ value, c ≠ '}' ∧ (isLineBoundary c = true → c = '\n')) :
    (labelled value).Plain := by
  refine ⟨?_, fun _ ht => by cases ht⟩
  intro label hlabel
  rw [mem_labels_labelled hlabel]
  exact h

/-- Quotes and backslashes come back. -/
theorem round_trip_quoted :
    parsePrometheusText (renderLines [.comment ['!'], .sample (labelled ['"', '\\'])])
      = [(labelled ['"', '\\']).sample] := by
  refine (renderLines_round_trip_iff [.comment ['!'], .sample (labelled ['"', '\\'])] ?_).mpr ?_
  · intro text htext c hc
    have heq : text = ['!'] := by simpa using htext
    rw [heq, List.mem_singleton] at hc
    rw [hc]
    decide
  · intro s hs
    have heq : s = labelled ['"', '\\'] := by simpa using hs
    rw [heq]
    apply plain_labelled
    simp [isLineBoundary]

/-- **A closing brace drops the sample.** -/
theorem closing_brace_dropped :
    parsePrometheusText (renderLines [.sample (labelled ['x', '}', 'y'])])
      ≠ [Line.sample (labelled ['x', '}', 'y'])].filterMap Line.sample? := by
  intro h
  have hmem : (labelled ['x', '}', 'y']).sample ∈ parsePrometheusText
    (renderLines [.sample (labelled ['x', '}', 'y'])]) := by
    rw [h]
    exact List.mem_singleton.mpr rfl
  have hplain := plain_of_mem_parse hmem (['a'], ['x', '}', 'y']) (List.mem_singleton.mpr rfl) '}'
    (by simp)
  exact hplain.1 rfl

end Sketchlog.Agent
