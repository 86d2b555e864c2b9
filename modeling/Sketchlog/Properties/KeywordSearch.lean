import Sketchlog.Refine.SqlKeywords

/-!
# What the keyword search finds

`_find_keyword` goes through the text by index, and looks the keyword up under the same index in the
text in capitals. That is one text as long as every character has one capital: behind `ß` the two
are one index apart.

* `find_ok`: the search ends outside quotes and parentheses, as it counts them from its start on;
* `find_first`, `find_untested`: what is found is decided by the first place that the capitals show;
* `findKeyword_exact_iff`: so the search finds the first place of the keyword exactly when it starts
  outside quotes and parentheses, and no place that only one of the two texts shows comes before all
  that both show.
-/

namespace Sketchlog.Sql

open Nesting

variable (u : Unicode) (text keyword : Text)

/-! ## Places

A place of the keyword, as the text says it: outside quotes and parentheses, between delimiters,
equal up to case. `Folded` is the comparison that the code makes instead. -/

/-- Outside quotes and parentheses, as they are counted from the start of the text on. -/
def TopAt (i : ℕ) : Prop := track delimiters top (text.take i) = some top

/-- The character before an index. -/
def charBefore (i : ℕ) : Option Char := if i = 0 then none else text[i - 1]?

/-- White space or an end on both sides. -/
def Delimited (i : ℕ) : Prop :=
  (charBefore text i).all isSpace = true ∧ (text.drop (i + keyword.length)).head?.all isSpace = true

/-- The text ends before a keyword there does. -/
def Overruns (i : ℕ) : Prop := text.length < i + keyword.length

/-- The text is the keyword there, in capitals or not. -/
def Reads (i : ℕ) : Prop :=
  ((text.drop i).take keyword.length).length = keyword.length
    ∧ u.upper ((text.drop i).take keyword.length) = u.upper keyword

/-- The text in capitals has the keyword there, and the character is one that the search does not
take for another. -/
def Folded (i : ℕ) : Prop :=
  (∃ c, text[i]? = some c ∧ delimiters.Plain c) ∧ u.upper keyword <+: (u.upper text).drop i

/-- A place of the keyword. -/
structure Place (start i : ℕ) : Prop where
  le : start ≤ i
  le_length : i ≤ text.length
  top : TopAt text i
  delimited : Delimited text keyword i
  reads : Reads u text keyword i

/-- The smallest index with a property, or none when there is none. -/
def IsFirst (P : ℕ → Prop) : Option ℕ → Prop
  | some i => P i ∧ ∀ j < i, ¬ P j
  | none => ∀ i, ¬ P i

theorem exists_isFirst (P : ℕ → Prop) : ∃ result, IsFirst P result := by
  classical
  by_cases h : ∃ i, P i
  · exact ⟨some (Nat.find h), Nat.find_spec h, fun j hj => Nat.find_min h hj⟩
  · exact ⟨none, not_exists.mp h⟩

theorem IsFirst.le {P : ℕ → Prop} {m i : ℕ} (h : IsFirst P (some m)) (hi : P i) : m ≤ i :=
  not_lt.mp fun hlt => h.2 i hlt hi

variable {u text keyword} {start : ℕ}

/-! ## The test at a place -/

theorem keywordAt_eq_false_iff {upper target : Text} {i : ℕ} (hlength : target.length = keyword.length)
    (hle : i ≤ text.length) :
    keywordAt upper target i (charBefore text i) (text.drop i) = .ok false
      ↔ ¬ (target <+: upper.drop i ∧ (Delimited text keyword i ∨ Overruns text keyword i)) := by
  have hdrop : (text.drop i).drop target.length = text.drop (i + keyword.length) := by
    rw [List.drop_drop, hlength]
  have hroom : text.length - i < target.length ↔ Overruns text keyword i := by
    unfold Overruns
    omega
  unfold keywordAt Delimited
  by_cases hshows : target <+: upper.drop i
  · rw [if_pos hshows, hdrop]
    cases hafter : text.drop (i + keyword.length) with
    | nil =>
      by_cases hover : Overruns text keyword i
      · simp [hroom, hover, hshows]
      · simp [hroom, hover, hshows]
    | cons c after =>
      have hover : ¬ Overruns text keyword i := by
        intro hover
        rw [List.drop_eq_nil_of_le (Nat.le_of_lt hover)] at hafter
        cases hafter
      simp [hover, hshows]
  · simp [hshows]

theorem keywordAt_eq_true {upper target : Text} {i : ℕ} (hlength : target.length = keyword.length)
    (hshows : target <+: upper.drop i) (hdelimited : Delimited text keyword i)
    (hle : keyword.length ≤ (text.drop i).length) :
    keywordAt upper target i (charBefore text i) (text.drop i) = .ok true := by
  have hdrop : (text.drop i).drop target.length = text.drop (i + keyword.length) := by
    rw [List.drop_drop, hlength]
  obtain ⟨hbefore, hafter⟩ := hdelimited
  unfold keywordAt
  rw [if_pos hshows, hdrop, hbefore]
  cases hrest : text.drop (i + keyword.length) with
  | nil =>
    dsimp only
    rw [if_neg (by omega)]
  | cons c after =>
    rw [hrest] at hafter
    exact congrArg Except.ok hafter

/-! ## The scan

By induction on the text: the scan passes places where the test fails, and stops or raises where it
does not. -/

section Scan

variable {upper target rest : Text} {index : ℕ} {before : Option Char}

/-- A place that the test accepts ends the search. -/
theorem findKeywordFrom_true {c : Char} (hc : delimiters.Plain c)
    (h : keywordAt upper target index before (c :: rest) = .ok true) :
    findKeywordFrom upper target none 0 index before (c :: rest) = .ok (some index) := by
  obtain ⟨hquote, hopening, hclosing⟩ := hc
  have hquote' : isQuote c = false := hquote
  have hopening' : c ≠ '(' := hopening
  have hclosing' : c ≠ ')' := hclosing
  rw [findKeywordFrom]
  simp only [hquote', hopening', hclosing', Bool.false_eq_true, if_false, if_true, h]
  rfl

theorem findKeywordFrom_error {c : Char} (hc : delimiters.Plain c) {failure : Failure}
    (h : keywordAt upper target index before (c :: rest) = .error failure) :
    findKeywordFrom upper target none 0 index before (c :: rest) = .error failure := by
  obtain ⟨hquote, hopening, hclosing⟩ := hc
  have hquote' : isQuote c = false := hquote
  have hopening' : c ≠ '(' := hopening
  have hclosing' : c ≠ ')' := hclosing
  rw [findKeywordFrom]
  simp only [hquote', hopening', hclosing', Bool.false_eq_true, if_false, if_true, h]
  rfl

/-- A place that the test does not pass by: the search ends there, with it or with an error. -/
theorem eq_some_of_ne_false {c : Char} {result : Option ℕ} (hc : delimiters.Plain c)
    (h : keywordAt upper target index before (c :: rest) ≠ .ok false)
    (hok : findKeywordFrom upper target none 0 index before (c :: rest) = .ok result) :
      result = some index := by
  cases htest : keywordAt upper target index before (c :: rest) with
  | error failure =>
    rw [findKeywordFrom_error hc htest] at hok
    cases hok
  | ok found =>
    cases found with
    | false => exact absurd htest h
    | true =>
      rw [findKeywordFrom_true hc htest] at hok
      exact (Except.ok.inj hok).symm

/-- A closing parenthesis with none open. -/
theorem findKeywordFrom_of_advance_none {s : State Char} {c : Char}
    (h : advance delimiters s c = none) :
    findKeywordFrom upper target s.quote s.depth index before (c :: rest)
      = .error (.valueError "Unbalanced SQL parentheses") := by
  obtain ⟨quote, depth⟩ := s
  unfold advance at h
  cases quote with
  | some q => cases h
  | none =>
    dsimp only at h
    split_ifs at h with hquote hopening hclosing hdepth
    subst hdepth hclosing
    simp [findKeywordFrom, isQuote, delimiters]

/-- **Where the search ends.** It returns at a place, or at the end of a text that is in balance
from its start on. -/
theorem find_ok {s : State Char} {result : Option ℕ} (hs : ∀ q ∈ s.quote, isQuote q = true)
    (h : findKeywordFrom upper target s.quote s.depth index before rest = .ok result) :
    match result with
    | none => track delimiters s rest = some top
    | some i =>
        ∃ pre post, rest = pre ++ post ∧ i = index + pre.length ∧ track delimiters s pre
        = some top := by
  induction rest generalizing s index before with
  | nil =>
    obtain ⟨quote, depth⟩ := s
    unfold findKeywordFrom at h
    split_ifs at h with hopen
    cases h
    rw [not_or, not_not, not_not] at hopen
    obtain ⟨rfl, rfl⟩ := hopen
    rfl
  | cons c rest ih =>
    cases hadvance : advance delimiters s c with
    | none =>
      rw [findKeywordFrom_of_advance_none hadvance] at h
      cases h
    | some s' =>
      by_cases hno : s = top → delimiters.Plain c → keywordAt upper target index before (c :: rest)
        = .ok false
      · rw [findKeywordFrom_cons hs hadvance hno] at h
        have hrest := ih (isQuote_advance hs hadvance) h
        cases result with
        | none => exact (track_cons hadvance).trans hrest
        | some i =>
          obtain ⟨pre, post, rfl, rfl, htrack⟩ := hrest
          refine ⟨c :: pre, post, rfl, ?_, (track_cons hadvance).trans htrack⟩
          rw [List.length_cons]
          omega
      · -- the search ends here
        simp only [not_forall] at hno
        obtain ⟨rfl, hplain, htest⟩ := hno
        obtain rfl := eq_some_of_ne_false hplain htest h
        exact ⟨[], c :: rest, rfl, rfl, rfl⟩

end Scan

/-! ## From a start outside quotes and parentheses -/

theorem no_quote : ∀ q ∈ (top : State Char).quote, isQuote q = true := fun _ h => nomatch h

/-- The character before a place is the last one of what is before it. -/
theorem charBefore_append (i : ℕ) (pre rest : Text) (h : text.drop i = pre ++ rest) :
    charBefore text (i + pre.length) = pre.getLast?.or (charBefore text i) := by
  rcases List.eq_nil_or_concat pre with rfl | ⟨init, c, rfl⟩
  · rfl
  · rw [List.concat_eq_append] at h ⊢
    have hindex : text[i + init.length]? = some c := by
      rw [← List.getElem?_drop, h, List.append_assoc, List.getElem?_append_right (le_refl _),
        Nat.sub_self]
      rfl
    unfold charBefore
    rw [List.length_append, List.length_singleton, if_neg (by omega), List.getLast?_concat]
    exact hindex

theorem take_append {pre rest : Text} (h : text.drop start = pre ++ rest) :
    text.take (start + pre.length) = text.take start ++ pre := by
  rw [List.take_add, h, List.take_left]

theorem drop_append {pre rest : Text} (h : text.drop start = pre ++ rest) :
    text.drop (start + pre.length) = rest := by
  rw [← List.drop_drop, h, List.drop_left]

/-- From a start outside quotes and parentheses, the scan counts as from the start of the text. -/
theorem topAt_iff (hstart : TopAt text start) {pre rest : Text} (h : text.drop start = pre ++ rest) :
    TopAt text (start + pre.length) ↔ track delimiters top pre = some top := by
  unfold TopAt
  rw [take_append h, track_append_of hstart]

/-- The places that the test does not pass by: it accepts them, or looks at a character behind the
end. -/
structure Tested (u : Unicode) (text keyword : Text) (start i : ℕ) : Prop where
  le : start ≤ i
  top : TopAt text i
  stops : Delimited text keyword i ∨ Overruns text keyword i
  folded : Folded u text keyword i

theorem length_upper (u : Unicode) (hkeyword : IsAscii keyword) :
    (u.upper keyword).length = keyword.length := by
  rw [u.upper_ascii keyword hkeyword, List.length_map]

/-- The test passes by a place that is not tested. -/
theorem keywordAt_of_not_tested (hkeyword : IsAscii keyword) (hstart : TopAt text start)
    {pre post : Text} {c : Char}
    (h : text.drop start = pre ++ c :: post) (htop : track delimiters top pre = some top)
    (hplain : delimiters.Plain c)
    (hno : ¬ Tested u text keyword start (start + pre.length)) :
    keywordAt (u.upper text) (u.upper keyword) (start + pre.length)
      (pre.getLast?.or (charBefore text start)) (c :: post)
      = .ok false := by
  have hchar : text[start + pre.length]? = some c := by
    rw [← List.head?_drop, drop_append h]
    rfl
  have hle : start + pre.length ≤ text.length := (List.getElem?_eq_some_iff.mp hchar).1.le
  rw [← charBefore_append start pre _ h, ← drop_append h,
    keywordAt_eq_false_iff (length_upper u hkeyword) hle]
  intro ⟨hshows, hstops⟩
  exact hno ⟨Nat.le_add_right _ _, (topAt_iff hstart h).mpr htop, hstops, ⟨c, hchar, hplain⟩, hshows⟩

/-- Up to a place with no tested one before it, the search passes. -/
theorem find_pass (hkeyword : IsAscii keyword) (hstart : TopAt text start) {m : ℕ} (hle : start ≤ m)
    (hend : m ≤ text.length) (hm : TopAt text m) (hno : ∀ j < m, ¬ Tested u text keyword start j) :
    findKeyword u text keyword start
      = findKeywordFrom (u.upper text) (u.upper keyword) none 0 m (charBefore text m)
        (text.drop m) := by
  -- the text up to `m` is a piece that ends at the top level
  obtain ⟨n, rfl⟩ := Nat.exists_eq_add_of_le hle
  have hsplit : text.drop start = (text.drop start).take n ++ text.drop (start + n) := by
    rw [← List.drop_drop, List.take_append_drop]
  have hlength : ((text.drop start).take n).length = n := by
    rw [List.length_take, List.length_drop]
    omega
  generalize (text.drop start).take n = middle at hsplit hlength
  subst hlength
  have hskip : findKeywordFrom (u.upper text) (u.upper keyword) none 0 start (charBefore text start)
        (middle ++ text.drop (start + middle.length))
      = findKeywordFrom (u.upper text) (u.upper keyword) none 0 (start + middle.length)
        (middle.getLast?.or (charBefore text start)) (text.drop (start + middle.length)) := by
    -- at each place within the piece the test fails
    refine find_skip no_quote ((topAt_iff hstart hsplit).mp hm) fun pre c post heq htop hplain => ?_
    have hassoc (rest : Text) : middle ++ rest = pre ++ c :: (post ++ rest) := by
      rw [heq, List.append_assoc]
      rfl
    have hplace : text.drop start = pre ++ c :: (post ++ text.drop (start + middle.length)) :=
      hsplit.trans (hassoc _)
    refine keywordAt_of_not_tested hkeyword hstart hplace htop hplain (hno _ ?_)
    rw [heq, List.length_append, List.length_cons]
    omega
  rw [charBefore_append start middle _ hsplit, ← hskip, ← hsplit]
  rfl

/-- No place is tested: the search finds none. -/
theorem find_untested (hkeyword : IsAscii keyword) (htext : Balanced text) (hstart : TopAt text start)
    (hno : ∀ j, ¬ Tested u text keyword start j) : findKeyword u text keyword start = .ok none := by
  have hend : ∀ index before, findKeywordFrom (u.upper text) (u.upper keyword) none 0 index before
    [] = .ok none := by
    intro index before
    simp [findKeywordFrom]
  rcases le_or_gt start text.length with hle | hgt
  · have htop : TopAt text text.length := by
      unfold TopAt
      rw [List.take_length]
      exact htext
    rw [find_pass hkeyword hstart hle le_rfl htop fun j _ => hno j, List.drop_length]
    exact hend _ _
  · unfold findKeyword
    rw [List.drop_eq_nil_of_le hgt.le]
    exact hend _ _

/-- The first place that is tested decides: the search finds it when it is delimited and has room
for the keyword. -/
theorem find_first (hkeyword : IsAscii keyword) (hstart : TopAt text start) {m : ℕ}
    (hm : Tested u text keyword start m)
    (hno : ∀ j < m, ¬ Tested u text keyword start j) :
    (Delimited text keyword m → keyword.length ≤ (text.drop m).length
      → findKeyword u text keyword start = .ok (some m))
      ∧ ∀ result, findKeyword u text keyword start = .ok result → result = some m := by
  obtain ⟨hle, htop, hstops, ⟨c, hchar, hplain⟩, hshows⟩ := hm
  have hlt : m < text.length := (List.getElem?_eq_some_iff.mp hchar).1
  have hrest : ∃ rest, text.drop m = c :: rest := by
    refine ⟨text.drop (m + 1), ?_⟩
    rw [List.drop_eq_getElem_cons hlt, (List.getElem?_eq_some_iff.mp hchar).2]
  -- every place before the first tested one is passed
  have hpass := find_pass hkeyword hstart hle hlt.le htop hno
  have hlength := length_upper u hkeyword
  constructor
  · -- the test there succeeds if a delimiter and enough text follow
    intro hdelimited hroom
    have htest := keywordAt_eq_true hlength hshows hdelimited hroom
    obtain ⟨rest, hrest⟩ := hrest
    rw [hpass]
    rw [hrest] at htest ⊢
    exact findKeywordFrom_true hplain htest
  · -- otherwise it raises, so any result is this place
    intro result hresult
    have htest : keywordAt (u.upper text) (u.upper keyword) m (charBefore text m) (text.drop m)
      ≠ .ok false :=
      fun hfalse => (keywordAt_eq_false_iff hlength hlt.le).mp hfalse ⟨hshows, hstops⟩
    obtain ⟨rest, hrest⟩ := hrest
    rw [hpass] at hresult
    rw [hrest] at htest hresult
    exact eq_some_of_ne_false hplain htest hresult

/-- A search from inside quotes or parentheses finds no place of the keyword, and does not find that
there is none. -/
theorem topAt_of_find (htext : Balanced text) {result : Option ℕ}
    (h : findKeyword u text keyword start = .ok result)
    (hfirst : IsFirst (Place u text keyword start) result) : TopAt text start := by
  have hsplit : text.take start ++ text.drop start = text := List.take_append_drop _ _
  have hbalanced := htext
  unfold Balanced at hbalanced
  rw [← hsplit, track_append] at hbalanced
  obtain ⟨s, hs, hrest⟩ := Option.bind_eq_some_iff.mp hbalanced
  have hquote := isQuote_track no_quote hs
  have hend := find_ok no_quote h
  cases result with
  | none =>
    unfold TopAt
    rw [hs, track_injective hquote no_quote hrest hend]
  | some i =>
    obtain ⟨pre, post, hpre, rfl, htrack⟩ := hend
    have hplace := hfirst.1.top
    unfold TopAt at hplace ⊢
    rw [take_append hpre, track_append_of hs] at hplace
    rw [hs, track_injective hquote no_quote hplace htrack]

/-! ## The first place

The code is exact if and only if no place before the first one misleads it. -/

/-- What is found is a place that is tested. -/
theorem tested_of_find (hkeyword : IsAscii keyword) (htext : Balanced text)
    (hstart : TopAt text start) {i : ℕ}
    (h : findKeyword u text keyword start = .ok (some i)) : Tested u text keyword start i := by
  obtain ⟨first, hfirst⟩ := exists_isFirst (Tested u text keyword start)
  cases first with
  | none =>
    rw [find_untested hkeyword htext hstart hfirst] at h
    cases h
  | some m =>
    cases (find_first hkeyword hstart hfirst.1 hfirst.2).2 _ h
    exact hfirst.1

/-- A place that misleads the search, unless it has ended before: one text shows the keyword there
and the other does not, or the text ends before the keyword that the capitals show. -/
def Misleads (u : Unicode) (text keyword : Text) (i : ℕ) : Prop :=
  Delimited text keyword i ∧ ¬ (Reads u text keyword i ↔ Folded u text keyword i)
    ∨ Folded u text keyword i ∧ Overruns text keyword i

/-- A place that one of the two texts shows. -/
structure Shown (u : Unicode) (text keyword : Text) (start i : ℕ) : Prop where
  le : start ≤ i
  le_length : i ≤ text.length
  top : TopAt text i
  shown : Delimited text keyword i ∧ Reads u text keyword i
    ∨ Folded u text keyword i ∧ (Delimited text keyword i ∨ Overruns text keyword i)

theorem Place.shown {i : ℕ} (h : Place u text keyword start i) : Shown u text keyword start i :=
  ⟨h.le, h.le_length, h.top, .inl ⟨h.delimited, h.reads⟩⟩

theorem Tested.shown {i : ℕ} (h : Tested u text keyword start i) : Shown u text keyword start i := by
  obtain ⟨_, hchar, _⟩ := h.folded.1
  exact ⟨h.le, (List.getElem?_eq_some_iff.mp hchar).1.le, h.top, .inr ⟨h.folded, h.stops⟩⟩

/-- A place that misleads is shown by one of the texts. -/
theorem Misleads.shown {i : ℕ} (h : Misleads u text keyword i) (hle : start ≤ i)
    (hlength : i ≤ text.length)
    (htop : TopAt text i) : Shown u text keyword start i := by
  refine ⟨hle, hlength, htop, ?_⟩
  rcases h with ⟨hdelimited, hdiffer⟩ | ⟨hfolded, hover⟩
  · by_cases hreads : Reads u text keyword i
    · exact .inl ⟨hdelimited, hreads⟩
    · exact .inr ⟨by_contra fun hno => hdiffer (iff_of_false hreads hno), .inl hdelimited⟩
  · exact .inr ⟨hfolded, .inr hover⟩

/-- Where the text reads the keyword, there is room for it. -/
theorem Reads.not_overruns {i : ℕ} (h : Reads u text keyword i) (hle : i ≤ text.length) :
    ¬ Overruns text keyword i := by
  have hroom : keyword.length ≤ (text.drop i).length := by
    rw [← h.1, List.length_take]
    exact min_le_right _ _
  rw [List.length_drop] at hroom
  unfold Overruns
  omega

/-- What both texts show does not mislead. -/
theorem Place.not_misleads {i : ℕ} (h : Place u text keyword start i)
    (hfolded : Folded u text keyword i) :
    ¬ Misleads u text keyword i := by
  rintro (⟨-, hdiffer⟩ | ⟨-, hover⟩)
  · exact hdiffer (iff_of_true h.reads hfolded)
  · exact h.reads.not_overruns h.le_length hover

/-- Where the search is right, both texts show the first place that one of them shows. -/
theorem both_of_find (hkeyword : IsAscii keyword) (htext : Balanced text) {result : Option ℕ}
    (hresult : findKeyword u text keyword start = .ok result)
    (hfirst : IsFirst (Place u text keyword start) result) {m : ℕ}
    (hm : IsFirst (Shown u text keyword start) (some m)) :
    Place u text keyword start m ∧ Folded u text keyword m := by
  have hstart := topAt_of_find htext hresult hfirst
  obtain ⟨hshown, hmin⟩ := hm
  by_cases hfolded : Folded u text keyword m
  · -- the text in capitals shows it, so it is the first place that is tested
    have hstops : Delimited text keyword m ∨ Overruns text keyword m :=
      hshown.shown.elim (fun h => .inl h.1) And.right
    have htested : Tested u text keyword start m := ⟨hshown.le, hshown.top, hstops, hfolded⟩
    have heq := (find_first hkeyword hstart htested fun j hj h => hmin j hj h.shown).2 _ hresult
    subst heq
    exact ⟨hfirst.1, hfolded⟩
  · -- it is a place of the keyword, and what is found is one that the text in capitals shows
    obtain ⟨hdelimited, hreads⟩ := hshown.shown.resolve_right fun h => hfolded h.1
    have hplace : Place u text keyword start m :=
      ⟨hshown.le, hshown.le_length, hshown.top, hdelimited, hreads⟩
    cases result with
    | none => exact absurd hplace (hfirst m)
    | some r =>
      have hr : r = m := by
        refine le_antisymm (hfirst.le hplace) (not_lt.mp fun hlt => ?_)
        exact hmin r hlt hfirst.1.shown
      subst hr
      exact absurd (tested_of_find hkeyword htext hstart hresult).folded hfolded

/-- The first place that is shown is found, if it does not mislead. -/
theorem find_of_not_misleads (hkeyword : IsAscii keyword) (hstart : TopAt text start) {m : ℕ}
    (hm : IsFirst (Shown u text keyword start) (some m)) (hleads : ¬ Misleads u text keyword m) :
    findKeyword u text keyword start = .ok (some m) ∧ Place u text keyword start m := by
  obtain ⟨hshown, hmin⟩ := hm
  have hdelimited : Delimited text keyword m := by
    rcases hshown.shown with h | ⟨hfolded, h⟩
    · exact h.1
    · exact h.resolve_right fun hover => hleads (.inr ⟨hfolded, hover⟩)
  have hiff : Reads u text keyword m ↔ Folded u text keyword m :=
    by_contra fun hdiffer => hleads (.inl ⟨hdelimited, hdiffer⟩)
  have hreads : Reads u text keyword m := hshown.shown.elim And.right fun h => hiff.mpr h.1
  have htested : Tested u text keyword start m :=
    ⟨hshown.le, hshown.top, .inl hdelimited, hiff.mp hreads⟩
  have hroom : keyword.length ≤ (text.drop m).length := by
    rw [← hreads.1, List.length_take]
    exact min_le_right _ _
  have hfind := find_first hkeyword hstart htested fun j hj h => hmin j hj h.shown
  exact ⟨hfind.1 hdelimited hroom, hshown.le, hshown.le_length, hshown.top, hdelimited, hreads⟩

/-- **When the search is exact.** In a text in balance, it finds the first place of the keyword, or
that there is none, exactly when it starts outside quotes and parentheses, and every place that
misleads it has one before it that both texts show. -/
theorem findKeyword_exact_iff (u : Unicode) {text keyword : Text} (htext : Balanced text)
    (hkeyword : IsAscii keyword)
    (start : ℕ) :
    (∃ result, findKeyword u text keyword start = .ok result
      ∧ IsFirst (Place u text keyword start) result)
      ↔ TopAt text start ∧ ∀ i, start ≤ i → i ≤ text.length → TopAt text i → Misleads u text keyword i →
          ∃ j < i, Place u text keyword start j ∧ Folded u text keyword j := by
  obtain ⟨shown, hshown⟩ := exists_isFirst (Shown u text keyword start)
  constructor
  · intro ⟨result, hresult, hfirst⟩
    refine ⟨topAt_of_find htext hresult hfirst, fun i hle hlength htop hmisleads => ?_⟩
    have hi := hmisleads.shown hle hlength htop
    cases shown with
    | none => exact absurd hi (hshown i)
    | some m =>
      have hboth := both_of_find hkeyword htext hresult hfirst hshown
      refine ⟨m, lt_of_le_of_ne (hshown.le hi) fun heq => ?_, hboth⟩
      subst heq
      exact hboth.1.not_misleads hboth.2 hmisleads
  · intro ⟨hstart, hagree⟩
    cases shown with
    | none =>
      have hnone : ∀ j, ¬ Tested u text keyword start j := fun j h => hshown j h.shown
      exact ⟨none, find_untested hkeyword htext hstart hnone, fun j h => hshown j h.shown⟩
    | some m =>
      -- a misleading place would have another one before it
      have hleads : ¬ Misleads u text keyword m := by
        intro hmisleads
        obtain ⟨hm, hmin⟩ := hshown
        obtain ⟨j, hj, hplace, -⟩ := hagree m hm.le hm.le_length hm.top hmisleads
        exact hmin j hj hplace.shown
      obtain ⟨hfind, hplace⟩ := find_of_not_misleads hkeyword hstart hshown hleads
      exact ⟨some m, hfind, hplace, fun j hj h => hshown.2 j hj h.shown⟩

/-! ## Characters with one capital

For texts whose characters have one capital each, the two comparisons agree. The sharp s has two. -/

/-- Where every character has one capital, the two texts show the same places. -/
theorem reads_iff_folded {up : Char → Text} {capital : Char → Char}
    (hup : ∀ text, u.upper text = text.flatMap up)
    (hsingle : ∀ c ∈ text, up c = [capital c]) (hkeyword : IsAscii keyword)
    (hfirst : ∃ c ∈ keyword.head?, c.toUpper.isAlphanum = true) (i : ℕ) : Reads u text keyword i
      ↔ Folded u text keyword i := by
  have hmap {part : Text} (hpart : part ⊆ text) : u.upper part = part.map capital := by
    rw [hup, List.map_eq_flatMap]
    exact List.flatMap_congr fun c hc => hsingle c (hpart hc)
  have hdrop : (u.upper text).drop i = (text.drop i).map capital := by
    rw [hmap (List.Subset.refl _), List.map_drop]
  have hlength := length_upper u hkeyword
  have hshows : u.upper keyword <+: (u.upper text).drop i ↔ Reads u text keyword i := by
    unfold Reads
    rw [hmap (List.Subset.trans (List.take_subset _ _) (List.drop_subset _ _)), hdrop,
      List.prefix_iff_eq_take, hlength, ← List.map_take]
    constructor
    · intro heq
      refine ⟨?_, heq.symm⟩
      have h := congrArg List.length heq
      rw [hlength, List.length_map] at h
      exact h.symm
    · exact fun h => h.2.symm
  unfold Folded
  rw [hshows]
  refine ⟨fun hreads => ⟨?_, hreads⟩, And.right⟩
  -- the character there is the first one of the keyword, in capitals or not
  obtain ⟨first, hmem, halnum⟩ := hfirst
  obtain ⟨rest, rfl⟩ := List.head?_eq_some_iff.mp hmem
  obtain ⟨tail, htail⟩ := hshows.mpr hreads
  rw [u.upper_ascii _ hkeyword, hdrop] at htail
  cases hrest : text.drop i with
  | nil =>
    rw [hrest] at htail
    cases htail
  | cons c after =>
    rw [hrest] at htail
    have hcapital : first.toUpper = capital c := (List.cons.inj htail).1
    have hchar : text[i]? = some c := by
      rw [← List.head?_drop, hrest]
      rfl
    have hc : c ∈ text := List.mem_of_getElem? hchar
    refine ⟨c, hchar, ?_⟩
    have hne (d : Char) (hascii : IsAscii [d]) (hupper : d.toUpper.isAlphanum = false) : c ≠ d := by
      intro heq
      have hd := u.upper_ascii [d] hascii
      rw [hup, List.flatMap_singleton, ← heq, hsingle c hc] at hd
      have hd' : capital c = c.toUpper := (List.cons.inj hd).1
      rw [hcapital, hd', heq, hupper] at halnum
      cases halnum
    have hascii (d : Char) (hd : d.toNat < 128) : IsAscii [d] := by
      intro c hc
      rwa [List.mem_singleton.mp hc]
    refine ⟨?_, hne '(' (hascii _ (by decide)) (by decide), hne ')' (hascii _ (by decide)) (by decide)⟩
    show isQuote c = false
    unfold isQuote
    rw [Bool.or_eq_false_iff, decide_eq_false_iff_not, decide_eq_false_iff_not]
    exact ⟨hne _ (hascii _ (by decide)) (by decide), hne _ (hascii _ (by decide)) (by decide)⟩

theorem lower_sharpS : ∀ text, IsAscii text → text.map Char.toLower = text.map Char.toLower :=
  fun _ _ => rfl

/-- The tables of Unicode, for ASCII and the sharp s, whose capital is `SS`. -/
def sharpS : Unicode where
  upper text := text.flatMap fun c => if c = 'ß' then ['S', 'S'] else [c.toUpper]
  lower text := text.map Char.toLower
  isAlnum text := !text.isEmpty && text.all fun c => c.isAlphanum || c = 'ß'
  upper_ascii text h := by
    rw [List.map_eq_flatMap]
    refine List.flatMap_congr fun c hc => if_neg ?_
    rintro rfl
    exact absurd (h _ hc) (by decide)
  lower_ascii := lower_sharpS
  isAlnum_ascii text h := by
    congr 1
    rw [Bool.eq_iff_iff, List.all_eq_true, List.all_eq_true]
    refine forall₂_congr fun c hc => ?_
    have hne : c ≠ 'ß' := by
      rintro rfl
      exact absurd (h _ hc) (by decide)
    simp [hne]

/-- `a FROM s`. -/
theorem from_found :
    ∃ result, findKeyword sharpS ['a', ' ', 'F', 'R', 'O', 'M', ' ', 's'] Keyword.from_ 0 = .ok result
      ∧ IsFirst (Place sharpS ['a', ' ', 'F', 'R', 'O', 'M', ' ', 's'] Keyword.from_ 0) result := by
  have hascii : IsAscii Keyword.from_ := forall_mem_of_all (by decide)
  have hbalanced : Balanced ['a', ' ', 'F', 'R', 'O', 'M', ' ', 's'] := rfl
  refine (findKeyword_exact_iff sharpS hbalanced hascii 0).mpr ⟨rfl, fun i _ hle _ hmisleads => ?_⟩
  have hsingle : ∀ c ∈ ['a', ' ', 'F', 'R', 'O', 'M', ' ', 's'],
    (if c = 'ß' then ['S', 'S'] else [c.toUpper]) = [c.toUpper] := by
    intro c hc
    refine if_neg ?_
    rintro rfl
    revert hc
    decide
  have hiff : Reads sharpS _ _ i ↔ Folded sharpS _ _ i :=
    reads_iff_folded (fun _ => rfl) hsingle hascii ⟨'F', rfl, by decide⟩ i
  rcases hmisleads with ⟨-, hdiffer⟩ | ⟨hfolded, hover⟩
  · exact absurd hiff hdiffer
  · exact absurd hover ((hiff.mpr hfolded).not_overruns hle)

/-- **An index in two texts.** In `ß FROM x` the keyword stands at index 2, and in the capitals `SS
FROM X` at index 3: the search finds none. -/
theorem from_not_found :
    Balanced ['ß', ' ', 'F', 'R', 'O', 'M', ' ', 'x'] ∧ IsAscii Keyword.from_
      ∧ Place sharpS ['ß', ' ', 'F', 'R', 'O', 'M', ' ', 'x'] Keyword.from_ 0 2
      ∧ findKeyword sharpS ['ß', ' ', 'F', 'R', 'O', 'M', ' ', 'x'] Keyword.from_ 0 = .ok none
      ∧ ¬ ∃ result, findKeyword sharpS ['ß', ' ', 'F', 'R', 'O', 'M', ' ', 'x'] Keyword.from_ 0
        = .ok result
        ∧ IsFirst (Place sharpS ['ß', ' ', 'F', 'R', 'O', 'M', ' ', 'x'] Keyword.from_ 0) result := by
  have hplace : Place sharpS ['ß', ' ', 'F', 'R', 'O', 'M', ' ', 'x'] Keyword.from_ 0 2 :=
    ⟨Nat.zero_le 2, by decide, rfl, ⟨rfl, rfl⟩, rfl, by decide⟩
  refine ⟨rfl, forall_mem_of_all (by decide), hplace, rfl, ?_⟩
  intro ⟨result, hresult, hfirst⟩
  have hnone : result = none := (Except.ok.inj hresult).symm
  subst hnone
  exact hfirst 2 hplace

/-- A character behind the end is looked at, although no white space stands before the keyword. -/
example : findKeyword sharpS ['ß', 'F', 'R', 'O', 'M'] Keyword.from_ 0 = .error .indexError := rfl

end Sketchlog.Sql
