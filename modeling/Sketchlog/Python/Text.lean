import Mathlib.Data.List.DropRight
import Mathlib.Tactic.NormNum

/-!
# Python's `str`

A `str` is a list of code points. The classes of characters are those of Unicode, as `str.isspace`,
`str.splitlines` and the regular expressions `\s` and `\d` have them.
-/

namespace Sketchlog

/-- `str.isspace`, for one character. -/
def isSpace (c : Char) : Bool :=
  let n := c.toNat
  (0x09 ≤ n && n ≤ 0x0d) || (0x1c ≤ n && n ≤ 0x20) || n = 0x85 || n = 0xa0 || n = 0x1680
    || (0x2000 ≤ n && n ≤ 0x200a)
    || n = 0x2028 || n = 0x2029 || n = 0x202f || n = 0x205f || n = 0x3000

/-- The characters at which `str.splitlines` splits. -/
def isLineBoundary (c : Char) : Bool :=
  let n := c.toNat
  (0x0a ≤ n && n ≤ 0x0d) || (0x1c ≤ n && n ≤ 0x1e) || n = 0x85 || n = 0x2028 || n = 0x2029

/-- The digits zero: every decimal digit of Unicode is one of the ten characters from such a zero on. -/
def decimalZeros : List ℕ :=
  [0x30, 0x660, 0x6f0, 0x7c0, 0x966, 0x9e6, 0xa66, 0xae6, 0xb66, 0xbe6, 0xc66, 0xce6, 0xd66, 0xde6,
    0xe50, 0xed0,
   0xf20, 0x1040, 0x1090, 0x17e0, 0x1810, 0x1946, 0x19d0, 0x1a80, 0x1a90, 0x1b50, 0x1bb0, 0x1c40,
     0x1c50, 0xa620,
   0xa8d0, 0xa900, 0xa9d0, 0xa9f0, 0xaa50, 0xabf0, 0xff10, 0x104a0, 0x10d30, 0x11066, 0x110f0,
     0x11136, 0x111d0,
   0x112f0, 0x11450, 0x114d0, 0x11650, 0x116c0, 0x11730, 0x118e0, 0x11950, 0x11c50, 0x11d50,
     0x11da0, 0x16a60,
   0x16ac0, 0x16b50, 0x1d7ce, 0x1d7d8, 0x1d7e2, 0x1d7ec, 0x1d7f6, 0x1e140, 0x1e2f0, 0x1e950, 0x1fbf0]

/-- The value of a decimal digit. -/
def decimalValue? (c : Char) : Option ℕ :=
  (decimalZeros.find? fun z => decide (z ≤ c.toNat ∧ c.toNat < z + 10)).map fun z => c.toNat - z

/-- `\d`. -/
def isDecimal (c : Char) : Bool := (decimalValue? c).isSome

/-- `str.splitlines`, with the line that is being read; `\r\n` ends one line. -/
def splitlinesFrom (line : List Char) : List Char → List (List Char)
  | [] => if line = [] then [] else [line]
  | '\r' :: '\n' :: rest => line :: splitlinesFrom [] rest
  | c :: rest =>
      if isLineBoundary c then line :: splitlinesFrom [] rest else splitlinesFrom (line ++ [c]) rest

def splitlines (text : List Char) : List (List Char) := splitlinesFrom [] text

/-- `str.strip`. -/
def strip (text : List Char) : List Char := (text.dropWhile isSpace).rdropWhile isSpace

/-- A line boundary is white space. -/
theorem isSpace_of_isLineBoundary {c : Char} (h : isLineBoundary c = true) : isSpace c = true := by
  simp only [isLineBoundary, isSpace, Bool.or_eq_true, Bool.and_eq_true, decide_eq_true_eq] at h ⊢
  omega

/-- Up to the first boundary, a text is one line. -/
theorem splitlinesFrom_append {line text rest : List Char} (h : ∀ c ∈ text, isLineBoundary c = false) :
    splitlinesFrom line (text ++ '\n' :: rest) = (line ++ text) :: splitlinesFrom [] rest := by
  induction text generalizing line with
  | nil =>
    rw [List.nil_append, List.append_nil]
    rfl
  | cons c text ih =>
    obtain ⟨hc, htext⟩ := List.forall_mem_cons.mp h
    have hstep : splitlinesFrom line (c :: (text ++ '\n' :: rest)) = splitlinesFrom (line ++ [c])
      (text ++ '\n' :: rest) := by
      rw [splitlinesFrom, hc]
      · rfl
      · rintro _ rfl
        cases hc
    rw [List.cons_append, hstep, ih htext, List.append_assoc]
    rfl

theorem splitlines_append {text rest : List Char} (h : ∀ c ∈ text, isLineBoundary c = false) :
    splitlines (text ++ '\n' :: rest) = text :: splitlines rest := splitlinesFrom_append h

/-- No line has a boundary in it. -/
theorem splitlinesFrom_boundary {line text : List Char} (hline : ∀ c ∈ line, isLineBoundary c = false) :
    ∀ l ∈ splitlinesFrom line text, ∀ c ∈ l, isLineBoundary c = false := by
  -- a line is closed at a boundary, so none lies inside
  fun_induction splitlinesFrom line text with
  | case1 => exact fun l hl => absurd hl List.not_mem_nil
  | case2 line hne =>
    intro l hl
    rw [List.mem_singleton.mp hl]
    exact hline
  | case3 line rest ih =>
    intro l hl
    rcases List.mem_cons.mp hl with rfl | hl
    · exact hline
    · exact ih (fun _ hc => absurd hc List.not_mem_nil) l hl
  | case4 line c rest hnot hc ih =>
    intro l hl
    rcases List.mem_cons.mp hl with rfl | hl
    · exact hline
    · exact ih (fun _ hc => absurd hc List.not_mem_nil) l hl
  | case5 line c rest hnot hc ih =>
    apply ih
    intro c' hc'
    rcases List.mem_append.mp hc' with hc' | hc'
    · exact hline c' hc'
    · rw [List.mem_singleton.mp hc']
      exact Bool.eq_false_iff.mpr hc

theorem splitlines_boundary {text l : List Char} (hl : l ∈ splitlines text) :
    ∀ c ∈ l, isLineBoundary c = false :=
  splitlinesFrom_boundary (fun _ hc => absurd hc List.not_mem_nil) l hl

/-- What holds of all characters of a text, checked one by one. -/
theorem forall_mem_of_all {p : Char → Prop} [DecidablePred p] {text : List Char}
    (h : (text.all fun c => decide (p c)) = true) : ∀ c ∈ text, p c :=
  fun c hc => of_decide_eq_true (List.all_eq_true.mp h c hc)

/-- `strip` only takes characters away. -/
theorem mem_of_mem_strip {text : List Char} {c : Char} (h : c ∈ strip text) : c ∈ text :=
  (List.dropWhile_suffix isSpace).subset ((List.rdropWhile_prefix isSpace _).subset h)

/-- A text that neither starts nor ends with white space. -/
theorem strip_eq_self {text : List Char} (hfirst : ∀ c ∈ text.head?, isSpace c = false)
    (hlast : ∀ c ∈ text.getLast?, isSpace c = false) : strip text = text := by
  have hleft : text.dropWhile isSpace = text := by
    cases text with
    | nil => rfl
    | cons c rest => rw [List.dropWhile_cons_of_neg (by rw [hfirst c rfl]; exact Bool.false_ne_true)]
  unfold strip
  rw [hleft, List.rdropWhile_eq_self_iff]
  intro hne
  rw [hlast _ (List.getLast?_eq_some_getLast hne)]
  exact Bool.false_ne_true

end Sketchlog
