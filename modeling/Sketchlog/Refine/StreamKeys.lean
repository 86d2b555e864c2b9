import Sketchlog.Mesh.Cluster

/-!
# Stream keys

`json.loads` reads back what `json.dumps` writes for two strings of scalar values
(`loadPair_dumpPair`), and the length of the text is the sum of the widths of its escapes
(`length_dumpPair`). So a key is valid exactly when its two names are identifiers and their escapes
are short enough (`canonicalKey_streamKey`). The check of a key raises exactly when `json.loads`
nests too deeply in it (`Shallow`), which no valid key makes it do.
-/

namespace Sketchlog.Json

/-- A Unicode scalar value. -/
def IsScalar (n : ℕ) : Prop := n < 0xd800 ∨ (0xdfff < n ∧ n < 0x110000)

theorem isScalar_toNat (c : Char) : IsScalar c.toNat := by
  have hvalid := c.valid
  unfold UInt32.isValidChar Nat.isValidChar at hvalid
  unfold IsScalar Char.toNat
  omega

theorem isScalar_of_mem {s : String} {n : ℕ} (h : n ∈ s.toList.map Char.toNat) : IsScalar n := by
  obtain ⟨c, -, rfl⟩ := List.mem_map.mp h
  exact isScalar_toNat c

/-! ## Escapes

The scanner reads back what the encoder wrote: one lemma for each kind of escape, then by induction
on the string. So a stream key is loaded as the pair that it was dumped from. -/

theorem hexValue_digitChar : ∀ d, d < 16 → hexValue (Nat.digitChar d) = some d := by decide

/-- Four digits are read back. -/
theorem hexUnit_hexDigits {n : ℕ} (h : n < 0x10000) :
    hexUnit (Nat.digitChar (n / 16 ^ 3 % 16)) (Nat.digitChar (n / 16 ^ 2 % 16))
      (Nat.digitChar (n / 16 % 16))
      (Nat.digitChar (n / 1 % 16)) = some n := by
  have hdigit : ∀ m, hexValue (Nat.digitChar (m % 16)) = some (m % 16) := fun m =>
    hexValue_digitChar _ (Nat.mod_lt _ (by decide))
  unfold hexUnit
  rw [hdigit, hdigit, hdigit, hdigit]
  show some _ = some n
  congr 1
  omega

attribute [local simp] scanString

/-- What the reader makes of one more code point in front. -/
def consTo (n : ℕ) : Option (List ℕ × List Char) → Option (List ℕ × List Char) :=
  Option.map fun read => (n :: read.1, read.2)

theorem scanString_unicodeEscape {unit : ℕ} (h : unit < 0x10000) (t : List Char) :
    scanString (unicodeEscape unit ++ t) = (scanString t).map fun read =>
      (joinSurrogate unit read.1, read.2) := by
  show scanString ('\\' :: 'u' :: Nat.digitChar (unit / 16 ^ 3 % 16) :: Nat.digitChar
    (unit / 16 ^ 2 % 16) ::
    Nat.digitChar (unit / 16 % 16) :: Nat.digitChar (unit / 1 % 16) :: t) = _
  rw [scanString, hexUnit_hexDigits h]
  cases scanString t with
  | none => rfl
  | some read => rfl

theorem scanString_shortEscape {e : Char} {n : ℕ} (hu : e ≠ 'u') (h : shortEscape e = some n)
    (t : List Char) :
    scanString ('\\' :: e :: t) = consTo n (scanString t) := by
  rw [scanString, h]
  · cases scanString t with
    | none => rfl
    | some read => rfl
  · intro a b c d rest he
    exact absurd he hu

theorem scanString_plain {c : Char} (hquote : c ≠ '"') (hslash : c ≠ '\\')
    (hprint : ¬ c.toNat < 0x20) (t : List Char) :
    scanString (c :: t) = consTo c.toNat (scanString t) := by
  rw [scanString, if_neg hprint]
  · cases scanString t with
    | none => rfl
    | some read => rfl
  · exact hquote
  · intro a b c' d rest hc
    exact absurd hc hslash
  · intro e rest hc
    exact absurd hc hslash

theorem joinSurrogate_of_not_high {unit : ℕ} (h : ¬ (0xd800 ≤ unit ∧ unit ≤ 0xdbff)) (s : List ℕ) :
    joinSurrogate unit s = unit :: s := by
  cases s with
  | nil => rfl
  | cons low rest => exact if_neg fun hpair => h ⟨hpair.1, hpair.2.1⟩

theorem toNat_ofNat_of_le {n : ℕ} (h : n ≤ 0x7e) : (Char.ofNat n).toNat = n := by
  have hvalid : n.isValidChar := .inl (by omega)
  rw [Char.ofNat, dif_pos hvalid]
  rfl

theorem scanString_printable {n : ℕ} (hlo : 0x20 ≤ n) (hhi : n ≤ 0x7e) (hquote : n ≠ 0x22)
    (hslash : n ≠ 0x5c)
    (t : List Char) : scanString (Char.ofNat n :: t) = consTo n (scanString t) := by
  have htoNat := toNat_ofNat_of_le hhi
  have hne : ∀ c : Char, n ≠ c.toNat → Char.ofNat n ≠ c := by
    intro c hc heq
    rw [← heq, htoNat] at hc
    exact hc rfl
  have hscan := scanString_plain (hne '"' hquote) (hne '\\' hslash) (by omega) t
  rwa [htoNat] at hscan

/-- A code point beyond the basic plane is written as two surrogates, which are joined again. -/
theorem scanString_astral {n : ℕ} (hlo : 0x10000 ≤ n) (hhi : n < 0x110000) (t : List Char) :
    scanString (unicodeEscape (0xd800 + (n - 0x10000) / 0x400)
      ++ (unicodeEscape (0xdc00 + (n - 0x10000) % 0x400) ++ t))
      = consTo n (scanString t) := by
  rw [scanString_unicodeEscape (by omega), scanString_unicodeEscape (by omega)]
  cases scanString t with
  | none => rfl
  | some read =>
    have hlow : joinSurrogate (0xdc00 + (n - 0x10000) % 0x400) read.1
      = (0xdc00 + (n - 0x10000) % 0x400) :: read.1 :=
      joinSurrogate_of_not_high (by omega) _
    have hvalue : 0x10000 + (0xd800 + (n - 0x10000) / 0x400 - 0xd800) * 0x400
        + (0xdc00 + (n - 0x10000) % 0x400 - 0xdc00) = n := by omega
    have hpair : joinSurrogate (0xd800 + (n - 0x10000) / 0x400)
      ((0xdc00 + (n - 0x10000) % 0x400) :: read.1)
        = n :: read.1 := by
      rw [joinSurrogate, if_pos (by omega), hvalue]
    show some (joinSurrogate _ (joinSurrogate _ read.1), read.2) = some (n :: read.1, read.2)
    rw [hlow, hpair]

/-- The code points with an escape of their own. -/
def shortCodePoints : List ℕ := [0x22, 0x5c, 0x0a, 0x0d, 0x09, 0x0c, 0x08]

theorem escapeCodePoint_short {n : ℕ} (h : n ∈ shortCodePoints) :
    ∃ e, e ≠ 'u' ∧ shortEscape e = some n ∧ escapeCodePoint n = ['\\', e] := by
  unfold shortCodePoints at h
  rcases List.mem_cons.mp h with rfl | h
  · exact ⟨'"', by decide, rfl, rfl⟩
  rcases List.mem_cons.mp h with rfl | h
  · exact ⟨'\\', by decide, rfl, rfl⟩
  rcases List.mem_cons.mp h with rfl | h
  · exact ⟨'n', by decide, rfl, rfl⟩
  rcases List.mem_cons.mp h with rfl | h
  · exact ⟨'r', by decide, rfl, rfl⟩
  rcases List.mem_cons.mp h with rfl | h
  · exact ⟨'t', by decide, rfl, rfl⟩
  rcases List.mem_cons.mp h with rfl | h
  · exact ⟨'f', by decide, rfl, rfl⟩
  · rw [List.mem_singleton.mp h]
    exact ⟨'b', by decide, rfl, rfl⟩

theorem escapeCodePoint_of_not_mem {n : ℕ} (h : n ∉ shortCodePoints) :
    escapeCodePoint n = if 0x20 ≤ n ∧ n ≤ 0x7e then [Char.ofNat n]
      else if n < 0x10000 then unicodeEscape n
      else unicodeEscape (0xd800 + (n - 0x10000) / 0x400) ++ unicodeEscape
        (0xdc00 + (n - 0x10000) % 0x400) := by
  simp only [shortCodePoints, List.mem_cons, List.not_mem_nil, or_false, not_or] at h
  obtain ⟨h₁, h₂, h₃, h₄, h₅, h₆, h₇⟩ := h
  rw [escapeCodePoint, if_neg h₁, if_neg h₂, if_neg h₃, if_neg h₄, if_neg h₅, if_neg h₆, if_neg h₇]

/-- **An escape is read back**, whatever follows. -/
theorem scanString_escapeCodePoint {n : ℕ} (h : IsScalar n) (t : List Char) :
    scanString (escapeCodePoint n ++ t) = consTo n (scanString t) := by
  -- the four branches of the encoder: a short escape, the character itself, one `\u` escape, two of
  -- them
  by_cases hshort : n ∈ shortCodePoints
  · obtain ⟨e, hu, hescape, heq⟩ := escapeCodePoint_short hshort
    rw [heq]
    exact scanString_shortEscape hu hescape t
  rw [escapeCodePoint_of_not_mem hshort]
  by_cases hprint : 0x20 ≤ n ∧ n ≤ 0x7e
  · have hquote : n ≠ 0x22 := fun heq => hshort (heq ▸ by decide)
    have hslash : n ≠ 0x5c := fun heq => hshort (heq ▸ by decide)
    rw [if_pos hprint]
    exact scanString_printable hprint.1 hprint.2 hquote hslash t
  rw [if_neg hprint]
  by_cases hbasic : n < 0x10000
  · rw [if_pos hbasic, scanString_unicodeEscape hbasic]
    cases scanString t with
    | none => rfl
    | some read =>
      show some (joinSurrogate n read.1, read.2) = some (n :: read.1, read.2)
      -- a scalar value is no high surrogate, so the reader joins it with nothing
      have hlow : ¬ (0xd800 ≤ n ∧ n ≤ 0xdbff) := by
        unfold IsScalar at h
        omega
      rw [joinSurrogate_of_not_high hlow]
  · rw [if_neg hbasic, List.append_assoc]
    -- what is left lies beyond the basic plane and is written as a pair
    have hhi : n < 0x110000 := by
      unfold IsScalar at h
      omega
    exact scanString_astral (by omega) hhi t

theorem scanString_quote {s : List ℕ} (h : ∀ n ∈ s, IsScalar n) (rest : List Char) :
    scanString (s.flatMap escapeCodePoint ++ '"' :: rest) = some (s, rest) := by
  induction s with
  | nil => rw [List.flatMap_nil, List.nil_append, scanString]
  | cons n s ih =>
    rw [List.flatMap_cons, List.append_assoc, scanString_escapeCodePoint (h n List.mem_cons_self),
      ih fun m hm => h m (List.mem_cons_of_mem _ hm)]
    rfl

/-- **A key is read back as its two names.** -/
theorem loadPair_dumpPair {a b : List ℕ} (ha : ∀ n ∈ a, IsScalar n) (hb : ∀ n ∈ b, IsScalar n) :
    loadPair (dumpPair a b) = some (a, b) := by
  have hb' := scanString_quote hb [']']
  have ha' := scanString_quote ha (',' :: ' ' :: '"' :: (b.flatMap escapeCodePoint ++ '"' :: [']']))
  have htext : dumpPair a b = '[' :: '"' :: (a.flatMap escapeCodePoint ++ '"' :: ',' :: ' ' :: '"' ::
      (b.flatMap escapeCodePoint ++ '"' :: [']'])) := by
    simp [dumpPair, quoteCodePoints]
  rw [htext, loadPair, ha']
  simp only [hb']

theorem loadPair_streamKey (space streamId : String) :
    loadPair (Mesh.ClusterManager.streamKey space streamId).toList
      = some (space.toList.map Char.toNat, streamId.toList.map Char.toNat) := by
  rw [Mesh.ClusterManager.streamKey, String.toList_ofList]
  exact loadPair_dumpPair (fun _ => isScalar_of_mem) fun _ => isScalar_of_mem

/-! ## Lengths

The length of a dumped string, from the width of the escape of each character. -/

/-- How many characters a code point takes. -/
def escapeWidth (n : ℕ) : ℕ :=
  if n ∈ [0x22, 0x5c, 0x0a, 0x0d, 0x09, 0x0c, 0x08] then 2
  else if 0x20 ≤ n ∧ n ≤ 0x7e then 1
  else if n < 0x10000 then 6
  else 12

theorem length_unicodeEscape (unit : ℕ) : (unicodeEscape unit).length = 6 := rfl

theorem length_escapeCodePoint (n : ℕ) : (escapeCodePoint n).length = escapeWidth n := by
  by_cases hshort : n ∈ shortCodePoints
  · obtain ⟨e, -, -, heq⟩ := escapeCodePoint_short hshort
    rw [heq]
    exact (if_pos hshort).symm
  have hwidth : escapeWidth n = if 0x20 ≤ n ∧ n ≤ 0x7e then 1 else if n < 0x10000 then 6 else 12 :=
    if_neg hshort
  rw [escapeCodePoint_of_not_mem hshort, hwidth]
  by_cases hprint : 0x20 ≤ n ∧ n ≤ 0x7e
  · rw [if_pos hprint, if_pos hprint]
    rfl
  rw [if_neg hprint, if_neg hprint]
  by_cases hbasic : n < 0x10000
  · rw [if_pos hbasic, if_pos hbasic, length_unicodeEscape]
  · rw [if_neg hbasic, if_neg hbasic, List.length_append, length_unicodeEscape, length_unicodeEscape]

theorem length_quoteCodePoints (s : List ℕ) :
    (quoteCodePoints s).length = (s.map escapeWidth).sum + 2 := by
  have hsum : (s.flatMap escapeCodePoint).length = (s.map escapeWidth).sum := by
    rw [List.length_flatMap]
    simp only [length_escapeCodePoint]
  rw [quoteCodePoints, List.length_append, List.length_cons, hsum]
  rfl

theorem length_dumpPair (a b : List ℕ) :
    (dumpPair a b).length = (a.map escapeWidth).sum + (b.map escapeWidth).sum + 8 := by
  rw [dumpPair]
  simp only [List.length_append, List.length_cons, List.length_nil, length_quoteCodePoints]
  omega

theorem one_le_escapeWidth (n : ℕ) : 1 ≤ escapeWidth n := by
  unfold escapeWidth
  split_ifs <;> omega

/-- Quoting a string makes it longer by its quotes at least. -/
theorem length_le_quote (s : String) : s.length + 2 ≤ (quote s).length := by
  have hsum : ∀ l : List ℕ, l.length ≤ (l.map escapeWidth).sum := by
    intro l
    induction l with
    | nil => exact le_rfl
    | cons n l ih =>
      have hn := one_le_escapeWidth n
      rw [List.map_cons, List.sum_cons, List.length_cons]
      omega
  rw [quote, length_quoteCodePoints]
  have hlength := hsum (s.toList.map Char.toNat)
  rw [List.length_map, String.length_toList] at hlength
  omega

theorem escapeWidth_le (n : ℕ) : escapeWidth n ≤ 12 := by
  unfold escapeWidth
  split_ifs <;> omega

theorem length_quote_le (s : String) : (quote s).length ≤ 12 * s.length + 2 := by
  have hsum : ∀ l : List ℕ, (l.map escapeWidth).sum ≤ 12 * l.length := by
    intro l
    induction l with
    | nil => exact le_rfl
    | cons n l ih =>
      have hn := escapeWidth_le n
      rw [List.map_cons, List.sum_cons, List.length_cons]
      omega
  rw [quote, length_quoteCodePoints]
  have hlength := hsum (s.toList.map Char.toNat)
  rw [List.length_map, String.length_toList] at hlength
  omega

/-! ## Nesting

Every token takes a character at least (`length_step`), so the length of the text is fuel enough
(`exceeds_eq`), and the scanner goes on from each of its states as from the first (`tooDeep_eq`). -/

theorem length_scanString {text rest : List Char} {s : List ℕ} (h : scanString text = some (s, rest)) :
    rest.length < text.length := by
  -- every branch that succeeds has consumed at least one character
  fun_induction scanString text generalizing s rest with
  | case1 => cases h
  | case2 text =>
    cases h
    exact Nat.lt_succ_self _
  | case3 a b c d text unit s' rest' hunit hscan ih =>
    obtain ⟨-, rfl⟩ := Prod.mk.inj (Option.some.inj h)
    have hlt := ih hunit
    simp only [List.length_cons]
    omega
  | case4 => cases h
  | case5 e text _ n s' rest' hshort hscan ih =>
    obtain ⟨-, rfl⟩ := Prod.mk.inj (Option.some.inj h)
    have hlt := ih hshort
    simp only [List.length_cons]
    omega
  | case6 => cases h
  | case7 => cases h
  | case8 c text hquote hunicode hescape hcontrol s' rest' hscan ih =>
    obtain ⟨-, rfl⟩ := Prod.mk.inj (Option.some.inj h)
    have hlt := ih hscan
    simp only [List.length_cons]
    omega
  | case9 => cases h

theorem length_skipDigits {text rest : List Char} (h : skipDigits text = some rest) :
    rest.length < text.length := by
  unfold skipDigits at h
  split at h
  · next c tail =>
    obtain ⟨-, heq⟩ := Option.ite_none_right_eq_some.mp h
    rw [← Option.some.inj heq, List.length_cons]
    exact Nat.lt_succ_of_le (List.length_dropWhile_le _ _)
  · cases h

theorem length_skipFraction (text : List Char) : (skipFraction text).length ≤ text.length := by
  unfold skipFraction
  split
  · next rest =>
    cases h : skipDigits rest with
    | none => exact le_rfl
    | some rest' =>
      have hlt := length_skipDigits h
      simp only [Option.getD_some, List.length_cons]
      omega
  · exact le_rfl

theorem length_skipExponent (text : List Char) : (skipExponent text).length ≤ text.length := by
  have hdigits (c : Char) (rest digits : List Char) (hle : digits.length ≤ rest.length) :
      ((skipDigits digits).getD (c :: rest)).length ≤ (c :: rest).length := by
    cases h : skipDigits digits with
    | none => exact le_rfl
    | some rest' =>
      have hlt := length_skipDigits h
      simp only [Option.getD_some, List.length_cons]
      omega
  unfold skipExponent
  split
  · split
    · split
      · exact hdigits _ _ _ (Nat.le_succ _)
      · exact hdigits _ _ _ (Nat.le_succ _)
      · exact hdigits _ _ _ le_rfl
    · exact le_rfl
  · exact le_rfl

theorem length_skipInteger {text rest : List Char} (h : skipInteger text = some rest) :
    rest.length < text.length := by
  unfold skipInteger at h
  split at h
  · rw [← Option.some.inj h]
    exact Nat.lt_succ_self _
  · exact length_skipDigits h

theorem length_skipNumber {text rest : List Char} (h : skipNumber text = some rest) :
    rest.length < text.length := by
  obtain ⟨digits, hdigits, rfl⟩ := Option.map_eq_some_iff.mp h
  have hlt : digits.length < text.length := by
    split at hdigits
    · exact (length_skipInteger hdigits).trans (Nat.lt_succ_self _)
    · exact length_skipInteger hdigits
  exact ((length_skipExponent _).trans (length_skipFraction _)).trans_lt hlt

theorem length_skipScalar {text rest : List Char} (h : skipScalar text = some rest) :
    rest.length < text.length := by
  unfold skipScalar at h
  split at h
  · next word hword =>
    have hpos : 0 < word.length :=
      (by decide : ∀ word ∈ constants, 0 < word.length) word (List.mem_of_find?_eq_some hword)
    have hprefix : word <+: text := List.isPrefixOf_iff_prefix.mp (by simpa using List.find?_some hword)
    rw [← Option.some.inj h, List.length_drop]
    have hle := hprefix.length_le
    omega
  · exact length_skipNumber h

namespace Scanner

theorem length_scanValue {opened : List Container} {text : List Char} {t : Scanner}
    (h : scanValue opened text = some t) : t.text.length < text.length := by
  unfold scanValue at h
  split at h
  · cases h
    exact Nat.lt_succ_self _
  · cases h
    exact Nat.lt_succ_self _
  · obtain ⟨⟨s, rest⟩, hscan, rfl⟩ := Option.map_eq_some_iff.mp h
    exact (length_scanString hscan).trans (Nat.lt_succ_self _)
  · obtain ⟨rest, hskip, rfl⟩ := Option.map_eq_some_iff.mp h
    exact length_skipScalar hskip

theorem length_scanKey {opened : List Container} {text : List Char} {t : Scanner}
    (h : scanKey opened text = some t) : t.text.length < text.length := by
  unfold scanKey at h
  split at h
  · obtain ⟨⟨s, rest⟩, hscan, rfl⟩ := Option.map_eq_some_iff.mp h
    exact (length_scanString hscan).trans (Nat.lt_succ_self _)
  · cases h

theorem length_scanComma {opened : List Container} {text : List Char} {t : Scanner}
    (h : scanComma opened text = some t) : t.text.length < text.length := by
  unfold scanComma at h
  split at h <;> cases h <;> exact Nat.lt_succ_self _

/-- **Every token takes a character at least.** -/
theorem length_step {s t : Scanner} (h : s.step = some t) : t.text.length < s.text.length := by
  have hspace : (s.text.dropWhile isSpace).length ≤ s.text.length := List.length_dropWhile_le _ _
  refine lt_of_lt_of_le ?_ hspace
  unfold step at h
  generalize s.text.dropWhile isSpace = text at h
  unfold scanToken at h
  split at h
  · exact length_scanValue h
  · cases h
    exact Nat.lt_succ_self _
  · exact length_scanValue h
  · cases h
    exact Nat.lt_succ_self _
  · exact length_scanKey h
  · exact length_scanKey h
  · cases h
    exact Nat.lt_succ_self _
  · cases h
  · exact length_scanComma h

variable {maxNesting : ℕ}

/-- The length of the text is fuel enough. -/
theorem exceeds_eq {s : Scanner} {fuel : ℕ} (h : s.text.length < fuel) :
    s.exceeds maxNesting fuel = s.exceeds maxNesting (s.text.length + 1) := by
  induction fuel using Nat.strong_induction_on generalizing s with
  | _ fuel ih =>
    cases fuel with
    | zero => exact absurd h (Nat.not_lt_zero _)
    | succ fuel =>
      rw [exceeds, exceeds]
      congr 1
      cases hstep : s.step with
      | none => rfl
      | some t =>
        have hlt := length_step hstep
        show t.exceeds maxNesting fuel = t.exceeds maxNesting s.text.length
        rcases Nat.lt_or_ge s.text.length fuel with hlonger | hle
        · rw [ih fuel (Nat.lt_succ_self _) (by omega), ih s.text.length (by omega) hlt]
        · rw [show fuel = s.text.length by omega]

/-- The scanner goes on from each of its states as from the first. -/
theorem tooDeep_eq (s : Scanner) :
    s.tooDeep maxNesting
      = (decide (maxNesting + 1 < s.opened.length) || s.step.any (tooDeep maxNesting)) := by
  rw [tooDeep, exceeds]
  congr 1
  cases hstep : s.step with
  | none => rfl
  | some t => exact exceeds_eq (length_step hstep)

end Scanner

variable {maxNesting : ℕ}

theorem scanToken_bracket {opened : List Container} {expected : Expected} (rest : List Char)
    (h : expected = .value ∨ expected = .item) :
    Scanner.scanToken opened expected ('[' :: rest) = some ⟨.list :: opened, .item, rest⟩ := by
  rcases h with rfl | rfl <;> rfl

/-- Nothing but brackets is too deep exactly when there are too many. -/
theorem tooDeep_brackets (n : ℕ) :
    tooDeep maxNesting (List.replicate n '[') = decide (maxNesting + 1 < n) := by
  -- generalized over what is open, of which each bracket adds one
  have hfrom : ∀ (n : ℕ) (opened : List Container) (expected : Expected),
      expected = .value ∨ expected = .item →
      Scanner.tooDeep maxNesting ⟨opened, expected, List.replicate n '['⟩
        = decide (maxNesting + 1 < opened.length + n) := by
    intro n
    induction n with
    | zero =>
      intro opened expected hexpected
      have hstep : Scanner.step ⟨opened, expected, []⟩ = none := by
        rcases hexpected with rfl | rfl <;> rfl
      rw [Scanner.tooDeep_eq, List.replicate_zero, hstep, Option.any_none, Bool.or_false]
      rfl
    | succ n ih =>
      intro opened expected hexpected
      have hstep : Scanner.step ⟨opened, expected, '[' :: List.replicate n '['⟩
          = some ⟨.list :: opened, .item, List.replicate n '['⟩ := by
        rw [Scanner.step, List.dropWhile_cons_of_neg (by decide), scanToken_bracket _ hexpected]
      rw [Scanner.tooDeep_eq, List.replicate_succ, hstep, Option.any_some, ih _ _ (.inr rfl),
        List.length_cons, ← Bool.decide_or]
      refine decide_eq_decide.mpr ?_
      show maxNesting + 1 < opened.length ∨ _ ↔ _
      omega
  rw [tooDeep, hfrom n [] .value (.inl rfl), List.length_nil, Nat.zero_add]

/-- A list of two strings is not too deep. -/
theorem tooDeep_of_loadPair {text : List Char} {pair : List ℕ × List ℕ}
    (h : loadPair text = some pair) : tooDeep maxNesting text = false := by
  unfold loadPair at h
  split at h
  · next rest =>
    split at h
    · next a rest₁ hfirst =>
      split at h
      · next b hsecond =>
        have hone : ¬ maxNesting + 1 < 1 := by omega
        have hsecond' : (scanString rest₁).map (fun read => read.2) = some [']'] := by
          rw [hsecond]
          rfl
        -- the bracket, the first string, the comma, the second string and the bracket
        have hbracket : Scanner.step ⟨[], .value, '[' :: '"' :: rest⟩
          = some ⟨[.list], .item, '"' :: rest⟩ := rfl
        have hstring : Scanner.step ⟨[.list], .item, '"' :: rest⟩
            = some ⟨[.list], .comma, ',' :: ' ' :: '"' :: rest₁⟩ := by
          show (scanString rest).map _ = _
          rw [hfirst]
          rfl
        have hcomma : Scanner.step ⟨[.list], .comma, ',' :: ' ' :: '"' :: rest₁⟩
          = some ⟨[.list], .value, ' ' :: '"' :: rest₁⟩ := rfl
        have hstring' : Scanner.step ⟨[.list], .value, ' ' :: '"' :: rest₁⟩
            = some ⟨[.list], .comma, [']']⟩ := by
          show (scanString rest₁).map _ = _
          rw [hsecond]
          rfl
        have hclose : Scanner.step ⟨[.list], .comma, [']']⟩ = some ⟨[], .comma, []⟩ := rfl
        have hend : Scanner.step ⟨[], .comma, []⟩ = none := rfl
        simp [tooDeep, Scanner.tooDeep_eq, hbracket, hstring, hcomma, hstring', hclose, hend]
      · cases h
    · cases h
  · cases h

end Sketchlog.Json

namespace Sketchlog.Mesh

open Json ClusterManager

/-- How many characters a name takes in a key. -/
def nameWidth (name : String) : ℕ := ((name.toList.map Char.toNat).map escapeWidth).sum

theorem length_streamKey (space streamId : String) :
    (streamKey space streamId).length = nameWidth space + nameWidth streamId + 8 := by
  rw [streamKey, String.length_ofList, length_dumpPair]
  rfl

theorem canonicalKey_of_long {key : String} (h : 1024 < key.length) : canonicalKey key = false := by
  unfold canonicalKey
  rw [decide_eq_false (by omega), Bool.false_and]

theorem validIdentifier_iff {s : String} : validIdentifier s
    ↔ 0 < s.length ∧ s.length ≤ maxIdentifierLength := by
  have hne : s ≠ "" ↔ 0 < s.length := by
    rw [Nat.pos_iff_ne_zero, Ne, Ne, String.length_eq_zero_iff]
  rw [validIdentifier, hne]

/-- **The keys that are valid**: those of two identifiers with at most 1016 characters of escapes. -/
theorem canonicalKey_streamKey (space streamId : String) :
    canonicalKey (streamKey space streamId) = true
    ↔ validIdentifier space ∧ validIdentifier streamId ∧ nameWidth space + nameWidth streamId
      ≤ 1016 := by
  have hlength := length_streamKey space streamId
  have htext : (streamKey space streamId).toList
      = dumpPair (space.toList.map Char.toNat) (streamId.toList.map Char.toNat) := by
    rw [streamKey, String.toList_ofList]
  unfold canonicalKey
  rw [loadPair_streamKey, hlength, validIdentifier_iff, validIdentifier_iff]
  simp only [htext, decide_true, Bool.true_and, Bool.and_eq_true, decide_eq_true_eq, List.length_map,
    String.length_toList]
  omega

/-! ## The check

It raises exactly for a key that is short enough to be read and nests too deeply. Any other key is
valid or not. -/

variable {maxNesting : ℕ} {key : String}

/-- The check of the key does not raise: the key is too long to be read, or it is not nested too
deeply. -/
def Shallow (maxNesting : ℕ) (key : String) : Prop :=
  1024 < key.length ∨ tooDeep maxNesting key.toList = false

instance : Decidable (Shallow maxNesting key) := inferInstanceAs (Decidable (_ ∨ _))

theorem Shallow.validStreamKey (h : Shallow maxNesting key) :
    validStreamKey maxNesting key = .ok (canonicalKey key) := by
  unfold Mesh.validStreamKey
  by_cases hlong : 1024 < key.length
  · rw [if_pos hlong, canonicalKey_of_long hlong]
  · rw [if_neg hlong, h.resolve_left hlong, if_neg Bool.false_ne_true]

theorem exists_error_of_not_shallow (h : ¬ Shallow maxNesting key) :
    ∃ e, validStreamKey maxNesting key = .error e := by
  obtain ⟨hlong, hdeep⟩ := not_or.mp h
  exact ⟨_, by rw [validStreamKey, if_neg hlong, if_pos (eq_true_of_ne_false hdeep)]⟩

/-- A valid key is read without nesting. -/
theorem shallow_of_canonicalKey (h : canonicalKey key = true) : Shallow maxNesting key := by
  right
  unfold canonicalKey at h
  cases hpair : loadPair key.toList with
  | none =>
    rw [hpair, Bool.and_false] at h
    cases h
  | some pair => exact tooDeep_of_loadPair hpair

/-- A key of so many brackets. -/
def brackets (n : ℕ) : String := String.ofList (List.replicate n '[')

theorem shallow_brackets_iff {n : ℕ} (h : n ≤ 1024) :
    Shallow maxNesting (brackets n) ↔ n ≤ maxNesting + 1 := by
  rw [Shallow, brackets, String.length_ofList, List.length_replicate, String.toList_ofList,
    tooDeep_brackets, decide_eq_false_iff_not]
  omega

end Sketchlog.Mesh
