import Sketchlog.Refine.SqlWords

/-!
# A query, printed and parsed

Whatever white space stands between the words and however the keywords are spelled, the parser gives
back the plan that was printed (`Query.parse_print`): the searches find the clauses one after
another, and the clauses are split into what they were joined from.
-/

namespace Sketchlog.Sql

open Nesting

variable (u : Unicode)

/-! ## The clauses

The clauses are found by their keywords, in the order of the source, and each is parsed back by
itself. -/

/-- The texts of the items. -/
def itemTexts (as : ℕ → Text) : List Item → List Text
  | [] => []
  | item :: items => joined (item.words (as items.length) []) :: itemTexts as items

theorem itemTexts_ne_nil {as : ℕ → Text} {items : List Item} (h : items ≠ []) :
    itemTexts as items ≠ [] := by
  obtain ⟨item, items, rfl⟩ := List.exists_cons_of_ne_nil h
  exact List.cons_ne_nil _ _

theorem itemWords_ne_nil {as : ℕ → Text} {items : List Item} (h : items ≠ []) :
    itemWords as items ≠ [] := by
  obtain ⟨item, items, rfl⟩ := List.exists_cons_of_ne_nil h
  cases items with
  | nil => exact item.words_ne_nil _ _
  | cons next items => exact List.append_ne_nil_of_left_ne_nil (item.words_ne_nil _ _) _

theorem joined_itemWords (as : ℕ → Text) (items : List Item) :
    joined (itemWords as items) = commaList (itemTexts as items) := by
  induction items with
  | nil => rfl
  | cons item items ih =>
    cases items with
    | nil => rfl
    | cons next items =>
      have hne : itemWords as (next :: items) ≠ [] := itemWords_ne_nil (List.cons_ne_nil _ _)
      have htext : itemWords as (item :: next :: items)
          = item.words (as (next :: items).length) [','] ++ itemWords as (next :: items) := rfl
      rw [htext, joined_append (item.words_ne_nil _ _) hne, ih, item.joined_words _ [','],
        List.append_assoc]
      rfl

theorem forall_mem_itemWords {P : Text → Prop} {as : ℕ → Text} {items : List Item}
    (h : ∀ item : Item, ∀ n comma, IsComma comma → ∀ word ∈ item.words (as n) comma, P word) :
    ∀ word ∈ itemWords as items, P word := by
  induction items with
  | nil => exact fun word hword => absurd hword List.not_mem_nil
  | cons item items ih =>
    cases items with
    | nil => exact h item 0 [] (.inl rfl)
    | cons next items => exact List.forall_mem_append.mpr ⟨h item _ [','] (.inr rfl), ih⟩

theorem forall_mem_itemTexts {P : Text → Prop} {as : ℕ → Text} {items : List Item}
    (h : ∀ item : Item, ∀ n, P (joined (item.words (as n) []))) : ∀ text ∈ itemTexts as items,
      P text := by
  induction items with
  | nil => exact fun text htext => absurd htext List.not_mem_nil
  | cons item items ih => exact List.forall_mem_cons.mpr ⟨h item _, ih⟩

theorem mapM_itemTexts {as : ℕ → Text} (has : ∀ n, (as n).map Char.toUpper = Keyword.as)
    (items : List Item) :
    (itemTexts as items).mapM (parseItem u) = .ok (items.map Item.select) := by
  induction items with
  | nil => rfl
  | cons item items ih =>
    rw [itemTexts, List.mapM_cons, parseItem_text u item (has _), ih]
    rfl

theorem parseSelect_joined {as : ℕ → Text} (has : ∀ n, (as n).map Char.toUpper = Keyword.as)
    {items : List Item}
    (hne : items ≠ []) : parseSelect u (joined (itemWords as items)) = .ok (items.map Item.select) := by
  have hparts : ∀ text ∈ itemTexts as items, Part text :=
    forall_mem_itemTexts fun item n => item.part_words (has n)
  unfold parseSelect
  rw [joined_itemWords, splitTopLevel_commaList (itemTexts_ne_nil hne) hparts]
  exact mapM_itemTexts u has items

theorem joined_nameWords (names : List Name) :
    joined (nameWords names) = commaList (names.map Name.text) := by
  induction names with
  | nil => rfl
  | cons name names ih =>
    cases names with
    | nil => rfl
    | cons next names =>
      have hne : nameWords (next :: names) ≠ [] := by cases names <;> exact List.cons_ne_nil _ _
      have htext : nameWords (name :: next :: names) = (name.text ++ [',']) :: nameWords
        (next :: names) := rfl
      rw [htext, joined_cons hne, ih, List.append_assoc]
      rfl

theorem forall_mem_nameWords {P : Text → Prop}
    (h : ∀ name : Name, ∀ comma, IsComma comma → P (name.text ++ comma))
    (names : List Name) : ∀ word ∈ nameWords names, P word := by
  induction names with
  | nil => exact fun word hword => absurd hword List.not_mem_nil
  | cons name names ih =>
    cases names with
    | nil =>
      have hlast := h name [] (.inl rfl)
      rw [List.append_nil] at hlast
      exact List.forall_mem_singleton.mpr hlast
    | cons next names => exact List.forall_mem_cons.mpr ⟨h name [','] (.inr rfl), ih⟩

theorem Name.part (n : Name) : Part n.text := by
  have hstrip := strip_word n.sound.word isSpace_nil isSpace_nil
  rw [List.append_nil, List.nil_append] at hstrip
  refine ⟨n.ne_nil, n.sound.word.balanced, fun hc => ?_, hstrip⟩
  have hchar := n.valid.2 ',' hc
  cases hchar

theorem split_nameWords {names : List Name} (hne : names ≠ []) :
    splitTopLevel (joined (nameWords names)) = .ok (names.map Name.text) := by
  rw [joined_nameWords]
  refine splitTopLevel_commaList (by simp [hne]) ?_
  exact List.forall_mem_map.mpr fun name _ => name.part

theorem find_none_joined {upper target first : Text} {index : ℕ} {before : Option Char}
    (ht : Target first target)
    {words : List Text} (hne : words ≠ []) (hwords : ∀ word ∈ words, Balanced word ∧ Avoids first word)
    (hupper : upper.drop index = (joined words).map Char.toUpper) :
    findKeywordFrom upper target none 0 index before (joined words) = .ok none := by
  rcases List.eq_nil_or_concat words with rfl | ⟨init, word, rfl⟩
  · exact absurd rfl hne
  · rw [List.concat_eq_append] at hwords hupper ⊢
    rw [joined_concat] at hupper ⊢
    exact find_none ht hwords hupper

/-- What `parse` does once the searches have their results. -/
theorem parsePlan_of {query : Text} {i : ℕ} {g h : Option ℕ} {selectClause fromClause : Text}
    (groupClause havingClause : Option Text) {selects : List Select} {groupBy : List Text}
    (hselect : u.upper (query.take 6) = Keyword.select) (hspace : (query[6]?).any isSpace = true)
    (hfrom : findKeyword u query Keyword.from_ 7 = .ok (some i))
    (hgroup : findKeyword u query Keyword.groupBy (i + Keyword.from_.length) = .ok g)
    (hhaving : findKeyword u query Keyword.having (i + Keyword.from_.length) = .ok h)
    (horder : ∀ group ∈ g, ∀ having ∈ h, group ≤ having)
    (hselectClause : strip ((query.take i).drop 6) = selectClause)
    (hfromClause : strip ((query.take (((g.toList ++ h.toList).min?).getD query.length)).drop
      (i + Keyword.from_.length)) = fromClause)
    (hgroupClause : (g.map fun group =>
      strip ((query.take (h.getD query.length)).drop (group + Keyword.groupBy.length)))
      = groupClause)
    (hhavingClause : (h.map fun having => strip (query.drop (having + Keyword.having.length)))
      = havingClause)
    (hselectNe : selectClause ≠ []) (hfromNe : fromClause ≠ []) (hgroupNe : groupClause ≠ some [])
    (hhavingNe : havingClause ≠ some []) (hselects : parseSelect u selectClause = .ok selects)
    (hnames : (match groupClause with
      | some clause => splitTopLevel clause
      | none => .ok []) = .ok groupBy)
    (hstrip : strip fromClause = fromClause) (hstrip' : havingClause.map strip = havingClause) :
    parsePlan u query = .ok ⟨selects, fromClause, groupBy, havingClause⟩ := by
  -- HAVING does not stand before GROUP BY
  have hnot : (g.any fun group => h.any fun having => decide (having < group)) = false := by
    cases g with
    | none => rfl
    | some group =>
      cases h with
      | none => rfl
      | some having => exact decide_eq_false (not_lt.mpr (horder group rfl having rfl))
  -- every clause is given, so the parser runs through without raising
  unfold parsePlan
  simp only [hselect, hspace, hfrom, hgroup, hhaving, hnot, hselectClause, hfromClause,
    hgroupClause, hhavingClause,
    hselectNe, hfromNe, hgroupNe, hhavingNe, hselects, hstrip, hstrip', bind, Except.bind, pure,
      Except.pure, if_true, if_false,
    or_self, Bool.false_eq_true]
  cases groupClause with
  | none =>
    cases Except.ok.inj hnames
    rfl
  | some clause =>
    have hnames' : splitTopLevel clause = .ok groupBy := hnames
    simp only [hnames']

/-! ## The words of a query

A printed query is its head and the words behind; lengths and keyword searches are computed over
these. -/

theorem length_of_spells {text keyword : Text} (h : text.map Char.toUpper = keyword) :
    text.length = keyword.length := by
  rw [← h, List.length_map]

theorem middle_of_append (a b c : Text) : ((a ++ (b ++ c)).take (a.length + b.length)).drop a.length
    = b := by
  rw [← List.append_assoc, ← List.length_append, List.take_left, List.drop_left]

theorem target_groupBy : Target Keyword.group Keyword.groupBy :=
  ⟨.inr ⟨Keyword.by_, rfl⟩, by decide, by decide⟩

theorem isAscii_groupBy : IsAscii Keyword.groupBy ∧ Keyword.groupBy.map Char.toUpper
    = Keyword.groupBy :=
  ⟨forall_mem_of_all (by decide), by decide⟩

namespace Query

variable (q : Query) (l : Layout)

/-- What stands before the source. -/
def head : Text := l.select ++ ' ' :: (flat (itemWords l.as q.items) ++ l.from_)

/-- The words behind FROM. -/
def tailWords : List Text := q.source.text :: (q.groupWords l ++ q.havingWords l)

theorem joined_words_eq : joined (q.words l) = q.head l ++ ' ' :: joined (q.tailWords l) := by
  have hitems : itemWords l.as q.items ≠ [] := itemWords_ne_nil q.items_ne
  have hne : ∀ words : List Text, itemWords l.as q.items ++ words ≠ [] := fun words =>
    List.append_ne_nil_of_left_ne_nil hitems words
  unfold words head tailWords
  rw [joined_cons (hne _), joined_append hitems (List.cons_ne_nil _ _),
    joined_cons (List.cons_ne_nil _ _), flat_eq_joined hitems]
  simp

theorem length_head : (q.head l).length = 7 + (flat (itemWords l.as q.items)).length
    + Keyword.from_.length := by
  have hselect := length_of_spells l.select_spells
  have hfrom := length_of_spells l.from_spells
  have hsix : Keyword.select.length = 6 := rfl
  unfold head
  rw [List.length_append, List.length_cons, List.length_append, hselect, hfrom, hsix]
  omega

theorem sound_tailWords : ∀ word ∈ q.tailWords l, Sound word := by
  unfold tailWords groupWords havingWords
  refine List.forall_mem_cons.mpr ⟨q.source.sound, List.forall_mem_append.mpr ⟨?_, ?_⟩⟩
  · split
    · exact fun word hword => absurd hword List.not_mem_nil
    · refine List.forall_mem_cons.mpr
        ⟨sound_of_spells (by decide) l.group_spells, List.forall_mem_cons.mpr ⟨?_, ?_⟩⟩
      · exact sound_of_spells (by decide) l.by_spells
      · exact forall_mem_nameWords (fun name comma hcomma => name.sound_comma hcomma) q.groupBy
  · cases q.having with
    | none => exact fun word hword => absurd hword List.not_mem_nil
    | some having =>
      refine List.forall_mem_cons.mpr ⟨sound_of_spells (by decide) l.having_spells, ?_⟩
      exact List.forall_mem_singleton.mpr having.sound

theorem sound_words : ∀ word ∈ q.words l, Sound word := by
  refine List.forall_mem_cons.mpr
    ⟨sound_of_spells (by decide) l.select_spells, List.forall_mem_append.mpr ⟨?_, ?_⟩⟩
  · exact forall_mem_itemWords fun item n comma hcomma => item.sound_words (l.as_spells n) hcomma
  · exact List.forall_mem_cons.mpr ⟨sound_of_spells (by decide) l.from_spells, q.sound_tailWords l⟩

theorem isAscii_words : IsAscii (joined (q.words l)) :=
  forall_mem_joined (by decide) fun word hword => (q.sound_words l word hword).ascii

/-- The source avoids every keyword, and the words of GROUP BY avoid HAVING. -/
theorem avoids_groupWords : ∀ word ∈ q.source.text :: q.groupWords l, Balanced word
    ∧ Avoids Keyword.having word := by
  refine fun word hword => ⟨(q.sound_tailWords l word ?_).word.balanced, ?_⟩
  · rcases List.mem_cons.mp hword with rfl | hword
    · exact List.mem_cons_self
    · exact List.mem_cons_of_mem _ (List.mem_append_left _ hword)
  · revert word
    refine List.forall_mem_cons.mpr ⟨q.source.avoids (by decide), ?_⟩
    unfold groupWords
    split
    · exact fun word hword => absurd hword List.not_mem_nil
    · refine List.forall_mem_cons.mpr ⟨avoids_of_spells (by decide) l.group_spells (by decide),
        List.forall_mem_cons.mpr ⟨?_, ?_⟩⟩
      · exact avoids_of_spells (by decide) l.by_spells (by decide)
      · exact forall_mem_nameWords (fun name comma hcomma =>
          name.avoids_comma hcomma (by decide)) q.groupBy

/-- Without GROUP BY no word is GROUP. -/
theorem avoids_havingWords : ∀ word ∈ q.source.text :: q.havingWords l, Balanced word
    ∧ Avoids Keyword.group word := by
  refine fun word hword => ⟨(q.sound_tailWords l word ?_).word.balanced, ?_⟩
  · rcases List.mem_cons.mp hword with rfl | hword
    · exact List.mem_cons_self
    · exact List.mem_cons_of_mem _ (List.mem_append_right _ hword)
  · revert word
    refine List.forall_mem_cons.mpr ⟨q.source.avoids (by decide), ?_⟩
    unfold havingWords
    cases q.having with
    | none => exact fun word hword => absurd hword List.not_mem_nil
    | some having =>
      refine List.forall_mem_cons.mpr ⟨avoids_of_spells (by decide) l.having_spells (by decide), ?_⟩
      exact List.forall_mem_singleton.mpr (having.free _ (by decide))

/-! ### The searches -/

theorem find_from : findKeyword u (joined (q.words l)) Keyword.from_ 7
    = .ok (some (7 + (flat (itemWords l.as q.items)).length)) := by
  have htext : joined (q.words l) = (l.select ++ [' ']) ++ (flat (itemWords l.as q.items)
      ++ (l.from_ ++ ' ' :: joined (q.tailWords l))) := by
    rw [joined_words_eq, head]
    simp
  have hlength : (l.select ++ [' ']).length = 7 := by
    rw [List.length_append, length_of_spells l.select_spells]
    rfl
  have hascii := q.isAscii_words l
  rw [htext] at hascii ⊢
  obtain ⟨hkeyword, hupper⟩ := isAscii_keyword (show Keyword.from_ ∈ reserved by decide)
  obtain ⟨upper, before, hdrop, hbefore, hfind⟩ := findKeyword_eq u hascii hkeyword hupper
  have hblank : before.all isSpace = true := hbefore (by rw [List.getLast?_concat]; rfl)
  rw [hlength] at hfind hdrop
  refine hfind.trans (find_some (target_self (by decide)) ?_ l.from_spells
    (isAlphanum_of_mem_reserved (by decide)).2 hblank rfl hdrop)
  refine forall_mem_itemWords fun item n comma hcomma word hword => ⟨?_, ?_⟩
  · exact (item.sound_words (l.as_spells n) hcomma word hword).word.balanced
  · exact item.avoids_words (l.as_spells n) hcomma (by decide) (by decide) word hword

/-- A search behind FROM. -/
theorem find_behind {first keyword : Text} (result : ℕ → Option ℕ) (ht : Target first keyword)
    (hascii : IsAscii keyword) (hupper : keyword.map Char.toUpper = keyword)
    (h : ∀ upper index, upper.drop index = (joined (q.tailWords l)).map Char.toUpper →
      findKeywordFrom upper keyword none 0 index (some ' ') (joined (q.tailWords l))
        = .ok (result index)) :
    findKeyword u (joined (q.words l)) keyword (q.head l).length
      = .ok (result ((q.head l).length + 1)) := by
  have hwords := q.isAscii_words l
  rw [joined_words_eq] at hwords ⊢
  obtain ⟨upper, before, hdrop, -, hfind⟩ := findKeyword_eq u hwords hascii hupper
  have hdrop' : upper.drop ((q.head l).length + 1) = (joined (q.tailWords l)).map Char.toUpper := by
    rw [← List.drop_drop, hdrop]
    rfl
  rw [hfind, find_skip_blank ht hdrop]
  exact h upper _ hdrop'

theorem find_group_none (hgroup : q.groupBy = []) :
    findKeyword u (joined (q.words l)) Keyword.groupBy (q.head l).length = .ok none := by
  refine q.find_behind u l (fun _ => none) target_groupBy isAscii_groupBy.1 isAscii_groupBy.2
    fun upper index hupper => ?_
  have hwords : q.tailWords l = q.source.text :: q.havingWords l := by
    unfold tailWords groupWords
    rw [if_pos hgroup]
    rfl
  rw [hwords] at hupper ⊢
  exact find_none_joined target_groupBy (List.cons_ne_nil _ _) (q.avoids_havingWords l) hupper

theorem find_group_some (hgroup : q.groupBy ≠ []) :
    findKeyword u (joined (q.words l)) Keyword.groupBy (q.head l).length
      = .ok (some ((q.head l).length + 1 + (flat [q.source.text]).length)) := by
  refine q.find_behind u l (fun index => some (index + (flat [q.source.text]).length)) target_groupBy
    isAscii_groupBy.1 isAscii_groupBy.2 fun upper index hupper => ?_
  have hnames : nameWords q.groupBy ≠ [] := by
    obtain ⟨name, names, hcons⟩ := List.exists_cons_of_ne_nil hgroup
    rw [hcons]
    cases names <;> exact List.cons_ne_nil _ _
  have hne : nameWords q.groupBy ++ q.havingWords l ≠ [] := List.append_ne_nil_of_left_ne_nil hnames _
  have htext : joined (q.tailWords l) = flat [q.source.text] ++ ((l.group ++ ' ' :: l.by_)
      ++ ' ' :: joined (nameWords q.groupBy ++ q.havingWords l)) := by
    unfold tailWords groupWords
    rw [if_neg hgroup, List.cons_append, List.cons_append, joined_cons (List.cons_ne_nil _ _),
      joined_cons (List.cons_ne_nil _ _),
      joined_cons hne]
    simp [flat]
  have hspells : (l.group ++ ' ' :: l.by_).map Char.toUpper = Keyword.groupBy := by
    rw [List.map_append, List.map_cons, l.group_spells, l.by_spells]
    rfl
  rw [htext] at hupper ⊢
  refine find_some target_groupBy ?_ hspells (isAlphanum_of_mem_reserved (by decide)).2 rfl rfl hupper
  exact List.forall_mem_singleton.mpr (q.avoids_havingWords l _ List.mem_cons_self |>.imp_right
    fun _ => q.source.avoids (by decide))

theorem find_having_none (hhaving : q.having = none) :
    findKeyword u (joined (q.words l)) Keyword.having (q.head l).length = .ok none := by
  obtain ⟨hascii, hupper⟩ := isAscii_keyword (show Keyword.having ∈ reserved by decide)
  refine q.find_behind u l (fun _ => none) (target_self (by decide)) hascii hupper
    fun upper index hupper => ?_
  have hwords : q.tailWords l = q.source.text :: q.groupWords l := by
    unfold tailWords havingWords
    rw [hhaving, Option.elim_none, List.append_nil]
  rw [hwords] at hupper ⊢
  exact find_none_joined (target_self (by decide)) (List.cons_ne_nil _ _) (q.avoids_groupWords l) hupper

theorem tail_having {having : Having} (hhaving : q.having = some having) :
    joined (q.tailWords l) = flat (q.source.text :: q.groupWords l)
      ++ (l.having ++ ' ' :: having.text) := by
  unfold tailWords havingWords
  have hlast : joined [l.having, having.text] = l.having ++ ' ' :: having.text := rfl
  rw [hhaving, Option.elim_some, ← List.cons_append, joined_append (List.cons_ne_nil _ _)
    (List.cons_ne_nil _ _), hlast,
    flat_eq_joined (List.cons_ne_nil _ _), List.append_assoc]
  rfl

theorem find_having_some {having : Having} (hhaving : q.having = some having) :
    findKeyword u (joined (q.words l)) Keyword.having (q.head l).length
      = .ok (some ((q.head l).length + 1 + (flat (q.source.text :: q.groupWords l)).length)) := by
  obtain ⟨hascii, hupper⟩ := isAscii_keyword (show Keyword.having ∈ reserved by decide)
  refine q.find_behind u l (fun index => some (index + (flat (q.source.text :: q.groupWords l)).length))
    (target_self (by decide)) hascii hupper fun upper index hupper => ?_
  rw [q.tail_having l hhaving] at hupper ⊢
  exact find_some (target_self (by decide)) (q.avoids_groupWords l) l.having_spells
    (isAlphanum_of_mem_reserved (by decide)).2
    rfl rfl hupper

/-! ### The clauses -/

/-- The select clause. -/
theorem select_clause : strip
    (((joined (q.words l)).take (7 + (flat (itemWords l.as q.items)).length)).drop 6)
    = joined (itemWords l.as q.items) := by
  have hitems : itemWords l.as q.items ≠ [] := itemWords_ne_nil q.items_ne
  have htext : joined (q.words l) = l.select ++ ((' ' :: flat (itemWords l.as q.items))
      ++ (l.from_ ++ ' ' :: joined (q.tailWords l))) := by
    rw [joined_words_eq, head]
    simp
  have hlength : l.select.length = 6 := length_of_spells l.select_spells
  have hindex : 7 + (flat (itemWords l.as q.items)).length
      = l.select.length + (' ' :: flat (itemWords l.as q.items)).length := by
    rw [hlength, List.length_cons]
    omega
  have hmiddle := middle_of_append l.select (' ' :: flat (itemWords l.as q.items))
    (l.from_ ++ ' ' :: joined (q.tailWords l))
  rw [← htext, ← hindex, hlength, flat_eq_joined hitems] at hmiddle
  rw [flat_eq_joined hitems, hmiddle]
  refine strip_joined ?_ hitems isSpace_blank isSpace_blank
  exact forall_mem_itemWords fun item n comma hcomma word hword =>
    (item.sound_words (l.as_spells n) hcomma word hword).word

/-- The source, where a clause follows. -/
theorem source_clause {words : List Text} (hwords : words ≠ [])
    (hne : q.groupWords l ++ q.havingWords l = words) :
    strip (((joined (q.words l)).take ((q.head l).length + 1 + (flat [q.source.text]).length)).drop
      (q.head l).length)
      = q.source.text := by
  have htext : joined (q.words l) = q.head l ++ ((' ' :: flat [q.source.text]) ++ joined words) := by
    rw [joined_words_eq, tailWords, hne, joined_cons hwords]
    simp [flat]
  have hmiddle := middle_of_append (q.head l) (' ' :: flat [q.source.text]) (joined words)
  rw [← htext, List.length_cons] at hmiddle
  have hflat : flat [q.source.text] = q.source.text ++ [' '] := by simp [flat]
  rw [Nat.add_assoc, Nat.add_comm 1, hmiddle, hflat]
  exact strip_word q.source.sound.word isSpace_blank isSpace_blank

/-- The source, where no clause follows. -/
theorem source_clause_last (hnone : q.groupWords l ++ q.havingWords l = []) :
    strip (((joined (q.words l)).take (joined (q.words l)).length).drop (q.head l).length)
      = q.source.text := by
  have htext : joined (q.words l) = q.head l ++ ' ' :: q.source.text := by
    rw [joined_words_eq, tailWords, hnone]
    rfl
  have hstrip := strip_word q.source.sound.word isSpace_blank isSpace_nil
  rw [List.append_nil] at hstrip
  rw [List.take_length, htext, List.drop_left]
  exact hstrip

theorem sound_nameWords : ∀ word ∈ nameWords q.groupBy, Word word :=
  forall_mem_nameWords (fun name _ hcomma => (name.sound_comma hcomma).word) q.groupBy

theorem nameWords_ne_nil (hgroup : q.groupBy ≠ []) : nameWords q.groupBy ≠ [] := by
  obtain ⟨name, names, hcons⟩ := List.exists_cons_of_ne_nil hgroup
  rw [hcons]
  cases names <;> exact List.cons_ne_nil _ _

/-- What stands before the names of GROUP BY. -/
def groupHead : Text := q.head l ++ ' ' :: (flat [q.source.text] ++ (l.group ++ ' ' :: l.by_))

theorem length_groupHead : (q.groupHead l).length
    = (q.head l).length + 1 + (flat [q.source.text]).length + Keyword.groupBy.length := by
  have hgroup := length_of_spells l.group_spells
  have hby := length_of_spells l.by_spells
  have hfive : Keyword.group.length = 5 := rfl
  have htwo : Keyword.by_.length = 2 := rfl
  have height : Keyword.groupBy.length = 8 := rfl
  unfold groupHead
  rw [List.length_append, List.length_cons, List.length_append, List.length_append,
    List.length_cons, hgroup, hby]
  omega

/-- The GROUP BY clause, up to HAVING. -/
theorem group_clause {having : Having} (hgroup : q.groupBy ≠ []) (hhaving : q.having = some having) :
    strip (((joined (q.words l)).take
      ((q.head l).length + 1 + (flat (q.source.text :: q.groupWords l)).length)).drop
      ((q.head l).length + 1 + (flat [q.source.text]).length + Keyword.groupBy.length))
        = joined (nameWords q.groupBy) := by
  have hnames := q.nameWords_ne_nil hgroup
  have hwords : flat (q.source.text :: q.groupWords l)
      = flat [q.source.text] ++ ((l.group ++ ' ' :: l.by_) ++ ' ' :: flat (nameWords q.groupBy)) := by
    unfold groupWords
    rw [if_neg hgroup]
    simp [flat]
  have htext : joined (q.words l)
    = q.groupHead l ++ ((' ' :: flat (nameWords q.groupBy))
    ++ (l.having ++ ' ' :: having.text)) := by
    rw [joined_words_eq, q.tail_having l hhaving, hwords, groupHead]
    simp
  have hindex : (q.head l).length + 1 + (flat (q.source.text :: q.groupWords l)).length
      = (q.groupHead l).length + (' ' :: flat (nameWords q.groupBy)).length := by
    rw [hwords, groupHead]
    simp only [List.length_append, List.length_cons]
    omega
  rw [hindex, ← length_groupHead, htext, middle_of_append, flat_eq_joined hnames]
  exact strip_joined q.sound_nameWords hnames isSpace_blank isSpace_blank

/-- The GROUP BY clause, up to the end. -/
theorem group_clause_last (hgroup : q.groupBy ≠ []) (hhaving : q.having = none) :
    strip (((joined (q.words l)).take (joined (q.words l)).length).drop
      ((q.head l).length + 1 + (flat [q.source.text]).length + Keyword.groupBy.length))
        = joined (nameWords q.groupBy) := by
  have hnames := q.nameWords_ne_nil hgroup
  have htext : joined (q.words l) = q.groupHead l ++ ' ' :: joined (nameWords q.groupBy) := by
    rw [joined_words_eq, tailWords, groupWords, havingWords, hhaving, if_neg hgroup,
      Option.elim_none, List.append_nil,
      joined_cons (List.cons_ne_nil _ _), joined_cons (List.cons_ne_nil _ _), joined_cons hnames,
        groupHead]
    simp [flat]
  have hstrip := strip_joined q.sound_nameWords hnames isSpace_blank isSpace_nil
  rw [List.append_nil] at hstrip
  rw [List.take_length, ← length_groupHead, htext, List.drop_left]
  exact hstrip

theorem having_clause {having : Having} (hhaving : q.having = some having) :
    strip ((joined (q.words l)).drop
      ((q.head l).length + 1 + (flat (q.source.text :: q.groupWords l)).length
        + Keyword.having.length)) = having.text := by
  have htext : joined (q.words l)
      = (q.head l ++ ' ' :: (flat (q.source.text :: q.groupWords l) ++ l.having))
        ++ ' ' :: having.text := by
    rw [joined_words_eq, q.tail_having l hhaving]
    simp
  have hlength : (q.head l ++ ' ' :: (flat (q.source.text :: q.groupWords l) ++ l.having)).length
      = (q.head l).length + 1 + (flat (q.source.text :: q.groupWords l)).length
        + Keyword.having.length := by
    have hspells := length_of_spells l.having_spells
    simp only [List.length_append, List.length_cons, hspells]
    omega
  have hstrip := strip_word having.sound.word isSpace_blank isSpace_nil
  rw [List.append_nil] at hstrip
  rw [← hlength, htext, List.drop_left]
  exact hstrip

theorem strip_source : strip q.source.text = q.source.text := by
  have hstrip := strip_word q.source.sound.word isSpace_nil isSpace_nil
  rw [List.append_nil, List.nil_append] at hstrip
  exact hstrip

/-- **The normal form of a query is parsed.** -/
theorem parsePlan_words : parsePlan u (joined (q.words l)) = .ok q.plan := by
  -- the six letters of SELECT, and the blank behind them
  have hselect : u.upper ((joined (q.words l)).take 6) = Keyword.select := by
    have hsix : l.select.length = 6 := length_of_spells l.select_spells
    have htake : (joined (q.words l)).take 6 = l.select := by
      rw [joined_words_eq, head, List.append_assoc, ← hsix, List.take_left]
    rw [htake, u.upper_ascii _ (sound_of_spells (by decide) l.select_spells).ascii, l.select_spells]
  have hspace : ((joined (q.words l))[6]?).any isSpace = true := by
    have hsix : l.select.length = 6 := length_of_spells l.select_spells
    rw [joined_words_eq, head, List.append_assoc, List.getElem?_append_right (by rw [hsix]), hsix]
    rfl
  -- no clause is empty
  have hclause : joined (itemWords l.as q.items) ≠ [] := by
    rw [joined_itemWords]
    obtain ⟨item, items, hcons⟩ := List.exists_cons_of_ne_nil q.items_ne
    rw [hcons]
    have hpart := (item.part_words (l.as_spells items.length)).ne_nil
    cases items with
    | nil => exact hpart
    | cons next items => exact List.append_ne_nil_of_left_ne_nil hpart _
  have hsource : q.source.text ≠ [] := q.source.sound.word.ne_nil
  have hselects := parseSelect_joined u l.as_spells q.items_ne
  have hhead := (q.length_head l).symm
  have hnever : ∀ h : Option ℕ, ∀ group ∈ (none : Option ℕ), ∀ having ∈ h, group ≤ having :=
    fun _ _ hg => nomatch hg
  -- with and without GROUP BY, and for each with and without HAVING
  by_cases hgroup : q.groupBy = []
  · have hgroupWords : q.groupWords l = [] := if_pos hgroup
    have hfind := q.find_group_none u l hgroup
    -- neither: the source is the last clause
    cases hhaving : q.having with
    | none =>
      have hhavingWords : q.havingWords l = [] := by rw [havingWords, hhaving, Option.elim_none]
      have hclauses : q.groupWords l ++ q.havingWords l = [] := by
        rw [hgroupWords, hhavingWords, List.append_nil]
      have hplan : q.plan = ⟨q.items.map Item.select, q.source.text, [], none⟩ := by
        rw [plan, hgroup, hhaving]; rfl
      have hsecond := q.find_having_none u l hhaving
      rw [← hhead] at hfind hsecond
      rw [hplan]
      refine parsePlan_of u none none hselect hspace (q.find_from u l) hfind hsecond (hnever none)
        (q.select_clause l) ?_ rfl rfl hclause
        hsource (fun h => nomatch h) (fun h => nomatch h) hselects rfl q.strip_source rfl
      rw [hhead]
      exact q.source_clause_last l hclauses
    -- HAVING alone: it ends the source clause
    | some having =>
      have hhavingWords : q.havingWords l = [l.having, having.text] := by
        rw [havingWords, hhaving, Option.elim_some]
      have hclauses : q.groupWords l ++ q.havingWords l = [l.having, having.text] := by
        rw [hgroupWords, hhavingWords, List.nil_append]
      have hplan : q.plan = ⟨q.items.map Item.select, q.source.text, [], some having.text⟩ := by
        rw [plan, hgroup, hhaving]; rfl
      have hsecond := q.find_having_some u l hhaving
      have hthird := q.having_clause l hhaving
      rw [hgroupWords] at hsecond hthird
      have hstrip := strip_word having.sound.word isSpace_nil isSpace_nil
      rw [List.append_nil, List.nil_append] at hstrip
      rw [← hhead] at hfind hsecond
      rw [hplan]
      refine parsePlan_of u none (some having.text) hselect hspace (q.find_from u l) hfind hsecond
        (hnever _) (q.select_clause l) ?_ rfl ?_ hclause
        hsource (fun h => nomatch h) ?_ hselects rfl q.strip_source ?_
      · rw [hhead]
        exact q.source_clause l (List.cons_ne_nil _ _) hclauses
      · rw [hhead]
        exact congrArg some hthird
      · exact fun h => having.ne_nil (Option.some.inj h)
      · exact congrArg some hstrip
  · -- GROUP BY: it ends the source clause, and HAVING, if there, ends its own
    have hfind := q.find_group_some u l hgroup
    have hgroupWords : q.groupWords l ≠ [] := by
      rw [groupWords, if_neg hgroup]
      exact List.cons_ne_nil _ _
    have hclauses : q.groupWords l ++ q.havingWords l ≠ [] :=
      List.append_ne_nil_of_left_ne_nil hgroupWords _
    have hnames : joined (nameWords q.groupBy) ≠ [] := by
      obtain ⟨name, names, hcons⟩ := List.exists_cons_of_ne_nil hgroup
      rw [joined_nameWords, hcons]
      cases names with
      | nil => exact name.ne_nil
      | cons next names => exact List.append_ne_nil_of_left_ne_nil name.ne_nil _
    cases hhaving : q.having with
    | none =>
      have hplan : q.plan = ⟨q.items.map Item.select, q.source.text, q.groupBy.map Name.text,
        none⟩ := by rw [plan, hhaving]; rfl
      have hsecond := q.find_having_none u l hhaving
      rw [← hhead] at hfind hsecond
      rw [hplan]
      refine parsePlan_of u (some (joined (nameWords q.groupBy))) none hselect hspace
        (q.find_from u l) hfind hsecond (fun _ _ _ h => nomatch h) (q.select_clause l) ?_ ?_ rfl
        hclause hsource ?_ (fun h => nomatch h) hselects ?_ q.strip_source rfl
      · rw [hhead]
        exact q.source_clause l hclauses rfl
      · rw [hhead]
        exact congrArg some (q.group_clause_last l hgroup hhaving)
      · exact fun h => hnames (Option.some.inj h)
      · exact split_nameWords hgroup
    | some having =>
      have hplan : q.plan = ⟨q.items.map Item.select, q.source.text, q.groupBy.map Name.text,
        some having.text⟩ := by
        rw [plan, hhaving]
        rfl
      have hsecond := q.find_having_some u l hhaving
      have hstrip := strip_word having.sound.word isSpace_nil isSpace_nil
      rw [List.append_nil, List.nil_append] at hstrip
      -- HAVING comes after the group words, so the source ends at the first of the two
      have horder : (flat [q.source.text]).length
        ≤ (flat (q.source.text :: q.groupWords l)).length := by
        have hcons : flat (q.source.text :: q.groupWords l) = flat [q.source.text] ++ flat
          (q.groupWords l) :=
          flat_append [q.source.text] (q.groupWords l)
        rw [hcons, List.length_append]
        exact Nat.le_add_right _ _
      rw [← hhead] at hfind hsecond
      rw [hplan]
      refine parsePlan_of u (some (joined (nameWords q.groupBy))) (some having.text) hselect hspace
        (q.find_from u l) hfind hsecond ?_ (q.select_clause l) ?_ ?_ ?_ hclause
        hsource ?_ ?_ hselects ?_ q.strip_source ?_
      · intro group hg having' hh
        rw [← Option.some.inj hg, ← Option.some.inj hh]
        omega
      · rw [hhead]
        have hmin : min ((q.head l).length + 1 + (flat [q.source.text]).length)
            ((q.head l).length + 1 + (flat (q.source.text :: q.groupWords l)).length)
            = (q.head l).length + 1 + (flat [q.source.text]).length := min_eq_left (by omega)
        simp only [Option.toList_some, List.singleton_append, List.min?_cons', List.foldl_cons,
          List.foldl_nil, hmin,
          Option.getD_some]
        exact q.source_clause l hclauses rfl
      · rw [hhead]
        exact congrArg some (q.group_clause l hgroup hhaving)
      · rw [hhead]
        exact congrArg some (q.having_clause l hhaving)
      · exact fun h => hnames (Option.some.inj h)
      · exact fun h => having.ne_nil (Option.some.inj h)
      · exact split_nameWords hgroup
      · exact congrArg some hstrip

/-- **Parsing inverts printing**, whatever the white space and the case of the keywords. -/
theorem parse_print (hlength : (q.print l).length ≤ 4096) : parse u (q.print l) = .ok q.plan := by
  have hwords := fun word hword => (q.sound_words l word hword).word
  have hne : q.words l ≠ [] := List.cons_ne_nil _ _
  have hstrip : strip (q.print l) = spread l.blank (q.words l) :=
    strip_spread hwords hne l.lead_space l.trail_space
  have hshort : ¬ 4096 < (spread l.blank (q.words l)).length := by
    unfold print at hlength
    rw [List.length_append, List.length_append] at hlength
    omega
  unfold parse
  simp only [hstrip, hshort, if_false, normalize_spread l.blank_space hwords hne]
  exact q.parsePlan_words u l

end Query

/-- The tables of Unicode, for ASCII only. -/
def asciiOnly : Unicode where
  upper text := text.map Char.toUpper
  lower text := text.map Char.toLower
  isAlnum text := !text.isEmpty && text.all Char.isAlphanum
  upper_ascii _ _ := rfl
  lower_ascii _ _ := rfl
  isAlnum_ascii _ _ := rfl

/-- `SELECT p99(ms) AS tail FROM s`. -/
def tailQuery : Query where
  items := [⟨.agg .p99 (some ⟨['m', 's'], ⟨rfl, forall_mem_of_all (by decide)⟩, by decide⟩),
    some ⟨['t', 'a', 'i', 'l'], ⟨rfl, forall_mem_of_all (by decide)⟩, by decide⟩⟩]
  items_ne := List.cons_ne_nil _ _
  source := .name ⟨['s'], ⟨rfl, forall_mem_of_all (by decide)⟩, by decide⟩
  groupBy := []
  having := none

/-- Keywords in small letters, and a tabulator between the words. -/
def tabbed : Layout where
  select := ['s', 'e', 'l', 'e', 'c', 't']
  from_ := ['f', 'r', 'o', 'm']
  group := Keyword.group
  by_ := Keyword.by_
  having := Keyword.having
  as _ := ['a', 's']
  blank _ := ['\t']
  lead := []
  trail := ['\n']
  select_spells := by decide
  from_spells := by decide
  group_spells := by decide
  by_spells := by decide
  having_spells := by decide
  as_spells _ := by decide
  blank_space _ := ⟨List.cons_ne_nil _ _, forall_mem_of_all (by decide)⟩
  lead_space := forall_mem_of_all (by decide)
  trail_space := forall_mem_of_all (by decide)

theorem parse_print_tail :
    parse asciiOnly (tailQuery.print tabbed)
      = .ok ⟨[.agg .p99 ['m', 's'] ['t', 'a', 'i', 'l']], ['s'], [], none⟩ :=
  Query.parse_print asciiOnly tailQuery tabbed (by decide)

end Sketchlog.Sql
