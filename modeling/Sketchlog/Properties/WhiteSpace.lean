import Mathlib.Data.List.Forall2
import Sketchlog.Refine.SqlKeywords
import Sketchlog.Refine.SqlLexemes

/-!
# White space and commas

* `normalize_lexemes`: `_normalize_whitespace` keeps the lexemes of a text, with one blank where
  white space was between them, so that doing it twice changes nothing;
* `splitTopLevel_eq`: `_split_top_level` strips the pieces between the commas outside quotes and
  parentheses, and takes no empty one;
* `commaPieces_spec`: the pieces are the text, and none has such a comma in it.
-/

namespace Sketchlog.Sql

open Nesting

/-! ## White space -/

theorem normalize_lexemes (text : Text) :
    lexemes (normalizeWhitespace text) = lead (lexemes text) ∧ normalizeWhitespace text
      = render (lead (lexemes text)) := by
  rw [normalizeWhitespace_eq_emit]
  exact ⟨lexemes_emit false text, emit_start false text⟩

theorem lead_lead (ls : List Lexeme) : lead (lead ls) = lead ls := by
  cases ls <;> rfl

theorem normalize_idempotent (text : Text) : normalizeWhitespace (normalizeWhitespace text)
    = normalizeWhitespace text := by
  obtain ⟨hlexemes, hrender⟩ := normalize_lexemes text
  rw [(normalize_lexemes (normalizeWhitespace text)).2, hlexemes, lead_lead, hrender]

/-! ## Pieces

The pieces between top-level commas, defined by the automaton alone. -/

/-- No comma outside quotes and parentheses. -/
def NoTopComma (text : Text) : Prop :=
  ∀ pre post, text = pre ++ ',' :: post → track delimiters top pre ≠ some top

/-- The pieces between the commas outside quotes and parentheses. -/
def piecesFrom (s : State Char) (current : Text) : Text → List Text
  | [] => [current]
  | c :: rest =>
    if c = ',' ∧ s = top then current :: piecesFrom s [] rest
    else piecesFrom ((advance delimiters s c).getD s) (current ++ [c]) rest

def commaPieces (text : Text) : List Text := piecesFrom top [] text

/-- Pieces with commas between them. -/
def joinCommas (pieces : List Text) : Text := List.intercalate [','] pieces

section Pieces

variable {s : State Char} {current text : Text}

theorem piecesFrom_ne_nil : piecesFrom s current text ≠ [] := by
  fun_induction piecesFrom s current text with
  | case1 => exact List.cons_ne_nil _ _
  | case2 => exact List.cons_ne_nil _ _
  | case3 _ _ _ _ _ ih => exact ih

theorem joinCommas_cons {piece : Text} {pieces : List Text} (h : pieces ≠ []) :
    joinCommas (piece :: pieces) = piece ++ ',' :: joinCommas pieces := by
  unfold joinCommas
  rw [List.intercalate_cons_of_ne_nil h, List.append_assoc]
  rfl

/-- The pieces are the text. -/
theorem joinCommas_piecesFrom : joinCommas (piecesFrom s current text) = current ++ text := by
  fun_induction piecesFrom s current text with
  | case1 => simp [joinCommas]
  | case2 s current c rest h ih =>
    rw [joinCommas_cons piecesFrom_ne_nil, ih, h.1]
    rfl
  | case3 s current c rest h ih =>
    rw [ih, List.append_assoc]
    rfl

/-- What has been read of a piece. -/
theorem noTopComma_concat {c : Char} (hcurrent : track delimiters top current = some s)
    (hno : NoTopComma current)
    (hc : c = ',' → s ≠ top) : NoTopComma (current ++ [c]) := by
  intro pre post heq htop
  rcases List.eq_nil_or_concat post with rfl | ⟨post, d, rfl⟩
  · obtain ⟨hpre, hlast⟩ := List.append_inj' heq rfl
    subst hpre
    exact hc (List.cons.inj hlast).1 (Option.some.inj (hcurrent.symm.trans htop))
  · have hsplit : current ++ [c] = (pre ++ ',' :: post) ++ [d] := by
      rw [heq, List.concat_eq_append, List.append_assoc]
      rfl
    exact hno pre post (List.append_inj' hsplit rfl).1 htop

theorem piecesFrom_spec (hcurrent : track delimiters top current = some s) (hno : NoTopComma current)
    (htext : track delimiters s text = some top) :
    ∀ piece ∈ piecesFrom s current text, Balanced piece ∧ NoTopComma piece := by
  fun_induction piecesFrom s current text with
  | case1 s current =>
    rw [List.forall_mem_singleton]
    cases Option.some.inj htext
    exact ⟨hcurrent, hno⟩
  | case2 s current c rest h ih =>
    obtain ⟨rfl, rfl⟩ := h
    have hnil : NoTopComma [] := fun pre post heq => absurd heq (by simp)
    have hrest := ih rfl hnil <| by
      rwa [track_cons (advance_plain rfl ⟨rfl, by decide, by decide⟩)] at htext
    exact List.forall_mem_cons.mpr ⟨⟨hcurrent, hno⟩, hrest⟩
  | case3 s current c rest h ih =>
    obtain ⟨s', hadvance, hrest⟩ := Option.bind_eq_some_iff.mp htext
    rw [hadvance, Option.getD_some] at ih ⊢
    refine ih ?_ (noTopComma_concat hcurrent hno fun hc htop => h ⟨hc, htop⟩) hrest
    rw [track_append_of hcurrent, track_cons hadvance]
    rfl

end Pieces

theorem commaPieces_spec {text : Text} (h : Balanced text) :
    joinCommas (commaPieces text) = text ∧ ∀ piece ∈ commaPieces text, Balanced piece
      ∧ NoTopComma piece :=
  ⟨joinCommas_piecesFrom, piecesFrom_spec rfl (fun pre post heq => absurd heq (by simp)) h⟩

/-! ## Parts

The split of the code gives the pieces, stripped, and raises if one of them is blank. -/

/-- What `strip` leaves out is white space at the ends. -/
theorem exists_strip (text : Text) : ∃ before after, text = before ++ (strip text ++ after)
    ∧ (∀ c ∈ before, isSpace c = true) ∧ ∀ c ∈ after, isSpace c = true := by
  refine ⟨text.takeWhile isSpace, (text.dropWhile isSpace).rtakeWhile isSpace, ?_, fun c hc =>
    List.mem_takeWhile_imp hc,
    fun c hc => List.mem_rtakeWhile_imp hc⟩
  unfold strip
  rw [List.rdropWhile_append_rtakeWhile, List.takeWhile_append_dropWhile]

theorem plain_of_isSpace {c : Char} (h : isSpace c = true) : delimiters.Plain c := by
  have hne (d : Char) (hd : isSpace d = false) : c ≠ d := by
    intro heq
    rw [heq, hd] at h
    cases h
  refine ⟨?_, hne '(' (by decide), hne ')' (by decide)⟩
  show isQuote c = false
  rw [Bool.eq_false_iff]
  intro hquote
  rw [isSpace_of_isQuote hquote] at h
  cases h

/-- White space keeps every state. -/
theorem track_space {s : State Char} {space : Text} (hs : ∀ q ∈ s.quote, isQuote q = true)
    (h : ∀ c ∈ space, isSpace c = true) : track delimiters s space = some s := by
  cases hquote : s.quote with
  | none => exact track_plain hquote fun c hc => plain_of_isSpace (h c hc)
  | some q =>
    induction space with
    | nil => rfl
    | cons c space ih =>
      obtain ⟨hc, hspace⟩ := List.forall_mem_cons.mp h
      have hne : c ≠ q := by
        intro heq
        rw [heq, isSpace_of_isQuote (hs q hquote)] at hc
        cases hc
      rw [track_cons (advance_quoted hquote hne)]
      exact ih hspace

/-- A stripped piece is in balance, and has no comma of its own where the piece has none. -/
theorem strip_spec {piece : Text} (hbalanced : Balanced piece) (hno : NoTopComma piece) :
    Balanced (strip piece) ∧ NoTopComma (strip piece) := by
  obtain ⟨before, after, hpiece, hbefore, hafter⟩ := exists_strip piece
  have hnone : ∀ q ∈ (top : State Char).quote, isQuote q = true := fun _ h => nomatch h
  have hlead := track_space hnone hbefore
  constructor
  · unfold Balanced at hbalanced
    rw [hpiece, track_append_of hlead, track_append] at hbalanced
    obtain ⟨s, hs, htrail⟩ := Option.bind_eq_some_iff.mp hbalanced
    rw [track_space (isQuote_track hnone hs) hafter] at htrail
    exact hs.trans htrail
  · intro pre post heq htop
    apply hno (before ++ pre) (post ++ after)
    · rw [hpiece, heq]
      simp
    · rw [track_append_of hlead]
      exact htop

/-- The pieces, stripped; an empty one is an error. -/
theorem foldlM_closePart (parts pieces : List Text) :
    pieces.foldlM closePart parts = if ∀ piece ∈ pieces, strip piece ≠ [] then
      .ok (parts ++ pieces.map strip)
      else .error (.valueError "Empty SQL expression") := by
  induction pieces generalizing parts with
  | nil =>
    rw [if_pos fun _ h => absurd h List.not_mem_nil, List.map_nil, List.append_nil]
    rfl
  | cons piece pieces ih =>
    rw [List.foldlM_cons]
    unfold closePart
    by_cases hempty : strip piece = []
    · rw [if_pos hempty, if_neg fun h => h piece List.mem_cons_self hempty]
      rfl
    · rw [if_neg hempty]
      show pieces.foldlM closePart (parts ++ [strip piece]) = _
      rw [ih, List.map_cons, List.append_assoc]
      simp only [List.forall_mem_cons, hempty, ne_eq, not_false_eq_true, true_and]
      rfl

theorem splitFrom_eq {s : State Char} {parts : List Text} {current text : Text}
    (hs : ∀ q ∈ s.quote, isQuote q = true)
    (h : track delimiters s text = some top) :
    splitFrom s.quote s.depth parts current text = (piecesFrom s current text).foldlM closePart
      parts := by
  fun_induction piecesFrom s current text generalizing parts with
  | case1 s current =>
    cases Option.some.inj h
    show splitFrom none 0 parts current [] = closePart parts current >>= pure
    rw [bind_pure]
    simp [splitFrom]
  | case2 s current c rest heq ih =>
    obtain ⟨rfl, rfl⟩ := heq
    rw [track_cons (advance_plain rfl ⟨rfl, by decide, by decide⟩)] at h
    show splitFrom none 0 parts current (',' :: rest) = _
    rw [splitFrom_comma, List.foldlM_cons]
    congr 1
    funext parts
    exact ih hs h
  | case3 s current c rest hno ih =>
    obtain ⟨s', hadvance, hrest⟩ := Option.bind_eq_some_iff.mp h
    rw [hadvance, Option.getD_some] at ih ⊢
    rw [splitFrom_cons hs hadvance fun hc htop => hno ⟨hc, htop⟩]
    exact ih (isQuote_advance hs hadvance) hrest

/-- **The split of a text in balance.** -/
theorem splitTopLevel_eq {text : Text} (h : Balanced text) :
    splitTopLevel text = if ∀ piece ∈ commaPieces text, strip piece ≠ [] then
      .ok ((commaPieces text).map strip)
      else .error (.valueError "Empty SQL expression") := by
  have hnone : ∀ q ∈ (top : State Char).quote, isQuote q = true := fun _ h => nomatch h
  exact (splitFrom_eq hnone h).trans (foldlM_closePart [] _)

/-- **White space and commas.** Normalizing keeps the quoted segments and the runs of a text, with
one blank between those that white space is between, and is idempotent. Splitting a text in balance
gives the pieces between its commas, stripped, when none of them is blank, and an error otherwise.
-/
theorem normalize_split_spec (text : Text) :
    (normalizeWhitespace (normalizeWhitespace text) = normalizeWhitespace text
      ∧ (lexemes (normalizeWhitespace text)).map Lexeme.token = (lexemes text).map Lexeme.token
      ∧ lexemes (normalizeWhitespace text) = lead (lexemes text)
      ∧ normalizeWhitespace text = render (lead (lexemes text))
      ∧ Spells (lexemes text) text)
    ∧ (Balanced text →
      joinCommas (commaPieces text) = text
      ∧ ((∃ parts, splitTopLevel text = .ok parts) ↔ ∀ piece ∈ commaPieces text, strip piece ≠ [])
      ∧ ((∃ piece ∈ commaPieces text, strip piece = []) →
        splitTopLevel text = .error (.valueError "Empty SQL expression"))
      ∧ ∀ parts, splitTopLevel text = .ok parts → (∀ part ∈ parts, Balanced part ∧ NoTopComma part)
        ∧ List.Forall₂ (fun piece part => ∃ before after, piece = before ++ (part ++ after)
          ∧ (∀ c ∈ before, isSpace c = true) ∧ ∀ c ∈ after, isSpace c = true)
            (commaPieces text) parts) := by
  obtain ⟨hlexemes, hrender⟩ := normalize_lexemes text
  -- the normal form first; it holds of any text
  refine ⟨⟨normalize_idempotent text, ?_, hlexemes, hrender, spells_lexemes text⟩, fun hbalanced => ?_⟩
  · rw [hlexemes]
    cases lexemes text <;> rfl
  -- the parts between the top-level commas, for balanced text
  obtain ⟨hjoin, hpieces⟩ := commaPieces_spec hbalanced
  have hsplit := splitTopLevel_eq hbalanced
  refine ⟨hjoin, ?_, ?_, ?_⟩
  · rw [hsplit]
    split_ifs with hfull
    · exact ⟨fun _ => hfull, fun _ => ⟨_, rfl⟩⟩
    · -- an empty part raises
      exact ⟨fun ⟨parts, hparts⟩ => (nomatch hparts), fun h => absurd h hfull⟩
  · intro ⟨piece, hpiece, hempty⟩
    rw [hsplit, if_neg fun h => h piece hpiece hempty]
  · intro parts hparts
    rw [hsplit] at hparts
    split_ifs at hparts
    cases hparts
    refine ⟨fun part hpart => ?_, ?_⟩
    · obtain ⟨piece, hpiece, rfl⟩ := List.mem_map.mp hpart
      exact strip_spec (hpieces piece hpiece).1 (hpieces piece hpiece).2
    · rw [List.forall₂_map_right_iff, List.forall₂_same]
      exact fun piece _ => exists_strip piece

/-- `a , 'b,c'`. -/
theorem split_two : splitTopLevel ['a', ' ', ',', ' ', '\'', 'b', ',', 'c', '\'']
    = .ok [['a'], ['\'', 'b', ',', 'c', '\'']]
    ∧ ∀ part ∈ [['a'], ['\'', 'b', ',', 'c', '\'']], Balanced part ∧ NoTopComma part := by
  have hbalanced : Balanced ['a', ' ', ',', ' ', '\'', 'b', ',', 'c', '\''] := rfl
  have hsplit : splitTopLevel ['a', ' ', ',', ' ', '\'', 'b', ',', 'c', '\'']
    = .ok [['a'], ['\'', 'b', ',', 'c', '\'']] :=
    rfl
  exact ⟨hsplit, (((normalize_split_spec _).2 hbalanced).2.2.2 _ hsplit).1⟩

/-- A comma alone is in balance, and has no parts. -/
theorem comma_not_split :
    Balanced [','] ∧ ¬ ∃ parts, splitTopLevel [','] = .ok parts := by
  refine ⟨rfl, ?_⟩
  intro ⟨parts, hparts⟩
  cases hparts

end Sketchlog.Sql
