import Sketchlog.Refine.SqlKeywords

/-!
# The grammar of the queries

What the parser is for: select items with or without an alias, a source, a GROUP BY list and a
HAVING text, printed as words with white space between them.
-/

namespace Sketchlog.Sql

open Nesting

/-! ## The grammar

Queries of the dialect: items, a source, and the clauses that may be missing. -/

/-- The words that are no names, in any case. -/
def reserved : List Text :=
  [Keyword.select, Keyword.from_, Keyword.group, Keyword.by_, Keyword.having, Keyword.as]

def isNameStart (c : Char) : Bool := c.isAlpha || c = '_'

def isNameChar (c : Char) : Bool := c.isAlphanum || c = '_'

/-- An identifier that is no keyword. -/
structure Name where
  text : Text
  valid : text.head?.any isNameStart = true ∧ ∀ c ∈ text, isNameChar c = true
  free : text.map Char.toUpper ∉ reserved

/-- What is selected: a column, or an aggregate over a column or `*`. -/
inductive Expr where
  | col (name : Name)
  | agg (func : Func) (arg : Option Name)

structure Item where
  expr : Expr
  alias_ : Option Name

/-- A name, or a string in quotes, its inner quotes doubled. -/
inductive Source where
  | name (ident : Name)
  | quoted (quote : Char) (content : Text) (isQuote_quote : isQuote quote = true)
      (ascii : IsAscii content)

/-- A HAVING text. -/
structure Having where
  text : Text
  ne_nil : text ≠ []
  ascii : IsAscii text
  balanced : Balanced text
  normal : normalizeWhitespace text = text
  free : ∀ keyword ∈ reserved, Avoids keyword text

structure Query where
  items : List Item
  items_ne : items ≠ []
  source : Source
  groupBy : List Name
  having : Option Having

/-! ## Its plan -/

def argText (arg : Option Name) : Text := arg.elim ['*'] Name.text

namespace Expr

def text : Expr → Text
  | col name => name.text
  | agg func arg => func.text ++ '(' :: (argText arg ++ [')'])

def select (alias_ : Text) : Expr → Select
  | col name => .col name.text alias_
  | agg func arg => .agg func (argText arg) alias_

end Expr

/-- Without an alias the printed expression is the alias. -/
def Item.select (item : Item) : Select := item.expr.select (item.alias_.elim item.expr.text Name.text)

def Source.text : Source → Text
  | name ident => ident.text
  | quoted quote content _ _ => Nesting.quoted quote content

def Query.plan (q : Query) : Plan :=
  ⟨q.items.map Item.select, q.source.text, q.groupBy.map Name.text, q.having.map Having.text⟩

/-! ## Printing

A query is printed as words, with white space and capitals as the layout says. -/

/-- The spelling of the keywords and the white space: of every AS, and between any two words. -/
structure Layout where
  select : Text
  from_ : Text
  group : Text
  by_ : Text
  having : Text
  as : ℕ → Text
  blank : ℕ → Text
  lead : Text
  trail : Text
  select_spells : select.map Char.toUpper = Keyword.select
  from_spells : from_.map Char.toUpper = Keyword.from_
  group_spells : group.map Char.toUpper = Keyword.group
  by_spells : by_.map Char.toUpper = Keyword.by_
  having_spells : having.map Char.toUpper = Keyword.having
  as_spells : ∀ n, (as n).map Char.toUpper = Keyword.as
  blank_space : ∀ n, blank n ≠ [] ∧ ∀ c ∈ blank n, isSpace c = true
  lead_space : ∀ c ∈ lead, isSpace c = true
  trail_space : ∀ c ∈ trail, isSpace c = true

/-- The words of an item; `comma` is what stands behind it. -/
def Item.words (item : Item) (as comma : Text) : List Text :=
  match item.alias_ with
  | none => [item.expr.text ++ comma]
  | some name => [item.expr.text, as, name.text ++ comma]

/-- The items, with a comma behind each but the last. -/
def itemWords (as : ℕ → Text) : List Item → List Text
  | [] => []
  | [item] => item.words (as 0) []
  | item :: items => item.words (as items.length) [','] ++ itemWords as items

def nameWords : List Name → List Text
  | [] => []
  | [name] => [name.text]
  | name :: names => (name.text ++ [',']) :: nameWords names

namespace Query

variable (q : Query) (l : Layout)

def groupWords : List Text := if q.groupBy = [] then [] else l.group :: l.by_ :: nameWords q.groupBy

def havingWords : List Text := q.having.elim [] fun having => [l.having, having.text]

def words : List Text :=
  l.select :: (itemWords l.as q.items
    ++ (l.from_ :: q.source.text :: (q.groupWords l ++ q.havingWords l)))

def print : Text := l.lead ++ (spread l.blank (q.words l) ++ l.trail)

end Query

end Sketchlog.Sql
