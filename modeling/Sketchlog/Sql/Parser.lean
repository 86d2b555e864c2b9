import Sketchlog.Python.Text

/-!
# `sql.py`: the parser

`SQLParser` has no grammar: it collapses the white space of the query, finds the keywords one by
one, and splits the clauses at their commas. The three scanners each keep the quote that is open
and, two of them, the depth of the parentheses.
-/

namespace Sketchlog.Sql

/-- A `str`. -/
abbrev Text := List Char

def IsAscii (text : Text) : Prop := ∀ c ∈ text, c.toNat < 128

/-- What `str` takes from the tables of Unicode: only for ASCII are they written out. -/
structure Unicode where
  upper : Text → Text
  lower : Text → Text
  isAlnum : Text → Bool
  upper_ascii : ∀ text, IsAscii text → upper text = text.map Char.toUpper
  lower_ascii : ∀ text, IsAscii text → lower text = text.map Char.toLower
  isAlnum_ascii : ∀ text, IsAscii text → isAlnum text = (!text.isEmpty && text.all Char.isAlphanum)

/-- What is raised. -/
inductive Failure where
  | valueError (message : String)
  | indexError
deriving DecidableEq

def isQuote (c : Char) : Bool := c = '\'' || c = '"'

/-! ## The scanners

Three loops over the characters that keep track of quotes, two of them of parentheses as well. -/

/-- The loop of `_normalize_whitespace`. -/
def normalizeFrom (quote : Option Char) (pending : Bool) (output : Text) : Text → Text
  | [] => output
  | c :: rest =>
    match quote with
    | some q =>
      if c = q then
        match rest with
        | c' :: rest' =>
          if c' = q then normalizeFrom (some q) pending (output ++ [c, c']) rest'
          else normalizeFrom none pending (output ++ [c]) (c' :: rest')
        | [] => normalizeFrom none pending (output ++ [c]) []
      else normalizeFrom (some q) pending (output ++ [c]) rest
    | none =>
      let spaced := if pending ∧ output ≠ [] then output ++ [' '] else output
      if isQuote c then normalizeFrom (some c) false (spaced ++ [c]) rest
      else if isSpace c then normalizeFrom none true output rest
      else normalizeFrom none false (spaced ++ [c]) rest

/-- `_normalize_whitespace`. -/
def normalizeWhitespace (text : Text) : Text := normalizeFrom none false [] text

/-- The test at one place: the keyword stands there, with white space or an end on both sides.
`after_ok` looks at `text[end]` whatever `before_ok` is. -/
def keywordAt (upper target : Text) (index : ℕ) (before : Option Char) (rest : Text) :
    Except Failure Bool :=
  if target <+: upper.drop index then
    match rest.drop target.length with
    | [] => if rest.length < target.length then .error .indexError else .ok (before.all isSpace)
    | c :: _ => .ok (before.all isSpace && isSpace c)
  else .ok false

/-- The loop of `_find_keyword`; `before` is the character before `index`. -/
def findKeywordFrom (upper target : Text) (quote : Option Char) (depth index : ℕ)
    (before : Option Char) :
    Text → Except Failure (Option ℕ)
  | [] => if quote ≠ none ∨ depth ≠ 0 then .error (.valueError "Unbalanced SQL expression")
      else .ok none
  | c :: rest =>
    match quote with
    | some q =>
      if c = q then
        match rest with
        | c' :: rest' =>
          if c' = q then findKeywordFrom upper target (some q) depth (index + 2) (some c') rest'
          else findKeywordFrom upper target none depth (index + 1) (some c) (c' :: rest')
        | [] => findKeywordFrom upper target none depth (index + 1) (some c) []
      else findKeywordFrom upper target (some q) depth (index + 1) (some c) rest
    | none =>
      if isQuote c then findKeywordFrom upper target (some c) depth (index + 1) (some c) rest
      else if c = '(' then findKeywordFrom upper target none (depth + 1) (index + 1) (some c) rest
      else if c = ')' then
        if depth = 0 then .error (.valueError "Unbalanced SQL parentheses")
        else findKeywordFrom upper target none (depth - 1) (index + 1) (some c) rest
      else if depth = 0 then do
        if ← keywordAt upper target index before (c :: rest) then return some index
        findKeywordFrom upper target none depth (index + 1) (some c) rest
      else findKeywordFrom upper target none depth (index + 1) (some c) rest

/-- `_find_keyword`; `-1` is `none`. -/
def findKeyword (u : Unicode) (text keyword : Text) (start : ℕ) : Except Failure (Option ℕ) :=
  findKeywordFrom (u.upper text) (u.upper keyword) none 0 start (if start = 0 then none
    else text[start - 1]?) (text.drop start)

/-- What ends a part: it is stripped, and not empty. -/
def closePart (parts : List Text) (current : Text) : Except Failure (List Text) :=
  if strip current = [] then .error (.valueError "Empty SQL expression")
    else .ok (parts ++ [strip current])

/-- The loop of `_split_top_level`; `current` is the part that is being read. -/
def splitFrom (quote : Option Char) (depth : ℕ) (parts : List Text) (current : Text) :
    Text → Except Failure (List Text)
  | [] =>
    if quote ≠ none ∨ depth ≠ 0 then .error (.valueError "Unbalanced SQL expression")
      else closePart parts current
  | c :: rest =>
    match quote with
    | some q =>
      if c = q then
        match rest with
        | c' :: rest' =>
          if c' = q then splitFrom (some q) depth parts (current ++ [c, c']) rest'
          else splitFrom none depth parts (current ++ [c]) (c' :: rest')
        | [] => splitFrom none depth parts (current ++ [c]) []
      else splitFrom (some q) depth parts (current ++ [c]) rest
    | none =>
      if isQuote c then splitFrom (some c) depth parts (current ++ [c]) rest
      else if c = '(' then splitFrom none (depth + 1) parts (current ++ [c]) rest
      else if c = ')' then
        if depth = 0 then .error (.valueError "Unbalanced SQL parentheses")
        else splitFrom none (depth - 1) parts (current ++ [c]) rest
      else if c = ',' ∧ depth = 0 then do
        let parts ← closePart parts current
        splitFrom none depth parts [] rest
      else splitFrom none depth parts (current ++ [c]) rest

/-- `_split_top_level`. -/
def splitTopLevel (text : Text) : Except Failure (List Text) := splitFrom none 0 [] [] text

/-! ## The plan -/

inductive Func where
  | p99
  | p95
  | p50
  | uniqueCount
  | eventCount
deriving DecidableEq

namespace Func

def text : Func → Text
  | p99 => ['p', '9', '9']
  | p95 => ['p', '9', '5']
  | p50 => ['p', '5', '0']
  | uniqueCount => ['u', 'n', 'i', 'q', 'u', 'e', '_', 'c', 'o', 'u', 'n', 't']
  | eventCount => ['e', 'v', 'e', 'n', 't', '_', 'c', 'o', 'u', 'n', 't']

/-- The other name of `unique_count`. -/
def countUnique : Text := ['c', 'o', 'u', 'n', 't', '_', 'u', 'n', 'i', 'q', 'u', 'e']

/-- The set of the functions that are supported. -/
def ofText? (text : Text) : Option Func :=
  [p99, p95, p50, uniqueCount, eventCount].find? fun func => func.text = text

end Func

/-- One entry of `selects`. -/
inductive Select where
  | agg (func : Func) (col alias_ : Text)
  | col (col alias_ : Text)
deriving DecidableEq

/-- The result of `parse`. -/
structure Plan where
  selects : List Select
  source : Text
  groupBy : List Text
  having : Option Text
deriving DecidableEq

namespace Keyword

def select : Text := ['S', 'E', 'L', 'E', 'C', 'T']

def from_ : Text := ['F', 'R', 'O', 'M']

def group : Text := ['G', 'R', 'O', 'U', 'P']

def by_ : Text := ['B', 'Y']

def groupBy : Text := group ++ ' ' :: by_

def having : Text := ['H', 'A', 'V', 'I', 'N', 'G']

def as : Text := ['A', 'S']

end Keyword

variable (u : Unicode)

/-- `text.strip("'\"")`. -/
def stripQuotes (text : Text) : Text := (text.dropWhile isQuote).rdropWhile isQuote

/-- The aggregate of an expression that ends with a closing parenthesis and has its first opening
one at `openParen`. -/
def parseAgg (expr alias_ : Text) (openParen : ℕ) : Except Failure Select := do
  let func := u.lower (strip (expr.take openParen))
  unless u.isAlnum (func.map fun c => if c = '_' then 'a' else c) do
    throw (.valueError "Invalid aggregate function name")
  let func := if func = Func.countUnique then Func.uniqueCount.text else func
  match Func.ofText? func with
  | none => throw (.valueError ("Unsupported aggregate function: " ++ String.ofList func))
  | some f =>
    let col := strip (expr.dropLast.drop (openParen + 1))
    if col = [] then throw (.valueError (String.ofList func ++ " requires an argument"))
    if f = .eventCount then
      match ← splitTopLevel col with
      | [_] => return .agg f col alias_
      | [_, arg] => return .agg f (stripQuotes arg) alias_
      | _ => throw (.valueError "event_count accepts one key or (column, key)")
    else return .agg f col alias_

/-- The expression of a part, and its alias; without AS both are the part. -/
def splitAlias (part : Text) : Except Failure (Text × Text) := do
  match ← findKeyword u part Keyword.as 0 with
  | some aliasIndex =>
    let expr := strip (part.take aliasIndex)
    let alias_ := strip (part.drop (aliasIndex + Keyword.as.length))
    if expr = [] ∨ alias_ = [] then throw (.valueError "AS requires an expression and alias")
    return (expr, alias_)
  | none => return (part, part)

/-- A column, or an aggregate: with an opening parenthesis behind something, and a closing one at
the end. -/
def parseExpr (expr alias_ : Text) : Except Failure Select :=
  match expr.findIdx? (· = '(') with
  | some openParen =>
    if 0 < openParen ∧ expr.getLast? = some ')' then parseAgg u expr alias_ openParen
      else .ok (.col expr alias_)
  | none => .ok (.col expr alias_)

/-- One round of the loop of `_parse_select`. -/
def parseItem (part : Text) : Except Failure Select := do
  let (expr, alias_) ← splitAlias u (strip part)
  parseExpr u expr alias_

/-- `_parse_select`. -/
def parseSelect (clause : Text) : Except Failure (List Select) := do
  let parts ← splitTopLevel clause
  parts.mapM (parseItem u)

/-- `parse`, for `self.query`. -/
def parsePlan (query : Text) : Except Failure Plan := do
  unless u.upper (query.take 6) = Keyword.select do throw (.valueError "Query must start with SELECT")
  unless (query[6]?).any isSpace do throw (.valueError "SELECT must be followed by an expression")
  match ← findKeyword u query Keyword.from_ 7 with
  | none => throw (.valueError "Query must contain FROM")
  | some fromIndex =>
    let selectClause := strip ((query.take fromIndex).drop 6)
    let fromStart := fromIndex + Keyword.from_.length
    let groupIndex ← findKeyword u query Keyword.groupBy fromStart
    let havingIndex ← findKeyword u query Keyword.having fromStart
    if groupIndex.any fun group => havingIndex.any fun having => having < group then
      throw (.valueError "HAVING must follow GROUP BY")
    let fromEnd := ((groupIndex.toList ++ havingIndex.toList).min?).getD query.length
    let fromClause := strip ((query.take fromEnd).drop fromStart)
    let groupByClause := groupIndex.map fun group =>
      strip ((query.take (havingIndex.getD query.length)).drop (group + Keyword.groupBy.length))
    let havingClause := havingIndex.map fun having =>
      strip (query.drop (having + Keyword.having.length))
    if selectClause = [] ∨ fromClause = [] then
      throw (.valueError "SELECT and FROM clauses must not be empty")
    if groupByClause = some [] then throw (.valueError "GROUP BY must not be empty")
    if havingClause = some [] then throw (.valueError "HAVING must not be empty")
    let selects ← parseSelect u selectClause
    let groupBy ← match groupByClause with
      | some clause => splitTopLevel clause
      | none => pure []
    return ⟨selects, strip fromClause, groupBy, havingClause.map strip⟩

/-- `SQLParser(query).parse()`. -/
def parse (query : Text) : Except Failure Plan := do
  let stripped := strip query
  if 4096 < stripped.length then throw (.valueError "SQL query exceeds 4096 characters")
  parsePlan u (normalizeWhitespace stripped)

end Sketchlog.Sql
