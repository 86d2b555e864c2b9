import Sketchlog.Python.Document

/-!
# `json.dumps`

The text that `json.dumps` writes, as its characters. Everything outside printable ASCII is escaped, so
the characters of a text are also its UTF-8 bytes. A Python string may hold lone surrogates, which
Lean's `Char` excludes; where `json.loads` could produce one, a string is the list of its code
points.

The digits of a float are those of `float.__repr__`, a parameter.
-/

namespace Sketchlog.Json

/-! ## Strings

Quoting and scanning of JSON strings, character by character, with the escapes of the standard
encoder: everything outside printable ASCII becomes one or two `\u` escapes. -/

/-- The four hexadecimal digits of a code unit. -/
def hexDigits (n : ℕ) : List Char :=
  [16 ^ 3, 16 ^ 2, 16, 1].map fun place => Nat.digitChar (n / place % 16)

/-- `\uXXXX`. -/
def unicodeEscape (n : ℕ) : List Char := '\\' :: 'u' :: hexDigits n

/-- One code point of a string. -/
def escapeCodePoint (n : ℕ) : List Char :=
  if n = 0x22 then ['\\', '"']
  else if n = 0x5c then ['\\', '\\']
  else if n = 0x0a then ['\\', 'n']
  else if n = 0x0d then ['\\', 'r']
  else if n = 0x09 then ['\\', 't']
  else if n = 0x0c then ['\\', 'f']
  else if n = 0x08 then ['\\', 'b']
  else if 0x20 ≤ n ∧ n ≤ 0x7e then [Char.ofNat n]
  else if n < 0x10000 then unicodeEscape n
  else unicodeEscape (0xd800 + (n - 0x10000) / 0x400) ++ unicodeEscape (0xdc00 + (n - 0x10000) % 0x400)

/-- `json.dumps(s)`, of the code points of a string. -/
def quoteCodePoints (s : List ℕ) : List Char := '"' :: s.flatMap escapeCodePoint ++ ['"']

/-- `json.dumps(s)`. -/
def quote (s : String) : List Char := quoteCodePoints (s.toList.map Char.toNat)

/-- The value of a hexadecimal digit. -/
def hexValue (c : Char) : Option ℕ :=
  if '0' ≤ c ∧ c ≤ '9' then some (c.toNat - '0'.toNat)
  else if 'a' ≤ c ∧ c ≤ 'f' then some (c.toNat - 'a'.toNat + 10)
  else if 'A' ≤ c ∧ c ≤ 'F' then some (c.toNat - 'A'.toNat + 10)
  else none

/-- The code unit of four hexadecimal digits. -/
def hexUnit (a b c d : Char) : Option ℕ := do
  let a ← hexValue a
  let b ← hexValue b
  let c ← hexValue c
  let d ← hexValue d
  return ((a * 16 + b) * 16 + c) * 16 + d

/-- A code unit in front of a string: a high surrogate takes a low one with it. -/
def joinSurrogate (unit : ℕ) : List ℕ → List ℕ
  | low :: rest =>
    if 0xd800 ≤ unit ∧ unit ≤ 0xdbff ∧ 0xdc00 ≤ low ∧ low ≤ 0xdfff then
      (0x10000 + (unit - 0xd800) * 0x400 + (low - 0xdc00)) :: rest
    else unit :: low :: rest
  | [] => [unit]

/-- The character a short escape stands for. -/
def shortEscape : Char → Option ℕ
  | '"' => some 0x22
  | '\\' => some 0x5c
  | '/' => some 0x2f
  | 'n' => some 0x0a
  | 'r' => some 0x0d
  | 't' => some 0x09
  | 'f' => some 0x0c
  | 'b' => some 0x08
  | _ => none

/-- The rest of a JSON string, after its opening quote: its code points and what follows it. -/
def scanString : List Char → Option (List ℕ × List Char)
  | [] => none
  | '"' :: rest => some ([], rest)
  | '\\' :: 'u' :: a :: b :: c :: d :: rest =>
    match hexUnit a b c d, scanString rest with
    | some unit, some (s, rest) => some (joinSurrogate unit s, rest)
    | _, _ => none
  | '\\' :: e :: rest =>
    match shortEscape e, scanString rest with
    | some n, some (s, rest) => some (n :: s, rest)
    | _, _ => none
  | c :: rest =>
    if c.toNat < 0x20 then none
    else
      match scanString rest with
      | some (s, rest) => some (c.toNat :: s, rest)
      | none => none

/-- `json.dumps([a, b])`. -/
def dumpPair (a b : List ℕ) : List Char :=
  '[' :: quoteCodePoints a ++ [',', ' '] ++ quoteCodePoints b ++ [']']

/-- `json.loads(text)`, of a text that `json.dumps` writes for a list of two strings. -/
def loadPair (text : List Char) : Option (List ℕ × List ℕ) :=
  match text with
  | '[' :: '"' :: rest =>
    match scanString rest with
    | some (a, ',' :: ' ' :: '"' :: rest) =>
      match scanString rest with
      | some (b, [']']) => some (a, b)
      | _ => none
    | _ => none
  | _ => none

/-! ## Values -/

/-- `sep.join(texts)`, for the separator `,`. -/
def joinComma : List (List Char) → List Char
  | [] => []
  | [t] => t
  | t :: ts => t ++ ',' :: joinComma ts

/-- The text of a dictionary key. -/
def keyText : PyKey → Except PyError (List Char)
  | .int n => .ok (quote (toString n))
  | .str s => .ok (quote s)
  | .other _ => .error (.typeError "keys must be str, int, float, bool or None")

variable (reprFloat : Binary64 → List Char)

mutual

/-- `json.dumps(x, separators=(",", ":"), allow_nan=False)`. -/
def text : PyVal → Except PyError (List Char)
  | .none => .ok "null".toList
  | .bool b => .ok (if b then "true".toList else "false".toList)
  | .int n => .ok (toString n).toList
  | .float (.fin x) => .ok (reprFloat x)
  | .float _ => .error (.valueError "Out of range float values are not JSON compliant")
  | .str s => .ok (quote s)
  | .list xs => (listTexts xs).map fun ts => '[' :: joinComma ts ++ [']']
  | .dict d => (itemTexts d).map fun ts => '{' :: joinComma ts ++ ['}']

def listTexts : List PyVal → Except PyError (List (List Char))
  | [] => .ok []
  | x :: xs => do
    let t ← text x
    let ts ← listTexts xs
    .ok (t :: ts)

def itemTexts : List (PyKey × PyVal) → Except PyError (List (List Char))
  | [] => .ok []
  | (k, v) :: rest => do
    let kt ← keyText k
    let t ← text v
    let ts ← itemTexts rest
    .ok ((kt ++ ':' :: t) :: ts)

end

/-! ## Nesting

The scanner of `json.loads` calls itself for a list or an object inside another one, as deep as the
recursion limit of the interpreter lets it. The first bracket beyond that raises, unless a syntax
error comes before it. What the values are does not matter for this: the scanner is kept as the
lists and objects that are open and what it expects next. -/

inductive Container where
  | list
  | object

inductive Expected where
  | value
  /-- An item of a list that begins, or its end. -/
  | item
  /-- A key of an object that begins, or its end. -/
  | member
  | key
  | colon
  /-- A comma, or the end of the list or object. -/
  | comma

/-- The scanner in front of a text. The innermost container comes first. -/
structure Scanner where
  opened : List Container
  expected : Expected
  text : List Char

/-- `WHITESPACE`. -/
def isSpace (c : Char) : Bool := c = ' ' || c = '\t' || c = '\n' || c = '\r'

/-- What follows the digits in front of a text, of which there is one at least. -/
def skipDigits : List Char → Option (List Char)
  | c :: rest => if c.isDigit then some (rest.dropWhile Char.isDigit) else none
  | [] => none

/-- What follows a fraction; a point without digits is not taken. -/
def skipFraction : List Char → List Char
  | '.' :: rest => (skipDigits rest).getD ('.' :: rest)
  | text => text

/-- What follows an exponent; one without digits is not taken. -/
def skipExponent : List Char → List Char
  | c :: rest =>
    if c = 'e' || c = 'E' then
      match rest with
      | '+' :: digits | '-' :: digits => (skipDigits digits).getD (c :: rest)
      | digits => (skipDigits digits).getD (c :: rest)
    else c :: rest
  | [] => []

/-- What follows the digits of a number. A leading zero stands alone. -/
def skipInteger : List Char → Option (List Char)
  | '0' :: rest => some rest
  | text => skipDigits text

/-- What follows a number. -/
def skipNumber (text : List Char) : Option (List Char) :=
  let digits :=
    match text with
    | '-' :: rest => skipInteger rest
    | text => skipInteger text
  digits.map fun rest => skipExponent (skipFraction rest)

/-- The words that stand for a value. -/
def constants : List (List Char) :=
  ["null", "true", "false", "NaN", "Infinity", "-Infinity"].map String.toList

/-- What follows a constant or a number. -/
def skipScalar (text : List Char) : Option (List Char) :=
  match constants.find? (·.isPrefixOf text) with
  | some word => some (text.drop word.length)
  | none => skipNumber text

namespace Scanner

/-- A value begins. -/
def scanValue (opened : List Container) : List Char → Option Scanner
  | '[' :: rest => some ⟨.list :: opened, .item, rest⟩
  | '{' :: rest => some ⟨.object :: opened, .member, rest⟩
  | '"' :: rest => (scanString rest).map fun read => ⟨opened, .comma, read.2⟩
  | text => (skipScalar text).map fun rest => ⟨opened, .comma, rest⟩

/-- A value has ended. -/
def scanComma : List Container → List Char → Option Scanner
  | .list :: opened, ',' :: rest => some ⟨.list :: opened, .value, rest⟩
  | .object :: opened, ',' :: rest => some ⟨.object :: opened, .key, rest⟩
  | .list :: opened, ']' :: rest => some ⟨opened, .comma, rest⟩
  | .object :: opened, '}' :: rest => some ⟨opened, .comma, rest⟩
  | _, _ => none

/-- A key begins. -/
def scanKey (opened : List Container) : List Char → Option Scanner
  | '"' :: rest => (scanString rest).map fun read => ⟨opened, .colon, read.2⟩
  | _ => none

/-- The next token, behind the white space; `none` at the end and at a syntax error. -/
def scanToken (opened : List Container) : Expected → List Char → Option Scanner
  | .value, text => scanValue opened text
  | .item, ']' :: rest => some ⟨opened.tail, .comma, rest⟩
  | .item, text => scanValue opened text
  | .member, '}' :: rest => some ⟨opened.tail, .comma, rest⟩
  | .member, text => scanKey opened text
  | .key, text => scanKey opened text
  | .colon, ':' :: rest => some ⟨opened, .value, rest⟩
  | .colon, _ => none
  | .comma, text => scanComma opened text

def step (s : Scanner) : Option Scanner := scanToken s.opened s.expected (s.text.dropWhile isSpace)

/-- Whether the scanner opens more containers inside the outermost one than it may, within so many
tokens. -/
def exceeds (maxNesting : ℕ) : ℕ → Scanner → Bool
  | 0, _ => false
  | fuel + 1, s => decide (maxNesting + 1 < s.opened.length) || s.step.any (exceeds maxNesting fuel)

/-- The same, to the end of the text. No token is empty. -/
def tooDeep (maxNesting : ℕ) (s : Scanner) : Bool := s.exceeds maxNesting (s.text.length + 1)

end Scanner

/-- `json.loads(text)` exceeds the recursion limit. -/
def tooDeep (maxNesting : ℕ) (text : List Char) : Bool :=
  Scanner.tooDeep maxNesting ⟨[], .value, text⟩

end Sketchlog.Json
