import Sketchlog.Lib.Backtrack
import Sketchlog.Lib.Dict
import Sketchlog.Otel.Float64
import Sketchlog.Python.Text

/-!
# `agent.py`: the Prometheus text format

`parse_prometheus_text` splits the text into lines, drops comments, and matches every other line
with `_SAMPLE_RE`; the labels are found with `_LABEL_RE`. Both expressions are matched by
backtracking.
-/

namespace Sketchlog.Agent

open Backtrack Otel

/-- A `str`. -/
abbrev Text := List Char

structure PrometheusSample where
  name : Text
  labels : Dict Text Text
  value : Binary64

/-! ## Numbers

Numbers of the format as decimals with an exponent, and the double that each is read as. -/

/-- The parts of `[-+]?\d+(?:\.\d+)?(?:[eE][-+]?\d+)?`. -/
structure Decimal where
  sign : Option Char
  int : Text
  frac : Option Text
  exp : Option (Option Char × Text)

/-- What the third group of `_SAMPLE_RE` has matched. -/
inductive ValueText where
  | number (decimal : Decimal)
  | inf (sign : Option Char)
  | nan

def isSign (c : Char) : Bool := c = '-' || c = '+'

/-- The number that digits stand for. -/
def digitsValue (digits : Text) : ℕ := digits.foldl (fun n c => 10 * n + (decimalValue? c).getD 0) 0

/-- `-1` for a minus sign. -/
def signValue (sign : Option Char) : ℤ := if sign = some '-' then -1 else 1

namespace Decimal

/-- The number that is written, exactly. -/
def value (d : Decimal) : ℚ :=
  let frac := d.frac.getD []
  let exp := (d.exp.map fun exp => signValue exp.1 * digitsValue exp.2).getD 0
  signValue d.sign * digitsValue (d.int ++ frac) * (10 : ℚ) ^ (exp - frac.length)

end Decimal

/-- `parsed if math.isfinite(parsed) else None`. -/
def finite? : Float64 → Option Binary64
  | .fin x => some x
  | _ => none

/-- `_parse_float`. -/
def parseFloat : ValueText → Option Binary64
  | .number decimal => finite? (.ofRat decimal.value)
  | .inf _ | .nan => none

/-! ## The regular expressions

The expressions of the source, written with the combinators of `Backtrack`, in the same order. -/

def isNameStart (c : Char) : Bool := c.isAlpha || c = '_' || c = ':'

def isNameChar (c : Char) : Bool := isNameStart c || c.isDigit

def isLabelStart (c : Char) : Bool := c.isAlpha || c = '_'

def isLabelChar (c : Char) : Bool := isLabelStart c || c.isDigit

/-- A name: its first character, and the others. -/
def nameRe (start char : Char → Bool) : Matcher Char Text :=
  bind (one start) fun c => bind (many char) fun cs => succeed (c :: cs)

/-- `[-+]?\d+(?:\.\d+)?(?:[eE][-+]?\d+)?`. -/
def numberRe : Matcher Char ValueText :=
  bind (opt (one isSign)) fun sign =>
  bind (many1 isDecimal) fun int =>
  bind (opt (bind (one (· = '.')) fun _ => many1 isDecimal)) fun frac =>
  bind (opt (bind (one fun c => c = 'e' || c = 'E') fun _ => bind (opt (one isSign)) fun sign =>
    bind (many1 isDecimal) fun digits => succeed (sign, digits))) fun exp =>
  succeed (.number ⟨sign, int, frac, exp⟩)

/-- `[-+]?Inf`. -/
def infRe : Matcher Char ValueText :=
  bind (opt (one isSign)) fun sign => bind (literal ['I', 'n', 'f']) fun _ => succeed (.inf sign)

def nanRe : Matcher Char ValueText := bind (literal ['N', 'a', 'N']) fun _ => succeed .nan

def valueRe : Matcher Char ValueText := alt numberRe (alt infRe nanRe)

/-- `(?:\{([^}]*)\})?`. -/
def bracesRe : Matcher Char (Option Text) :=
  opt (bind (one (· = '{')) fun _ => bind (many (· ≠ '}')) fun raw => bind (one (· = '}')) fun _ =>
    succeed raw)

/-- `(?:\s+\d+)?`. -/
def timestampRe : Matcher Char (Option Text) := opt (bind (many1 isSpace) fun _ => many1 isDecimal)

/-- `_SAMPLE_RE`, with its three groups. -/
def sampleRe : Matcher Char (Text × Option Text × ValueText) :=
  bind (nameRe isNameStart isNameChar) fun name =>
  bind bracesRe fun raw =>
  bind (many1 isSpace) fun _ =>
  bind valueRe fun value =>
  bind timestampRe fun _ =>
  bind atEnd fun _ =>
  succeed (name, raw, value)

/-- `\\.|[^"\\]`: what it matches. -/
def pieceRe : Matcher Char Text :=
  alt (bind (one (· = '\\')) fun b => bind (one (· ≠ '\n')) fun c => succeed [b, c])
    (bind (one fun c => c ≠ '"' && c ≠ '\\') fun c => succeed [c])

/-- `(?:\\.|[^"\\])*`. -/
def bodyRe : Matcher Char Text :=
  fun s => bind (star pieceRe s.length) (fun pieces => succeed pieces.flatten) s

/-- `_LABEL_RE`, with its two groups. -/
def labelRe : Matcher Char (Text × Text) :=
  bind (nameRe isLabelStart isLabelChar) fun name =>
  bind (literal ['=', '"']) fun _ =>
  bind bodyRe fun body =>
  bind (one (· = '"')) fun _ =>
  succeed (name, body)

/-! ## The parser

Line by line: comments and blank lines are skipped, and what does not match is skipped as well. -/

/-- `_unescape_label_value`. -/
def unescapeLabelValue : Text → Text
  | '\\' :: c :: rest =>
    (if c = 'n' then ['\n'] else if c = '\\' || c = '"' then [c] else ['\\', c])
      ++ unescapeLabelValue rest
  | c :: rest => c :: unescapeLabelValue rest
  | [] => []

/-- `_parse_labels`. -/
def parseLabels (raw : Text) : Dict Text Text :=
  (findAll labelRe (raw.length + 1) raw).foldl (fun labels m =>
    labels.set m.1 (unescapeLabelValue m.2)) ∅

/-- One round of the loop of `parse_prometheus_text`. -/
def parseLine (rawLine : Text) : Option PrometheusSample :=
  let line := strip rawLine
  if line = [] ∨ line.head? = some '#' then none
  else match first? sampleRe line with
    | none => none
    | some (name, raw, value) => (parseFloat value).map fun value =>
        ⟨name, parseLabels (raw.getD []), value⟩

def parsePrometheusText (text : Text) : List PrometheusSample := (splitlines text).filterMap parseLine

end Sketchlog.Agent
