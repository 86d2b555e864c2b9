import Sketchlog.Python.Facade
import Sketchlog.Python.Text
import Sketchlog.Server.Handlers

/-!
# `server.py`: the decoding of `merge_stream`, and the encoding of `stream_ws`

A state that is posted for a merge may write its counts as decimal strings, as a browser does whose
numbers are not exact. `merge_stream` replaces them by ints, in place, and hands the tree to
`StreamLog.from_dict`. The tree is any JSON object: every access may raise.

A `dict` of the tree is its items; the keys of a JSON object are strings, and distinct.
-/

namespace Sketchlog.Server

open Checked

/-- What the decoding block may raise. -/
inductive Raised where
  | py (e : PyError)
  | attributeError (msg : String)

def Raised.text : Raised → String
  | py e => e.text
  | attributeError msg => msg

/-- `except (KeyError, TypeError, ValueError, RuntimeError)`. -/
def Raised.Caught : Raised → Prop
  | py (.keyError _) | py (.typeError _) | py (.valueError _) | py (.runtimeError _) => True
  | py (.overflowError _) | py (.zeroDivisionError _) | attributeError _ => False

instance : (e : Raised) → Decidable e.Caught
  | .py (.keyError _) | .py (.typeError _) | .py (.valueError _) | .py (.runtimeError _) =>
      isTrue trivial
  | .py (.overflowError _) | .py (.zeroDivisionError _) | .attributeError _ => isFalse id

/-- A computation of the language or of the library, inside the block. -/
def liftPy {α : Type} (x : Except PyError α) : Except Raised α := x.mapError .py

def raise {α : Type} (e : PyError) : Except Raised α := .error (.py e)

/-! ## Strings of digits -/

/-- The characters that are digits, but not decimal ones: superscripts, circled digits and the like. -/
def digitRanges : List (ℕ × ℕ) :=
  [(0xb2, 0xb3), (0xb9, 0xb9), (0x1369, 0x1371), (0x19da, 0x19da), (0x2070, 0x2070), (0x2074, 0x2079),
    (0x2080, 0x2089), (0x2460, 0x2468), (0x2474, 0x247c), (0x2488, 0x2490), (0x24ea, 0x24ea),
      (0x24f5, 0x24fd),
    (0x24ff, 0x24ff), (0x2776, 0x277e), (0x2780, 0x2788), (0x278a, 0x2792), (0x10a40, 0x10a43),
      (0x10e60, 0x10e68),
    (0x11052, 0x1105a), (0x1f100, 0x1f10a)]

/-- `str.isdigit`, for one character. -/
def isDigitChar (c : Char) : Bool :=
  isDecimal c || digitRanges.any fun r => r.1 ≤ c.toNat && c.toNat ≤ r.2

/-- `str.isdigit`. -/
def isDigit (s : String) : Bool := s.toList ≠ [] && s.toList.all isDigitChar

/-- `sys.get_int_max_str_digits()`. -/
def maxStrDigits : ℕ := 4300

/-- `int(s)`, of a string of digits: at most 4300 decimal ones are converted. -/
def intOf (s : String) : Except PyError ℤ := do
  let decimals := s.toList.takeWhile isDecimal
  failIf (maxStrDigits < decimals.length)
    (.valueError ("Exceeds the limit (4300 digits) for integer string conversion: value has "
      ++ toString decimals.length ++ " digits; use sys.set_int_max_str_digits() to increase the limit"))
  failIf (decimals ≠ s.toList)
    (.valueError ("invalid literal for int() with base 10: " ++ String.ofList
      (('\'' :: s.toList ++ ['\'']).take 200)))
  .ok (decimals.foldl (fun (n : ℕ) c => 10 * n + (decimalValue? c).getD 0) 0 : ℕ)

/-- `if not value.isdigit(): raise ValueError(msg)`, and then `int(value)`. -/
def decimal (msg s : String) : Except Raised ℤ := do
  failIf (isDigit s = false) (.py (.valueError msg))
  liftPy (intOf s)

/-! ## The tree

The counts of a state travel as strings. They are turned to integers in place, one access after
another. -/

/-- `v[key]`. -/
def getItem (v : PyVal) (key : String) : Except Raised PyVal :=
  match v with
  | .dict d => liftPy (Items.item d key)
  | .list _ => raise (.typeError "list indices must be integers or slices, not str")
  | .str _ => raise (.typeError "string indices must be integers, not 'str'")
  | v => raise (.typeError ("'" ++ v.typeName ++ "' object is not subscriptable"))

/-- `v[key] = n`, of what has been indexed by a string. -/
def setItem (v : PyVal) (key : String) (n : PyVal) : PyVal :=
  match v with
  | .dict d => .dict (Items.set d (.str key) n)
  | v => v

/-- One round of the first loop. -/
def decodeField (owner : PyVal) (key : String) : Except Raised PyVal := do
  match ← getItem owner key with
  | .str s =>
    let n ← decimal (key ++ " must be a decimal integer") s
    .ok (setItem owner key (.int n))
  | _ => .ok owner

/-- The value of an entry, where a string is replaced by its int. -/
def decodeCount (msg : String) : PyVal → Except Raised PyVal
  | .str s => (decimal msg s).map .int
  | v => .ok v

/-- One round of the second loop. The assignments do not change the keys. -/
def decodeGroup (latency : PyVal) (bucketGroup : String) : Except Raised PyVal := do
  match ← getItem latency bucketGroup with
  | .dict d =>
    let items ← d.mapM fun kv => do
      let value ← decodeCount "bucket counts must be decimal integers" kv.2
      .ok (kv.1, value)
    .ok (setItem latency bucketGroup (.dict items))
  | v => .error (.attributeError ("'" ++ v.typeName ++ "' object has no attribute 'items'"))

/-- `row[index] = int(value)`, of the first string of digits in something that is not a list. -/
def assignDigit (s : String) (e : PyError) : Except Raised Unit := do
  let _ ← decimal "event table counts must be decimal integers" s
  raise e

/-- One round of the loop over the table. A string is a sequence of its characters and takes no
assignment, a dictionary is one of its keys and gets a new one. -/
def decodeRow : PyVal → Except Raised PyVal
  | .list cells => do
    let cells ← cells.mapM (decodeCount "event table counts must be decimal integers")
    .ok (.list cells)
  | .str s => do
    s.toList.forM fun c => assignDigit (String.singleton c)
      (.typeError "'str' object does not support item assignment")
    .ok (.str s)
  | .dict d => do
    d.forM fun kv =>
      match kv.1 with
      | .str key => assignDigit key (.runtimeError "dictionary changed size during iteration")
      | _ => .ok ()
    .ok (.dict d)
  | v => raise (.typeError ("'" ++ v.typeName ++ "' object is not iterable"))

/-- The rows of the table; those of a string or a dictionary are strings. -/
def decodeTable (events : PyVal) : Except Raised PyVal := do
  match ← getItem events "table" with
  | .list rows =>
    let rows ← rows.mapM decodeRow
    .ok (setItem events "table" (.list rows))
  | .str s => do
    s.toList.forM fun c => do
      let _ ← decodeRow (.str (String.singleton c))
    .ok events
  | .dict d => do
    d.forM fun kv =>
      match kv.1 with
      | .str key => do
        let _ ← decodeRow (.str key)
      | .int _ => raise (.typeError "'int' object is not iterable")
      | .other shown => raise (.typeError ("'" ++ shown ++ "' object is not iterable"))
    .ok events
  | v => raise (.typeError ("'" ++ v.typeName ++ "' object is not iterable"))

/-- The decoded tree. -/
def decodeState (state : Items) : Except Raised PyVal := do
  let latency ← getItem (.dict state) "latency"
  let events ← getItem (.dict state) "events"
  let state ← decodeField (.dict state) "total"
  let latency ← decodeField latency "zero_count"
  let latency ← decodeField latency "count"
  let events ← decodeField events "total"
  let latency ← decodeGroup latency "positive"
  let latency ← decodeGroup latency "negative"
  let events ← decodeTable events
  .ok (setItem (setItem state "latency" latency) "events" events)

/-! ## The request -/

/-- What a request comes to before any stream is looked up: an answer, an exception that nobody
catches, or the lookup, with the log that is to be merged. -/
inductive Decoded where
  | respond (e : HttpError)
  | escape (e : Raised)
  | lookup (incoming : Facade.StreamLog)

/-- `merge_stream`, up to `registry.get_or_create`. -/
def mergeStream (M : IndexMapping) (cppAvailable : Bool) (state : Items) : Decoded :=
  let decoded : Except Raised Facade.StreamLog := do
    let state ← decodeState state
    liftPy (Facade.StreamLog.fromDict M cppAvailable state)
  match decoded with
  | .ok incoming => .lookup incoming
  | .error e => if e.Caught then .respond ⟨422, "Invalid sketch state: " ++ e.text⟩ else .escape e

/-! ## What is sent

`stream_ws` sends a browser the document of a stream with its counts as decimal strings, in the
places where `merge_stream` reads them, and beside them an entry `metrics`. -/

/-- `owner[key] = str(owner[key])`. -/
def encodeField (owner : PyVal) (key : String) : Except Raised PyVal := do
  let value ← getItem owner key
  .ok (setItem owner key (.str value.text))

/-- One round of the second loop. -/
def encodeGroup (latency : PyVal) (bucketGroup : String) : Except Raised PyVal := do
  match ← getItem latency bucketGroup with
  | .dict d => .ok (setItem latency bucketGroup (.dict (d.map fun kv => (kv.1, .str kv.2.text))))
  | v => .error (.attributeError ("'" ++ v.typeName ++ "' object has no attribute 'items'"))

/-- `[str(value) for value in row]`. The rows of a document are lists. -/
def encodeRow : PyVal → Except Raised PyVal
  | .list cells => .ok (.list (cells.map fun value => .str value.text))
  | v => raise (.typeError ("'" ++ v.typeName ++ "' object is not iterable"))

def encodeTable (events : PyVal) : Except Raised PyVal := do
  match ← getItem events "table" with
  | .list rows =>
    let rows ← rows.mapM encodeRow
    .ok (setItem events "table" (.list rows))
  | v => raise (.typeError ("'" ++ v.typeName ++ "' object is not iterable"))

/-- What `stream_ws` sends of a stream whose document is `state`; `metrics` is the entry that it
adds. -/
def encodeState (state : Items) (metrics : PyVal) : Except Raised PyVal := do
  let latency ← getItem (.dict state) "latency"
  let events ← getItem (.dict state) "events"
  let state ← encodeField (.dict state) "total"
  let latency ← encodeField latency "zero_count"
  let latency ← encodeField latency "count"
  let events ← encodeField events "total"
  let latency ← encodeGroup latency "positive"
  let latency ← encodeGroup latency "negative"
  let events ← encodeTable events
  .ok (setItem (setItem (setItem state "latency" latency) "events" events) "metrics" metrics)

end Sketchlog.Server
