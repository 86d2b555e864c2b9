import Sketchlog.Lib.Interaction
import Sketchlog.Server.Merge

/-!
# `server.py`: `LimitUploadSize`

A middleware stands between the server and an ASGI application, which awaits `receive` and `send`
and goes on with what they return. The middleware hands it a `receive` that counts the bytes of the
body and raises when they are too many, and a `send` that keeps the messages back. The application
is any such program; it may catch what is raised.
-/

namespace Sketchlog.Server

open Checked Interaction

/-! ## Connections and applications

An application is any program that receives and sends; the connection hands it the messages of the
client. -/

/-- A message of the client. After its end, a body is followed by disconnections. -/
inductive Message where
  | request (body : List UInt8) (moreBody : Bool)
  | disconnect
  deriving DecidableEq

/-- `len(message.get("body", b""))` of a request; other messages have no body. -/
def Message.size : Message → ℕ
  | request body _ => body.length
  | disconnect => 0

variable {S : Type}

/-- What an application awaits; the messages it sends are of the type `S`. -/
inductive Call (S : Type) where
  | receive
  | send (message : S)

/-- What a call returns; `none` is a `_RequestBodyTooLarge` that is raised. -/
def Call.Answer : Call S → Type
  | receive => Option Message
  | send _ => Unit

inductive AppError where
  | requestBodyTooLarge
  | other (text : String)
  deriving DecidableEq

/-- An application, for one scope. -/
abbrev Application (S : Type) := Program (Call.Answer (S := S)) (Except AppError Unit)

structure Scope where
  type : String
  method : Option String
  path : String
  headers : List (List UInt8 × List UInt8)

/-- A message to the client: a `Response` of the middleware, or what the application sends. -/
inductive Sent (S : Type) where
  | response (statusCode : ℕ) (content : String)
  | message (m : S)
  deriving DecidableEq

/-- What the client gets, and the exception that the server gets. -/
structure Reply (S : Type) where
  sent : List (Sent S)
  raised : Option AppError
  deriving DecidableEq

/-- The connection: the number of the next message of the client, and what was sent. -/
structure Connection (S : Type) where
  next : ℕ
  sent : List (Sent S)

/-- `receive` and `send` of the server. -/
def Connection.handle (client : ℕ → Message) : (op : Call S) → Connection S → op.Answer × Connection S
  | .receive, c => (some (client c.next), { c with next := c.next + 1 })
  | .send m, c => ((), { c with sent := c.sent ++ [.message m] })

/-- An application without the middleware. -/
def plainRun (client : ℕ → Message) (app : Application S) : Except AppError Unit × Connection S :=
  app.run (Connection.handle client) ⟨0, []⟩

def plainReply (client : ℕ → Message) (app : Application S) : Reply S where
  sent := (plainRun client app).2.sent
  raised := match (plainRun client app).1 with
    | .ok () => none
    | .error e => some e

/-! ## The header

`Content-Length` as the source reads it: the last header of that name, through Python's `int`, which
takes signs, single underscores and white space around the digits. -/

/-- The characters that `int` skips on both sides of an ASCII text. -/
def isAsciiSpace (c : Char) : Bool := (0x09 ≤ c.toNat && c.toNat ≤ 0x0d) || c = ' '

/-- The digits of a literal, between which there may be single underscores. -/
def literalDigits : List Char → Option (List Char)
  | [] => none
  | [c] => if c.isDigit then some [c] else none
  | c :: '_' :: rest => if c.isDigit then (literalDigits rest).map (c :: ·) else none
  | c :: rest => if c.isDigit then (literalDigits rest).map (c :: ·) else none

/-- `int(text)` of digits; `none` is a `ValueError`. -/
def natOfLiteral (text : List Char) : Option ℕ := do
  let digits ← literalDigits text
  if maxStrDigits < digits.length then none
  else some (digits.foldl (fun n c => 10 * n + (c.toNat - '0'.toNat)) 0)

/-- `int(text)`, of an ASCII text. -/
def intOfAscii (text : List Char) : Option ℤ :=
  match (text.dropWhile isAsciiSpace).rdropWhile isAsciiSpace with
  | '-' :: rest => (natOfLiteral rest).map fun n => -(n : ℤ)
  | '+' :: rest => (natOfLiteral rest).map fun n => (n : ℤ)
  | rest => (natOfLiteral rest).map fun n => (n : ℤ)

/-- `int(raw.decode("ascii", errors="strict"))`. -/
def intOfBytes (raw : List UInt8) : Option ℤ :=
  if raw.all (· < 128) then intOfAscii (raw.map fun b => Char.ofNat b.toNat) else none

/-- `dict(headers).get(b"content-length")`: the last one counts. -/
def Scope.rawContentLength (scope : Scope) : Option (List UInt8) :=
  ((scope.headers.filter fun h => h.1 = utf8 "content-length").getLast?).map Prod.snd

/-- The checks of the declared length; an error is the response. -/
def Scope.checkLength (requestLimit : ℕ) (scope : Scope) : Except (ℕ × String) Unit :=
  match scope.rawContentLength with
  | none => .ok ()
  | some raw =>
    match intOfBytes raw with
    | none => .error (400, "Invalid Content-Length")
    | some contentLength => do
      failIf (contentLength < 0) (400, "Invalid Content-Length")
      failIf (contentLength > requestLimit) (413, "Request body too large")

/-! ## The middleware

It answers before the application if the header is no length or over the limit, and counts the bytes
on the way otherwise. -/

/-- The local variables of `__call__`, and the number of the next message of the client. -/
structure Limited (S : Type) where
  next : ℕ
  received : ℕ
  tooLarge : Bool
  pendingResponse : List S

/-- `limited_receive` and `pending_send`. -/
def Limited.handle (requestLimit : ℕ) (client : ℕ → Message) : (op : Call S) → Limited S
    → op.Answer × Limited S
  | .receive, s =>
    match client s.next with
    | .request body more =>
      if s.received + body.length > requestLimit then
        (none, { s with next := s.next + 1, received := s.received + body.length, tooLarge := true })
      else
        (some (.request body more), { s with next := s.next + 1, received := s.received + body.length })
    | .disconnect => (some .disconnect, { s with next := s.next + 1 })
  | .send m, s => ((), { s with pendingResponse := s.pendingResponse ++ [m] })

/-- The local variables before the application is called. -/
def Limited.start : Limited S := ⟨0, 0, false, []⟩

/-- The response to a body that is too large. -/
def tooLargeReply : Reply S := ⟨[.response 413 "Request body too large"], none⟩

/-- `__call__` from the call of the application on. -/
def Limited.reply (requestLimit : ℕ) (client : ℕ → Message) (app : Application S) : Reply S :=
  let (result, s) := app.run (Limited.handle requestLimit client) Limited.start
  match result with
  | .error (.other text) => ⟨[], some (.other text)⟩
  | .error .requestBodyTooLarge => tooLargeReply
  | .ok () => if s.tooLarge then tooLargeReply else ⟨s.pendingResponse.map .message, none⟩

/-- The requests whose bodies are counted. -/
def Scope.Guarded (scope : Scope) : Prop :=
  scope.type = "http" ∧ scope.method ∈ [some "POST", some "PUT", some "PATCH"]

instance (scope : Scope) : Decidable scope.Guarded := inferInstanceAs (Decidable (_ ∧ _))

/-- `request_limit`. -/
def Scope.requestLimit (maxMeshPayloadBytes maxRequestBytes : ℕ) (scope : Scope) : ℕ :=
  if scope.path ∈ ["/mesh/gossip/digest", "/mesh/gossip/sync"] then maxMeshPayloadBytes
    else maxRequestBytes

/-- `LimitUploadSize.__call__`. -/
def limitUploadSize (maxMeshPayloadBytes maxRequestBytes : ℕ) (scope : Scope) (app : Application S)
    (client : ℕ → Message) : Reply S :=
  if scope.Guarded then
    match scope.checkLength (scope.requestLimit maxMeshPayloadBytes maxRequestBytes) with
    | .error (statusCode, content) => ⟨[.response statusCode content], none⟩
    | .ok () => Limited.reply (scope.requestLimit maxMeshPayloadBytes maxRequestBytes) client app
  else plainReply client app

end Sketchlog.Server
