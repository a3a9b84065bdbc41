import RangeTransfer.Http.Chunked
import RangeTransfer.Http.Request
import RangeTransfer.Remote.Basic
/-!
# Responses over HTTP

What a server sends back, and how it is read: where the body ends is decided by the status, by
chunks, by the declared length, or by the end of the connection. A message that cannot be read, or
whose body is cut short, is an error.
-/

namespace RangeTransfer.Http

/-- A response as it comes over the connection, and everything that follows its headers. -/
structure Message where
  status : Nat
  headers : List (String × String)
  rest : ByteArray

/-- Why a message is no response. -/
inductive Fault where
  /-- The head cannot be read. -/
  | head
  /-- The body is cut short, or its chunks are malformed. -/
  | body
  deriving DecidableEq, Repr

/-- How the end of a body is found. -/
inductive Framing where
  | sized (length : Nat)
  | chunked
  | untilClosed
  deriving DecidableEq, Repr

def isNameChar (c : Char) : Bool :=
  c.isAlphanum || "!#$%&*+-.^_|~".toList.contains c || c = Char.ofNat 39 || c = Char.ofNat 0x60

def isValueChar (c : Char) : Bool := c = '\t' || (0x20 ≤ c.toNat && c.toNat ≠ 0x7f)

def isHeader (header : String × String) : Bool :=
  header.1 ≠ "" && header.1.toList.all isNameChar && header.2.toList.all isValueChar

/-- Visible ASCII, as a header needs it to be read as text. -/
def isVisible (c : Char) : Bool := c = '\t' || (0x20 ≤ c.toNat && c.toNat < 0x7f)

namespace Message

/-- The values of a header, without blanks at their ends. -/
def values (m : Message) (name : String) : List (List Char) :=
  (m.headers.filter fun header => header.1.map Char.toLower = name).map fun header =>
    Text.trimWhile (fun c => c = ' ' || c = '\t') header.2.toList

/-- The first value of a header, if it can be read as text. -/
def text? (m : Message) (name : String) : Option String :=
  ((m.values name).head?.filter fun value => value.all isVisible).map String.ofList

/-- Whether the head of the message can be read. -/
def wellFormed (m : Message) : Bool :=
  100 ≤ m.status && m.status < 1000 && m.headers.all isHeader

/-- The runs between the commas of `cs`, without blanks at their ends. -/
def commaRuns (cs : List Char) : List (List Char) :=
  ((String.ofList cs).splitOn ",").map fun run => Text.trim run.toList

/-- The length that all values of `Content-Length` agree on. -/
def declaredLength (m : Message) : Except Fault (Option Nat) :=
  let runs := (m.values "content-length").flatMap commaRuns
  match runs.mapM (Text.readDigits (Offset.limit - 2)) with
  | none => .error .head
  | some [] => .ok none
  | some (length :: others) =>
    if others.all (· = length) then .ok (some length) else .error .head

def endsChunked (m : Message) : Bool :=
  ((m.values "transfer-encoding").getLast?.bind fun value => (commaRuns value).getLast?).any
    fun run => run.map Char.toLower = "chunked".toList

def framing (m : Message) : Except Fault Framing :=
  if m.status < 200 || m.status = 204 || m.status = 304 then .ok (.sized 0)
  else if m.values "transfer-encoding" ≠ [] then
    .ok (if m.endsChunked then .chunked else .untilClosed)
  else do
    match ← m.declaredLength with
    | some length => return .sized length
    | none => return .untilClosed

def body (m : Message) : Framing → Except Fault ByteArray
  | .untilClosed => .ok m.rest
  | .sized length => if length ≤ m.rest.size then .ok (m.rest.extract 0 length) else .error .body
  | .chunked =>
    match Chunked.decode? m.rest.data.toList with
    | some bytes => .ok ⟨bytes.toArray⟩
    | none => .error .body

/-- Whether the message only announces another one. -/
def isInterim (m : Message) : Bool := m.status < 200 && m.status ≠ 101

/-- The response that a message holds. -/
def response (m : Message) : Except Fault Response := do
  if !m.wellFormed || m.isInterim then throw .head
  let body ← m.body (← m.framing)
  return ⟨m.status, body, (m.text? "content-range").bind ContentRange.parse⟩

/-- The size of the object, in a message that has only a head. -/
def size? (m : Message) : Option Nat := do
  guard (m.wellFormed && 200 ≤ m.status && m.status < 300)
  let value ← m.text? "content-length"
  (Text.readCount Offset.limit (String.ofList (Text.trim value.toList))).filter (0 < ·)

end Message

end RangeTransfer.Http
