import RangeTransfer.Http.Message
/-!
# Remotes over HTTP

A remote that asks a server over HTTP: the size of an object by a request for its head alone, its
bytes by one request each. The server is a function from requests to messages, with `none` for a
server that does not answer.
-/

namespace RangeTransfer

structure HttpRemote where
  settings : TransportSettings
  server : Http.Request → Option Http.Message

namespace HttpRemote
open Http

/-- The request for a URL, unless it is none that can be asked for. -/
def request? (m : HttpRemote) (method : Method) (url : String) (range : Option ByteRange) :
    Option Request :=
  (Url.parse? url).map fun parsed => .make m.settings method parsed range

/-- Why nothing can be asked for at `url`. -/
def refusal (url : String) : String :=
  "request failed: builder error" ++
    if (Url.scheme? (Url.clean url)).isSome then " for url (" ++ url ++ ")" else ""

def faultMessage (url : String) : Fault → String
  | .head => "request failed: error sending request for url (" ++ url ++ ")"
  | .body => "failed to read body: error decoding response body"

/-- The answer to a GET. -/
def answer (m : HttpRemote) (q : Query) : Except TransferError Response :=
  match m.request? .get q.url q.range with
  | none => .error (.transport q.url (refusal q.url))
  | some request =>
    match (m.server request).elim (.error .head) Message.response with
    | .ok response => .ok response
    | .error fault => .error (.transport q.url (faultMessage q.url fault))

def objectSize (m : HttpRemote) (url : String) : Option Nat := do
  (← m.server (← m.request? .head url none)).size?

instance : Remote HttpRemote where
  objectSize m url := (m.objectSize url, m)
  connect m := (.ok (), m)
  get m q :=
    (⟨match m.answer q with
      | .ok response => .response response
      | .error e => .failed e, false⟩, m)

end HttpRemote

end RangeTransfer
