import RangeTransfer.Http.Url
import RangeTransfer.Range.Basic
import RangeTransfer.Settings.Transport
import RangeTransfer.Text.Base64
/-!
# Requests over HTTP

A request for an object or for its size, under the name and with the credentials of the settings.
-/

namespace RangeTransfer.Http

inductive Method where
  | get
  | head
  deriving DecidableEq, Repr

def Method.name : Method → String
  | get => "GET"
  | head => "HEAD"

structure Request where
  method : Method
  url : Url
  headers : List (String × String)
  deriving DecidableEq, Repr

namespace Request

/-- The first line of the request. -/
def line (r : Request) : String := r.method.name ++ " " ++ r.url.target ++ " HTTP/1.1"

def header? (r : Request) (name : String) : Option String :=
  (r.headers.find? (·.1 = name)).map (·.2)

/-- The header that shows who asks. -/
def authorization (c : Credentials) : String :=
  "Basic " ++ String.ofList (Text.base64 (Text.encode (c.username ++ ":" ++ c.password)))

/-- A request for `range`, or for the whole object without one. -/
def make (settings : TransportSettings) (method : Method) (url : Url) (range : Option ByteRange) :
    Request where
  method
  url
  headers := ("user-agent", settings.userAgent) ::
    (settings.credentials.map fun c => ("authorization", authorization c)).toList ++
    (range.map fun r => ("range", r.header)).toList

end Request

end RangeTransfer.Http
