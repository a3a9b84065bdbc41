import RangeTransfer.Duration
import RangeTransfer.Text.Record
/-!
# Transport settings

How requests are made: the time that one may take, who makes it, and under which name.
-/

namespace RangeTransfer

structure Credentials where
  username : String
  password : String
  deriving DecidableEq, Repr

/-- The password is not shown. -/
def Credentials.text (c : Credentials) : String :=
  Text.record "Credentials" [("username", Text.quote c.username), ("password", Text.quote "***")]

structure TransportSettings where
  timeout : Duration
  credentials : Option Credentials
  userAgent : String
  deriving DecidableEq, Repr

/-- Version of the program. -/
def version : String := "0.1.0"

def TransportSettings.standard : TransportSettings := ⟨.ofSeconds 120, none, "davfetch/" ++ version⟩

end RangeTransfer
