import RangeTransfer.Path
import RangeTransfer.Range.Basic
import RangeTransfer.Storage.Error
/-!
# Transfer errors

What can stop a transfer, with its text, its HTTP status, and whether the same request may be made
again (`retryable`). A step of a transfer halts either with such an error or with an abort.
-/

namespace RangeTransfer

/-- What was wrong with a response. -/
inductive ProtocolFault where
  | unexpectedStatus (status : Nat)
  | emptyBody (range : ByteRange)
  | lengthMismatch (range : ByteRange) (actual : Nat)
  | rangeMismatch (requested returned : ByteRange)
  | rangeIgnored (bodyLength total : Nat)
  | incomplete (written total : Nat)
  deriving DecidableEq, Repr

namespace ProtocolFault

def message : ProtocolFault → String
  | unexpectedStatus status => "unexpected HTTP status " ++ toString status
  | emptyBody range => "empty body for range " ++ range.text
  | lengthMismatch range actual =>
    "range " ++ range.text ++ " returned " ++ toString actual ++ " bytes, expected " ++
      toString range.length
  | rangeMismatch requested returned =>
    "requested range " ++ requested.text ++ " but server sent " ++ returned.text
  | rangeIgnored bodyLength total =>
    "server ignored Range and returned " ++ toString bodyLength ++ " of " ++ toString total ++
      " bytes"
  | incomplete written total =>
    "transfer ended at byte " ++ toString written ++ " of " ++ toString total

/-- The status of the response; a transfer that ended early has none. -/
def status : ProtocolFault → Option Nat
  | unexpectedStatus status => some status
  | emptyBody _ | lengthMismatch _ _ | rangeMismatch _ _ => some 206
  | rangeIgnored _ _ => some 200
  | incomplete _ _ => none

/-- A server error, or a wrong answer to a range that the server honours, may be asked for again. -/
def retryable : ProtocolFault → Bool
  | unexpectedStatus status => 500 ≤ status && status < 600
  | rangeIgnored _ _ => false
  | _ => true

end ProtocolFault

/-- Why a transfer cannot be carried out as requested. -/
inductive ConfigurationFault where
  | noWorkers
  | unknownSize (url : String)
  | other (reason : String)
  deriving DecidableEq, Repr

def ConfigurationFault.message : ConfigurationFault → String
  | noWorkers => "no worker threads could be started"
  | unknownSize url => "size of " ++ url ++ " is unknown; the split layout needs a known size"
  | other reason => reason

inductive TransferError where
  | transport (url message : String)
  | protocol (url : String) (fault : ProtocolFault)
  | storage (path : Path) (cause : StorageError)
  | cancelled
  | configuration (fault : ConfigurationFault)
  deriving DecidableEq, Repr

namespace TransferError

def message : TransferError → String
  | transport url message => "transport error for " ++ url ++ ": " ++ message
  | protocol url fault => "protocol error for " ++ url ++ ": " ++ fault.message
  | storage path cause => "storage error at " ++ path.text ++ ": " ++ cause.message
  | cancelled => "transfer cancelled"
  | configuration fault => "configuration error: " ++ fault.message

def status : TransferError → Option Nat
  | protocol _ fault => fault.status
  | _ => none

/-- Whether the same range, or the whole transfer, may be tried again after this error. -/
def retryable : TransferError → Bool
  | transport _ _ => true
  | protocol _ fault => fault.retryable
  | storage _ _ | cancelled | configuration _ => false

def isCancelled : TransferError → Bool
  | cancelled => true
  | _ => false

/-- The error for a body of `actual` bytes in answer to `range`, whose length must fit 64 bits. -/
def lengthMismatch (url : String) (range : ByteRange) (actual : Nat) : Except Abort TransferError :=
  do
    let _ ← range.lengthChecked
    return .protocol url (.lengthMismatch range actual)

end TransferError

/-- How a step of a transfer ends early. -/
inductive Halt where
  | failed (error : TransferError)
  | aborted (abort : Abort)
  deriving DecidableEq, Repr

/-- A transfer that gave up: its last error, the bytes it left on disk, and its attempts. -/
structure Failure where
  error : TransferError
  bytes : Nat
  attempts : Nat
  deriving DecidableEq, Repr

def Failure.message (f : Failure) : String :=
  f.error.message ++ " (stopped at byte " ++ toString f.bytes ++ " after " ++ toString f.attempts ++
    " attempt(s))"

end RangeTransfer
