/-!
# Chunked bodies

A body in chunks, each after a line with its length in hexadecimal digits; a chunk of no bytes ends
it, and lines of further headers may follow.
-/

namespace RangeTransfer.Http.Chunked

abbrev Bytes := List UInt8

def carriageReturn : UInt8 := 13

def lineFeed : UInt8 := 10

def semicolon : UInt8 := 59

/-- The value of a hexadecimal digit. -/
def digit? (b : UInt8) : Option Nat :=
  if 48 ≤ b && b ≤ 57 then some (b.toNat - 48)
  else if 65 ≤ b && b ≤ 70 then some (b.toNat - 55)
  else if 97 ≤ b && b ≤ 102 then some (b.toNat - 87)
  else none

def isBlank (b : UInt8) : Bool := b = 32 || b = 9

def afterLineEnd : Bytes → Option Bytes
  | a :: b :: bytes => if a = carriageReturn && b = lineFeed then some bytes else none
  | _ => none

/-- What follows the length in its line: blanks, and notes after a semicolon. -/
def afterNotes (bytes : Bytes) : Option Bytes :=
  match bytes.dropWhile isBlank with
  | b :: rest =>
    if b = semicolon then
      afterLineEnd (rest.dropWhile fun c => c ≠ carriageReturn && c ≠ lineFeed)
    else afterLineEnd (b :: rest)
  | [] => none

/-- The length in front of a chunk, and what follows its line. -/
def readLength (bytes : Bytes) : Option (Nat × Bytes) := do
  let digits := bytes.takeWhile fun b => (digit? b).isSome
  let value := (digits.filterMap digit?).foldl (fun n d => 16 * n + d) 0
  guard (digits ≠ [] ∧ value < 1 <<< 64)
  return (value, ← afterNotes (bytes.drop digits.length))

/-- Whether `bytes` holds lines, at most `bound` of them, and an empty one after them. -/
def endsWell : (bound : Nat) → Bytes → Bool
  | 0, _ => false
  | bound + 1, bytes =>
    if bytes.head? = some carriageReturn then (afterLineEnd bytes).isSome
    else (afterLineEnd (bytes.dropWhile (· ≠ carriageReturn))).any (endsWell bound)

/-- The bytes of at most `bound` chunks, up to the one that ends the body. -/
def decodeWithin : (bound : Nat) → Bytes → Option Bytes
  | 0, _ => none
  | bound + 1, bytes => do
    let (length, rest) ← readLength bytes
    if length = 0 then
      if endsWell (rest.length + 1) rest then some [] else none
    else
      guard (length ≤ rest.length)
      return rest.take length ++ (← decodeWithin bound (← afterLineEnd (rest.drop length)))

/-- The body that `bytes` holds in chunks, if it is complete. -/
def decode? (bytes : Bytes) : Option Bytes := decodeWithin (bytes.length + 1) bytes

end RangeTransfer.Http.Chunked
