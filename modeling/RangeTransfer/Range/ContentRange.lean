import RangeTransfer.Range.Basic
import RangeTransfer.Text.Blank
import RangeTransfer.Text.Decimal
/-!
# The `Content-Range` header

`bytes first-last/total`, with blanks at both ends and at least one after the unit; a star stands
for an unknown total. Numbers are runs of ASCII digits below `Offset.limit`.
-/

namespace RangeTransfer

structure ContentRange where
  range : ByteRange
  total : Option Nat
  deriving DecidableEq, Repr

namespace ContentRange
open Text

/-- A number at the front of `cs` that ends at the mark `mark`, and what follows the mark. -/
def readNumber (mark : Char) (cs : List Char) : Option (Nat × List Char) :=
  match cs.dropWhile Char.isDigit with
  | c :: rest =>
    if c = mark then
      (readDigits Offset.limit (cs.takeWhile Char.isDigit)).map fun n => (n, rest)
    else none
  | [] => none

/-- The total at the front of `cs`, with only blanks after it. -/
def readTotal (cs : List Char) : Option (Option Nat) :=
  match cs with
  | '*' :: rest => if rest.all isBlank then some none else none
  | _ =>
    if (cs.dropWhile Char.isDigit).all isBlank then
      (readDigits Offset.limit (cs.takeWhile Char.isDigit)).map some
    else none

/-- What follows the unit: blanks, the range and the total. -/
def readAfterUnit (cs : List Char) : Option ContentRange := do
  guard (cs.head?.any isBlank)
  let (first, cs) ← readNumber '-' (cs.dropWhile isBlank)
  let (last, cs) ← readNumber '/' cs
  if h : first ≤ last then
    let total ← readTotal cs
    return ⟨⟨first, last, h⟩, total⟩
  else none

def parse (value : String) : Option ContentRange :=
  match value.toList.dropWhile isBlank with
  | 'b' :: 'y' :: 't' :: 'e' :: 's' :: rest => readAfterUnit rest
  | _ => none

end ContentRange

end RangeTransfer
