/-!
# Decimal numbers

Reading and aligning numbers written in ASCII digits. A number is read only if it lies below a
limit; leading zeros are accepted. `readCount` also accepts one leading plus sign.
-/

namespace RangeTransfer.Text

def digitValue (c : Char) : Nat := c.toNat - 48

/-- The number that a run of digits denotes. -/
def digitsValue (cs : List Char) : Nat := cs.foldl (fun n c => 10 * n + digitValue c) 0

/-- The number below `limit` that `cs` denotes, if `cs` is a non-empty run of digits. -/
def readDigits (limit : Nat) (cs : List Char) : Option Nat :=
  if cs ≠ [] ∧ cs.all Char.isDigit = true ∧ digitsValue cs < limit then some (digitsValue cs) else none

/-- Like `readDigits`, after an optional plus sign. -/
def readCount (limit : Nat) (text : String) : Option Nat :=
  match text.toList with
  | '+' :: cs => readDigits limit cs
  | cs => readDigits limit cs

/-- `text` with `fill` in front of it, up to `width` characters. -/
def alignRight (fill : Char) (width : Nat) (text : String) : String :=
  String.ofList (List.replicate (width - text.length) fill) ++ text

end RangeTransfer.Text
