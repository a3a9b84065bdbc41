import RangeTransfer.Text.Blank
import RangeTransfer.Text.Decimal
/-!
# Binary numbers of 64 bits

Numbers of 53 significant bits, kept as multiples of the smallest positive one. A decimal is read as
the nearest of them; a number is written in positional notation with the fewest digits that read
back to it.
-/

namespace RangeTransfer

inductive Binary64 where
  /-- `size` counts units of `2 ^ -1074`. -/
  | finite (negative : Bool) (size : Nat)
  | infinite (negative : Bool)
  | nan
  deriving DecidableEq, Repr

namespace Binary64

/-- How many units make one. -/
def unitsOfOne : Nat := 1 <<< 1074

/-- The first size that is too large to be finite. -/
def sizeLimit : Nat := 1 <<< 2098

/-- The distance from one size to the next around `size` units. -/
def spacing (size : Nat) : Nat := 1 <<< (size.log2 - 52)

/-- The multiple of `step` nearest to `n / d`; a half goes to the even multiple. -/
def roundTo (step n d : Nat) : Nat :=
  let quotient := n / (d * step)
  let twice := 2 * (n % (d * step))
  let up := d * step < twice || (twice = d * step && quotient % 2 = 1)
  (if up then quotient + 1 else quotient) * step

/-- The size nearest to `c * 10 ^ e`; it may be too large. -/
def nearestSize (c : Nat) (e : Int) : Nat :=
  let n := c * Nat.pow 10 e.toNat * unitsOfOne
  let d := Nat.pow 10 (-e).toNat
  roundTo (spacing (n / d)) n d

def digitCount (n : Nat) : Nat := (toString n).length

/-- The number nearest to `c * 10 ^ e`. Far outside the range of sizes the power is not computed. -/
def ofDecimal (negative : Bool) (c : Nat) (e : Int) : Binary64 :=
  let scale := (digitCount c : Int) + e
  if c = 0 ∨ scale < -330 then finite negative 0
  else if 310 < scale then infinite negative
  else
    let size := nearestSize c e
    if size < sizeLimit then finite negative size else infinite negative

/-- The exponent behind the digits of a decimal; none counts as zero. -/
def readExponent : List Char → Option Int
  | [] => some 0
  | mark :: cs => do
    guard (mark = 'e' || mark = 'E')
    let (negative, digits) := match cs with
      | '-' :: cs => (true, cs)
      | '+' :: cs => (false, cs)
      | cs => (false, cs)
    guard (digits ≠ [] && digits.all Char.isDigit)
    let n : Int := Text.digitsValue digits
    return if negative then -n else n

/-- The number that `cs` denotes behind its sign: a decimal, or the name of a number without one. -/
def readUnsigned (negative : Bool) (cs : List Char) : Option Binary64 :=
  let word := String.ofList (cs.map Char.toLower)
  if word = "inf" ∨ word = "infinity" then some (infinite negative)
  else if word = "nan" then some nan
  else do
    let whole := cs.takeWhile Char.isDigit
    let (fraction, rest) := match cs.dropWhile Char.isDigit with
      | '.' :: cs => (cs.takeWhile Char.isDigit, cs.dropWhile Char.isDigit)
      | cs => ([], cs)
    guard (whole ++ fraction ≠ [])
    let e ← readExponent rest
    return ofDecimal negative (Text.digitsValue (whole ++ fraction)) (e - fraction.length)

def read? (text : String) : Option Binary64 :=
  match text.toList with
  | '-' :: cs => readUnsigned true cs
  | '+' :: cs => readUnsigned false cs
  | cs => readUnsigned false cs

/-- The exponent of the first digit of `size` units, which must not be zero. -/
def leadingExponent (size : Nat) : Int := digitCount (size * Nat.pow 10 400 / unitsOfOne) - 401

/-- The multiple of `10 ^ e` that reads back to `size`, if one next to it does; of two the nearer,
and the upper one if they are equally near. -/
def onGrid (size : Nat) (e : Int) : Option Nat :=
  let n := size * Nat.pow 10 (-e).toNat
  let d := unitsOfOne * Nat.pow 10 e.toNat
  let below := n / d
  let upperIsNearer := d ≤ 2 * (n % d)
  let candidates := if upperIsNearer then [below + 1, below] else [below, below + 1]
  candidates.find? (nearestSize · e = size)

/-- The decimal of the fewest digits that reads back to `size`: a coefficient and an exponent.
Seventeen digits always suffice. -/
def shortest (size : Nat) : Nat × Int :=
  if size = 0 then (0, 0)
  else
    let exponents := (List.range 17).map fun (n : Nat) => leadingExponent size - n
    (exponents.findSome? fun e => (onGrid size e).map (·, e)).getD (0, 0)

/-- `c * 10 ^ e` without an exponent and without zeros at the end of a fraction. -/
def positional (c : Nat) (e : Int) : String :=
  let places := (-e).toNat
  let whole := toString (c * Nat.pow 10 e.toNat / Nat.pow 10 places)
  let fraction := Text.alignRight '0' places (toString (c % Nat.pow 10 places))
  match Text.dropEndWhile (· = '0') fraction.toList with
  | [] => whole
  | digits => whole ++ "." ++ String.ofList digits

def sign (negative : Bool) : String := if negative then "-" else ""

def text : Binary64 → String
  | finite negative size => sign negative ++ positional (shortest size).1 (shortest size).2
  | infinite negative => sign negative ++ "inf"
  | nan => "NaN"

/-- Numbers in their order; the two zeros are equal, and `nan` comes last. -/
def rank : Binary64 → Int
  | finite negative size => if negative then -size else size
  | infinite negative => if negative then -sizeLimit else sizeLimit
  | nan => sizeLimit + 1

end Binary64

end RangeTransfer
