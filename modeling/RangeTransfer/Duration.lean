import RangeTransfer.Abort
import RangeTransfer.Text.Decimal
/-!
# Durations

A duration is a whole number of nanoseconds. Division rounds down. `text` writes it in the largest
unit that is not above it, with as many decimals as it needs.
-/

namespace RangeTransfer

structure Duration where
  nanos : Nat
  deriving DecidableEq, Repr

namespace Duration

def perSecond : Nat := 1000000000

def zero : Duration := ⟨0⟩

def ofSeconds (n : Nat) : Duration := ⟨n * perSecond⟩

def ofMillis (n : Nat) : Duration := ⟨n * 1000000⟩

def seconds (d : Duration) : Nat := d.nanos / perSecond

/-- The nanoseconds past the last whole second. -/
def subsecond (d : Duration) : Nat := d.nanos % perSecond

def div (d : Duration) (n : Nat) : Except Abort Duration :=
  if n = 0 then .error .durationDividedByZero else .ok ⟨d.nanos / n⟩

/-- `n / unit` in decimals, where `unit` is ten to the power of `places`. -/
def decimal (n unit places : Nat) : String :=
  let fraction := Text.alignRight '0' places (toString (n % unit))
  let digits := (fraction.toList.reverse.dropWhile (· = '0')).reverse
  toString (n / unit) ++ (if digits = [] then "" else "." ++ String.ofList digits)

def text (d : Duration) : String :=
  if perSecond ≤ d.nanos then decimal d.nanos perSecond 9 ++ "s"
  else if 1000000 ≤ d.nanos then decimal d.nanos 1000000 6 ++ "ms"
  else if 1000 ≤ d.nanos then decimal d.nanos 1000 3 ++ "µs"
  else decimal d.nanos 1 0 ++ "ns"

end Duration

end RangeTransfer
