/-!
# Base 64

Bytes as text: three bytes are four characters of six bits each, and a last group that is short is
filled up with equals signs.
-/

namespace RangeTransfer.Text

/-- The character for a number below 64. -/
def base64Char (n : Nat) : Char :=
  if n < 26 then Char.ofNat (65 + n)
  else if n < 52 then Char.ofNat (71 + n)
  else if n < 62 then Char.ofNat (n - 4)
  else if n = 62 then '+' else '/'

/-- The characters of `n` from the highest place down, six bits each, `count` of them. -/
def sixBits (n : Nat) : (count : Nat) → List Char
  | 0 => []
  | count + 1 => base64Char (n / 64 ^ count % 64) :: sixBits n count

def base64 : List UInt8 → List Char
  | a :: b :: c :: bytes => sixBits ((a.toNat * 256 + b.toNat) * 256 + c.toNat) 4 ++ base64 bytes
  | [a, b] => sixBits ((a.toNat * 256 + b.toNat) * 4) 3 ++ ['=']
  | [a] => sixBits (a.toNat * 16) 2 ++ ['=', '=']
  | [] => []

end RangeTransfer.Text
