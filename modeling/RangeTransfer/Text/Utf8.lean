/-!
# UTF-8

Reading bytes as text. `decode?` refuses ill-formed bytes; `decodeLossy` shows each maximal
ill-formed run, the longest start of a character that the bytes contain, as one replacement
character.
-/

namespace RangeTransfer.Text

def decode? (bytes : List UInt8) : Option String := String.fromUTF8? ⟨bytes.toArray⟩

def encode (text : String) : List UInt8 := text.toUTF8.data.toList

def replacement : Char := Char.ofNat 0xfffd

/-- The bytes that may follow the first byte of a character: how many, and the range of the first
of them. The others lie between `0x80` and `0xbf`. -/
def followers (b : UInt8) : Option (Nat × UInt8 × UInt8) :=
  if b < 0xc2 then none
  else if b < 0xe0 then some (1, 0x80, 0xbf)
  else if b = 0xe0 then some (2, 0xa0, 0xbf)
  else if b = 0xed then some (2, 0x80, 0x9f)
  else if b < 0xf0 then some (2, 0x80, 0xbf)
  else if b = 0xf0 then some (3, 0x90, 0xbf)
  else if b < 0xf4 then some (3, 0x80, 0xbf)
  else if b = 0xf4 then some (3, 0x80, 0x8f)
  else none

/-- The bytes at the front of `bytes` that continue a character, at most `n`, the first of them
between `low` and `high`. -/
def continuation : Nat → UInt8 → UInt8 → List UInt8 → List UInt8
  | n + 1, low, high, b :: bytes =>
    if low ≤ b && b ≤ high then b :: continuation n 0x80 0xbf bytes else []
  | _, _, _, _ => []

/-- The character that starts with `b`, and how many of the bytes after `b` belong to it. -/
def firstChar (b : UInt8) (bytes : List UInt8) : Char × Nat :=
  if b < 0x80 then (Char.ofNat b.toNat, 0)
  else match followers b with
    | none => (replacement, 0)
    | some (n, low, high) =>
      let rest := continuation n low high bytes
      if rest.length = n then
        let lead := b.toNat % (1 <<< (6 - n))
        (Char.ofNat (rest.foldl (fun code c => 64 * code + c.toNat % 64) lead), n)
      else (replacement, rest.length)

/-- Skips the first `skip` bytes, which belong to a character already shown. -/
def decodeLossyFrom (skip : Nat) : List UInt8 → List Char
  | [] => []
  | b :: bytes =>
    match skip with
    | k + 1 => decodeLossyFrom k bytes
    | 0 =>
      let (c, n) := firstChar b bytes
      c :: decodeLossyFrom n bytes

def decodeLossy (bytes : List UInt8) : String := String.ofList (decodeLossyFrom 0 bytes)

end RangeTransfer.Text
