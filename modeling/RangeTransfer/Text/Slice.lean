import RangeTransfer.Abort
/-!
# Slices of text

Cutting text at places that are counted in bytes of UTF-8. A place inside a character is none at
which text can be cut, and `slice` aborts there.
-/

namespace RangeTransfer.Text

def byteCount (cs : List Char) : Nat := cs.foldl (fun n c => n + c.utf8Size) 0

/-- The characters in the first `index` bytes of a text, if they end with a character; otherwise the
character that they cut, and its first byte. `passed` bytes went before. -/
def takeBytes (index : Nat) : (passed : Nat) → List Char → Except (Char × Nat) (List Char)
  | _, [] => .ok []
  | passed, c :: cs =>
    if index ≤ passed then .ok []
    else if index < passed + c.utf8Size then .error (c, passed)
    else (c :: ·) <$> takeBytes index (passed + c.utf8Size) cs

/-- The characters from byte `first` up to byte `last`. -/
def slice (cs : List Char) (first last : Nat) : Except Abort (List Char) := do
  let front ← (takeBytes first 0 cs).mapError fun (c, start) => .cutCharacter .start first c start
  let whole ← (takeBytes last 0 cs).mapError fun (c, start) => .cutCharacter .stop last c start
  return whole.drop front.length

end RangeTransfer.Text
