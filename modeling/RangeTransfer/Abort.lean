import RangeTransfer.Text.Quoted
/-!
# Aborts

An abort ends the thread that meets it: arithmetic that leaves 64 bits, an empty range, a wait cut
into no pieces, a text cut inside a character, a crash of the caller's own code. It is not an error
that a transfer can report.
-/

namespace RangeTransfer

/-- The three operations on 64-bit numbers that can leave their range. -/
inductive Arithmetic where
  | add
  | subtract
  | multiply
  deriving DecidableEq, Repr

/-- The two ends of a slice of text. -/
inductive SliceEnd where
  | start
  | stop
  deriving DecidableEq, Repr

inductive Abort where
  | overflow (operation : Arithmetic)
  | emptyRange (first last : Nat)
  | durationDividedByZero
  /-- A slice of text ends at byte `index`, inside the character that starts at byte `first`. -/
  | cutCharacter (place : SliceEnd) (index : Nat) (c : Char) (first : Nat)
  | crash (reason : String)
  deriving DecidableEq, Repr

namespace Abort

def message : Abort → String
  | overflow .add => "attempt to add with overflow"
  | overflow .subtract => "attempt to subtract with overflow"
  | overflow .multiply => "attempt to multiply with overflow"
  | emptyRange first last => s!"range end {last} below start {first}"
  | durationDividedByZero => "divide by zero error when dividing duration by scalar"
  | cutCharacter place index c first =>
    (match place with
      | .start => "start"
      | .stop => "end") ++ " byte index " ++ toString index ++ " is not a char boundary; it is inside " ++
      Text.quoteSingle c ++ " (bytes " ++ toString first ++ ".." ++ toString (first + c.utf8Size) ++
      " of string)"
  | crash reason => reason

end Abort

end RangeTransfer
