import RangeTransfer.Pattern.Element
/-!
# Sets in patterns

A set stands in brackets: characters, ranges, named sets and further sets, joined, intersected or
subtracted. `readSet` reads one and tells its height, which is all that matters about it here.
-/

namespace RangeTransfer.Pattern

/-- The height of elements that stand side by side. -/
def heightOfAll : List Nat → Nat
  | [] => 0
  | [height] => height
  | heights => 1 + heights.foldl max 0

def setNames : List String :=
  ["alnum", "alpha", "ascii", "blank", "cntrl", "digit", "graph", "lower", "print", "punct", "space",
   "upper", "word", "xdigit"]

/-- A set whose closing bracket was not met yet. -/
structure OpenSet where
  negated : Bool
  /-- The heights of the items behind the last operator. -/
  items : List Nat
  /-- The height of what stands before the last operator. -/
  left : Option Nat
  deriving DecidableEq, Repr

namespace OpenSet

def push (s : OpenSet) (height : Nat) : OpenSet := { s with items := height :: s.items }

def height (s : OpenSet) : Nat :=
  match s.left with
  | none => heightOfAll s.items
  | some left => 1 + max left (heightOfAll s.items)

/-- Starts a further operand. -/
def operate (s : OpenSet) : OpenSet := { s with items := [], left := some s.height }

end OpenSet

/-- How many minus signs stand at the front of `cs`, and what follows them. -/
def readDashes (mode : Mode) : (bound : Nat) → List Char → Nat × List Char
  | bound + 1, '-' :: cs =>
    let (count, rest) := readDashes mode bound (mode.skip cs)
    (count + 1, rest)
  | _, cs => (0, cs)

/-- The start of a set behind its opening bracket: minus signs there are items, and so is a closing
bracket if it comes first. -/
def beginSet (mode : Mode) (cs : List Char) : OpenSet × List Char :=
  let (negated, cs) := match mode.skip cs with
    | '^' :: cs => (true, mode.skip cs)
    | cs => (false, cs)
  let (dashes, cs) := readDashes mode cs.length cs
  match dashes, cs with
  | 0, ']' :: cs => (⟨negated, [0], none⟩, mode.skip cs)
  | _, cs => (⟨negated, List.replicate dashes 0, none⟩, cs)

/-- A named set such as `[:alpha:]` behind its opening bracket: whether it is negated, and what
follows it. -/
def readNamedSet (cs : List Char) : Option (Bool × List Char) :=
  let read (negated : Bool) (cs : List Char) : Option (Bool × List Char) :=
    match cs.dropWhile (· ≠ ':') with
    | ':' :: ']' :: rest =>
      if setNames.contains (String.ofList (cs.takeWhile (· ≠ ':'))) then some (negated, rest) else none
    | _ => none
  match cs with
  | ':' :: '^' :: cs => read true cs
  | ':' :: cs => read false cs
  | _ => none

def readItem (mode : Mode) : List Char → Option (Element × List Char)
  | [] => none
  | '\\' :: cs => readEscape mode cs
  | c :: cs => some (.char c false, cs)

/-- What comes next in `cs`, of a comment the first character. -/
def peek (mode : Mode) (cs : List Char) : Option Char :=
  if !mode.spaced then cs.head?
  else
    let behind := match cs.dropWhile Text.isBlank with
      | '#' :: cs => cs.dropWhile Text.isBlank
      | cs => cs
    behind.head?.or cs.head?

/-- Steps over an item or a range of characters. A minus sign in front of another one, or at the end
of the set, makes no range. -/
def readRange (mode : Mode) (cs : List Char) : Option (List Char) := do
  let (first, cs) ← readItem mode cs
  guard (first.isSupportedInSet mode)
  match mode.skip cs with
  | '-' :: cs =>
    if peek mode cs = some ']' ∨ peek mode cs = some '-' then return '-' :: cs
    else
      let (last, rest) ← readItem mode (mode.skip cs)
      guard (last.isSupportedInSet mode)
      match first, last with
      | .char a _, .char b _ =>
        guard (a ≤ b)
        return rest
      | _, _ => none
  | cs => return cs

/-- Reads up to the bracket that closes the outermost of the open sets, and tells the height of that
set. About bytes, no set may be negated. -/
def readSetWithin (mode : Mode) : (bound : Nat) → OpenSet → List OpenSet → List Char →
    Option (Nat × List Char)
  | 0, _, _, _ => none
  | bound + 1, s, outer, cs =>
    match mode.skip cs with
    | [] => none
    | ']' :: cs => do
      guard (mode.unicode || !s.negated)
      match outer with
      | [] => return (s.height + 1, cs)
      | parent :: outer => readSetWithin mode bound (parent.push (s.height + 1)) outer cs
    | '[' :: cs =>
      match readNamedSet cs with
      | some (negated, cs) => do
        guard (mode.unicode || !negated)
        readSetWithin mode bound (s.push 0) outer cs
      | none =>
        let (inner, cs) := beginSet mode cs
        readSetWithin mode bound inner (s :: outer) cs
    | '&' :: '&' :: cs | '-' :: '-' :: cs | '~' :: '~' :: cs =>
      readSetWithin mode bound s.operate outer cs
    | cs => do readSetWithin mode bound (s.push 0) outer (← readRange mode cs)

/-- Reads a set behind its opening bracket. -/
def readSet (mode : Mode) (cs : List Char) : Option (Nat × List Char) :=
  let (s, cs) := beginSet mode cs
  readSetWithin mode (cs.length + 1) s [] cs

end RangeTransfer.Pattern
