import RangeTransfer.Pattern.Set
/-!
# Patterns

Which texts are patterns that a field can be compared with. A text is read element by element;
groups that are open lie on a stack. Trees of elements may not grow too high, so every element is
kept as its height.
-/

namespace RangeTransfer.Pattern

/-- The greatest height of a pattern. -/
def heightLimit : Nat := 250

/-- Alternatives side by side, the last of them unfinished. -/
structure Branches where
  /-- The heights of the finished alternatives. -/
  finished : List Nat
  /-- The heights of the elements of the last one, the latest first. A turn of switches has none,
  and nothing repeats it. -/
  elements : List (Option Nat)
  deriving DecidableEq, Repr

namespace Branches

def empty : Branches := ⟨[], []⟩

def push (b : Branches) (height : Option Nat) : Branches :=
  { b with elements := height :: b.elements }

def lastHeight (b : Branches) : Nat := heightOfAll (b.elements.map (·.getD 0))

/-- Starts a further alternative. -/
def next (b : Branches) : Branches := ⟨b.lastHeight :: b.finished, []⟩

def height (b : Branches) : Nat := heightOfAll (b.lastHeight :: b.finished)

/-- Repeats the latest element, if there is one that can be repeated. -/
def repeatLatest (b : Branches) : Option Branches :=
  match b.elements with
  | some height :: elements => some { b with elements := some (height + 1) :: elements }
  | _ => none

end Branches

/-- What was read of a pattern. -/
structure Reader where
  mode : Mode
  branches : Branches
  /-- The groups that are open, each with what stands in front of it and the mode there. -/
  outer : List (Mode × Branches)
  /-- The names of groups. -/
  names : List String
  rest : List Char
  deriving DecidableEq, Repr

namespace Reader

def new (text : List Char) : Reader := ⟨.standard, .empty, [], [], text⟩

/-- Opens a group in which `mode` holds. -/
def openGroup (r : Reader) (mode : Mode) (rest : List Char) : Reader :=
  { r with mode, branches := .empty, outer := (r.mode, r.branches) :: r.outer, rest }

def closeGroup (r : Reader) (rest : List Char) : Option Reader :=
  match r.outer with
  | [] => none
  | (mode, branches) :: outer =>
    some { r with mode, branches := branches.push (some (r.branches.height + 1)), outer, rest }

def isName (name : List Char) : Bool :=
  match name with
  | [] => false
  | c :: cs =>
    (c = '_' || Text.isLetter c) &&
      cs.all fun c => ['_', '.', '[', ']'].contains c || Text.isLetterOrNumeral c

/-- Opens a group whose name stands at the front of `cs`. -/
def openNamed (r : Reader) (cs : List Char) : Option Reader := do
  let name := cs.takeWhile (· ≠ '>')
  guard (isName name && !r.names.contains (String.ofList name))
  match cs.dropWhile (· ≠ '>') with
  | _ :: rest => some ({ r with names := String.ofList name :: r.names }.openGroup r.mode rest)
  | [] => none

/-- Opens a group behind its bracket, or turns switches. -/
def readGroup (r : Reader) (cs : List Char) : Option Reader :=
  match r.mode.skip cs with
  | '?' :: 'P' :: '<' :: cs | '?' :: '<' :: cs => r.openNamed cs
  | '?' :: cs => do
    let switches := cs.takeWhile fun c => c ≠ ':' && c ≠ ')'
    guard (areSwitches switches)
    let mode := r.mode.turn switches
    match cs.drop switches.length with
    | ':' :: rest => some (r.openGroup mode rest)
    | _ :: rest =>
      guard (switches ≠ [])
      some { r with mode, branches := r.branches.push none, rest }
    | [] => none
  | cs => some (r.openGroup r.mode cs)

/-- Repeats the latest element; a question mark next to the sign belongs to it. -/
def repeatLatest (r : Reader) (cs : List Char) : Option Reader := do
  let branches ← r.branches.repeatLatest
  let rest := match cs with
    | '?' :: cs => cs
    | cs => cs
  return { r with branches, rest }

def push (r : Reader) (element : Element) (rest : List Char) : Option Reader :=
  if element.isSupported r.mode then some { r with branches := r.branches.push (some 0), rest }
  else none

/-- Reads what `c` begins, in front of `cs`. -/
def step (r : Reader) (c : Char) (cs : List Char) : Option Reader :=
  match c with
  | '(' => r.readGroup cs
  | ')' => r.closeGroup cs
  | '|' => some { r with branches := r.branches.next, rest := cs }
  | '[' => do
    let (height, rest) ← readSet r.mode cs
    return { r with branches := r.branches.push (some height), rest }
  | '?' | '*' | '+' => r.repeatLatest cs
  | '\x7b' => none
  | '\\' => do
    let (element, rest) ← readEscape r.mode cs
    r.push element rest
  | '.' => r.push .any cs
  | '^' | '$' => r.push .edge cs
  | c => r.push (.char c false) cs

/-- Reads to the end; every step takes at least one character. -/
def run : (bound : Nat) → Reader → Option Reader
  | 0, r => some r
  | bound + 1, r =>
    match r.mode.skip r.rest with
    | [] => some r
    | c :: cs => do run bound (← r.step c cs)

end Reader

/-- Whether `text` is a pattern. -/
def isPattern (text : String) : Bool :=
  match (Reader.new text.toList).run (text.length + 1) with
  | none => false
  | some r => r.outer.isEmpty && r.branches.height ≤ heightLimit

end RangeTransfer.Pattern
