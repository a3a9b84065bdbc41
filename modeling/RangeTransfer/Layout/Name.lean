import RangeTransfer.Text.Blank
/-!
# Directory names

The name of the directory that holds a split object, made from the name of the object: letters,
digits and a few marks survive, everything else becomes an underscore, and the extension is kept as
it is.
-/

namespace RangeTransfer.Layout

/-- Longest name before the extension. -/
def baseNameLimit : Nat := 80

def isPlain (c : Char) : Bool := c.isAlphanum || " -_[]()+".toList.contains c

/-- `c`, or an underscore for each byte of it. -/
def plain (c : Char) : List Char := if isPlain c then [c] else List.replicate c.utf8Size '_'

def isPadding (c : Char) : Bool := c = ' ' || c = '_'

/-- The name before its last dot, and the rest. A dot that comes first belongs to the name. -/
def splitExtension (cs : List Char) : List Char × List Char :=
  let extension := (cs.reverse.takeWhile (· ≠ '.')).reverse
  let base := cs.take (cs.length - extension.length - 1)
  if base = [] then (cs, []) else (base, '.' :: extension)

def safeBase (cs : List Char) : List Char :=
  let trimmed := Text.trimWhile isPadding (cs.flatMap plain)
  (if trimmed = [] then "file".toList else trimmed).take baseNameLimit

/-- `name` in a form that is fit for a directory. -/
def safeName (name : String) : String :=
  let (base, extension) := splitExtension name.toList
  String.ofList (safeBase base ++ extension)

end RangeTransfer.Layout
