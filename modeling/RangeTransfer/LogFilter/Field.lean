import RangeTransfer.Binary64
import RangeTransfer.Offset
import RangeTransfer.Pattern.Basic
/-!
# Fields of directives

A directive can ask for fields by name, and for their values: a truth value, a number, or a pattern
that the text of the value matches. Fields and values have an order of their own, in which `Filter`
keeps its directives.
-/

namespace RangeTransfer.LogFilter

inductive FieldValue where
  | truth (b : Bool)
  | real (x : Binary64)
  | natural (n : Nat)
  | integer (n : Int)
  | pattern (text : String)
  deriving DecidableEq, Repr

namespace FieldValue

/-- The integer that `text` denotes behind a minus sign, in 64 bits. -/
def readNegative (text : String) : Option Int :=
  match text.toList with
  | '-' :: cs => (Text.readDigits (1 <<< 63 + 1) cs).map fun n => -n
  | _ => none

/-- The first kind of value that `text` can be. -/
def read? (text : String) : Option FieldValue :=
  if text = "true" then some (truth true)
  else if text = "false" then some (truth false)
  else match Text.readCount Offset.limit text, readNegative text, Binary64.read? text with
    | some n, _, _ => some (natural n)
    | none, some n, _ => some (integer n)
    | none, none, some x => some (real x)
    | none, none, none => if Pattern.isPattern text then some (pattern text) else none

def text : FieldValue → String
  | truth b => toString b
  | real x => x.text
  | natural n => toString n
  | integer n => toString n
  | pattern text => text

/-- The place of the kind of value among all kinds. -/
def kind : FieldValue → Nat
  | truth _ => 0
  | real _ => 1
  | natural _ => 2
  | integer _ => 3
  | pattern _ => 4

/-- Values of one kind in their own order, and kind after kind. -/
def order (v w : FieldValue) : Ordering :=
  match v, w with
  | truth b, truth c => compare b c
  | real x, real y => compare x.rank y.rank
  | natural n, natural m => compare n m
  | integer n, integer m => compare n m
  | pattern s, pattern t => compare s t
  | v, w => compare v.kind w.kind

end FieldValue

/-- Two things that may be missing; what is missing is the smaller. -/
def orderOptions {α : Type} (order : α → α → Ordering) : Option α → Option α → Ordering
  | none, none => .eq
  | none, some _ => .lt
  | some _, none => .gt
  | some a, some b => order a b

structure Field where
  name : String
  value : Option FieldValue
  deriving DecidableEq, Repr

namespace Field

/-- Reads `name` or `name=value`; what follows a second equals sign is passed over. -/
def read? (text : List Char) : Option Field :=
  let name := String.ofList (text.takeWhile (· ≠ '='))
  match text.dropWhile (· ≠ '=') with
  | [] => some ⟨name, none⟩
  | _ :: value => (FieldValue.read? (String.ofList (value.takeWhile (· ≠ '=')))).map (⟨name, ·⟩)

def text (f : Field) : String :=
  f.name ++ (match f.value with
    | some value => "=" ++ value.text
    | none => "")

/-- Fields without a value come first, then the order is by name and by value. -/
def order (f g : Field) : Ordering :=
  (compare f.value.isSome g.value.isSome).then <| (compare f.name g.name).then <|
    orderOptions FieldValue.order f.value g.value

end Field

end RangeTransfer.LogFilter
