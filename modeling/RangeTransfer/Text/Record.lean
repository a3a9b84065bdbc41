import RangeTransfer.Text.Quoted
/-!
# Records as text

A value shown by its name and the names and texts of its fields, for logs.
-/

namespace RangeTransfer.Text

def record (name : String) (fields : List (String × String)) : String :=
  let shown := fields.map fun (field, value) => field ++ ": " ++ value
  name ++ " \x7b " ++ String.intercalate ", " shown ++ " \x7d"

def option (value : Option String) : String :=
  match value with
  | none => "None"
  | some text => "Some(" ++ text ++ ")"

end RangeTransfer.Text
