import RangeTransfer.Offset
import RangeTransfer.Text.Decimal
/-!
# Log levels

The levels from silence to the most verbose, their names and their numbers.
-/

namespace RangeTransfer.LogFilter

inductive Level where
  | off
  | error
  | warn
  | info
  | debug
  | trace
  deriving DecidableEq, Repr

namespace Level

/-- All levels, by their numbers. -/
def all : List Level := [off, error, warn, info, debug, trace]

def name : Level → String
  | off => "off"
  | error => "error"
  | warn => "warn"
  | info => "info"
  | debug => "debug"
  | trace => "trace"

/-- The level that `text` names, whatever its case, or gives by number. -/
def read? (text : String) : Option Level :=
  match Text.readCount Offset.limit text with
  | some number => all[number]?
  | none => all.find? (·.name = text.map Char.toLower)

theorem read?_name (level : Level) : read? level.name = some level := by
  cases level <;> decide +kernel

end Level

end RangeTransfer.LogFilter
