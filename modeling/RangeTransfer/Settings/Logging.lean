import RangeTransfer.LogFilter.Basic
import RangeTransfer.Path
/-!
# Logging settings

The filter and the file of the log. The filter is kept as it was written, and read when the log is
opened.
-/

namespace RangeTransfer

structure LoggingSettings where
  level : String
  file : Option Path
  deriving DecidableEq, Repr

def LoggingSettings.standard : LoggingSettings := ⟨LogFilter.standardLevel.name, none⟩

end RangeTransfer
