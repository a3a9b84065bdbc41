/-!
# Progress

What a caller sees of a running transfer: a byte counter that never decreases (`bytes_advanceTo`),
the size of the object, the phase, and the flag by which the caller asks to stop.
-/

namespace RangeTransfer

inductive Phase where
  | sizeUnknown
  | sizeResolved
  | layoutChosen
  | downloading
  | resuming
  | autoRetrying
  | completed
  | failed
  deriving DecidableEq, Repr

namespace Phase

def all : List Phase :=
  [sizeUnknown, sizeResolved, layoutChosen, downloading, resuming, autoRetrying, completed, failed]

/-- The phase with number `code`; a number that stands for no phase means an unknown size. -/
def ofCode (code : Nat) : Phase := all[code]?.getD sizeUnknown

def code (p : Phase) : Nat := all.idxOf p

def name : Phase → String
  | sizeUnknown => "SizeUnknown"
  | sizeResolved => "SizeResolved"
  | layoutChosen => "LayoutChosen"
  | downloading => "Downloading"
  | resuming => "Resuming"
  | autoRetrying => "AutoRetrying"
  | completed => "Completed"
  | failed => "Failed"

/-- The phases in which a transfer has finished. -/
def isTerminal : Phase → Bool
  | completed | failed => true
  | _ => false

theorem ofCode_code (p : Phase) : ofCode p.code = p := by cases p <;> rfl

end Phase

structure Progress where
  bytes : Nat
  /-- Size of the object; zero while it is unknown. -/
  total : Nat
  cancelled : Bool
  phase : Phase
  deriving DecidableEq, Repr

namespace Progress

def fresh : Progress := ⟨0, 0, false, .sizeUnknown⟩

/-- Raises the counter to `bytes`; a lower value leaves it. -/
def advanceTo (p : Progress) (bytes : Nat) : Progress := { p with bytes := max p.bytes bytes }

def setTotal (p : Progress) (total : Nat) : Progress := { p with total }

def setPhase (p : Progress) (phase : Phase) : Progress := { p with phase }

def cancel (p : Progress) : Progress := { p with cancelled := true }

/-- The part of the object that is done, between zero and one; zero while the size is unknown. -/
def ratio (p : Progress) : Float :=
  if p.total = 0 then 0
  else
    let r := (UInt64.ofNat p.bytes).toFloat / (UInt64.ofNat p.total).toFloat
    if 1 < r then 1 else r

theorem bytes_advanceTo (p : Progress) (bytes : Nat) : p.bytes ≤ (p.advanceTo bytes).bytes :=
  Nat.le_max_left _ _

end Progress

end RangeTransfer
