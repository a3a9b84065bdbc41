import RangeTransfer.Abort
/-!
# 64-bit offsets

Offsets, lengths and counts are natural numbers below `Offset.limit`. An operation that could leave
them aborts (`add`, `sub`, `mul`), stops at the last number (`addCapped`, `mulCapped`) or wraps
around (`addWrapped`). The lemmas say when each one is the plain operation.
-/

namespace RangeTransfer.Offset

def limit : Nat := 1 <<< 64

/-- The last number below the limit. -/
def last : Nat := limit - 1

def add (a b : Nat) : Except Abort Nat :=
  if a + b < limit then .ok (a + b) else .error (.overflow .add)

def sub (a b : Nat) : Except Abort Nat :=
  if b ≤ a then .ok (a - b) else .error (.overflow .subtract)

def mul (a b : Nat) : Except Abort Nat :=
  if a * b < limit then .ok (a * b) else .error (.overflow .multiply)

def addCapped (a b : Nat) : Nat := min (a + b) last

def mulCapped (a b : Nat) : Nat := min (a * b) last

def addWrapped (a b : Nat) : Nat := (a + b) % limit

theorem pos_max_one (n : Nat) : 0 < max n 1 := Nat.le_max_right n 1

theorem add_eq_ok {a b : Nat} (h : a + b < limit) : add a b = .ok (a + b) := if_pos h

theorem eq_of_add_eq_ok {a b c : Nat} (h : add a b = .ok c) : c = a + b := by
  unfold add at h
  split at h
  · cases h
    rfl
  · cases h

theorem sub_eq_ok {a b : Nat} (h : b ≤ a) : sub a b = .ok (a - b) := if_pos h

theorem le_of_sub_eq_ok {a b c : Nat} (h : sub a b = .ok c) : b ≤ a := by
  unfold sub at h
  split at h
  · assumption
  · cases h

theorem addWrapped_eq {a b : Nat} (h : a + b < limit) : addWrapped a b = a + b := Nat.mod_eq_of_lt h

end RangeTransfer.Offset
