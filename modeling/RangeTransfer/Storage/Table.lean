/-!
# Tables

Finite maps as lists of rows, one row per key. A look-up sees the last value set (`get?_set`) and
nothing that was erased (`get?_erase`, `get?_eraseWhere`).
-/

namespace RangeTransfer

structure Table (κ ν : Type) where
  rows : List (κ × ν)

namespace Table

variable {κ ν : Type} [DecidableEq κ]

def empty : Table κ ν := ⟨[]⟩

instance : Inhabited (Table κ ν) := ⟨empty⟩

def lookup (key : κ) : List (κ × ν) → Option ν
  | [] => none
  | (k, v) :: rows => if k = key then some v else lookup key rows

def get? (t : Table κ ν) (key : κ) : Option ν := lookup key t.rows

/-- The table without the rows whose key satisfies `p`. -/
def eraseWhere (t : Table κ ν) (p : κ → Bool) : Table κ ν := ⟨t.rows.filter fun row => !p row.1⟩

def erase (t : Table κ ν) (key : κ) : Table κ ν := t.eraseWhere fun k => decide (k = key)

def set (t : Table κ ν) (key : κ) (value : ν) : Table κ ν := ⟨(key, value) :: (t.erase key).rows⟩

theorem get?_eraseWhere (t : Table κ ν) (p : κ → Bool) (key : κ) :
    (t.eraseWhere p).get? key = if p key then none else t.get? key := by
  simp only [get?, eraseWhere]
  induction t.rows with
  | nil => simp [lookup]
  | cons row rows ih =>
    obtain ⟨k, v⟩ := row
    by_cases hp : p k = true
    · simp only [List.filter, hp, Bool.not_true, ih, lookup]
      by_cases hk : k = key
      · subst hk; simp [hp]
      · simp [hk]
    · simp only [List.filter, hp, Bool.not_false, lookup, ih]
      by_cases hk : k = key
      · subst hk; simp [hp]
      · simp [hk]

theorem get?_erase (t : Table κ ν) (key other : κ) :
    (t.erase key).get? other = if other = key then none else t.get? other := by
  simp [erase, get?_eraseWhere]

theorem get?_set (t : Table κ ν) (key other : κ) (value : ν) :
    (t.set key value).get? other = if other = key then some value else t.get? other := by
  by_cases h : key = other
  · subst h; simp [set, get?, lookup]
  · have h' : ¬ other = key := fun e => h e.symm
    have := get?_erase t key other
    simp only [get?, h', if_false] at this
    simp only [set, get?, lookup, h, h', if_false]
    exact this

end Table

end RangeTransfer
