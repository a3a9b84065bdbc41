/-!
# Runs of code points

A set of characters as the runs of code points in it, for the properties of characters that only a
table can give.
-/

namespace RangeTransfer.Text

/-- First and last code point of each run. -/
abbrev Runs := List (Nat × Nat)

def Runs.has (runs : Runs) (c : Char) : Bool :=
  runs.any fun (first, last) => first ≤ c.toNat && c.toNat ≤ last

theorem Runs.has_of_mem {runs : Runs} {first last : Nat} {c : Char} (h : (first, last) ∈ runs)
    (h₁ : first ≤ c.toNat) (h₂ : c.toNat ≤ last) : runs.has c = true := by
  simp only [Runs.has, List.any_eq_true]
  exact ⟨_, h, by simp [h₁, h₂]⟩

end RangeTransfer.Text
