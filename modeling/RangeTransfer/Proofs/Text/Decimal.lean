import RangeTransfer.Text.Decimal
/-!
# What numbers in texts denote

A numeral is a run of ASCII digits, at least one, and denotes a number in base ten; zeros in front
count nothing. `readDigits` reads just the numerals of numbers below its limit
(`readDigits_eq_some_iff`), `readCount` those and the same with a plus sign in front
(`readCount_eq_some_iff`). The text of a number is one of its numerals (`numeral_toString`).
-/

namespace RangeTransfer.Text

/-- `cs` is a run of digits that denotes `n`. -/
structure Numeral (cs : List Char) (n : Nat) : Prop where
  nonempty : cs ≠ []
  digits : ∀ c ∈ cs, c.isDigit = true
  value : Nat.ofDigitChars 10 cs 0 = n

variable {cs : List Char} {limit n m : Nat}

theorem Numeral.inj (h : Numeral cs n) (h' : Numeral cs m) : n = m := h.value.symm.trans h'.value

theorem numeral_toString (n : Nat) : Numeral (toString n).toList n := by
  rw [Nat.toString_eq_ofList_toDigits, String.toList_ofList]
  exact ⟨Nat.toDigits_ne_nil, fun c => Nat.isDigit_of_mem_toDigits (by decide) (by decide),
    Nat.ofDigitChars_ten_toDigits⟩

theorem readDigits_eq_some_iff : readDigits limit cs = some n ↔ Numeral cs n ∧ n < limit := by
  have hvalue : digitsValue cs = Nat.ofDigitChars 10 cs 0 := rfl
  unfold readDigits
  split
  · rename_i h
    obtain ⟨hne, hdigits, hlt⟩ := h
    rw [List.all_eq_true] at hdigits
    rw [Option.some.injEq]
    constructor
    · rintro rfl
      exact ⟨⟨hne, hdigits, hvalue.symm⟩, hlt⟩
    · exact fun h => hvalue.trans h.1.value
  · rename_i h
    refine iff_of_false nofun fun ⟨hn, hlt⟩ => h ⟨hn.nonempty, List.all_eq_true.mpr hn.digits, ?_⟩
    rwa [hvalue, hn.value]

/-- A numeral of `n`, with or without a plus sign in front. -/
def Count (cs : List Char) (n : Nat) : Prop :=
  Numeral cs n ∨ ∃ digits, cs = '+' :: digits ∧ Numeral digits n

theorem readCount_eq_some_iff {text : String} :
    readCount limit text = some n ↔ Count text.toList n ∧ n < limit := by
  unfold readCount Count
  split
  · rename_i cs heq
    have hplus : ¬ Numeral ('+' :: cs) n := fun h => absurd (h.digits '+' List.mem_cons_self) (by decide)
    simp only [heq, readDigits_eq_some_iff, hplus, false_or, List.cons.injEq, true_and,
      exists_eq_left']
  · rename_i hplus
    have hno : ¬ ∃ digits, text.toList = '+' :: digits ∧ Numeral digits n :=
      fun ⟨digits, heq, _⟩ => hplus digits heq
    rw [readDigits_eq_some_iff, or_iff_left hno]

end RangeTransfer.Text
