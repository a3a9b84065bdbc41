import Mathlib.Data.Set.Function
import RangeTransfer.Proofs.Layout.Geometry
/-!
# The places of bytes in parts

Each byte of an object has one place, a part and an offset in it, and each place of the parts has
one byte (`bijOn_locate`). The offset of a byte is read off its place (`locate_inverse`), and the
places are in the order of the bytes (`lt_iff_lex_locate`). With the geometry of the parts this
makes them a partition of the object (`parts_partition`).
-/

namespace RangeTransfer

namespace SplitLayout

variable {l : SplitLayout} {total i : Nat}

/-- The places of the bytes of an object of `total` bytes: a part, and an offset in it. -/
def places (l : SplitLayout) (total : Nat) : Set (Nat × Nat) :=
  {place | place.1 < l.partCount total ∧ place.2 < l.expectedLength place.1 total}

theorem locate_inverse (l : SplitLayout) (o : Nat) :
    (l.locate o).1 * l.partSize + (l.locate o).2 = o := by
  rw [locate, Nat.mul_comm]
  exact Nat.div_add_mod o l.partSize

theorem locate_eq {w : Nat} (hw : w < l.partSize) : l.locate (i * l.partSize + w) = (i, w) := by
  have hpos := l.partSize_pos
  rw [locate, Nat.mul_comm, Nat.mul_add_div hpos, Nat.mul_add_mod, Nat.div_eq_of_lt hw,
    Nat.mod_eq_of_lt hw, Nat.add_zero]

theorem locate_injective (l : SplitLayout) : Function.Injective l.locate := by
  intro o o' h
  rw [← l.locate_inverse o, ← l.locate_inverse o', h]

theorem offset_lt {w : Nat} (h : (i, w) ∈ l.places total) (hfit : total < Offset.limit) :
    i * l.partSize + w < total := by
  obtain ⟨hi, hw⟩ : i < l.partCount total ∧ w < l.expectedLength i total := h
  have hstart := lt_partCount.mp hi
  rw [expectedLength_eq hstart hfit] at hw
  omega

theorem locate_mem_places {o : Nat} (ho : o < total) (hfit : total < Offset.limit) :
    l.locate o ∈ l.places total := by
  have hinverse := l.locate_inverse o
  have hmod : (l.locate o).2 < l.partSize := Nat.mod_lt o l.partSize_pos
  have hstart : (l.locate o).1 * l.partSize < total := by omega
  refine ⟨lt_partCount.mpr hstart, ?_⟩
  rw [expectedLength_eq hstart hfit]
  omega

theorem bijOn_locate (hfit : total < Offset.limit) :
    Set.BijOn l.locate {o | o < total} (l.places total) := by
  refine ⟨fun o ho => locate_mem_places ho hfit, l.locate_injective.injOn, ?_⟩
  rintro ⟨i, w⟩ hplace
  have hw : w < l.partSize := Nat.lt_of_lt_of_le hplace.2 (l.expectedLength_le i total)
  exact ⟨i * l.partSize + w, offset_lt hplace hfit, locate_eq hw⟩

theorem lt_iff_lex_locate (l : SplitLayout) (o o' : Nat) :
    o < o' ↔ Prod.Lex (· < ·) (· < ·) (l.locate o) (l.locate o') := by
  have hinverse := l.locate_inverse o
  have hinverse' := l.locate_inverse o'
  have hmod : (l.locate o).2 < l.partSize := Nat.mod_lt o l.partSize_pos
  have hmod' : (l.locate o').2 < l.partSize := Nat.mod_lt o' l.partSize_pos
  rw [Prod.lex_def]
  constructor
  · intro hlt
    rcases Nat.lt_or_ge (l.locate o).1 (l.locate o').1 with hpart | hpart
    · exact Or.inl hpart
    · have hle : (l.locate o).1 ≤ (l.locate o').1 := Nat.div_le_div_right (Nat.le_of_lt hlt)
      have heq : (l.locate o).1 = (l.locate o').1 := Nat.le_antisymm hle hpart
      refine Or.inr ⟨heq, ?_⟩
      rw [heq] at hinverse
      omega
  · rintro (hpart | ⟨heq, hwithin⟩)
    · -- a whole part lies between the two
      have hborder := Nat.mul_le_mul_right l.partSize (Nat.succ_le_of_lt hpart)
      rw [Nat.succ_mul] at hborder
      omega
    · rw [heq] at hinverse
      omega

/-- The parts of a layout partition an object of any size, whatever the size of a part, of which
zero counts as one. Each byte of the object has a place in one of them, in the order of the bytes,
and no other place holds one. -/
theorem parts_partition (directory : Path) (partSize total : Nat) (hfit : total < Offset.limit) :
    let l := SplitLayout.new directory partSize
    l.partSize = max partSize 1 ∧
    l.partCount total = total / l.partSize + (if total % l.partSize = 0 then 0 else 1) ∧
    l.partCount total ≤ total ∧
    ((List.range (l.partCount total)).map (l.expectedLength · total)).sum = total ∧
    (∀ i, i + 1 < l.partCount total → l.expectedLength i total = l.partSize) ∧
    (∀ i, i + 1 = l.partCount total →
      1 ≤ l.expectedLength i total ∧ l.expectedLength i total ≤ l.partSize) ∧
    (∀ i, l.partCount total ≤ i → l.expectedLength i total = 0) ∧
    Set.BijOn l.locate {o | o < total} (l.places total) ∧
    (∀ o o', o < o' ↔ Prod.Lex (· < ·) (· < ·) (l.locate o) (l.locate o')) ∧
    (∀ o, (l.locate o).1 * l.partSize + (l.locate o).2 = o) ∧
    ∀ i w, (i, w) ∈ l.places total →
      i * l.partSize + w < total ∧ l.locate (i * l.partSize + w) = (i, w) := by
  intro l
  refine ⟨rfl, l.partCount_eq total, l.partCount_le total, ?_, fun i hi => expectedLength_of_lt hi hfit,
    fun i hi => ⟨expectedLength_pos (by omega) hfit, l.expectedLength_le i total⟩,
    fun i hi => expectedLength_of_le hi hfit, bijOn_locate hfit, l.lt_iff_lex_locate,
    l.locate_inverse, fun i w hplace => ⟨offset_lt hplace hfit, ?_⟩⟩
  · rw [sum_expectedLength hfit (Nat.le_refl _)]
    exact Nat.min_eq_right (l.le_partCount_mul total)
  · exact locate_eq (Nat.lt_of_lt_of_le hplace.2 (l.expectedLength_le i total))

/-- The largest object, in parts of half the numbers: the third part would start past the last
number, and the last byte of the object is the last but one of the second part. -/
theorem parts_partition_halves :
    let half := Offset.limit / 2
    let l := SplitLayout.new ⟨[]⟩ half
    Offset.limit - 1 < Offset.limit ∧ l.partCount (Offset.limit - 1) = 2 ∧
    l.expectedLength 2 (Offset.limit - 1) = 0 ∧ l.locate (Offset.limit - 2) = (1, half - 2) ∧
    (1, half - 2) ∈ l.places (Offset.limit - 1) := by
  intro half l
  have hfit : Offset.limit - 1 < Offset.limit := by decide
  obtain ⟨-, hcount, -, -, -, -, hbehind, hbij, -⟩ :=
    parts_partition ⟨[]⟩ half (Offset.limit - 1) hfit
  have htwo : l.partCount (Offset.limit - 1) = 2 := hcount.trans (by decide)
  have hlast : l.locate (Offset.limit - 2) = (1, half - 2) := by decide
  have hmem : Offset.limit - 2 ∈ {o | o < Offset.limit - 1} := by decide
  exact ⟨hfit, htwo, hbehind 2 (Nat.le_of_eq htwo), hlast, hlast ▸ hbij.mapsTo hmem⟩

end SplitLayout

end RangeTransfer
