import Mathlib.Algebra.GroupWithZero.Nat
import RangeTransfer.Layout.Split
/-!
# The geometry of parts

The parts of an object are numbered without a gap, as many as fill up and one for the rest
(`partCount_eq`). All of them but the last one are of full size, the last one is not empty, and
behind it there are none with bytes, also where a part would start past the last number
(`expectedLength_of_le`). Together they are as long as the object (`sum_expectedLength`).
-/

namespace RangeTransfer

namespace SplitLayout

variable {l : SplitLayout} {total i k : Nat}

theorem lt_partCount : i < l.partCount total ↔ i * l.partSize < total := by
  have hpos := l.partSize_pos
  rw [partCount, Nat.lt_div_iff_mul_lt hpos]
  omega

theorem le_partCount_mul (l : SplitLayout) (total : Nat) : total ≤ l.partCount total * l.partSize :=
  Nat.not_lt.mp fun hlt => Nat.lt_irrefl _ (lt_partCount.mpr hlt)

theorem partCount_eq (l : SplitLayout) (total : Nat) :
    l.partCount total = total / l.partSize + if total % l.partSize = 0 then 0 else 1 := by
  have hpos := l.partSize_pos
  have hsum : total + (l.partSize - 1) =
      l.partSize * (total / l.partSize) + (total % l.partSize + (l.partSize - 1)) := by
    have := Nat.div_add_mod total l.partSize
    omega
  rw [partCount, hsum, Nat.mul_add_div hpos]
  have hmod := Nat.mod_lt total hpos
  split
  · rename_i hzero
    have hnone : (l.partSize - 1) / l.partSize = 0 := Nat.div_eq_of_lt (by omega)
    rw [hzero, Nat.zero_add, hnone]
  · rename_i hrest
    have hmore : total % l.partSize + (l.partSize - 1) = total % l.partSize - 1 + l.partSize := by
      omega
    have hnone : (total % l.partSize - 1) / l.partSize = 0 := Nat.div_eq_of_lt (by omega)
    rw [hmore, Nat.add_div_right _ hpos, hnone]

theorem partCount_le (l : SplitLayout) (total : Nat) : l.partCount total ≤ total := by
  refine Nat.not_lt.mp fun hlt => ?_
  have hstart := lt_partCount.mp hlt
  have hle := Nat.le_mul_of_pos_right total l.partSize_pos
  omega

theorem expectedLength_eq (hlt : i * l.partSize < total) (hfit : total < Offset.limit) :
    l.expectedLength i total = min (total - i * l.partSize) l.partSize := by
  have hcap : Offset.mulCapped i l.partSize = i * l.partSize :=
    Nat.min_eq_left (by rw [Offset.last]; omega)
  rw [expectedLength, hcap]

theorem expectedLength_of_lt (hlt : i + 1 < l.partCount total) (hfit : total < Offset.limit) :
    l.expectedLength i total = l.partSize := by
  have hnext := lt_partCount.mp hlt
  rw [Nat.succ_mul] at hnext
  rw [expectedLength_eq (by omega) hfit]
  omega

theorem expectedLength_pos (hlt : i < l.partCount total) (hfit : total < Offset.limit) :
    0 < l.expectedLength i total := by
  have hstart := lt_partCount.mp hlt
  have hpos := l.partSize_pos
  rw [expectedLength_eq hstart hfit]
  omega

theorem expectedLength_le (l : SplitLayout) (i total : Nat) :
    l.expectedLength i total ≤ l.partSize := Nat.min_le_right _ _

theorem expectedLength_of_le (hle : l.partCount total ≤ i) (hfit : total < Offset.limit) :
    l.expectedLength i total = 0 := by
  have hstart : total ≤ i * l.partSize := Nat.not_lt.mp fun hlt =>
    Nat.not_lt.mpr hle (lt_partCount.mpr hlt)
  have hcapped : total ≤ Offset.mulCapped i l.partSize := by
    rw [Offset.mulCapped, Offset.last]
    omega
  rw [expectedLength, Nat.sub_eq_zero_of_le hcapped, Nat.zero_min]

theorem sum_expectedLength (hfit : total < Offset.limit) (hk : k ≤ l.partCount total) :
    ((List.range k).map (l.expectedLength · total)).sum = min (k * l.partSize) total := by
  induction k with
  | zero => rw [Nat.zero_mul, Nat.zero_min]; rfl
  | succ k ih =>
    have hlt := lt_partCount.mp (Nat.lt_of_succ_le hk)
    rw [List.range_succ, List.map_append, List.sum_append_nat, ih (Nat.le_of_succ_le hk),
      List.map_singleton, List.sum_singleton, expectedLength_eq hlt hfit, Nat.succ_mul]
    omega

end SplitLayout

end RangeTransfer
