import RangeTransfer.Proofs.Sink.Good
import RangeTransfer.Proofs.Sink.Split
/-!
# What a scan reads

`SplitLayout.scanned` are the bytes of the parts that a scan lists, one behind the other. After a
cut at `n` that succeeded they are `n` bytes (`CutParts.size_scanned`), and those of the object if
these were there before (`CutParts.scanned_eq`), exactly if no part below the cut is longer than a
part may be.
-/

namespace RangeTransfer
open Store

/-- The first `m` pieces, one behind the other. -/
def joined (piece : Nat → ByteArray) : Nat → ByteArray
  | 0 => .empty
  | m + 1 => joined piece m ++ piece m

section Joined

variable {piece : Nat → ByteArray} {border : Nat → Nat} {m : Nat}

theorem joined_extract {object : ByteArray} (hle : ∀ j < m, border j ≤ border (j + 1))
    (h : ∀ j < m, piece j = object.extract (border j) (border (j + 1))) :
    border 0 ≤ border m ∧ joined piece m = object.extract (border 0) (border m) := by
  induction m with
  | zero =>
    refine ⟨Nat.le_refl _, (ByteArray.extract_eq_empty_iff.mpr ?_).symm⟩
    omega
  | succ m ih =>
    obtain ⟨hfirst, hjoined⟩ := ih (fun j hj => hle j (by omega)) fun j hj => h j (by omega)
    have hlast := hle m (Nat.lt_succ_self m)
    refine ⟨by omega, ?_⟩
    rw [joined, hjoined, h m (Nat.lt_succ_self m),
      ← ByteArray.extract_eq_extract_append_extract (border m) hfirst hlast]

/-- Pieces that reach their borders are as long as the last border is far only if none is longer. -/
theorem size_joined (hle : ∀ j < m, border (j + 1) ≤ border j + (piece j).size) :
    border m ≤ border 0 + (joined piece m).size ∧
      (border 0 + (joined piece m).size = border m ↔
        ∀ j < m, border (j + 1) = border j + (piece j).size) := by
  induction m with
  | zero => exact ⟨Nat.le_refl _, iff_of_true rfl (by omega)⟩
  | succ m ih =>
    obtain ⟨hreach, hiff⟩ := ih fun j hj => hle j (by omega)
    have hlast := hle m (Nat.lt_succ_self m)
    rw [joined, ByteArray.size_append]
    refine ⟨by omega, fun heq j hj => ?_, fun hall => ?_⟩
    · by_cases hm : j = m
      · subst hm
        omega
      · exact hiff.mp (by omega) j (by omega)
    · have := hiff.mpr fun j hj => hall j (by omega)
      have := hall m (Nat.lt_succ_self m)
      omega

end Joined

namespace SplitLayout

variable {l : SplitLayout} {s s' : Store} {d : Location} {n : Nat}

/-- The bytes of part `j`; a part that is missing has none. -/
def partBody (l : SplitLayout) (s : Store) (j : Nat) : ByteArray := ((l.part? s j).getD .empty).bytes

/-- The bytes of the parts that a scan lists. -/
def scanned (l : SplitLayout) (s : Store) : ByteArray :=
  (l.scan s).foldl (fun bytes part => bytes ++ l.partBody s part.1) .empty

theorem At.scanned_eq (h : l.At s d) {m : Nat} (hparts : ∀ j < m, l.part? s j ≠ none)
    (hgap : l.part? s m = none) : l.scanned s = joined (l.partBody s) m := by
  rw [scanned, h.scan_eq hparts hgap, List.foldl_map]
  clear hparts hgap
  induction m with
  | zero => rfl
  | succ m ih => rw [List.range_succ, List.foldl_append, ih]; rfl

theorem size_bytes (c : Content) : c.bytes.size = c.size := by
  have := c.stored_le_size
  rw [Content.bytes, ByteArray.size_append, size_zeros]
  omega

/-- The parts up to a cut at `n`. -/
structure CutParts (l : SplitLayout) (s s' : Store) (n m : Nat) : Prop where
  scanned : l.scanned s' = joined (l.partBody s') m
  last : n ≤ m * l.partSize
  part : ∀ j < m, ∃ c, l.part? s' j = some c ∧
    (if j < n / l.partSize then l.part? s j = some c ∧ l.partSize ≤ c.size
      else c.size = min ((j + 1) * l.partSize) n - min (j * l.partSize) n) ∧
    ∀ i, min (j * l.partSize) n + i < min ((j + 1) * l.partSize) n →
      c.byteAt i = byteOf l.partSize (l.part? s) (j * l.partSize + i)

theorem exists_part {j : Nat} (hthere : ∀ i < l.partSize,
    byteOf l.partSize (l.part? s) (j * l.partSize + i) ≠ none) :
    ∃ c, l.part? s j = some c ∧ l.partSize ≤ c.size := by
  have hpos := l.partSize_pos
  have hlast := hthere (l.partSize - 1) (by omega)
  rw [byteOf_at (by omega)] at hlast
  cases hp : l.part? s j with
  | none => exact absurd (by rw [hp]; rfl) hlast
  | some c =>
    rw [hp, Option.bind_some] at hlast
    refine ⟨c, rfl, Nat.le_of_not_lt fun hlt => hlast (Content.byteAt_of_le (by omega))⟩

theorem At.cutParts (h : l.At s' d) (hcut : l.Discarded s s' n)
    (hgap : l.UpToGap s s' (n / l.partSize))
    (hthere : ∀ o < n, byteOf l.partSize (l.part? s) o ≠ none) : ∃ m, l.CutParts s s' n m := by
  have hpos := l.partSize_pos
  have hdiv := Nat.div_add_mod n l.partSize
  have hmod := Nat.mod_lt n hpos
  rw [Nat.mul_comm] at hdiv
  obtain ⟨hbelow, hat, -⟩ := hcut
  generalize hq : n / l.partSize = q at *
  generalize n % l.partSize = w at *
  have hborder : ∀ j, j < q → j * l.partSize + l.partSize ≤ n := fun j hj => by
    have := Nat.mul_le_mul_right l.partSize (show j + 1 ≤ q from hj)
    rw [Nat.succ_mul] at this
    omega
  have hpart : ∀ j, j < q → ∃ c, l.part? s j = some c ∧ l.partSize ≤ c.size := fun j hj =>
    exists_part fun i hi => hthere _ (by have := hborder j hj; omega)
  have hlow : ∀ j, j < q → ∃ c, l.part? s' j = some c ∧
      (if j < q then l.part? s j = some c ∧ l.partSize ≤ c.size
        else c.size = min ((j + 1) * l.partSize) n - min (j * l.partSize) n) ∧
      ∀ i, min (j * l.partSize) n + i < min ((j + 1) * l.partSize) n →
        c.byteAt i = byteOf l.partSize (l.part? s) (j * l.partSize + i) := by
    intro j hj
    obtain ⟨c, hc, hsize⟩ := hpart j hj
    refine ⟨c, by rw [hbelow j hj, hc], by rw [if_pos hj]; exact ⟨hc, hsize⟩, fun i hi => ?_⟩
    have := hborder j hj
    rw [Nat.succ_mul] at hi
    rw [byteOf_at (by omega), hc]
    rfl
  cases hp : l.part? s q with
  | none =>
    rw [hp] at hat
    have hw : w = 0 := Nat.eq_zero_of_not_pos fun hw => by
      have := hthere (q * l.partSize + 0) (by omega)
      rw [byteOf_at hpos, hp] at this
      exact this rfl
    refine ⟨q, h.scanned_eq (fun j hj => ?_) hat, by omega, ?_⟩
    · obtain ⟨c, hc, -⟩ := hlow j hj
      rw [hc]
      simp
    · rw [hq]
      exact hlow
  | some c =>
    rw [hp, Option.map_some] at hat
    have hnext : l.part? s' (q + 1) = none := by
      obtain ⟨gap, hlt, hnone, hbetween, habove⟩ := hgap
      rcases Nat.lt_or_eq_of_le (show q + 1 ≤ gap from hlt) with hlt' | heq
      · exact (hbetween (q + 1) (Nat.lt_succ_self q) hlt').2
      · rw [habove (q + 1) (Nat.le_of_eq heq.symm), heq, hnone]
    have hall : ∀ j, j < q + 1 → ∃ c, l.part? s' j = some c ∧
        (if j < q then l.part? s j = some c ∧ l.partSize ≤ c.size
          else c.size = min ((j + 1) * l.partSize) n - min (j * l.partSize) n) ∧
        ∀ i, min (j * l.partSize) n + i < min ((j + 1) * l.partSize) n →
          c.byteAt i = byteOf l.partSize (l.part? s) (j * l.partSize + i) := by
      intro j hj
      by_cases hjq : j < q
      · exact hlow j hjq
      · obtain rfl : j = q := by omega
        refine ⟨_, hat, ?_, fun i hi => ?_⟩
        · rw [if_neg hjq, Content.size_setSize, Nat.succ_mul]
          omega
        · rw [Nat.succ_mul] at hi
          have hthis := hthere (j * l.partSize + i) (by omega)
          rw [byteOf_at (by omega), hp, Option.bind_some] at hthis ⊢
          obtain ⟨x, hx⟩ := Option.ne_none_iff_exists'.mp hthis
          rw [Content.byteAt_setSize, if_pos (by omega), hx]
          rfl
    refine ⟨q + 1, h.scanned_eq (fun j hj => ?_) hnext, by rw [Nat.succ_mul]; omega, ?_⟩
    · obtain ⟨c', hc', -⟩ := hall j hj
      rw [hc']
      simp
    · rw [hq]
      exact hall

/-- Where part `j` starts in the first `n` bytes, or the end of these. -/
def border (l : SplitLayout) (n j : Nat) : Nat := min (j * l.partSize) n

theorem border_of_lt {j : Nat} (hj : j < n / l.partSize) :
    l.border n j = j * l.partSize ∧ l.border n (j + 1) = j * l.partSize + l.partSize := by
  have hmul := Nat.mul_le_mul_right l.partSize (show j + 1 ≤ n / l.partSize from hj)
  have hdiv := Nat.div_mul_le_self n l.partSize
  rw [border, border]
  rw [Nat.succ_mul] at hmul ⊢
  omega

theorem border_le_succ (l : SplitLayout) (n j : Nat) : l.border n j ≤ l.border n (j + 1) := by
  rw [border, border, Nat.succ_mul]
  omega

theorem CutParts.le {m : Nat} (h : l.CutParts s s' n m) : n / l.partSize ≤ m :=
  Nat.div_le_of_le_mul (Nat.mul_comm m _ ▸ h.last)

theorem CutParts.border {m : Nat} (h : l.CutParts s s' n m) :
    l.border n 0 = 0 ∧ l.border n m = n := by
  have := h.last
  rw [SplitLayout.border, SplitLayout.border]
  omega

theorem CutParts.size_part {m : Nat} (h : l.CutParts s s' n m) {j : Nat} (hj : j < m) :
    l.border n (j + 1) ≤ l.border n j + (l.partBody s' j).size ∧
      (l.border n (j + 1) = l.border n j + (l.partBody s' j).size ↔
        ¬ (j < n / l.partSize ∧ l.Long s j)) := by
  obtain ⟨c, hc, hsize, -⟩ := h.part j hj
  have hbody : (l.partBody s' j).size = c.size := by
    rw [partBody, hc, Option.getD_some, size_bytes]
  have hmono := l.border_le_succ n j
  rw [hbody]
  split at hsize
  · rename_i hlt
    obtain ⟨hlow, hhigh⟩ := border_of_lt hlt
    refine ⟨by omega, fun heq hlong => ?_, fun hshort => ?_⟩
    · obtain ⟨-, c', hc', hlong⟩ := hlong
      rw [hsize.1] at hc'
      cases hc'
      omega
    · have : ¬ l.partSize < c.size := fun hlong => hshort ⟨hlt, c, hsize.1, hlong⟩
      omega
  · rename_i hlt
    change c.size = l.border n (j + 1) - l.border n j at hsize
    exact ⟨by omega, iff_of_true (by omega) fun hlong => hlt hlong.1⟩

theorem CutParts.size_scanned {m : Nat} (h : l.CutParts s s' n m) :
    (l.scanned s').size = n ↔ ∀ j < n / l.partSize, ¬ l.Long s j := by
  obtain ⟨hfirst, hlast⟩ := h.border
  obtain ⟨-, hiff⟩ := size_joined fun j hj => (h.size_part hj).1
  rw [hfirst, hlast, Nat.zero_add] at hiff
  rw [h.scanned, hiff]
  refine ⟨fun hall j hj hlong => ?_, fun hshort j hj => ?_⟩
  · have hjm := Nat.lt_of_lt_of_le hj h.le
    exact (h.size_part hjm).2.mp (hall j hjm) ⟨hj, hlong⟩
  · exact (h.size_part hj).2.mpr fun hlong => hshort j hlong.1 hlong.2

theorem CutParts.body_eq {m : Nat} {object : ByteArray} (h : l.CutParts s s' n m)
    (hright : Agrees (IsByte object) (byteOf l.partSize (l.part? s)) 0 n) (hle : n ≤ object.size)
    {j : Nat} (hj : j < m) (hshort : ¬ (j < n / l.partSize ∧ l.Long s j)) :
    l.partBody s' j = object.extract (l.border n j) (l.border n (j + 1)) := by
  have hsize := (h.size_part hj).2.mpr hshort
  obtain ⟨c, hc, -, hbytes⟩ := h.part j hj
  rw [partBody, hc, Option.getD_some] at hsize ⊢
  rw [size_bytes] at hsize
  have hend : l.border n (j + 1) ≤ object.size := Nat.le_trans (Nat.min_le_right _ _) hle
  refine Content.bytes_eq_extract (by omega) hend fun i hi => ?_
  have hin : l.border n j + i < l.border n (j + 1) := by omega
  have hlow : l.border n j = j * l.partSize := by
    have := l.border_le_succ n j
    simp only [SplitLayout.border] at hin this ⊢
    rw [Nat.succ_mul] at hin
    omega
  rw [hbytes i hin, hlow]
  exact hright (j * l.partSize + i) (Nat.zero_le _)
    (by rw [← hlow]; exact Nat.lt_of_lt_of_le hin (Nat.min_le_right _ _))

theorem CutParts.scanned_eq {m : Nat} {object : ByteArray} (h : l.CutParts s s' n m)
    (hright : Agrees (IsByte object) (byteOf l.partSize (l.part? s)) 0 n) (hle : n ≤ object.size) :
    l.scanned s' = object.extract 0 n ↔ ∀ j < n / l.partSize, ¬ l.Long s j := by
  refine ⟨fun heq => h.size_scanned.mp ?_, fun hshort => ?_⟩
  · rw [heq, ByteArray.size_extract]
    omega
  · obtain ⟨hfirst, hlast⟩ := h.border
    obtain ⟨-, hjoined⟩ := joined_extract (fun j _ => l.border_le_succ n j)
      fun j hj => h.body_eq hright hle hj fun hlong => hshort j hlong.1 hlong.2
    rw [h.scanned, hjoined, hfirst, hlast]

/-- A part with bytes lies behind part `q` and a missing part. -/
def Stranded (l : SplitLayout) (s : Store) (q : Nat) : Prop :=
  ∃ i j, q < i ∧ i < j ∧ l.part? s i = none ∧ 0 < (l.partBody s j).size

theorem partBody_of_none {j : Nat} (h : l.part? s j = none) : l.partBody s j = .empty := by
  rw [partBody, h]
  rfl

/-- After a cut of bytes of the object the parts hold just these, and none is left behind them, if
no part below was too long and none behind was stranded. -/
theorem CutParts.bodies_eq {m : Nat} {object : ByteArray} (h : l.CutParts s s' n m)
    (hcut : l.Discarded s s' n) (hgap : l.UpToGap s s' (n / l.partSize))
    (hright : Agrees (IsByte object) (byteOf l.partSize (l.part? s)) 0 n) (hle : n ≤ object.size) :
    (∀ j, l.partBody s' j = object.extract (l.border n j) (l.border n (j + 1))) ↔
      (∀ j < n / l.partSize, ¬ l.Long s j) ∧ ¬ l.Stranded s (n / l.partSize) := by
  have hpos := l.partSize_pos
  have hdiv := Nat.div_add_mod n l.partSize
  have hmod := Nat.mod_lt n hpos
  rw [Nat.mul_comm] at hdiv
  have hempty : ∀ j, n ≤ j * l.partSize →
      object.extract (l.border n j) (l.border n (j + 1)) = .empty := fun j hj => by
    rw [ByteArray.extract_eq_empty_iff, SplitLayout.border, SplitLayout.border]
    omega
  obtain ⟨gap, hlt, hnone, hbetween, habove⟩ := hgap
  constructor
  · intro hall
    refine ⟨fun j hj hlong => ?_, fun ⟨i, j, hi, hij, hmissing, hbody⟩ => ?_⟩
    · have hjm := Nat.lt_of_lt_of_le hj h.le
      refine (h.size_part hjm).2.mp ?_ ⟨hj, hlong⟩
      have hmono := l.border_le_succ n j
      have hend : l.border n (j + 1) ≤ object.size := Nat.le_trans (Nat.min_le_right _ _) hle
      rw [hall j, ByteArray.size_extract]
      omega
    · -- a stranded part is behind the gap, where the cut removes nothing
      have hgapi : gap ≤ i := Nat.le_of_not_lt fun hlt' => (hbetween i hi hlt').1 hmissing
      have hj := hall j
      have hmul := Nat.mul_le_mul_right l.partSize (show n / l.partSize + 1 ≤ j by omega)
      rw [Nat.succ_mul] at hmul
      rw [partBody, habove j (by omega), ← partBody, hempty j (by omega)] at hj
      rw [hj] at hbody
      exact absurd hbody (Nat.lt_irrefl 0)
  · rintro ⟨hshort, hstranded⟩ j
    by_cases hjm : j < m
    · exact h.body_eq hright hle hjm fun hlong => hshort j hlong.1 hlong.2
    · have hend := Nat.le_trans h.last (Nat.mul_le_mul_right l.partSize (Nat.not_lt.mp hjm))
      rw [hempty j hend]
      rcases Nat.lt_or_eq_of_le (Nat.le_trans h.le (Nat.not_lt.mp hjm)) with hbehind | heq
      · rcases Nat.lt_trichotomy j gap with hbelow | rfl | hfar
        · exact partBody_of_none (hbetween j hbehind hbelow).2
        · exact partBody_of_none ((habove j (Nat.le_refl _)).trans hnone)
        · rw [partBody, habove j (Nat.le_of_lt hfar), ← partBody]
          exact ByteArray.size_eq_zero_iff.mp (Nat.eq_zero_of_not_pos fun hbody =>
            hstranded ⟨gap, j, hlt, hfar, hnone, hbody⟩)
      · -- the cut is at the start of its part
        have hzero : n % l.partSize = 0 := by rw [heq] at hdiv; omega
        refine ByteArray.size_eq_zero_iff.mp ?_
        rw [← heq, partBody, hcut.cut, hzero]
        cases l.part? s (n / l.partSize) with
        | none => rfl
        | some c => rw [Option.map_some, Option.getD_some, size_bytes, Content.size_setSize]

end SplitLayout

end RangeTransfer
