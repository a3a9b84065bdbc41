import RangeTransfer.Proofs.Layout.Geometry
import RangeTransfer.Proofs.Layout.Scan
/-!
# Resuming from a split directory

A new attempt counts the leading parts of full length (`existingSize_spec`). If the first `n` bytes
are right and the part behind them is not of full length (`RightTo`), it counts no further than `n`
(`RightTo.existingSize_le`); discarding the bytes from `n` on makes this true (`Discarded.rightTo`),
and an attempt after that resumes from the start of the part that was cut, unless a part below is
too long (`Discarded.existingSize`). A directory with all bytes right and none behind them holds
just the parts of the object (`exact_part`), and is listed, read and counted as complete
(`scan_of_complete`, `scanned_of_complete`, `existingSize_of_complete`).
-/

namespace RangeTransfer

theorem countWhile_spec {p : Nat → Bool} (bound index : Nat) :
    countWhile p bound index ≤ bound ∧
      (∀ j < countWhile p bound index, p (index + j) = true) ∧
      (countWhile p bound index < bound → p (index + countWhile p bound index) = false) := by
  induction bound generalizing index with
  | zero => exact ⟨Nat.le_refl _, nofun, nofun⟩
  | succ bound ih =>
    obtain ⟨hle, hall, hstop⟩ := ih (index + 1)
    rw [countWhile]
    by_cases hp : p index = true
    · rw [if_pos hp]
      refine ⟨by omega, fun j hj => ?_, fun hlt => ?_⟩
      · cases j with
        | zero => exact hp
        | succ j =>
          have := hall j (by omega)
          rwa [show index + (j + 1) = index + 1 + j by omega]
      · have := hstop (by omega)
        rwa [← Nat.add_assoc, Nat.add_right_comm]
    · rw [if_neg hp]
      exact ⟨Nat.zero_le _, nofun, fun _ => by simpa using hp⟩

namespace SplitLayout

variable {l : SplitLayout} {s s' : Store} {object : ByteArray} {n total resume : Nat}

theorem partComplete_iff {i : Nat} : l.partComplete s total i = true ↔
    ∃ c, l.part? s i = some c ∧ c.size = l.expectedLength i total := by
  rw [partComplete, decide_eq_true_iff, fileSize?_partPath, Option.map_eq_some_iff]

theorem existingPartCount_spec (l : SplitLayout) (s : Store) (total : Nat) :
    l.existingPartCount s total ≤ l.partCount total ∧
      (∀ j < l.existingPartCount s total, l.partComplete s total j = true) ∧
      (l.existingPartCount s total < l.partCount total →
        l.partComplete s total (l.existingPartCount s total) = false) := by
  obtain ⟨hle, hall, hstop⟩ := countWhile_spec (p := l.partComplete s total) (l.partCount total) 0
  simp only [Nat.zero_add] at hall hstop
  exact ⟨hle, hall, hstop⟩

theorem existingPartCount_of_complete
    (h : ∀ j < l.partCount total, l.partComplete s total j = true) :
    l.existingPartCount s total = l.partCount total := by
  obtain ⟨hle, -, hstop⟩ := l.existingPartCount_spec s total
  refine Nat.le_antisymm hle (Nat.le_of_not_lt fun hlt => ?_)
  have hfalse := hstop hlt
  rw [h _ hlt] at hfalse
  cases hfalse

theorem existingSize_eq_ok_iff : l.existingSize s total = .ok resume ↔
    l.existingPartCount s total * l.partSize < Offset.limit ∧
      resume = min (l.existingPartCount s total * l.partSize) total := by
  unfold existingSize Offset.mul
  split
  · rename_i hlt
    exact ⟨fun h => ⟨hlt, (Except.ok.inj h).symm⟩, fun ⟨_, h⟩ => h ▸ rfl⟩
  · rename_i hover
    exact ⟨nofun, fun ⟨hlt, _⟩ => absurd hlt hover⟩

theorem existingSize_spec (h : l.existingSize s total = .ok resume) :
    ∃ k ≤ l.partCount total, resume = min (k * l.partSize) total ∧
      (∀ j < k, l.partComplete s total j = true) ∧
      (k < l.partCount total → l.partComplete s total k = false) := by
  obtain ⟨hle, hall, hstop⟩ := l.existingPartCount_spec s total
  exact ⟨_, hle, (existingSize_eq_ok_iff.mp h).2, hall, hstop⟩

theorem exists_existingSize_of_lt (h : l.existingPartCount s total * l.partSize < Offset.limit) :
    ∃ e, l.existingSize s total = .ok e :=
  ⟨_, existingSize_eq_ok_iff.mpr ⟨h, rfl⟩⟩

theorem byteOf_of_existingSize (h : l.existingSize s total = .ok resume) (hlt : resume < total)
    (hfit : total < Offset.limit) {o : Nat} (ho : o < resume) :
    byteOf l.partSize (l.part? s) o ≠ none := by
  obtain ⟨k, -, rfl, hall, -⟩ := existingSize_spec h
  have hpos := l.partSize_pos
  have hmod := Nat.mod_lt o hpos
  have hj : o / l.partSize < k := (Nat.div_lt_iff_lt_mul hpos).mpr (by omega)
  have hend := Nat.mul_le_mul_right l.partSize (Nat.succ_le_of_lt hj)
  rw [Nat.succ_mul] at hend
  obtain ⟨c, hc, hsize⟩ := partComplete_iff.mp (hall _ hj)
  rw [expectedLength_eq (by omega) hfit] at hsize
  obtain ⟨b, hb⟩ := Content.byteAt_of_lt (c := c) (i := o % l.partSize) (by omega)
  rw [byteOf, hc, Option.bind_some, hb]
  simp

/-- The first `n` bytes of the parts are those of the object, and the part that holds the next one
is shorter than it should be. -/
structure RightTo (l : SplitLayout) (s : Store) (object : ByteArray) (n : Nat) : Prop where
  le : n ≤ object.size
  right : Agrees (IsByte object) (byteOf l.partSize (l.part? s)) 0 n
  short : n < object.size → ∀ c, l.part? s (n / l.partSize) = some c →
    c.size < l.expectedLength (n / l.partSize) object.size

theorem RightTo.existingSize_le (h : l.RightTo s object n)
    (hresume : l.existingSize s object.size = .ok resume) : resume ≤ n := by
  obtain ⟨k, -, rfl, hall, -⟩ := existingSize_spec hresume
  by_cases hn : n < object.size
  · have hk : k ≤ n / l.partSize := Nat.le_of_not_lt fun hlt => by
      obtain ⟨c, hc, hsize⟩ := partComplete_iff.mp (hall _ hlt)
      have := h.short hn c hc
      omega
    have := Nat.mul_le_mul_right l.partSize hk
    have := Nat.div_mul_le_self n l.partSize
    omega
  · omega

theorem Discarded.size_cut (h : l.Discarded s s' n) (hlt : n < total) (hfit : total < Offset.limit)
    {c : Content} (hc : l.part? s' (n / l.partSize) = some c) :
    c.size < l.expectedLength (n / l.partSize) total := by
  have hmod := Nat.mod_lt n l.partSize_pos
  have hdiv := Nat.div_add_mod n l.partSize
  rw [Nat.mul_comm] at hdiv
  rw [h.cut] at hc
  obtain ⟨c₀, -, rfl⟩ := Option.map_eq_some_iff.mp hc
  rw [expectedLength_eq (by omega) hfit, Content.size_setSize]
  omega

theorem Discarded.rightTo (h : l.Discarded s s' n) (hlt : n < object.size)
    (hfit : object.size < Offset.limit)
    (hright : Agrees (IsByte object) (RangeTransfer.byteOf l.partSize (l.part? s)) 0 n) :
    l.RightTo s' object n := by
  refine ⟨Nat.le_of_lt hlt, fun o _ ho => ?_, fun _ c hc => h.size_cut hlt hfit hc⟩
  obtain ⟨b, hb, hgood⟩ := hright o (Nat.zero_le _) ho
  exact ⟨b, h.byteOf ho hb, hgood⟩

theorem Discarded.partComplete_below (h : l.Discarded s s' n) (hlt : n < total)
    (hfit : total < Offset.limit)
    (hthere : ∀ o < n, RangeTransfer.byteOf l.partSize (l.part? s) o ≠ none) {j : Nat}
    (hj : j < n / l.partSize) : l.partComplete s' total j = true ↔ ¬ l.Long s j := by
  have hend : j * l.partSize + l.partSize ≤ n := by
    have := Nat.mul_le_mul_right l.partSize (show j + 1 ≤ n / l.partSize from hj)
    have := Nat.div_mul_le_self n l.partSize
    rw [Nat.succ_mul] at *
    omega
  obtain ⟨c, hc, hsize⟩ := exists_part (l := l) (s := s) (j := j) fun i hi => hthere _ (by omega)
  have hpos := l.partSize_pos
  have hexpected : l.expectedLength j total = l.partSize := by
    rw [expectedLength_eq (by omega) hfit]
    omega
  rw [partComplete_iff, h.below j hj, hexpected]
  refine ⟨fun ⟨c', hc', hfull⟩ ⟨c'', hc'', hlong⟩ => ?_, fun hshort => ⟨c, hc, ?_⟩⟩
  · rw [hc'] at hc''
    cases hc''
    omega
  · exact Nat.le_antisymm (Nat.le_of_not_lt fun hlong => hshort ⟨c, hc, hlong⟩) hsize

/-- After a cut a new attempt resumes at most from the start of the part in which the cut lies, and
just from there unless a part below is too long. -/
theorem Discarded.existingSize (h : l.Discarded s s' n) (hlt : n < total)
    (hfit : total < Offset.limit)
    (hthere : ∀ o < n, RangeTransfer.byteOf l.partSize (l.part? s) o ≠ none) :
    ∃ e, l.existingSize s' total = .ok e ∧ e ≤ n / l.partSize * l.partSize ∧
      (e = n / l.partSize * l.partSize ↔ ∀ j < n / l.partSize, ¬ l.Long s j) := by
  have hpos := l.partSize_pos
  have hdiv := Nat.div_mul_le_self n l.partSize
  have hle : ∀ k, (∀ j < k, l.partComplete s' total j = true) → k ≤ n / l.partSize := by
    refine fun k hall => Nat.le_of_not_lt fun hbehind => ?_
    obtain ⟨c, hc, hsize⟩ := partComplete_iff.mp (hall _ hbehind)
    exact absurd (h.size_cut hlt hfit hc) (Nat.not_lt.mpr (Nat.le_of_eq hsize.symm))
  obtain ⟨e, he⟩ : ∃ e, l.existingSize s' total = .ok e := by
    have hcount := hle _ (l.existingPartCount_spec s' total).2.1
    have := Nat.mul_le_mul_right l.partSize hcount
    exact exists_existingSize_of_lt (by omega)
  obtain ⟨k, -, rfl, hall, hstop⟩ := existingSize_spec he
  have hk := hle k hall
  have hmul := Nat.mul_le_mul_right l.partSize hk
  rw [Nat.min_eq_left (by omega)] at he
  refine ⟨_, he, hmul, fun heq j hj => ?_, fun hshort => ?_⟩
  · obtain rfl := Nat.eq_of_mul_eq_mul_right hpos heq
    exact (h.partComplete_below hlt hfit hthere hj).mp (hall j hj)
  · refine congrArg (· * l.partSize) (Nat.le_antisymm hk (Nat.le_of_not_lt fun hless => ?_))
    have hmore := Nat.mul_le_mul_right l.partSize (Nat.le_of_lt hless)
    have := hstop (lt_partCount.mpr (by omega))
    rw [(h.partComplete_below hlt hfit hthere hless).mpr (hshort k hless)] at this
    cases this

theorem Discarded.within (h : l.Discarded s s' n) (hle : n ≤ total) (hw : l.Within s total) :
    l.Within s' total := by
  intro j c hc
  have hdiv := Nat.div_add_mod n l.partSize
  have hmod := Nat.mod_lt n l.partSize_pos
  rw [Nat.mul_comm] at hdiv
  rcases Nat.lt_trichotomy j (n / l.partSize) with hlt | rfl | hgt
  · rw [h.below j hlt] at hc
    exact hw j c hc
  · rw [h.cut] at hc
    obtain ⟨c₀, hc₀, rfl⟩ := Option.map_eq_some_iff.mp hc
    rw [Content.size_setSize]
    exact ⟨(hw _ c₀ hc₀).1, by omega⟩
  · rcases h.above j hgt with heq | hnone
    · rw [heq] at hc
      exact hw j c hc
    · rw [hnone] at hc
      cases hc

theorem exact_part (hw : l.Within s object.size)
    (hright : Agrees (IsByte object) (RangeTransfer.byteOf l.partSize (l.part? s)) 0 object.size)
    {i : Nat} (hi : i * l.partSize < object.size) :
    (l.part? s i).map Content.bytes =
      some (object.extract (i * l.partSize) (min ((i + 1) * l.partSize) object.size)) := by
  have hpos := l.partSize_pos
  have hbyte : ∀ o < min (object.size - i * l.partSize) l.partSize,
      ∃ x, (l.part? s i).bind (·.byteAt o) = some x ∧ IsByte object (i * l.partSize + o) x := by
    intro o ho
    have hview := hright (i * l.partSize + o) (Nat.zero_le _) (by omega)
    rwa [byteOf_at (by omega)] at hview
  obtain ⟨x, hx, -⟩ := hbyte (min (object.size - i * l.partSize) l.partSize - 1) (by omega)
  obtain ⟨c, hc, hlast⟩ := Option.bind_eq_some_iff.mp hx
  have hlong : min (object.size - i * l.partSize) l.partSize ≤ c.size :=
    Nat.le_of_not_lt fun hlt => by rw [Content.byteAt_of_le (by omega)] at hlast; cases hlast
  have hshort := (hw i c hc).2
  rw [hc, Option.map_some]
  refine congrArg some (Content.bytes_eq_extract ?_ (Nat.min_le_right _ _) fun o ho => ?_)
  · rw [Nat.succ_mul]
    omega
  · obtain ⟨y, hy, hgood⟩ := hbyte o (by omega)
    rw [hc] at hy
    exact ⟨y, hy, hgood⟩

/-! ## A complete directory -/

/-- Whole parts that take a file end below twice the file limit, as the last one starts in the
file. -/
theorem partCount_mul_lt (hsize : total < Store.lengthLimit) (hpart : l.partSize < Offset.limit) :
    l.partCount total * l.partSize < Offset.limit := by
  have hlimit : Offset.limit = Store.lengthLimit + Store.lengthLimit := by decide
  cases hk : l.partCount total with
  | zero => omega
  | succ k =>
    have hlast : k * l.partSize < total := lt_partCount.mp (by omega)
    rw [Nat.succ_mul]
    cases k with
    | zero => omega
    | succ k => rw [Nat.succ_mul] at hlast ⊢; omega

theorem exists_existingSize (l : SplitLayout) (s : Store) (hsize : total < Store.lengthLimit)
    (hpart : l.partSize < Offset.limit) : ∃ e, l.existingSize s total = .ok e := by
  have hle : l.existingPartCount s total ≤ l.partCount total := (l.existingPartCount_spec s total).1
  exact exists_existingSize_of_lt (Nat.lt_of_le_of_lt (Nat.mul_le_mul_right l.partSize hle)
    (partCount_mul_lt hsize hpart))

theorem existingSize_of_complete (hsize : total < Store.lengthLimit)
    (hpart : l.partSize < Offset.limit)
    (h : ∀ i, i * l.partSize < total → l.partComplete s total i = true) :
    l.existingSize s total = .ok total := by
  have hcount : l.existingPartCount s total = l.partCount total :=
    existingPartCount_of_complete fun j hj => h j (lt_partCount.mp hj)
  rw [existingSize_eq_ok_iff, hcount]
  exact ⟨partCount_mul_lt hsize hpart, (Nat.min_eq_right (l.le_partCount_mul total)).symm⟩

section Complete

variable {d : Location} (h : l.At s d) (hw : l.Within s object.size)
  (hright : Agrees (IsByte object) (RangeTransfer.byteOf l.partSize (l.part? s)) 0 object.size)

include hw hright

theorem complete_part {i : Nat} (hi : i < l.partCount object.size) :
    ∃ c, l.part? s i = some c ∧ c.size = min (object.size - i * l.partSize) l.partSize ∧
      c.bytes = object.extract (l.border object.size i) (l.border object.size (i + 1)) := by
  have hlt := lt_partCount.mp hi
  obtain ⟨c, hc, hbytes⟩ := Option.map_eq_some_iff.mp (exact_part hw hright hlt)
  rw [border, border, Nat.min_eq_left (Nat.le_of_lt hlt)]
  refine ⟨c, hc, ?_, hbytes⟩
  rw [← size_bytes, hbytes, ByteArray.size_extract, Nat.succ_mul]
  omega

theorem complete_parts : (∀ j < l.partCount object.size, l.part? s j ≠ none) ∧
    l.part? s (l.partCount object.size) = none := by
  refine ⟨fun j hj => ?_, ?_⟩
  · obtain ⟨c, hc, -⟩ := complete_part hw hright hj
    rw [hc]
    simp
  · cases hp : l.part? s (l.partCount object.size) with
    | none => rfl
    | some c => exact absurd (lt_partCount.mpr (hw _ c hp).1) (Nat.lt_irrefl _)

include h

theorem scan_of_complete (hfit : object.size < Offset.limit) :
    l.scan s = (List.range (l.partCount object.size)).map
      fun i => (i, l.expectedLength i object.size) := by
  obtain ⟨hparts, hgap⟩ := complete_parts hw hright
  rw [h.scan_eq hparts hgap]
  refine List.map_congr_left fun i hi => ?_
  have hi := List.mem_range.mp hi
  obtain ⟨c, hc, hsize, -⟩ := complete_part hw hright hi
  rw [hc, expectedLength_eq (lt_partCount.mp hi) hfit, ← hsize]
  rfl

theorem scanned_of_complete : l.scanned s = object := by
  obtain ⟨hparts, hgap⟩ := complete_parts hw hright
  have hpiece : ∀ j < l.partCount object.size, l.partBody s j =
      object.extract (l.border object.size j) (l.border object.size (j + 1)) := by
    intro j hj
    obtain ⟨c, hc, -, hbytes⟩ := complete_part hw hright hj
    rw [partBody, hc, Option.getD_some, hbytes]
  have hend : l.border object.size (l.partCount object.size) = object.size :=
    Nat.min_eq_right (Nat.le_of_not_lt fun hlt => Nat.lt_irrefl _ (lt_partCount.mpr hlt))
  rw [h.scanned_eq hparts hgap, (joined_extract (fun j _ => l.border_le_succ _ j) hpiece).2, hend,
    border, Nat.zero_mul, Nat.zero_min, ByteArray.extract_zero_size]

end Complete

end SplitLayout

end RangeTransfer
