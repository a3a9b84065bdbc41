import RangeTransfer.CommandLine.Parts
import RangeTransfer.Proofs.Layout.Resume
import RangeTransfer.Proofs.Sink.Discard
/-!
# Complete split directories

A directory counts as complete if each part of the object has its final length; what stands behind
the last part is not looked at. So the parts that a scan lists are those of the object, and perhaps
more: the directory counts as complete exactly if the parts of the object come first in the scan
(`existingSize_eq_total_iff`), and it is the object exactly if nothing stands behind them
(`scan_eq_whole_iff`). Otherwise the resume offset is the sum of the leading parts of final length
(`existingSize_of_partial`). The command `parts` reports the same.
-/

namespace RangeTransfer

namespace SplitLayout

variable {l : SplitLayout} {s : Store} {total k : Nat}

/-- What a scan of the complete parts of an object of `total` bytes lists. -/
def whole (l : SplitLayout) (total : Nat) : List (Nat × Nat) :=
  (List.range (l.partCount total)).map fun i => (i, l.expectedLength i total)

/-! ## The scan of any directory -/

theorem scan_spec (l : SplitLayout) (s : Store) : ∃ m, (∀ j < m, l.part? s j ≠ none) ∧
    l.part? s m = none ∧
    l.scan s = (List.range m).map fun j => (j, ((l.part? s j).map Content.size).getD 0) := by
  cases hfirst : l.part? s 0 with
  | none =>
    refine ⟨0, nofun, hfirst, ?_⟩
    unfold scan
    cases s.entries.rows.length with
    | zero => rfl
    | succ bound => rw [scanFrom, fileSize?_partPath, hfirst]; rfl
  | some c =>
    obtain ⟨d, hd⟩ := (made_of_part hfirst).at
    -- there are no more parts than rows, so one of the first that many indices is a gap
    obtain ⟨hle, hall, hstop⟩ :=
      countWhile_spec (p := fun j => (l.part? s j).isSome) (s.entries.rows.length + 1) 0
    have hparts : ∀ j < countWhile (fun j => (l.part? s j).isSome) (s.entries.rows.length + 1) 0,
        l.part? s j ≠ none := fun j hj => by
      have hsome := hall j hj
      rw [Nat.zero_add] at hsome
      exact Option.isSome_iff_ne_none.mp hsome
    have hgap := hstop (Nat.lt_succ_of_le (hd.le_length_rows hparts))
    rw [Nat.zero_add, Option.isSome_eq_false_iff, Option.isNone_iff_eq_none] at hgap
    exact ⟨_, hparts, hgap, hd.scan_eq hparts hgap⟩

theorem whole_prefix_iff :
    l.whole total <+: l.scan s ↔ ∀ j < l.partCount total, l.partComplete s total j = true := by
  obtain ⟨m, hparts, hgap, hscan⟩ := l.scan_spec s
  rw [hscan, whole]
  constructor
  · intro hwhole j hj
    have hlen := hwhole.length_le
    rw [List.length_map, List.length_map, List.length_range, List.length_range] at hlen
    have hentry := hwhole.getElem (i := j) (by rw [List.length_map, List.length_range]; exact hj)
    simp only [List.getElem_map, List.getElem_range, Prod.mk.injEq, true_and] at hentry
    obtain ⟨c, hc⟩ := Option.ne_none_iff_exists'.mp (hparts j (Nat.lt_of_lt_of_le hj hlen))
    rw [hc] at hentry
    exact partComplete_iff.mpr ⟨c, hc, hentry.symm⟩
  · intro hall
    have hle : l.partCount total ≤ m := Nat.le_of_not_lt fun hlt => by
      obtain ⟨c, hc, -⟩ := partComplete_iff.mp (hall m hlt)
      rw [hgap] at hc
      cases hc
    have hsame : ((List.range (l.partCount total)).map fun i => (i, l.expectedLength i total)) =
        (List.range (l.partCount total)).map
          fun j => (j, ((l.part? s j).map Content.size).getD 0) := by
      refine List.map_congr_left fun j hj => ?_
      obtain ⟨c, hc, hsize⟩ := partComplete_iff.mp (hall j (List.mem_range.mp hj))
      rw [hc, ← hsize]
      rfl
    rw [hsame]
    refine List.IsPrefix.map _ ?_
    rw [← Nat.min_eq_left hle, ← List.take_range]
    exact List.take_prefix _ _

/-- A directory is the object if its parts come first in the scan and nothing comes behind them. -/
theorem scan_eq_whole_iff : l.scan s = l.whole total ↔
    l.whole total <+: l.scan s ∧ l.part? s (l.partCount total) = none := by
  obtain ⟨m, hparts, hgap, hscan⟩ := l.scan_spec s
  have hlen : (l.scan s).length = m := by rw [hscan, List.length_map, List.length_range]
  have hlen' : (l.whole total).length = l.partCount total := by
    rw [whole, List.length_map, List.length_range]
  refine ⟨fun heq => ⟨heq ▸ List.prefix_refl _, ?_⟩, fun ⟨hwhole, hnone⟩ => ?_⟩
  · rw [← hlen', ← heq, hlen]
    exact hgap
  · have hle : m ≤ l.partCount total := Nat.le_of_not_lt fun hlt => hparts _ hlt hnone
    exact (hwhole.eq_of_length_le (by omega)).symm

/-! ## The resume offset -/

theorem existingSize_eq_total_iff : l.existingSize s total = .ok total ↔
    l.whole total <+: l.scan s ∧ l.partCount total * l.partSize < Offset.limit := by
  obtain ⟨hle, hcounted, -⟩ := l.existingPartCount_spec s total
  rw [whole_prefix_iff, existingSize_eq_ok_iff]
  constructor
  · rintro ⟨hfits, htotal⟩
    have hcount : l.existingPartCount s total = l.partCount total := by
      refine Nat.le_antisymm hle (Nat.le_of_not_lt fun hlt => ?_)
      have hmissing := lt_partCount.mp hlt
      omega
    rw [hcount] at hcounted hfits
    exact ⟨hcounted, hfits⟩
  · rintro ⟨hall, hfits⟩
    have hcount : l.existingPartCount s total = l.partCount total := existingPartCount_of_complete hall
    rw [hcount]
    exact ⟨hfits, (Nat.min_eq_right (l.le_partCount_mul total)).symm⟩

/-! ## The leading parts -/

/-- Bytes in the leading parts of final length, by the lengths that a scan lists. -/
def leadingBytes (l : SplitLayout) (s : Store) (total : Nat) : Nat :=
  (((l.scan s).take (l.existingPartCount s total)).map Prod.snd).sum

theorem take_scan (hall : ∀ j < k, l.partComplete s total j = true) :
    ((l.scan s).take k).map Prod.snd = (List.range k).map (l.expectedLength · total) := by
  obtain ⟨m, hparts, hgap, hscan⟩ := l.scan_spec s
  have hle : k ≤ m := Nat.le_of_not_lt fun hlt => by
    obtain ⟨c, hc, -⟩ := partComplete_iff.mp (hall m hlt)
    rw [hgap] at hc
    cases hc
  rw [hscan, ← List.map_take, List.take_range, Nat.min_eq_left hle, List.map_map]
  refine List.map_congr_left fun j hj => ?_
  obtain ⟨c, hc, hsize⟩ := partComplete_iff.mp (hall j (List.mem_range.mp hj))
  simp only [Function.comp_apply, hc, Option.map_some, Option.getD_some, hsize]

theorem leadingBytes_eq (hfit : total < Offset.limit) :
    l.leadingBytes s total = min (l.existingPartCount s total * l.partSize) total := by
  obtain ⟨hle, hall, -⟩ := l.existingPartCount_spec s total
  rw [leadingBytes, take_scan hall, sum_expectedLength hfit hle]

theorem le_leadingBytes (hfit : total < Offset.limit) (hk : k ≤ l.partCount total)
    (hall : ∀ j < k, l.partComplete s total j = true) :
    min (k * l.partSize) total ≤ l.leadingBytes s total := by
  obtain ⟨hle, -, hstop⟩ := l.existingPartCount_spec s total
  have hcount : k ≤ l.existingPartCount s total := Nat.le_of_not_lt fun hlt => by
    have hfalse := hstop (Nat.lt_of_lt_of_le hlt hk)
    rw [hall _ hlt] at hfalse
    cases hfalse
  have hmul := Nat.mul_le_mul_right l.partSize hcount
  rw [leadingBytes_eq hfit]
  omega

theorem existingSize_of_partial (hfit : total < Offset.limit)
    (hless : l.existingPartCount s total < l.partCount total) :
    l.existingSize s total = .ok (l.leadingBytes s total) ∧ l.leadingBytes s total < total := by
  have hlt := lt_partCount.mp hless
  rw [existingSize_eq_ok_iff, leadingBytes_eq hfit, Nat.min_eq_left (Nat.le_of_lt hlt)]
  exact ⟨⟨Nat.lt_trans hlt hfit, rfl⟩, hlt⟩

/-! ## When a directory counts as complete -/

/-- A split directory counts as complete exactly if the parts of the object come first in its scan;
it is the object exactly if no part comes behind them. One that does not count as complete is
resumed behind its leading parts of final length. -/
theorem counts_complete (l : SplitLayout) (s : Store) (total : Nat) (hfit : total < Offset.limit) :
    let counted := l.existingPartCount s total
    let resume := l.leadingBytes s total
    let expected := toString (l.partCount total)
    (∀ e, l.existingSize s total = .ok e → e ≤ total) ∧
    (l.existingSize s total = .ok total ↔
      l.whole total <+: l.scan s ∧ l.partCount total * l.partSize < Offset.limit) ∧
    (l.scan s = l.whole total ↔
      l.whole total <+: l.scan s ∧ l.part? s (l.partCount total) = none) ∧
    (l.existingSize s total = .ok total → CommandLine.completeness l s total =
      .ok ("Complete: " ++ expected ++ " of " ++ expected ++ " parts")) ∧
    (¬ l.whole total <+: l.scan s →
      counted < l.partCount total ∧ (∀ j < counted, l.partComplete s total j = true) ∧
      l.partComplete s total counted = false ∧
      l.existingSize s total = .ok resume ∧ resume < total ∧
      CommandLine.completeness l s total =
        .ok ("Incomplete: resume would start at byte " ++ toString resume ++ " of " ++
          toString total ++ " (" ++ toString counted ++ " of " ++ expected ++ " parts usable)")) := by
  intro counted resume expected
  obtain ⟨hle, hall, hstop⟩ := l.existingPartCount_spec s total
  refine ⟨fun e he => ?_, existingSize_eq_total_iff, scan_eq_whole_iff, fun htotal => ?_,
    fun hpartial => ?_⟩
  · rw [(existingSize_eq_ok_iff.mp he).2]
    exact Nat.min_le_right _ _
  · simp only [CommandLine.completeness, htotal, bind, Except.bind, Nat.le_refl, if_true]
    rfl
  · have hless : counted < l.partCount total := Nat.lt_of_le_of_ne hle fun heq =>
      hpartial (whole_prefix_iff.mpr (heq ▸ hall))
    obtain ⟨hresume, hlt⟩ := existingSize_of_partial hfit hless
    refine ⟨hless, hall, hstop hless, hresume, hlt, ?_⟩
    simp only [CommandLine.completeness, hresume, bind, Except.bind, if_neg (Nat.not_le.mpr hlt)]
    rfl

/-- The store in which five bytes have been written to parts of two bytes. -/
abbrev fiveStore : Store :=
  let made := (SplitSink.openAt (.fresh []) SplitSink.pairs 0).2
  ((⟨SplitSink.pairs, none⟩ : SplitSink).write made 0 ⟨#[0, 1, 2, 3, 4]⟩).2.2

/-- The five bytes are complete, and of six bytes the first four count. -/
theorem counts_complete_fiveStore :
    5 < Offset.limit ∧ 6 < Offset.limit ∧
    SplitSink.pairs.existingSize fiveStore 5 = .ok 5 ∧
    SplitSink.pairs.scan fiveStore = SplitSink.pairs.whole 5 ∧
    SplitSink.pairs.existingSize fiveStore 6 = .ok 4 := by
  have hwhole : SplitSink.pairs.whole 5 <+: SplitSink.pairs.scan fiveStore := by decide
  have hlonger : ¬ SplitSink.pairs.whole 6 <+: SplitSink.pairs.scan fiveStore := by decide
  obtain ⟨-, hsize, hscan, -⟩ := counts_complete SplitSink.pairs fiveStore 5 (by decide)
  obtain ⟨-, -, -, -, hpartial⟩ := counts_complete SplitSink.pairs fiveStore 6 (by decide)
  refine ⟨by decide, by decide, hsize.mpr ⟨hwhole, by decide⟩, hscan.mpr ⟨hwhole, rfl⟩, ?_⟩
  obtain ⟨-, -, -, hresume, -⟩ := hpartial hlonger
  exact hresume

/-- For an object of four bytes, the directory that holds five counts as complete, too. -/
theorem not_whole_fiveStore :
    SplitSink.pairs.existingSize fiveStore 4 = .ok 4 ∧
    SplitSink.pairs.scan fiveStore = [(0, 2), (1, 2), (2, 1)] ∧
    SplitSink.pairs.scan fiveStore ≠ SplitSink.pairs.whole 4 ∧
    CommandLine.completeness SplitSink.pairs fiveStore 4 = .ok "Complete: 2 of 2 parts" :=
  ⟨rfl, rfl, by decide, rfl⟩

end SplitLayout

end RangeTransfer
