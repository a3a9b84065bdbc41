import RangeTransfer.Proofs.Layout.Resume
import RangeTransfer.Proofs.Range.Plan
import RangeTransfer.Proofs.Sink.Basic
/-!
# How far parts are filled

Once writes have completed, the parts are known by their lengths from the ranges that were stored: a
part is as long as it was before, or as the range that reaches furthest into it (`Filled`). Nothing
is said of the bytes below: a part may be of full length and lack some of them.
-/

namespace RangeTransfer
open Store

namespace SplitLayout

variable {l : SplitLayout} {s s' s'' : Store} {rs qs : List ByteRange}

/-- The length of part `j`; a part that is missing has none. -/
def partLength (l : SplitLayout) (s : Store) (j : Nat) : Nat :=
  ((l.part? s j).map Content.size).getD 0

/-- A range of `rs` has a byte of part `j` that is byte `m` of it or one behind that. -/
def Reached (l : SplitLayout) (rs : List ByteRange) (j m : Nat) : Prop :=
  m < l.partSize ∧ ∃ r ∈ rs, r.first < (j + 1) * l.partSize ∧ j * l.partSize + m < r.pastEnd

theorem reached_append {j m : Nat} :
    l.Reached (qs ++ rs) j m ↔ l.Reached qs j m ∨ l.Reached rs j m := by
  simp only [Reached, List.mem_append, or_and_right, exists_or, and_or_left]

/-- The parts of `s'` are those of `s` after the ranges of `rs` were stored. -/
structure Filled (l : SplitLayout) (s s' : Store) (rs : List ByteRange) : Prop where
  there : ∀ j, l.part? s' j ≠ none ↔ l.part? s j ≠ none ∨ l.Reached rs j 0
  length : ∀ j m, m < l.partLength s' j ↔ m < l.partLength s j ∨ l.Reached rs j m

theorem Filled.refl (l : SplitLayout) (s : Store) : l.Filled s s [] where
  there j := ⟨Or.inl, fun h => h.resolve_right fun ⟨_, _, hr, _⟩ => by cases hr⟩
  length j m := ⟨Or.inl, fun h => h.resolve_right fun ⟨_, _, hr, _⟩ => by cases hr⟩

theorem Filled.trans (h : l.Filled s s' rs) (h' : l.Filled s' s'' qs) :
    l.Filled s s'' (qs ++ rs) where
  there j := by rw [h'.there, h.there, reached_append, or_assoc, or_comm (a := l.Reached rs j 0)]
  length j m := by rw [h'.length, h.length, reached_append, or_assoc, or_comm (a := l.Reached rs j m)]

theorem Filled.length_le (h : l.Filled s s' rs) (j : Nat) : l.partLength s j ≤ l.partLength s' j :=
  Nat.le_of_not_lt fun hlt => Nat.lt_irrefl _ ((h.length j _).mpr (Or.inl hlt))

theorem Filled.length_le_expected {total : Nat} (h : l.Filled s s' rs) {j : Nat}
    (hlt : j * l.partSize < total) (hfit : total < Offset.limit)
    (hrs : ∀ r ∈ rs, r.pastEnd ≤ total) (hold : l.partLength s j ≤ l.expectedLength j total) :
    l.partLength s' j ≤ l.expectedLength j total := by
  refine Nat.le_of_not_lt fun hgt => ?_
  rcases (h.length j _).mp hgt with hlong | ⟨hpart, r, hr, -, hpast⟩
  · omega
  · have hbound := hrs r hr
    rw [expectedLength_eq hlt hfit] at hpart hpast
    omega

theorem partComplete_iff_length {total j : Nat} (hlt : j * l.partSize < total)
    (hfit : total < Offset.limit) :
    l.partComplete s total j = true ↔ l.partLength s j = l.expectedLength j total := by
  have hpos := l.partSize_pos
  rw [partComplete_iff, partLength, expectedLength_eq hlt hfit]
  cases l.part? s j with
  | none =>
    simp only [reduceCtorEq, false_and, exists_false, Option.map_none, Option.getD_none, false_iff]
    omega
  | some c => simp

end SplitLayout

theorem SplitSink.Wrote.filled {k k' : SplitSink} {s s' : Store} {d : Location} {r : ByteRange}
    {data : ByteArray} (h : k.Wrote s k' s' d r.first r.length data) (hdata : data.size = r.length) :
    k.layout.Filled s s' [r] := by
  have hpast := r.first_add_length
  have hnonempty := r.first_lt_pastEnd
  have hsucc : ∀ j, (j + 1) * k.layout.partSize = j * k.layout.partSize + k.layout.partSize :=
    fun j => Nat.succ_mul _ _
  have hstep : ∀ j, (k.layout.part? s' j ≠ none ↔ k.layout.part? s j ≠ none ∨
      k.layout.Reached [r] j 0) ∧ ∀ m, m < k.layout.partLength s' j ↔
      m < k.layout.partLength s j ∨ k.layout.Reached [r] j m := by
    intro j
    have hpos := k.layout.partSize_pos
    simp only [SplitLayout.Reached, List.mem_singleton, exists_eq_left, hsucc]
    by_cases hreach : r.first < j * k.layout.partSize + k.layout.partSize ∧
        j * k.layout.partSize < r.pastEnd
    · obtain ⟨c, hc, hsize⟩ := h.put.size_of_reached (j := j) (by rw [hsucc]; omega)
      rw [hsucc, hdata, hpast] at hsize
      have hlength : k.layout.partLength s' j = max (k.layout.partLength s j)
          (min r.pastEnd (j * k.layout.partSize + k.layout.partSize) - j * k.layout.partSize) := by
        rw [SplitLayout.partLength, hc, Option.map_some, Option.getD_some, hsize]
        rfl
      refine ⟨iff_of_true (by rw [hc]; simp) (Or.inr (by omega)), fun m => ?_⟩
      rw [hlength]
      omega
    · have hsame := h.unreached j (by rw [hsucc, hpast]; omega)
      refine ⟨?_, fun m => ?_⟩
      · rw [hsame]
        exact ⟨Or.inl, fun h => h.resolve_right fun h => by omega⟩
      rw [SplitLayout.partLength, hsame]
      change m < k.layout.partLength s j ↔ _
      omega
  exact ⟨fun j => (hstep j).1, fun j => (hstep j).2⟩

theorem Sink.filled_write {q : SplitSink} {s : Store} (h : (⟨.split q, s⟩ : Sink).Sound)
    {r : ByteRange} {data : ByteArray} (hdata : data.size = r.length)
    (hok : ((⟨.split q, s⟩ : Sink).write r.first data).1 = .ok ()) :
    ∃ q' s', ((⟨.split q, s⟩ : Sink).write r.first data).2 = ⟨.split q', s'⟩ ∧
      q'.layout = q.layout ∧ q.layout.Filled s s' [r] := by
  obtain ⟨d, hd⟩ := h
  obtain ⟨m, result, q', s', heq, -, hall, hwrote⟩ := q.write_spec hd r.first data
  unfold write at hok ⊢
  simp only [heq] at hok ⊢
  rw [hall hok, ByteArray.extract_zero_size, hdata] at hwrote
  exact ⟨q', s', rfl, hwrote.layout, hwrote.filled hdata⟩

end RangeTransfer
