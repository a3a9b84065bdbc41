import RangeTransfer.Proofs.Layout.Resume
import RangeTransfer.Proofs.Sink.Open
/-!
# Directories that overflow

Two operations on a split directory can leave 64 bits, each for its own kind of directory. Counting
the bytes of the leading parts takes the last one, too, for a part of full length, which can be too
much if no part is missing (`existingSize_eq_error_iff`). Discarding gets on from part to part, and
past the last number if all parts behind the cut are there (`discardFrom_aborted_iff`). Nothing else
aborts them, and so neither the opening of a sink nor its trimming.
-/

namespace RangeTransfer
open Store

theorem Offset.add_eq_error {a b : Nat} (h : limit ≤ a + b) : add a b = .error (.overflow .add) :=
  if_neg (Nat.not_lt.mpr h)

namespace SplitLayout

variable {l : SplitLayout} {s : Store} {d : Location} {total index offset : Nat} {abort : Abort}

/-! ## Counting -/

/-- No part of an object of `total` bytes is missing, and as many parts of full length do not fit
64 bits. -/
structure Overfull (l : SplitLayout) (s : Store) (total : Nat) : Prop where
  complete : ∀ j < l.partCount total, l.partComplete s total j = true
  limit_le : Offset.limit ≤ l.partCount total * l.partSize

/-- Parts that are not the last one start within the object, so only all of them are too many. -/
theorem overfull_iff (hfit : total < Offset.limit) :
    l.Overfull s total ↔ Offset.limit ≤ l.existingPartCount s total * l.partSize := by
  constructor
  · intro h
    rw [existingPartCount_of_complete h.complete]
    exact h.limit_le
  · intro h
    obtain ⟨hle, hall, -⟩ := l.existingPartCount_spec s total
    have heq : l.existingPartCount s total = l.partCount total := by
      refine Nat.le_antisymm hle (Nat.le_of_not_lt fun hlt => ?_)
      have hstart := lt_partCount.mp hlt
      omega
    rw [heq] at h hall
    exact ⟨hall, h⟩

theorem existingSize_eq_error_iff (hfit : total < Offset.limit) :
    l.existingSize s total = .error abort ↔ abort = .overflow .multiply ∧ l.Overfull s total := by
  rw [overfull_iff hfit]
  unfold existingSize Offset.mul
  split
  · rename_i hlt
    exact iff_of_false nofun fun h => absurd hlt (Nat.not_lt.mpr h.2)
  · rename_i hover
    exact ⟨fun h => ⟨(Except.error.inj h).symm, Nat.not_lt.mp hover⟩, fun h => h.1 ▸ rfl⟩

theorem not_overfull (hsize : total < lengthLimit) (hpart : l.partSize < Offset.limit) :
    ¬ l.Overfull s total := fun h =>
  Nat.not_lt.mpr h.limit_le (partCount_mul_lt hsize hpart)

/-! ## Discarding -/

/-- The parts from `index` on are there up to the last one that has a 64-bit number. -/
def Unending (l : SplitLayout) (s : Store) (index : Nat) : Prop :=
  ∀ j, index ≤ j → j < Offset.limit → l.part? s j ≠ none

theorem unending_iff (hlt : index < Offset.limit) :
    l.Unending s index ↔ l.part? s index ≠ none ∧ l.Unending s (index + 1) := by
  refine ⟨fun h => ⟨h index (Nat.le_refl _) hlt, fun j hj => h j (by omega)⟩, fun h j hj hjlt => ?_⟩
  rcases Nat.eq_or_lt_of_le hj with rfl | hj
  · exact h.1
  · exact h.2 j hj hjlt

theorem unending_of_limit_le (hle : Offset.limit ≤ index) : l.Unending s index :=
  fun j hj hjlt => by omega

theorem unending_congr {s' : Store} (h : ∀ j, index ≤ j → l.part? s' j = l.part? s j) :
    l.Unending s' index ↔ l.Unending s index :=
  forall_congr' fun j => forall_congr' fun hj => by rw [h j hj]

/-- Removing parts aborts only behind the last number. The bound does not stop it before: no more
parts are there than rows in the tree. -/
theorem removeFrom_aborted_iff {bound : Nat} (h : l.At s d) (hs : s.WellFormed)
    (hlt : index < Offset.limit) (hbound : s.entries.rows.length < bound) :
    (l.removeFrom bound index s).1 = .error (.aborted abort) ↔
      abort = .overflow .add ∧ l.Unending s index := by
  induction bound generalizing index s with
  | zero => exact absurd hbound (Nat.not_lt_zero _)
  | succ bound ih =>
    rw [removeFrom, unending_iff hlt]
    cases hremove : s.removeFile (l.partPath index) with
    | error e =>
      have hnone := h.part?_of_removeFile_error hremove
      refine iff_of_false (fun habort => ?_) fun hright => hright.2.1 hnone
      cases e <;> cases habort
    | ok s₁ =>
      obtain ⟨hs₁, hsteady, hparts, hsome, hrows⟩ := h.removeFile hs hremove
      have hbehind : l.Unending s₁ (index + 1) ↔ l.Unending s (index + 1) :=
        unending_congr fun j hj => by rw [hparts, if_neg (by omega)]
      simp only [hsome, ne_eq, not_false_eq_true, true_and]
      by_cases hnext : index + 1 < Offset.limit
      · rw [Offset.add_eq_ok hnext, ← hbehind]
        exact ih (h.keeps hsteady.toKeeps) hs₁ hnext (by omega)
      · have hover := Nat.not_lt.mp hnext
        simp only [Offset.add_eq_error hover, Except.error.injEq, Halt.aborted.injEq]
        exact ⟨fun heq => ⟨heq.symm, unending_of_limit_le hover⟩, fun h => h.1.symm⟩

theorem removeAfter_aborted_iff (h : l.At s d) (hs : s.WellFormed) :
    (l.removeAfter s index).1 = .error (.aborted abort) ↔
      abort = .overflow .add ∧ l.Unending s (index + 1) := by
  unfold removeAfter
  by_cases hnext : index + 1 < Offset.limit
  · rw [Offset.add_eq_ok hnext]
    exact removeFrom_aborted_iff h hs hnext (Nat.lt_succ_self _)
  · have hover := Nat.not_lt.mp hnext
    simp only [Offset.add_eq_error hover, Except.error.injEq, Halt.aborted.injEq]
    exact ⟨fun heq => ⟨heq.symm, unending_of_limit_le hover⟩, fun h => h.1.symm⟩

/-- How discarding from `offset` on gets behind the part that holds `offset`. -/
inductive Cuttable (l : SplitLayout) (s : Store) (offset : Nat) : Prop
  | missing (opening : s.openFile (l.partPath (offset / l.partSize)) false = .error .notFound)
  | cut {fd : Handle} {s' : Store}
      (opening : s.openFile (l.partPath (offset / l.partSize)) false = .ok (fd, s'))
      (lt : offset % l.partSize < lengthLimit)

/-- Discarding from `offset` on gets to the parts behind, and finds no end there. -/
structure Endless (l : SplitLayout) (s : Store) (offset : Nat) : Prop where
  cuttable : l.Cuttable s offset
  behind : l.Unending s (offset / l.partSize + 1)

theorem discardFrom_aborted_iff (h : l.At s d) (hs : s.WellFormed) :
    (l.discardFrom s offset).1 = .error (.aborted abort) ↔
      abort = .overflow .add ∧ l.Endless s offset := by
  unfold discardFrom locate
  simp only
  cases hopen : s.openFile (l.partPath (offset / l.partSize)) false with
  | error e =>
    by_cases hmissing : e = .notFound
    · subst hmissing
      refine (removeAfter_aborted_iff h hs).trans (and_congr_right fun _ => ?_)
      exact ⟨fun hbehind => ⟨.missing hopen, hbehind⟩, fun hendless => hendless.behind⟩
    · refine iff_of_false (fun habort => ?_) fun hright => ?_
      · cases e <;> first | exact hmissing rfl | cases habort
      · cases hright.2.cuttable with
        | missing hnone => exact hmissing (Except.error.inj (hopen.symm.trans hnone))
        | cut hopened => cases hopen.symm.trans hopened
  | ok opened =>
    obtain ⟨fd, s₀⟩ := opened
    obtain ⟨-, -, hholds, -, -, hsame⟩ := h.openFile hs hopen
    obtain ⟨rfl, -⟩ := hsame rfl
    simp only
    cases hset : s₀.setSize fd (offset % l.partSize) with
    | error e =>
      refine iff_of_false nofun fun hright => ?_
      unfold setSize at hset
      cases hright.2.cuttable with
      | missing hnone => cases hopen.symm.trans hnone
      | cut _ hlt =>
        rw [if_neg (Nat.not_le.mpr hlt)] at hset
        cases hset
    | ok s₁ =>
      obtain ⟨hs₁, hsteady, hlimit, hparts⟩ := hholds.setSize h hs hset
      have hbehind : l.Unending s₁ (offset / l.partSize + 1) ↔
          l.Unending s₀ (offset / l.partSize + 1) :=
        unending_congr fun j hj => by rw [hparts, if_neg (by omega)]
      refine (removeAfter_aborted_iff (h.keeps hsteady.toKeeps) hs₁).trans
        (and_congr_right fun _ => hbehind.trans ?_)
      exact ⟨fun hbehind => ⟨.cut hopen hlimit, hbehind⟩, fun hendless => hendless.behind⟩

end SplitLayout

/-! ## Opening and trimming -/

theorem SplitSink.openAt_aborted_iff {l : SplitLayout} {s : Store} {n : Nat} {abort : Abort}
    (hs : s.WellFormed) : (SplitSink.openAt s l n).1 = .error (.aborted abort) ↔
      abort = .overflow .add ∧ ∃ s₁, l.claimDirectory s = (.ok (), s₁) ∧ l.Endless s₁ n := by
  unfold openAt
  cases hclaim : l.claimDirectory s with
  | mk claimed s₁ =>
    cases claimed with
    | error e =>
      refine iff_of_false nofun fun hright => ?_
      obtain ⟨-, s₂, hok, -⟩ := hright
      cases hok
    | ok _ =>
      obtain ⟨hs₁, hmade, -⟩ := SplitLayout.claimDirectory_spec hs hclaim
      obtain ⟨d, hd⟩ := (hmade rfl).at
      have hdiscard : (l.discardFrom s₁ n).1 = .error (.aborted abort) ↔
          abort = .overflow .add ∧ l.Endless s₁ n := SplitLayout.discardFrom_aborted_iff hd hs₁
      have hendless : (∃ s₂, ((Except.ok () : Except TransferError Unit), s₁) = (.ok (), s₂) ∧
          l.Endless s₂ n) ↔ l.Endless s₁ n :=
        ⟨fun ⟨_, hok, h⟩ => (Prod.mk.inj hok).2 ▸ h, fun h => ⟨s₁, rfl, h⟩⟩
      rw [hendless, ← hdiscard]
      simp only
      cases hdiscarded : l.discardFrom s₁ n with
      | mk r s₂ =>
        cases r with
        | error halt => simp only [Except.error.injEq]
        | ok _ => exact iff_of_false nofun nofun

/-- A new file of `size` bytes. -/
abbrev Store.extended (s : Store) (path : Path) (size : Nat) : Store :=
  match s.openFile path true with
  | .error _ => s
  | .ok (fd, s) => s.setContent fd ((s.content fd).setSize size)

/-- A part of one byte with the last number. -/
abbrev lastPart : Store :=
  let l : SplitLayout := .new ⟨[100]⟩ 1
  (SplitSink.openAt (.fresh []) l 0).2.extended (l.partPath Offset.last) 1

/-- Discarding before the last part adds past its number. -/
example : (SplitSink.openAt lastPart (.new ⟨[100]⟩ 1) (Offset.last - 1)).1 =
    .error (.aborted (.overflow .add)) := rfl

/-- What the sink discards from the offset `n` on is endless. -/
def Sink.Endless (k : Sink) (n : Nat) : Prop :=
  match k.output with
  | .direct _ => False
  | .split q => q.layout.Endless k.store n

theorem Sink.truncate_aborted_iff {k : Sink} {n : Nat} {abort : Abort} (h : k.Sound) :
    (k.truncate n).1 = .error (.aborted abort) ↔ abort = .overflow .add ∧ k.Endless n := by
  obtain ⟨output, s⟩ := k
  cases output with
  | direct f =>
    refine iff_of_false ?_ fun hright => hright.2
    unfold truncate
    simp only
    split <;> nofun
  | split q =>
    obtain ⟨d, hopened⟩ := h
    unfold truncate
    simp only [SplitSink.truncate]
    exact SplitLayout.discardFrom_aborted_iff hopened.here hopened.wellFormed

end RangeTransfer
