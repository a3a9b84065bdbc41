import RangeTransfer.Proofs.Layout.Parts
import RangeTransfer.Proofs.Sink.Puts
import RangeTransfer.Sink.Split
/-!
# What a split sink does to its parts

A write through a split sink puts its bytes into the parts, all of them if it succeeds and the first
ones of them if it fails (`write_spec`). Discarding from an offset on cuts the part that holds it
and removes the parts behind that, up to the first that is missing and no further
(`discardFrom_spec`).
-/

namespace RangeTransfer
open Store

variable {s s' : Store} {d : Location}

/-- No part is as long as a file cannot be. -/
def SplitLayout.Short (l : SplitLayout) (s : Store) : Prop :=
  ∀ j c, l.part? s j = some c → c.size < lengthLimit

/-- No part starts at or behind the offset `total`, and none reaches behind it or into the next. -/
def SplitLayout.Within (l : SplitLayout) (s : Store) (total : Nat) : Prop :=
  ∀ j c, l.part? s j = some c →
    j * l.partSize < total ∧ c.size ≤ min (total - j * l.partSize) l.partSize

/-- Part `j` is longer than any part of an object is. -/
def SplitLayout.Long (l : SplitLayout) (s : Store) (j : Nat) : Prop :=
  ∃ c, l.part? s j = some c ∧ l.partSize < c.size

namespace SplitSink

/-- The directory of the sink is the place `d`, and its open part is the one it says. -/
structure Opened (k : SplitSink) (s : Store) (d : Location) : Prop where
  wellFormed : s.WellFormed
  here : k.layout.At s d
  current : ∀ part, k.current = some part → k.layout.Holds s d part.index part.handle

/-- The sink `k'` over `s'` is what writing `size` bytes at `offset` through `k` over `s` leaves, of
which the bytes of `data` arrived. -/
structure Wrote (k : SplitSink) (s : Store) (k' : SplitSink) (s' : Store) (d : Location)
    (offset size : Nat) (data : ByteArray) : Prop where
  layout : k'.layout = k.layout
  opened : k'.Opened s' d
  steady : s.Steady k.layout.Addressable d s'
  short : k.layout.Short s → k.layout.Short s'
  unreached : ∀ j, (j + 1) * k.layout.partSize ≤ offset ∨ offset + size ≤ j * k.layout.partSize →
    k.layout.part? s' j = k.layout.part? s j
  put : PutParts k.layout.partSize (k.layout.part? s) (k.layout.part? s') offset data

variable {k : SplitSink}

theorem Opened.wrote_nothing (h : k.Opened s d) (offset size : Nat) {data : ByteArray}
    (hdata : data.size = 0) : k.Wrote s k s d offset size data :=
  ⟨rfl, h, Steady.refl _ d s, id, fun _ _ => rfl, PutParts.refl_of_empty hdata⟩

theorem partAt_spec (h : k.Opened s d) {i : Nat} {part : OpenPart}
    (hok : k.partAt s i = .ok (part, s')) :
    part.index = i ∧ s'.WellFormed ∧ s.Steady k.layout.Addressable d s' ∧ k.layout.Holds s' d i part.handle ∧
      s'.content part.handle = (k.layout.part? s i).getD .empty ∧
      ∀ j, j ≠ i → k.layout.part? s' j = k.layout.part? s j := by
  have hanew : ∀ {part : OpenPart}, partAt.openAnew k s i = .ok (part, s') →
      part.index = i ∧ s'.WellFormed ∧ s.Steady k.layout.Addressable d s' ∧ k.layout.Holds s' d i part.handle ∧
        s'.content part.handle = (k.layout.part? s i).getD .empty ∧
        ∀ j, j ≠ i → k.layout.part? s' j = k.layout.part? s j := by
    intro part hok
    simp only [partAt.openAnew, bind, Except.bind] at hok
    split at hok
    · cases hok
    · rename_i x hopen
      obtain ⟨fd, s₁⟩ := x
      cases hok
      obtain ⟨hs', hsteady, hholds, hcontent, hother, -⟩ := h.here.openFile h.wellFormed hopen
      exact ⟨rfl, hs', hsteady, hholds, hcontent, hother⟩
  unfold partAt at hok
  split at hok
  · rename_i part' hcurrent
    split at hok
    · rename_i hindex
      cases hok
      have hholds := h.current part hcurrent
      rw [hindex] at hholds
      exact ⟨hindex, h.wellFormed, Steady.refl _ d s, hholds, by rw [hholds.part? h.here]; rfl,
        fun _ _ => rfl⟩
    · exact hanew hok
  · exact hanew hok

theorem ne_of_unreached {ps offset size j : Nat} (hpos : 0 < ps) (hsize : 0 < size)
    (h : (j + 1) * ps ≤ offset ∨ offset + size ≤ j * ps) : j ≠ offset / ps := by
  rintro rfl
  have hdiv := Nat.div_add_mod offset ps
  have hmod := Nat.mod_lt offset hpos
  rw [Nat.mul_comm] at hdiv
  rw [Nat.succ_mul] at h
  omega

theorem Opened.wrote_piece (h : k.Opened s d) {offset size : Nat} {part : OpenPart}
    {data : ByteArray} {s₁ s₂ : Store} (hne : 0 < data.size) (hle : data.size ≤ size)
    (hfit : offset % k.layout.partSize + data.size ≤ k.layout.partSize)
    (hpart : k.partAt s (offset / k.layout.partSize) = .ok (part, s₁))
    (hwrite : s₁.writeAt part.handle (offset % k.layout.partSize) data = .ok s₂) :
    k.Wrote s { k with current := some part } s₂ d offset size data := by
  have hpos := k.layout.partSize_pos
  obtain ⟨hindex, hs₁, hsteady₁, hholds, hcontent, hother⟩ := partAt_spec h hpart
  have hhere₁ := h.here.keeps hsteady₁.toKeeps
  obtain ⟨hlimit, hcontents, hentries, hworking, hnext⟩ := writeAt_eq_ok hwrite
  have hsteady₂ := steady_of_entries k.layout.Addressable d hworking hentries
  have hparts : ∀ j, k.layout.part? s₂ j = if j = offset / k.layout.partSize then
      some (((k.layout.part? s (offset / k.layout.partSize)).getD .empty).write
        (offset % k.layout.partSize) data) else k.layout.part? s j := by
    intro j
    rw [hholds.part?_update hhere₁ hs₁ hworking hentries
      fun fd' hne => by rw [hcontents, if_neg hne]]
    split
    · rw [hcontents, if_pos rfl, hcontent]
    · rename_i hj
      exact hother j hj
  refine ⟨rfl, ⟨hs₁.of_entries hworking hentries hnext, hhere₁.keeps hsteady₂.toKeeps,
    fun part' heq => ?_⟩, hsteady₁.trans hsteady₂, fun hshort j c hc => ?_, fun j hj => ?_,
    PutParts.of_piece hpos rfl hne hfit ?_ fun j hj => ?_⟩
  · cases heq
    rw [hindex]
    exact ⟨hholds.addressable, (entryAt_congr hentries _).trans hholds.entry⟩
  · rw [hparts] at hc
    split at hc
    · cases hc
      rw [Content.size_write _ _ _ (by omega)]
      have := hlimit (by omega)
      have hold : ((k.layout.part? s (offset / k.layout.partSize)).getD .empty).size <
          lengthLimit := by
        cases hp : k.layout.part? s (offset / k.layout.partSize) with
        | none => exact (by decide : 0 < lengthLimit)
        | some c₀ => exact hshort _ _ hp
      omega
    · exact hshort j c hc
  · rw [hparts, if_neg (ne_of_unreached hpos (Nat.lt_of_lt_of_le hne hle) hj)]
  · rw [hparts, if_pos rfl]
  · rw [hparts, if_neg hj]

theorem Opened.wrote_created (h : k.Opened s d) {offset size : Nat} {part : OpenPart}
    {data : ByteArray} {s₁ : Store} (hsize : 0 < size) (hdata : data.size = 0)
    (hpart : k.partAt s (offset / k.layout.partSize) = .ok (part, s₁)) :
    k.Wrote s { k with current := some part } s₁ d offset size data := by
  obtain ⟨hindex, hs₁, hsteady₁, hholds, hcontent, hother⟩ := partAt_spec h hpart
  have hhere₁ := h.here.keeps hsteady₁.toKeeps
  have hpart₁ : k.layout.part? s₁ (offset / k.layout.partSize) =
      some ((k.layout.part? s (offset / k.layout.partSize)).getD .empty) := by
    rw [hholds.part? hhere₁, hcontent]
  have hcreated : ∀ j, k.layout.part? s₁ j = k.layout.part? s j ∨
      (k.layout.part? s j = none ∧ k.layout.part? s₁ j = some .empty) := by
    intro j
    by_cases hj : j = offset / k.layout.partSize
    · rw [hj, hpart₁]
      cases k.layout.part? s (offset / k.layout.partSize) with
      | none => exact Or.inr ⟨rfl, rfl⟩
      | some c => exact Or.inl rfl
    · exact Or.inl (hother j hj)
  refine ⟨rfl, ⟨hs₁, hhere₁, fun part' heq => by cases heq; rw [hindex]; exact hholds⟩, hsteady₁,
    fun hshort j c hc => ?_,
    fun j hj => hother j (ne_of_unreached k.layout.partSize_pos hsize hj),
    PutParts.of_created hdata hcreated⟩
  rcases hcreated j with heq | ⟨-, hempty⟩
  · exact hshort j c (heq ▸ hc)
  · rw [hempty] at hc
    cases hc
    exact (by decide : 0 < lengthLimit)

theorem Wrote.append {k₁ k₂ : SplitSink} {s₁ s₂ : Store} {offset size rest : Nat}
    {data data' : ByteArray} (h : k.Wrote s k₁ s₁ d offset size data)
    (h' : k₁.Wrote s₁ k₂ s₂ d (offset + data.size) rest data') (hrest : data.size + rest = size)
    (hborder : data'.size = 0 ∨ (offset + data.size) % k.layout.partSize = 0) :
    k.Wrote s k₂ s₂ d offset size (data ++ data') := by
  obtain ⟨hlayout, hopened, hsteady, hshort, hunreached, hput⟩ := h'
  rw [h.layout] at hlayout hsteady hshort hunreached hput
  refine ⟨hlayout, hopened, h.steady.trans hsteady, fun hs => hshort (h.short hs), fun j hj => ?_,
    h.put.append k.layout.partSize_pos hput hborder⟩
  rw [hunreached j (by omega), h.unreached j hj]

theorem Wrote.within {k' : SplitSink} {offset size total : Nat} {data : ByteArray}
    (h : k.Wrote s k' s' d offset size data) (hdata : data.size ≤ size)
    (hle : offset + size ≤ total) (hwithin : k.layout.Within s total) :
    k.layout.Within s' total := by
  intro j c hc
  by_cases hj : (j + 1) * k.layout.partSize ≤ offset ∨ offset + size ≤ j * k.layout.partSize
  · exact hwithin j c (h.unreached j hj ▸ hc)
  · have hpos := k.layout.partSize_pos
    have hold : ((k.layout.part? s j).map Content.size).getD 0 ≤
        min (total - j * k.layout.partSize) k.layout.partSize := by
      cases hp : k.layout.part? s j with
      | none => exact Nat.zero_le _
      | some c₀ => exact (hwithin j c₀ hp).2
    rw [Nat.succ_mul] at hj
    refine ⟨by omega, ?_⟩
    by_cases hreach : max offset (j * k.layout.partSize) <
        min (offset + data.size) ((j + 1) * k.layout.partSize)
    · obtain ⟨c', hc', hsize⟩ := h.put.size_of_reached hreach
      rw [hc] at hc'
      cases hc'
      rw [Nat.succ_mul] at hsize
      omega
    · have := h.put j
      rw [if_neg hreach, hc] at this
      rcases this with heq | ⟨-, hempty⟩
      · rw [← heq] at hold
        exact hold
      · cases hempty
        exact Nat.zero_le _

theorem Wrote.long {k' : SplitSink} {offset size : Nat} {data : ByteArray}
    (h : k.Wrote s k' s' d offset size data) (j : Nat) :
    k.layout.Long s' j ↔ k.layout.Long s j := by
  have hput := h.put j
  unfold SplitLayout.Long
  split at hput
  · rename_i hreach
    rw [Nat.succ_mul] at hreach hput
    have hsize : (((k.layout.part? s j).getD .empty).write
        (max offset (j * k.layout.partSize) - j * k.layout.partSize)
        (data.extract (max offset (j * k.layout.partSize) - offset)
          (min (offset + data.size) (j * k.layout.partSize + k.layout.partSize) - offset))).size =
        max ((k.layout.part? s j).getD .empty).size
          (min (offset + data.size) (j * k.layout.partSize + k.layout.partSize) -
            j * k.layout.partSize) := by
      rw [Content.size_write _ _ _ (by rw [ByteArray.size_extract]; omega), ByteArray.size_extract]
      omega
    rw [hput]
    simp only [Option.some.injEq, exists_eq_left', hsize]
    cases hp : k.layout.part? s j with
    | none =>
      have : Content.empty.size = 0 := rfl
      simp only [Option.getD_none, reduceCtorEq, false_and, exists_false, iff_false]
      omega
    | some c =>
      simp only [Option.getD_some, Option.some.injEq, exists_eq_left']
      omega
  · rcases hput with heq | ⟨hnone, hempty⟩
    · rw [heq]
    · rw [hnone, hempty]
      refine iff_of_false ?_ (by simp)
      rintro ⟨c, hc, hlong⟩
      cases hc
      exact Nat.not_lt_zero _ hlong

/-- A write of the rest of `bytes` writes a first piece of it, which is all of it if the write
succeeds. -/
theorem writeFrom_spec (bytes : ByteArray) (pieces : Nat) {done : Nat} (offset : Nat)
    (h : k.Opened s d)
    (hdone : done ≤ bytes.size) (hpieces : bytes.size - done ≤ pieces) :
    ∃ m r k' s', writeFrom bytes pieces done offset k s = (r, k', s') ∧ done ≤ m ∧
      m ≤ bytes.size ∧ (r = .ok () → m = bytes.size) ∧
      k.Wrote s k' s' d offset (bytes.size - done) (bytes.extract done m) := by
  induction pieces generalizing done offset k s with
  | zero =>
    exact ⟨done, .ok (), k, s, rfl, Nat.le_refl _, hdone, fun _ => by omega,
      h.wrote_nothing _ _ (by rw [ByteArray.size_extract]; omega)⟩
  | succ pieces ih =>
    have hempty : (bytes.extract done done).size = 0 := by rw [ByteArray.size_extract]; omega
    by_cases hend : bytes.size ≤ done
    · refine ⟨done, .ok (), k, s, ?_, Nat.le_refl _, hdone, fun _ => by omega,
        h.wrote_nothing _ _ hempty⟩
      rw [writeFrom, if_pos hend]
    · have hmod := Nat.mod_lt offset k.layout.partSize_pos
      generalize hsize : min (bytes.size - done) (k.layout.partSize - offset % k.layout.partSize) =
        size
      have hdata : (bytes.extract done (done + size)).size = size := by
        rw [ByteArray.size_extract]; omega
      rw [writeFrom, if_neg hend]
      simp only [SplitLayout.locate, hsize]
      cases hpart : k.partAt s (offset / k.layout.partSize) with
      | error e =>
        exact ⟨done, _, _, _, rfl, Nat.le_refl _, hdone, nofun, rfl,
          ⟨h.wellFormed, h.here, nofun⟩, Steady.refl _ d s, id, fun _ _ => rfl,
          PutParts.refl_of_empty hempty⟩
      | ok x =>
        obtain ⟨part, s₁⟩ := x
        simp only
        cases hwrite : s₁.writeAt part.handle (offset % k.layout.partSize)
            (bytes.extract done (done + size)) with
        | error e =>
          exact ⟨done, _, _, _, rfl, Nat.le_refl _, hdone, nofun,
            h.wrote_created (by omega) hempty hpart⟩
        | ok s₂ =>
          have hwrote : k.Wrote s _ s₂ d offset (bytes.size - done) _ :=
            h.wrote_piece (by omega) (by omega) (by omega) hpart hwrite
          simp only
          cases hadd : Offset.add offset size with
          | error abort => exact ⟨done + size, _, _, _, rfl, by omega, by omega, nofun, hwrote⟩
          | ok next =>
            obtain rfl : next = offset + size := Offset.eq_of_add_eq_ok hadd
            obtain ⟨m, r, k', s', heq, hle, hm, hall, hrest⟩ :=
              ih (offset + size) hwrote.opened (show done + size ≤ bytes.size by omega)
                (by omega)
            refine ⟨m, r, k', s', heq, by omega, hm, hall, ?_⟩
            rw [ByteArray.extract_eq_extract_append_extract (done + size) (by omega) hle]
            refine hwrote.append (by rw [hdata]; exact hrest) (by omega) ?_
            rw [ByteArray.size_extract, hdata]
            by_cases hlast : size = bytes.size - done
            · exact Or.inl (by omega)
            · right
              have hdiv := Nat.div_add_mod offset k.layout.partSize
              rw [show offset + size = k.layout.partSize * (offset / k.layout.partSize + 1) by
                rw [Nat.mul_add, Nat.mul_one]; omega]
              exact Nat.mul_mod_right _ _

theorem write_spec (h : k.Opened s d) (offset : Nat) (bytes : ByteArray) :
    ∃ m r k' s', k.write s offset bytes = (r, k', s') ∧ m ≤ bytes.size ∧
      (r = .ok () → m = bytes.size) ∧
      k.Wrote s k' s' d offset bytes.size (bytes.extract 0 m) := by
  obtain ⟨m, r, k', s', heq, -, hm, hall, hwrote⟩ :=
    writeFrom_spec bytes bytes.size offset h (Nat.zero_le _) (Nat.le_refl _)
  exact ⟨m, r, k', s', heq, hm, hall, hwrote⟩

end SplitSink

/-! ## Discarding -/

namespace SplitLayout

variable {l : SplitLayout}

theorem At.part?_of_removeFile_error (h : l.At s d) {i : Nat} {e : StorageError}
    (hremove : s.removeFile (l.partPath i) = .error e) : l.part? s i = none := by
  cases hp : l.part? s i with
  | none => rfl
  | some c =>
    obtain ⟨ha, n, he, -⟩ := h.part?_eq_some hp
    simp only [Store.removeFile, h.resolve ha.1, bind, Except.bind,
      if_neg (Nat.not_lt.mpr ha.2), he] at hremove
    cases hremove

theorem At.part?_of_openFile_error (h : l.At s d) {i : Nat} {e : StorageError}
    (hopen : s.openFile (l.partPath i) false = .error e) : l.part? s i = none := by
  cases hp : l.part? s i with
  | none => rfl
  | some c =>
    obtain ⟨ha, n, he, -⟩ := h.part?_eq_some hp
    simp only [Store.openFile, h.resolve ha.1, bind, Except.bind, if_neg (Nat.not_lt.mpr ha.2), he,
      Bool.and_false, Bool.false_eq_true, if_false] at hopen
    cases hopen

/-- Parts are only removed, none of them before `index`; a removal that succeeds takes them up to
the first gap. -/
theorem removeFrom_spec (bound index : Nat) (h : l.At s d) (hs : s.WellFormed) :
    ∃ r s', l.removeFrom bound index s = (r, s') ∧ s'.WellFormed ∧ s.Steady l.Addressable d s' ∧
      (∀ j, l.part? s' j = l.part? s j ∨ l.part? s' j = none) ∧
      (∀ j, j < index → l.part? s' j = l.part? s j) ∧
      (r = .ok () → s.entries.rows.length < bound → ∃ gap, index ≤ gap ∧ l.part? s gap = none ∧
        (∀ j, index ≤ j → j < gap → l.part? s j ≠ none ∧ l.part? s' j = none) ∧
        ∀ j, gap ≤ j → l.part? s' j = l.part? s j) := by
  induction bound generalizing index s with
  | zero =>
    exact ⟨_, _, rfl, hs, Steady.refl _ d s, fun _ => Or.inl rfl, fun _ _ => rfl, by omega⟩
  | succ bound ih =>
    rw [removeFrom]
    cases hremove : s.removeFile (l.partPath index) with
    | error e =>
      have hnone := h.part?_of_removeFile_error hremove
      have hgap : ∃ gap, index ≤ gap ∧ l.part? s gap = none ∧
          (∀ j, index ≤ j → j < gap → l.part? s j ≠ none ∧ l.part? s j = none) ∧
          ∀ j, gap ≤ j → l.part? s j = l.part? s j :=
        ⟨index, Nat.le_refl _, hnone, by omega, fun _ _ => rfl⟩
      by_cases hmissing : e = .notFound
      · subst hmissing
        exact ⟨_, _, rfl, hs, Steady.refl _ d s, fun _ => Or.inl rfl, fun _ _ => rfl,
          fun _ _ => hgap⟩
      · refine ⟨.error (.failed (.storage (l.partPath index) e)), s, ?_, hs, Steady.refl _ d s,
          fun _ => Or.inl rfl, fun _ _ => rfl, nofun⟩
        cases e <;> first | rfl | exact absurd rfl hmissing
    | ok s₁ =>
      obtain ⟨hs₁, hsteady₁, hparts₁, hsome, hrows⟩ := h.removeFile hs hremove
      simp only
      cases hadd : Offset.add index 1 with
      | error abort =>
        refine ⟨_, _, rfl, hs₁, hsteady₁, fun j => ?_, fun j hj => ?_, nofun⟩
        · rw [hparts₁]
          split
          · exact Or.inr rfl
          · exact Or.inl rfl
        · rw [hparts₁, if_neg (Nat.ne_of_lt hj)]
      | ok next =>
        obtain rfl : next = index + 1 := Offset.eq_of_add_eq_ok hadd
        obtain ⟨r, s', heq, hs', hsteady, hless, hbelow, hgap⟩ :=
          ih (index + 1) (h.keeps hsteady₁.toKeeps) hs₁
        refine ⟨r, s', heq, hs', hsteady₁.trans hsteady, fun j => ?_, fun j hj => ?_, ?_⟩
        · have := hless j
          rw [hparts₁] at this
          split at this
          · exact Or.inr (this.elim id id)
          · exact this
        · rw [hbelow j (by omega), hparts₁, if_neg (Nat.ne_of_lt hj)]
        · intro hok hbound
          obtain ⟨gap, hle, hnone, hbetween, habove⟩ := hgap hok (by omega)
          refine ⟨gap, by omega, ?_, fun j hj hlt => ?_, fun j hj => ?_⟩
          · rwa [hparts₁, if_neg (by omega)] at hnone
          · by_cases hfirst : j = index
            · subst hfirst
              refine ⟨hsome, ?_⟩
              rw [hbelow j (Nat.lt_succ_self j), hparts₁, if_pos rfl]
            · have := hbetween j (by omega) hlt
              rwa [hparts₁, if_neg hfirst] at this
          · rw [habove j hj, hparts₁, if_neg (by omega)]

/-- What discarding the bytes from `offset` on leaves of the parts. -/
structure Discarded (l : SplitLayout) (s s' : Store) (offset : Nat) : Prop where
  below : ∀ j, j < offset / l.partSize → l.part? s' j = l.part? s j
  cut : l.part? s' (offset / l.partSize) =
    (l.part? s (offset / l.partSize)).map (·.setSize (offset % l.partSize))
  above : ∀ j, offset / l.partSize < j → l.part? s' j = l.part? s j ∨ l.part? s' j = none

theorem Discarded.byteOf (h : l.Discarded s s' n) {o : Nat} {b : UInt8} (ho : o < n)
    (hb : byteOf l.partSize (l.part? s) o = some b) : byteOf l.partSize (l.part? s') o = some b := by
  obtain ⟨c, hc, hget⟩ := Option.bind_eq_some_iff.mp hb
  have hdiv := Nat.div_add_mod o l.partSize
  have hdiv' := Nat.div_add_mod n l.partSize
  rw [RangeTransfer.byteOf]
  rcases Nat.lt_or_eq_of_le (Nat.div_le_div_right (c := l.partSize) (Nat.le_of_lt ho)) with
    hlt | heq
  · rw [h.below _ hlt, hc, Option.bind_some, hget]
  · rw [heq] at hc hdiv
    rw [heq, h.cut, hc, Option.map_some, Option.bind_some, Content.byteAt_setSize,
      if_pos (by omega), hget]
    rfl

/-- Discarding that succeeds removes the parts behind the cut up to the first that is missing, and
leaves those behind that one. -/
def UpToGap (l : SplitLayout) (s s' : Store) (index : Nat) : Prop :=
  ∃ gap, index < gap ∧ l.part? s gap = none ∧
    (∀ j, index < j → j < gap → l.part? s j ≠ none ∧ l.part? s' j = none) ∧
    ∀ j, gap ≤ j → l.part? s' j = l.part? s j

theorem removeAfter_spec (index : Nat) (h : l.At s d) (hs : s.WellFormed) :
    ∃ r s', l.removeAfter s index = (r, s') ∧ s'.WellFormed ∧ s.Steady l.Addressable d s' ∧
      (∀ j, l.part? s' j = l.part? s j ∨ l.part? s' j = none) ∧
      (∀ j, j ≤ index → l.part? s' j = l.part? s j) ∧ (r = .ok () → l.UpToGap s s' index) := by
  unfold removeAfter
  cases hadd : Offset.add index 1 with
  | error abort =>
    exact ⟨_, _, rfl, hs, Steady.refl _ d s, fun _ => Or.inl rfl, fun _ _ => rfl, nofun⟩
  | ok next =>
    obtain rfl : next = index + 1 := Offset.eq_of_add_eq_ok hadd
    obtain ⟨r, s', heq, hs', hsteady, hless, hbelow, hgap⟩ :=
      removeFrom_spec (s.entries.rows.length + 1) (index + 1) h hs
    refine ⟨r, s', heq, hs', hsteady, hless, fun j hj => hbelow j (by omega), fun hok => ?_⟩
    obtain ⟨gap, hle, hnone, hbetween, habove⟩ := hgap hok (Nat.lt_succ_self _)
    exact ⟨gap, hle, hnone, fun j hj => hbetween j hj, habove⟩

theorem Holds.setSize {fd : Handle} {s₁ : Store} {i size : Nat} (hholds : l.Holds s d i fd)
    (h : l.At s d) (hs : s.WellFormed) (hset : s.setSize fd size = .ok s₁) :
    s₁.WellFormed ∧ s.Steady l.Addressable d s₁ ∧ size < lengthLimit ∧
      ∀ j, l.part? s₁ j = if j = i then (l.part? s j).map (·.setSize size) else l.part? s j := by
  obtain ⟨hlimit, rfl⟩ := setSize_eq_ok hset
  refine ⟨hs.of_entries rfl rfl rfl, steady_of_entries _ d rfl rfl, hlimit, fun j => ?_⟩
  have hparts : ∀ j, l.part? (s.setContent fd ((s.content fd).setSize size)) j = _ :=
    hholds.part?_update h hs rfl rfl fun fd' hne => by rw [content_setContent, if_neg hne]
  rw [hparts]
  split
  · rename_i heq
    rw [heq, content_setContent, if_pos rfl, hholds.part? h]
    rfl
  · rfl

/-- Discarding cuts the part that holds `offset`, unless that is further into it than a file can
reach, and leaves everything below. -/
theorem discardFrom_spec (offset : Nat) (h : l.At s d) (hs : s.WellFormed) :
    ∃ r s', l.discardFrom s offset = (r, s') ∧ s'.WellFormed ∧ s.Steady l.Addressable d s' ∧
      (l.Short s → l.Short s') ∧
      (r = .ok () ∨ offset % l.partSize < lengthLimit → l.Discarded s s' offset) ∧
      (r = .ok () → l.UpToGap s s' (offset / l.partSize)) := by
  have hshort : ∀ {s s' : Store}, (∀ j, l.part? s' j = l.part? s j ∨ l.part? s' j = none) →
      l.Short s → l.Short s' := by
    intro s s' hless hshort j c hc
    rcases hless j with heq | hnone
    · exact hshort j c (heq ▸ hc)
    · rw [hnone] at hc
      cases hc
  unfold discardFrom locate
  simp only
  cases hopen : s.openFile (l.partPath (offset / l.partSize)) false with
  | error e =>
    have hnone := h.part?_of_openFile_error hopen
    by_cases hmissing : e = .notFound
    · subst hmissing
      obtain ⟨r, s', heq, hs', hsteady, hless, hbelow, hgap⟩ :=
        removeAfter_spec (offset / l.partSize) h hs
      refine ⟨r, s', heq, hs', hsteady, hshort hless, fun _ => ⟨fun j hj =>
        hbelow j (Nat.le_of_lt hj), ?_, fun j _ => hless j⟩, hgap⟩
      rw [hbelow _ (Nat.le_refl _), hnone]
      rfl
    · refine ⟨.error (.failed (.storage (l.partPath (offset / l.partSize)) e)), s, ?_, hs,
        Steady.refl _ d s, id, fun _ => ⟨fun _ _ => rfl, by rw [hnone]; rfl, fun _ _ => Or.inl rfl⟩,
        nofun⟩
      cases e <;> first | rfl | exact absurd rfl hmissing
  | ok x =>
    obtain ⟨fd, s₀⟩ := x
    obtain ⟨-, -, hholds, hcontent, -, hsame⟩ := h.openFile hs hopen
    obtain ⟨rfl, hsome⟩ := hsame rfl
    simp only
    cases hset : s₀.setSize fd (offset % l.partSize) with
    | error e =>
      refine ⟨_, _, rfl, hs, Steady.refl _ d s₀, id, fun hor => ?_, nofun⟩
      refine hor.elim nofun fun hlt => ?_
      unfold setSize at hset
      rw [if_neg (Nat.not_le.mpr hlt)] at hset
      cases hset
    | ok s₁ =>
      obtain ⟨hs₁, hsteady₁, hlimit, hparts⟩ := hholds.setSize h hs hset
      obtain ⟨r, s', heq, hs', hsteady, hless, hbelow, hgap⟩ :=
        removeAfter_spec (offset / l.partSize) (h.keeps hsteady₁.toKeeps) hs₁
      refine ⟨r, s', heq, hs', hsteady₁.trans hsteady, fun hsh => hshort hless fun j c hc => ?_,
        fun _ => ⟨fun j hj => ?_, ?_, fun j hj => ?_⟩, fun hok => ?_⟩
      · rw [hparts] at hc
        split at hc
        · obtain ⟨c', -, rfl⟩ := Option.map_eq_some_iff.mp hc
          exact hlimit
        · exact hsh j c hc
      · rw [hbelow j (Nat.le_of_lt hj), hparts, if_neg (Nat.ne_of_lt hj)]
      · rw [hbelow _ (Nat.le_refl _), hparts, if_pos rfl]
      · have := hless j
        rwa [hparts, if_neg (Nat.ne_of_gt hj)] at this
      · obtain ⟨gap, hlt, hnone, hbetween, habove⟩ := hgap hok
        refine ⟨gap, hlt, ?_, fun j hj hjg => ?_, fun j hj => ?_⟩
        · rwa [hparts, if_neg (Nat.ne_of_gt hlt)] at hnone
        · have := hbetween j hj hjg
          rwa [hparts, if_neg (Nat.ne_of_gt hj)] at this
        · rw [habove j hj, hparts, if_neg (by omega)]

end SplitLayout

end RangeTransfer
