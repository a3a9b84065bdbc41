import RangeTransfer.Proofs.Sink.Basic
/-!
# Sinks that take every write

A write can fail for what stands in the tree only: a part that is a directory or whose path the
system does not take, or a file that would get too long. Where neither is the case all writes within
the object succeed, now and after other such writes (`Sink.writable_direct`, `Sink.writable_split`).
-/

namespace RangeTransfer
open Store

/-- The sink takes every write within an object of `total` bytes, now and after other such
writes. -/
def Sink.Writable (total : Nat) (k : Sink) : Prop :=
  ∀ k', k.Follows total k' → ∀ offset data, offset + data.size ≤ total →
    (k'.write offset data).1 = .ok ()

theorem Sink.Writable.follows {total : Nat} {k k' : Sink} (h : k.Writable total)
    (hk : k.Follows total k') : k'.Writable total := fun k'' hk' => h k'' (hk.trans hk')

theorem Sink.Writable.write {total : Nat} {k : Sink} (h : k.Writable total) (hsound : k.Sound)
    (offset : Nat) (data : ByteArray) (hle : offset + data.size ≤ total) :
    ∃ k', k.write offset data = (.ok (), k') ∧ k'.Sound ∧ k'.Writable total := by
  obtain ⟨-, r, k', hwrite, -, -, hfollows, -⟩ := write_spec hsound hle
  have hok := h k (Follows.refl total k) offset data hle
  rw [hwrite] at hok
  obtain rfl : r = .ok () := hok
  exact ⟨k', hwrite, hfollows.sound hsound, h.follows hfollows⟩

theorem Sink.writable_direct {total : Nat} {f : DirectSink} {s : Store} (htotal : total < lengthLimit) :
    (⟨.direct f, s⟩ : Sink).Writable total := by
  rintro ⟨output, s'⟩ hfollows offset data hle
  cases output with
  | direct f' =>
    simp only [write, DirectSink.write, writeAt, if_neg (show ¬ lengthLimit ≤ offset by omega),
      if_neg (show ¬ lengthLimit ≤ offset + data.size by omega), atPath]
    by_cases hdata : data.size = 0
    · rw [if_pos hdata]
      rfl
    · rw [if_neg hdata]
      rfl
  | split p => exact hfollows.place.elim

/-! ## Split directories -/

/-- Each part of an object of `total` bytes can be named, and no directory stands in its place. -/
structure SplitLayout.Free (l : SplitLayout) (s : Store) (d : Location) (total : Nat) : Prop where
  addressable : ∀ j, j * l.partSize < total → l.Addressable j
  clear : ∀ j, j * l.partSize < total → s.entryAt (partBytes j :: d) ≠ some .directory

variable {l : SplitLayout} {s s' : Store} {d : Location} {total : Nat} {k : SplitSink}

theorem SplitLayout.Free.steady {P : Nat → Prop} (h : l.Free s d total) (hs : s.Steady P d s') :
    l.Free s' d total where
  addressable := h.addressable
  clear j hj hdir := by
    rcases hs.entry (partBytes j :: d) with hsame | ⟨i, -, -, hfile⟩
    · exact h.clear j hj (hsame ▸ hdir)
    · obtain ⟨n, hn⟩ := hfile _ hdir
      cases hn

theorem SplitLayout.free_of_lt (n : Nat) (hn : total ≤ n * l.partSize)
    (h : ∀ j < n, l.Addressable j ∧ s.entryAt (partBytes j :: d) ≠ some .directory) :
    l.Free s d total := by
  have hlt : ∀ j, j * l.partSize < total → j < n := fun j hj =>
    Nat.lt_of_mul_lt_mul_right (Nat.lt_of_lt_of_le hj hn)
  exact ⟨fun j hj => (h j (hlt j hj)).1, fun j hj => (h j (hlt j hj)).2⟩

theorem SplitLayout.At.exists_openFile (h : l.At s d) {i : Nat} (ha : l.Addressable i)
    (hclear : s.entryAt (partBytes i :: d) ≠ some .directory) :
    ∃ x, s.openFile (l.partPath i) true = .ok x := by
  simp only [Store.openFile, h.resolve ha.1, bind, Except.bind, if_neg (Nat.not_lt.mpr ha.2),
    Bool.and_false]
  cases he : s.entryAt (partBytes i :: d) with
  | none => exact ⟨_, rfl⟩
  | some e =>
    cases e with
    | directory => exact absurd he hclear
    | file n => exact ⟨_, rfl⟩

namespace SplitSink

theorem exists_partAt (h : k.Opened s d) {i : Nat} (ha : k.layout.Addressable i)
    (hclear : s.entryAt (SplitLayout.partBytes i :: d) ≠ some .directory) :
    ∃ part s', k.partAt s i = .ok (part, s') := by
  obtain ⟨x, hx⟩ := h.here.exists_openFile ha hclear
  have hanew : partAt.openAnew k s i = .ok (⟨i, x.1⟩, x.2) := by
    simp only [partAt.openAnew, hx, bind, Except.bind, pure, Except.pure]
  unfold partAt
  split
  · split
    · exact ⟨_, _, rfl⟩
    · exact ⟨_, _, hanew⟩
  · exact ⟨_, _, hanew⟩

theorem writeFrom_ok (bytes : ByteArray) (pieces : Nat) {done offset : Nat} (h : k.Opened s d)
    (hfree : k.layout.Free s d total) (hpart : k.layout.partSize < lengthLimit)
    (hfit : total < Offset.limit) (hdone : done ≤ bytes.size)
    (hle : offset + (bytes.size - done) ≤ total) :
    (writeFrom bytes pieces done offset k s).1 = .ok () := by
  induction pieces generalizing k s done offset with
  | zero => rfl
  | succ pieces ih =>
    rw [writeFrom]
    split
    · rfl
    · rename_i hmore
      have hpos := k.layout.partSize_pos
      have hmod := Nat.mod_lt offset hpos
      have hstart : offset / k.layout.partSize * k.layout.partSize < total :=
        Nat.lt_of_le_of_lt (Nat.div_mul_le_self _ _) (by omega)
      obtain ⟨part, s₁, hpartAt⟩ :=
        exists_partAt h (hfree.addressable _ hstart) (hfree.clear _ hstart)
      simp only [SplitLayout.locate, hpartAt]
      generalize hsize :
        min (bytes.size - done) (k.layout.partSize - offset % k.layout.partSize) = size
      have hdata : (bytes.extract done (done + size)).size = size := by
        rw [ByteArray.size_extract]
        omega
      obtain ⟨s₂, hwrite⟩ : ∃ s₂, s₁.writeAt part.handle (offset % k.layout.partSize)
          (bytes.extract done (done + size)) = .ok s₂ := by
        rw [writeAt, hdata, if_neg (by omega), if_neg (by omega), if_neg (by omega)]
        exact ⟨_, rfl⟩
      have hshort : (bytes.extract done (done + size)).size ≤ size := Nat.le_of_eq hdata
      have hwrote := h.wrote_piece (by omega) hshort (by omega) hpartAt hwrite
      rw [hwrite, Offset.add_eq_ok (by omega)]
      exact ih hwrote.opened (hwrote.layout ▸ hfree.steady hwrote.steady) hpart (by omega) (by omega)

end SplitSink

theorem Sink.writable_split {p : SplitSink} (h : p.Opened s d) (hfree : p.layout.Free s d total)
    (hpart : p.layout.partSize < lengthLimit) (hfit : total < Offset.limit) :
    (⟨.split p, s⟩ : Sink).Writable total := by
  rintro ⟨output, s'⟩ hfollows offset data hle
  cases output with
  | direct f => exact hfollows.place.elim
  | split p' =>
    have hlayout : p'.layout = p.layout := hfollows.place
    obtain ⟨d', hopened⟩ := hfollows.sound ⟨d, h⟩
    have hsteady := hfollows.steady d h.here
    obtain rfl : d' = d := (hlayout ▸ hopened.here).inj (h.here.keeps hsteady.toKeeps)
    exact SplitSink.writeFrom_ok data data.size hopened (hlayout ▸ hfree.steady hsteady)
      (hlayout ▸ hpart) hfit (Nat.zero_le _) hle

end RangeTransfer
