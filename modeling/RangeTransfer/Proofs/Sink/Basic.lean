import RangeTransfer.Proofs.Sink.Split
import RangeTransfer.Sink.Basic
/-!
# What a sink does

A sink, single file or split directory, is seen through `byteAt`, the byte it holds at each absolute
offset. `Follows` says that a sink is still at its place after some writes, and that they stored
nothing behind the end of the object; `write_spec` is the one lemma about writes that the workers
need.
-/

namespace RangeTransfer.Sink
open Store

/-- The byte at an absolute offset of the object. -/
def byteAt (k : Sink) : Nat → Option UInt8 :=
  match k.output with
  | .direct d => (k.store.content d.handle).byteAt
  | .split p => byteOf p.layout.partSize (p.layout.part? k.store)

/-- The file that the sink has open is the one at its path; the directory is where it says. -/
def Sound (k : Sink) : Prop :=
  match k.output with
  | .direct d => k.store.WellFormed ∧ ∃ place, k.store.find d.path = .ok (place, .file d.handle.number)
  | .split p => ∃ d, p.Opened k.store d

/-- Nothing is stored at or behind the offset `total`. -/
def Within (total : Nat) (k : Sink) : Prop :=
  match k.output with
  | .direct d => (k.store.content d.handle).size ≤ total
  | .split p => p.layout.Within k.store total

/-- No file of the sink is as long as a file cannot be. -/
def Short (k : Sink) : Prop :=
  match k.output with
  | .direct d => (k.store.content d.handle).size < lengthLimit
  | .split p => p.layout.Short k.store

/-- Part `j` is longer than any part of an object is. -/
def Long (k : Sink) (j : Nat) : Prop :=
  match k.output with
  | .direct _ => False
  | .split p => p.layout.Long k.store j

/-- The sink can make a part of this number. -/
def Takes (k : Sink) (i : Nat) : Prop :=
  match k.output with
  | .direct _ => False
  | .split p => p.layout.Addressable i

/-- The parts of the sink, if it has parts, lie in the directory `d`. -/
def At (k : Sink) (d : Location) : Prop :=
  match k.output with
  | .direct _ => True
  | .split p => p.layout.At k.store d

/-- Both write to the same file, or to the same directory in parts of the same size. -/
def SamePlace (k k' : Sink) : Prop :=
  match k.output, k'.output with
  | .direct d, .direct d' => d' = d
  | .split p, .split p' => p'.layout = p.layout
  | _, _ => False

/-- `k'` is `k` after writes within an object of `total` bytes. -/
structure Follows (total : Nat) (k k' : Sink) : Prop where
  place : k.SamePlace k'
  steady : ∀ d, k.At d → k.store.Steady k.Takes d k'.store
  sound : k.Sound → k'.Sound
  within : k.Within total → k'.Within total
  short : k.Short → k'.Short
  long : k.Sound → ∀ j, k'.Long j ↔ k.Long j

variable {total : Nat} {k k' k'' : Sink}

theorem Follows.refl (total : Nat) (k : Sink) : k.Follows total k where
  place := by
    unfold SamePlace
    cases k.output <;> rfl
  steady d _ := Steady.refl _ d _
  sound := id
  within := id
  short := id
  long _ _ := Iff.rfl

theorem SamePlace.trans (h : k.SamePlace k') (h' : k'.SamePlace k'') : k.SamePlace k'' := by
  unfold SamePlace at *
  cases ho : k.output <;> cases ho' : k'.output <;> cases ho'' : k''.output <;>
    simp only [ho, ho', ho''] at h h' ⊢ <;> exact h'.trans h

theorem At.keeps {d : Location} (h : k.At d) (hk : k.SamePlace k') (hkeeps : k.store.Keeps k'.store) :
    k'.At d := by
  unfold At SamePlace at *
  cases ho : k.output <;> cases ho' : k'.output <;> simp only [ho, ho'] at h hk ⊢
  rw [hk]
  exact SplitLayout.At.keeps h hkeeps

theorem SamePlace.takes (h : k.SamePlace k') : k'.Takes = k.Takes := by
  unfold SamePlace at h
  funext i
  unfold Takes
  cases ho : k.output <;> cases ho' : k'.output <;> simp only [ho, ho'] at h ⊢
  rw [h]

theorem Follows.trans (h : k.Follows total k') (h' : k'.Follows total k'') :
    k.Follows total k'' where
  place := h.place.trans h'.place
  steady d hd := by
    have hnext := h'.steady d (hd.keeps h.place (h.steady d hd).toKeeps)
    rw [h.place.takes] at hnext
    exact (h.steady d hd).trans hnext
  sound := h'.sound ∘ h.sound
  within := h'.within ∘ h.within
  short := h'.short ∘ h.short
  long hs j := (h'.long (h.sound hs) j).trans (h.long hs j)

theorem Follows.keeps (h : k.Follows total k') (hs : k.Sound) : k.store.Keeps k'.store := by
  obtain ⟨output, s⟩ := k
  cases output with
  | direct d => exact (h.steady s.workingDirectory trivial).toKeeps
  | split p =>
    obtain ⟨d, hd⟩ := hs
    exact (h.steady d hd.here).toKeeps

/-- A write puts a first piece of the data, which is all of it if the write succeeds. -/
theorem write_spec (h : k.Sound) {offset : Nat} {data : ByteArray}
    (hle : offset + data.size ≤ total) :
    ∃ m r k', k.write offset data = (r, k') ∧ m ≤ data.size ∧ (r = .ok () → m = data.size) ∧
      k.Follows total k' ∧ Puts k.byteAt k'.byteAt offset (data.extract 0 m) := by
  obtain ⟨output, s⟩ := k
  cases output with
  | direct d =>
    obtain ⟨hs, place, hfind⟩ := h
    unfold write
    simp only [DirectSink.write, atPath]
    cases hwrite : s.writeAt d.handle offset data with
    | error e =>
      refine ⟨0, _, _, rfl, Nat.zero_le _, nofun, Follows.refl _ _, Puts.refl_of_empty ?_⟩
      rw [ByteArray.size_extract]
      omega
    | ok s₁ =>
      obtain ⟨hlimit, hcontents, hentries, hworking, hnext⟩ := writeAt_eq_ok hwrite
      have hcontent : s₁.content d.handle = (s.content d.handle).write offset data := by
        rw [hcontents, if_pos rfl]
      refine ⟨data.size, _, _, rfl, Nat.le_refl _, fun _ => rfl,
        ⟨rfl, fun d _ => steady_of_entries _ d hworking hentries, fun _ =>
          ⟨hs.of_entries hworking hentries hnext, place, ?_⟩, fun hw => ?_, fun hw => ?_,
          fun _ _ => Iff.rfl⟩, ?_⟩
      · rw [find_congr hworking hentries]
        exact hfind
      · show (s₁.content d.handle).size ≤ total
        rw [hcontent]
        exact Content.size_write_le hw fun _ => hle
      · show (s₁.content d.handle).size < lengthLimit
        have hw : (s.content d.handle).size < lengthLimit := hw
        rw [hcontent]
        exact Nat.lt_of_le_pred (Nat.zero_lt_of_lt hw) (Content.size_write_le (Nat.le_pred_of_lt hw)
          fun hsome => Nat.le_pred_of_lt (hlimit hsome))
      · rw [ByteArray.extract_zero_size]
        show Puts (s.content d.handle).byteAt (s₁.content d.handle).byteAt offset data
        rw [hcontent]
        exact Content.puts_write _ _ _
  | split p =>
    obtain ⟨d, hd⟩ := h
    obtain ⟨m, r, p', s', heq, hm, hall, hwrote⟩ := p.write_spec hd offset data
    refine ⟨m, r, ⟨.split p', s'⟩, ?_, hm, hall, ⟨hwrote.layout, fun d' hd' => ?_,
      fun _ => ⟨d, hwrote.opened⟩, fun hw => ?_, fun hw => ?_, fun _ j => ?_⟩, ?_⟩
    · unfold write
      simp only [heq]
    · rw [SplitLayout.At.inj hd' hd.here]
      exact hwrote.steady
    · show p'.layout.Within s' total
      rw [hwrote.layout]
      exact hwrote.within (by rw [ByteArray.size_extract]; omega) hle hw
    · show p'.layout.Short s'
      rw [hwrote.layout]
      exact hwrote.short hw
    · show p'.layout.Long s' j ↔ p.layout.Long s j
      rw [hwrote.layout]
      exact hwrote.long j
    · show Puts _ (byteOf p'.layout.partSize (p'.layout.part? s')) _ _
      rw [hwrote.layout]
      exact hwrote.put.puts p.layout.partSize_pos

end RangeTransfer.Sink
