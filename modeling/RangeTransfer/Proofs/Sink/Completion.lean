import RangeTransfer.Proofs.Sink.Good
import RangeTransfer.Proofs.Sink.Refinement
/-!
# Completing an object

Writes complete an object in a sink if each of them writes bytes of the object at their place, and none
of its bytes is missing after them (`Completes`). The files then hold the object, and what was in them
before behind its end, in holes between parts or past the length of a part. So all ways to complete the
object leave the same bytes in the same files (`disk_eq_of_completes`).
-/

namespace RangeTransfer
open Store

/-! ## Where no byte of the object goes -/

/-- The parts of `s'` are those of `s` where no byte of an object of `total` bytes stands, and none of them
is gone. -/
structure SplitLayout.Spares (l : SplitLayout) (total : Nat) (s s' : Store) : Prop where
  there : ∀ j, l.part? s j ≠ none → l.part? s' j ≠ none
  behind : ∀ j, total ≤ j * l.partSize → l.part? s' j = l.part? s j
  beyond : ∀ j i, l.partSize ≤ i → (l.part? s' j).bind (·.byteAt i) = (l.part? s j).bind (·.byteAt i)

theorem SplitLayout.Spares.refl (l : SplitLayout) (total : Nat) (s : Store) : l.Spares total s s :=
  ⟨fun _ => id, fun _ _ => rfl, fun _ _ _ => rfl⟩

theorem SplitLayout.Spares.trans {l : SplitLayout} {total : Nat} {s s' s'' : Store}
    (h : l.Spares total s s') (h' : l.Spares total s' s'') : l.Spares total s s'' where
  there j := h'.there j ∘ h.there j
  behind j hj := (h'.behind j hj).trans (h.behind j hj)
  beyond j i hi := (h'.beyond j i hi).trans (h.beyond j i hi)

theorem Content.bytes_congr {c c' : Content} (h : ∀ i, c.byteAt i = c'.byteAt i) : c.bytes = c'.bytes :=
  ByteArray.ext (Array.ext_getElem? fun i => by rw [← byteAt_eq_bytes, ← byteAt_eq_bytes, h])

theorem SplitLayout.Spares.bytes_eq {l : SplitLayout} {total : Nat} {s s₁ s₂ : Store}
    (h₁ : l.Spares total s s₁) (h₂ : l.Spares total s s₂)
    (hbyte : ∀ o, byteOf l.partSize (l.part? s₁) o = byteOf l.partSize (l.part? s₂) o)
    (hthere : ∀ o < total, byteOf l.partSize (l.part? s₁) o ≠ none) (j : Nat) :
    (l.part? s₁ j).map Content.bytes = (l.part? s₂ j).map Content.bytes := by
  by_cases hj : j * l.partSize < total
  · have hinside (i : Nat) : (l.part? s₁ j).bind (·.byteAt i) = (l.part? s₂ j).bind (·.byteAt i) := by
      by_cases hi : i < l.partSize
      · rw [← byteOf_at hi, hbyte, byteOf_at hi]
      · rw [h₁.beyond j i (Nat.not_lt.mp hi), h₂.beyond j i (Nat.not_lt.mp hi)]
    -- the part has its first byte, in both
    have hfirst := hthere _ hj
    rw [← Nat.add_zero (j * l.partSize), byteOf_at l.partSize_pos] at hfirst
    have hfirst' := hfirst
    rw [hinside] at hfirst'
    cases hp : l.part? s₁ j with
    | none => exact absurd (by rw [hp]; rfl) hfirst
    | some c =>
      cases hp' : l.part? s₂ j with
      | none => exact absurd (by rw [hp']; rfl) hfirst'
      | some c' =>
        simp only [hp, hp', Option.bind_some] at hinside
        simp only [Option.map_some, Content.bytes_congr hinside]
  · rw [h₁.behind j (Nat.not_lt.mp hj), h₂.behind j (Nat.not_lt.mp hj)]

namespace PutParts

variable {ps offset : Nat} {parts parts' : Nat → Option Content} {data : ByteArray}

theorem there (h : PutParts ps parts parts' offset data) {j : Nat} (hj : parts j ≠ none) :
    parts' j ≠ none := by
  have hpart := h j
  split at hpart
  · rw [hpart]
    nofun
  · rcases hpart with heq | ⟨hnone, -⟩
    · rwa [heq]
    · exact absurd hnone hj

theorem byteAt_of_le (h : PutParts ps parts parts' offset data) (j : Nat) {i : Nat} (hi : ps ≤ i) :
    (parts' j).bind (·.byteAt i) = (parts j).bind (·.byteAt i) := by
  have hpart := h j
  rw [Nat.succ_mul] at hpart
  split at hpart
  · rename_i hreach
    have hput := Content.puts_write ((parts j).getD .empty) (max offset (j * ps) - j * ps)
      (data.extract (max offset (j * ps) - offset) (min (offset + data.size) (j * ps + ps) - offset)) i
    rw [ByteArray.size_extract, if_neg (by omega)] at hput
    rw [hpart, Option.bind_some, hput.resolve_right fun hgap => by omega]
    cases parts j with
    | none => exact Content.byteAt_empty i
    | some c => rfl
  · rcases hpart with heq | ⟨hnone, hempty⟩
    · rw [heq]
    · rw [hnone, hempty]
      exact Content.byteAt_empty i

end PutParts

theorem SplitSink.Wrote.spares {k k' : SplitSink} {s s' : Store} {d : Location} {offset size total : Nat}
    {data : ByteArray} (h : k.Wrote s k' s' d offset size data) (hle : offset + size ≤ total) :
    k.layout.Spares total s s' where
  there _ := h.put.there
  behind j hj := h.unreached j (Or.inr (Nat.le_trans hle hj))
  beyond j _ := h.put.byteAt_of_le j

namespace Sink

theorem SamePlace.direct {d : DirectSink} {s : Store} {k' : Sink}
    (h : SamePlace ⟨.direct d, s⟩ k') : ∃ s', k' = ⟨.direct d, s'⟩ := by
  obtain ⟨output, s'⟩ := k'
  cases output with
  | direct d' => exact ⟨s', by rw [show d' = d from h]⟩
  | split p => exact h.elim

theorem SamePlace.split {p : SplitSink} {s : Store} {k' : Sink} (h : SamePlace ⟨.split p, s⟩ k') :
    ∃ p' s', k' = ⟨.split p', s'⟩ ∧ p'.layout = p.layout := by
  obtain ⟨output, s'⟩ := k'
  cases output with
  | direct d => exact h.elim
  | split p' => exact ⟨p', s', rfl, h⟩

/-- What the writes leave of the parts of `k`, if it has parts. -/
def Spares (total : Nat) (k k' : Sink) : Prop :=
  match k.output with
  | .direct _ => True
  | .split p => p.layout.Spares total k.store k'.store

theorem write_spares {k k' : Sink} (h : k.Sound) {offset total : Nat} {data : ByteArray}
    {r : Except Halt Unit} (hle : offset + data.size ≤ total) (hwrite : k.write offset data = (r, k')) :
    k.Spares total k' := by
  obtain ⟨output, s⟩ := k
  cases output with
  | direct d => trivial
  | split p =>
    obtain ⟨d, hd⟩ := h
    obtain ⟨m, r', p', s', heq, -, -, hwrote⟩ := p.write_spec hd offset data
    simp only [write, heq] at hwrite
    cases hwrite
    exact hwrote.spares hle

theorem Spares.trans {total : Nat} {k k' k'' : Sink} (hplace : k.SamePlace k') (h : k.Spares total k')
    (h' : k'.Spares total k'') : k.Spares total k'' := by
  unfold Spares SamePlace at *
  cases ho : k.output <;> cases ho' : k'.output <;> simp only [ho, ho'] at h h' hplace ⊢
  rw [hplace] at h'
  exact h.trans h'

theorem writeAll_spares {total : Nat} {k k' : Sink} {writes : List (Nat × ByteArray)} (h : k.Sound)
    (hle : ∀ w ∈ writes, w.1 + w.2.size ≤ total) (hok : k.writeAll writes = (.ok (), k')) :
    k.Spares total k' := by
  induction writes generalizing k with
  | nil =>
    cases hok
    unfold Spares
    split
    · trivial
    · exact SplitLayout.Spares.refl _ _ _
  | cons w writes ih =>
    obtain ⟨m, r, k₁, hwrite, -, -, hfollows, -⟩ := write_spec h (hle w List.mem_cons_self)
    have hspares := write_spares h (hle w List.mem_cons_self) hwrite
    rw [writeAll] at hok
    simp only [hwrite] at hok
    cases r with
    | error halt => cases hok
    | ok _ =>
      exact hspares.trans hfollows.place
        (ih (hfollows.sound h) (fun v hv => hle v (List.mem_cons_of_mem _ hv)) hok)

theorem writeAll_append {k k₁ : Sink} {ws : List (Nat × ByteArray)} (h : k.writeAll ws = (.ok (), k₁))
    (vs : List (Nat × ByteArray)) : k.writeAll (ws ++ vs) = k₁.writeAll vs := by
  induction ws generalizing k with
  | nil =>
    cases h
    rfl
  | cons w ws ih =>
    rw [writeAll] at h
    rw [List.cons_append, writeAll]
    cases hwrite : k.write w.1 w.2 with
    | mk r k₂ =>
      simp only [hwrite] at h ⊢
      cases r with
      | error halt => cases h
      | ok _ => exact ih h

/-! ## Bytes of the object -/

section Puts

variable {v v' : Nat → Option UInt8} {writes : List (Nat × ByteArray)} {object : ByteArray} {o : Nat}

theorem PutsAll.isByte (h : PutsAll v v' writes) (hgood : ∀ w ∈ writes, GoodAt (IsByte object) w.1 w.2)
    (ho : Written writes o ∨ ∃ b, v o = some b ∧ IsByte object o b) :
    ∃ b, v' o = some b ∧ IsByte object o b := by
  induction h with
  | nil v => exact ho.resolve_left fun ⟨w, hw, _⟩ => by cases hw
  | @cons v v₁ v' w writes hfirst hrest ih =>
    have hw := hgood w List.mem_cons_self
    refine ih (fun u hu => hgood u (List.mem_cons_of_mem _ hu)) ?_
    rcases ho with hwritten | ⟨b, hb, hright⟩
    · rcases written_cons.mp hwritten with ⟨hlow, hhigh⟩ | hlater
      · exact Or.inr (hfirst.agrees hw o hlow hhigh)
      · exact Or.inl hlater
    · exact Or.inr (hfirst.keepsGood hw o b hb hright)

theorem PutsAll.behind (h : PutsAll v v' writes) (hle : ∀ w ∈ writes, w.1 + w.2.size ≤ o) : v' o = v o := by
  induction h with
  | nil v => rfl
  | @cons v v₁ v' w writes hfirst hrest ih =>
    have hw := hle w List.mem_cons_self
    have hput := hfirst o
    rw [if_neg (by omega)] at hput
    rw [ih fun u hu => hle u (List.mem_cons_of_mem _ hu)]
    exact hput.resolve_right fun hgap => by omega

end Puts

variable {k k' : Sink} {object : ByteArray} {writes : List (Nat × ByteArray)}

/-- The writes put bytes of the object at their place, and with those that are there none is missing. -/
structure Completes (object : ByteArray) (k : Sink) (writes : List (Nat × ByteArray)) : Prop where
  good : ∀ w ∈ writes, GoodAt (IsByte object) w.1 w.2
  within : ∀ w ∈ writes, w.1 + w.2.size ≤ object.size
  covers : ∀ o < object.size, Written writes o ∨ ∃ b, k.byteAt o = some b ∧ IsByte object o b

theorem byteAt_of_completes (h : k.Sound) (hcompletes : Completes object k writes)
    (hok : k.writeAll writes = (.ok (), k')) (o : Nat) :
    k'.byteAt o = if o < object.size then object.data[o]? else k.byteAt o := by
  obtain ⟨-, hputs⟩ := writeAll_spec h hcompletes.within hok
  split
  · rename_i hlt
    obtain ⟨b, hb, hright⟩ := hputs.isByte hcompletes.good (hcompletes.covers o hlt)
    exact hb.trans hright.symm
  · rename_i hge
    exact hputs.behind fun w hw => Nat.le_trans (hcompletes.within w hw) (Nat.not_lt.mp hge)

/-- The bytes in each file of the sink: the parts by their numbers, or the one file, of number zero. -/
def disk (k : Sink) : Nat → Option ByteArray :=
  match k.output with
  | .direct d => fun j => if j = 0 then some (k.store.content d.handle).bytes else none
  | .split p => fun j => (p.layout.part? k.store j).map Content.bytes

theorem disk_eq_of_completes {ws vs : List (Nat × ByteArray)} {kw kv : Sink} (h : k.Sound)
    (hws : Completes object k ws) (hvs : Completes object k vs) (hkw : k.writeAll ws = (.ok (), kw))
    (hkv : k.writeAll vs = (.ok (), kv)) : kw.disk = kv.disk := by
  have hbyte (o : Nat) : kw.byteAt o = kv.byteAt o :=
    (byteAt_of_completes h hws hkw o).trans (byteAt_of_completes h hvs hkv o).symm
  have hthere (o : Nat) (ho : o < object.size) : kw.byteAt o ≠ none := by
    rw [byteAt_of_completes h hws hkw, if_pos ho,
      Array.getElem?_eq_getElem (by rwa [ByteArray.size_data])]
    nofun
  have hplacew := (writeAll_spec h hws.within hkw).1.place
  have hplacev := (writeAll_spec h hvs.within hkv).1.place
  have hsparesw := writeAll_spares h hws.within hkw
  have hsparesv := writeAll_spares h hvs.within hkv
  obtain ⟨output, s⟩ := k
  funext j
  cases output with
  | direct d =>
    obtain ⟨sw, rfl⟩ := hplacew.direct
    obtain ⟨sv, rfl⟩ := hplacev.direct
    simp only [disk, Content.bytes_congr hbyte]
  | split p =>
    obtain ⟨pw, sw, rfl, hw⟩ := hplacew.split
    obtain ⟨pv, sv, rfl, hv⟩ := hplacev.split
    simp only [byteAt, hw, hv] at hbyte hthere
    simp only [disk, hw, hv]
    exact hsparesw.bytes_eq hsparesv hbyte hthere j

end Sink

end RangeTransfer
