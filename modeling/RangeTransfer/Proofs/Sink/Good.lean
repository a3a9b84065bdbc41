import RangeTransfer.Proofs.Sink.Puts
/-!
# Good bytes

`good o b` says that `b` is a byte that may stand at offset `o` of the object. What a view has of
good bytes (`Agrees`) stays when good bytes are put into it (`Puts.keepsGood`, `Puts.agrees`). The
bytes of an object are good by `IsByte`; with every byte good, `Agrees` says that the bytes are
there at all.
-/

namespace RangeTransfer

/-- The bytes of `data`, put at `offset`, are good. -/
def GoodAt (good : Nat → UInt8 → Prop) (offset : Nat) (data : ByteArray) : Prop :=
  ∀ i b, data.data[i]? = some b → good (offset + i) b

/-- `b` is the byte of the object at offset `o`. -/
def IsByte (object : ByteArray) (o : Nat) (b : UInt8) : Prop := object.data[o]? = some b

/-- The bytes of `v` from `a` to `b` are there and good. -/
def Agrees (good : Nat → UInt8 → Prop) (v : Nat → Option UInt8) (a b : Nat) : Prop :=
  ∀ o, a ≤ o → o < b → ∃ x, v o = some x ∧ good o x

/-- Every good byte of `v` is still there in `v'`, or another good one. -/
def KeepsGood (good : Nat → UInt8 → Prop) (v v' : Nat → Option UInt8) : Prop :=
  ∀ o x, v o = some x → good o x → ∃ x', v' o = some x' ∧ good o x'

variable {good : Nat → UInt8 → Prop} {v v' v'' : Nat → Option UInt8} {a b : Nat}

theorem KeepsGood.refl (good : Nat → UInt8 → Prop) (v : Nat → Option UInt8) : KeepsGood good v v :=
  fun _ x hv hx => ⟨x, hv, hx⟩

theorem KeepsGood.trans (h : KeepsGood good v v') (h' : KeepsGood good v' v'') :
    KeepsGood good v v'' := fun o x hv hx => by
  obtain ⟨x', hv', hx'⟩ := h o x hv hx
  exact h' o x' hv' hx'

theorem Agrees.keeps (h : Agrees good v a b) (hkeeps : KeepsGood good v v') : Agrees good v' a b :=
  fun o ha hb => by
    obtain ⟨x, hv, hx⟩ := h o ha hb
    exact hkeeps o x hv hx

theorem Agrees.mono {a' b' : Nat} (h : Agrees good v a b) (ha : a ≤ a') (hb : b' ≤ b) :
    Agrees good v a' b' := fun o h₁ h₂ => h o (by omega) (by omega)

theorem GoodAt.extract {data : ByteArray} (h : GoodAt good a data) (n : Nat) :
    GoodAt good a (data.extract 0 n) := fun i x hx => by
  refine h i x ?_
  rw [ByteArray.data_extract, Array.getElem?_extract, Nat.zero_add] at hx
  split at hx
  · exact hx
  · cases hx

theorem Puts.keepsGood {data : ByteArray} (hgood : GoodAt good a data) (h : Puts v v' a data) :
    KeepsGood good v v' := by
  intro o x hv hx
  have hput := h o
  split at hput
  · rename_i hin
    have hlt : o - a < data.data.size := by rw [ByteArray.size_data]; omega
    rw [Array.getElem?_eq_getElem hlt] at hput
    have := hgood (o - a) _ (Array.getElem?_eq_getElem hlt)
    rw [Nat.add_sub_cancel' hin.1] at this
    exact ⟨_, hput, this⟩
  · rcases hput with heq | ⟨hnone, -⟩
    · exact ⟨x, heq.trans hv, hx⟩
    · rw [hnone] at hv
      cases hv

theorem Puts.agrees {data : ByteArray} (hgood : GoodAt good a data) (h : Puts v v' a data) :
    Agrees good v' a (a + data.size) := by
  intro o ha hb
  have hput := h o
  have hlt : o - a < data.data.size := by rw [ByteArray.size_data]; omega
  rw [if_pos ⟨ha, hb⟩, Array.getElem?_eq_getElem hlt] at hput
  have := hgood (o - a) _ (Array.getElem?_eq_getElem hlt)
  rw [Nat.add_sub_cancel' ha] at this
  exact ⟨_, hput, this⟩

theorem goodAt_extract (object : ByteArray) (a b : Nat) :
    GoodAt (IsByte object) a (object.extract a b) := fun i x hx => by
  rw [ByteArray.data_extract, Array.getElem?_extract] at hx
  split at hx
  · exact hx
  · cases hx

theorem Content.bytes_eq_extract {c : Content} {object : ByteArray} {a b : Nat}
    (hsize : c.size = b - a) (hle : b ≤ object.size)
    (hright : ∀ i < c.size, ∃ x, c.byteAt i = some x ∧ IsByte object (a + i) x) :
    c.bytes = object.extract a b := by
  have hextract : (object.extract a b).size = c.size := by
    rw [ByteArray.size_extract]
    omega
  refine Content.bytes_eq hextract.symm fun i hi => ?_
  rw [hextract] at hi
  obtain ⟨x, hx, hgood⟩ := hright i hi
  rw [hx, ByteArray.data_extract, Array.getElem?_extract, ByteArray.size_data, if_pos (by omega)]
  exact hgood.symm

end RangeTransfer
