import RangeTransfer.Proofs.Transfer.OnDisk
import RangeTransfer.Proofs.Transfer.Schedules
/-!
# An object that has been begun

A download may start where nothing is, or where the first bytes of the object are and nothing else:
a file that is too short, or a directory of whole parts (`Placement.Begun`). The attempt resumes at
the end of these bytes (`Begun.resumes`), and its open sink has them and nothing behind the end of
the object (`Begun.opened`).
-/

namespace RangeTransfer
open Store

namespace SplitLayout

variable {l : SplitLayout} {s s' : Store} {object : ByteArray} {n : Nat}

/-- The parts are those that the first `n` bytes of the object fill, and there are no others. -/
def Leading (l : SplitLayout) (s : Store) (object : ByteArray) (n : Nat) : Prop :=
  ∀ j, (l.part? s j).map Content.bytes =
    if j * l.partSize < n then some (object.extract (j * l.partSize) (min ((j + 1) * l.partSize) n))
    else none

theorem leading_zero (h : ∀ j, l.part? s j = none) : l.Leading s object 0 := fun j => by
  rw [h, if_neg (Nat.not_lt_zero _)]
  rfl

namespace Leading

theorem part (h : l.Leading s object n) (hle : n ≤ object.size) {j : Nat} {c : Content}
    (hc : l.part? s j = some c) : j * l.partSize < n ∧
      c.bytes = object.extract (j * l.partSize) (min ((j + 1) * l.partSize) n) ∧
      c.size = min (n - j * l.partSize) l.partSize := by
  have hj := h j
  rw [hc, Option.map_some] at hj
  split at hj
  · rename_i hlt
    have hbytes := Option.some.inj hj
    refine ⟨hlt, hbytes, ?_⟩
    rw [← size_bytes, hbytes, ByteArray.size_extract, Nat.succ_mul]
    omega
  · cases hj

theorem exists_part (h : l.Leading s object n) {j : Nat} (hj : j * l.partSize < n) :
    ∃ c, l.part? s j = some c := by
  have hpart := h j
  rw [if_pos hj] at hpart
  obtain ⟨c, hc, -⟩ := Option.map_eq_some_iff.mp hpart
  exact ⟨c, hc⟩

theorem within (h : l.Leading s object n) (hle : n ≤ object.size) : l.Within s object.size := by
  intro j c hc
  obtain ⟨hlt, -, hsize⟩ := h.part hle hc
  omega

theorem agrees (h : l.Leading s object n) (hle : n ≤ object.size) :
    Agrees (IsByte object) (byteOf l.partSize (l.part? s)) 0 n := by
  intro o _ ho
  have hpos := l.partSize_pos
  have hdiv := Nat.div_add_mod o l.partSize
  have hmod := Nat.mod_lt o hpos
  rw [Nat.mul_comm] at hdiv
  obtain ⟨c, hc⟩ := h.exists_part (j := o / l.partSize) (by omega)
  obtain ⟨-, hbytes, -⟩ := h.part hle hc
  have hsize : o < object.data.size := by rw [ByteArray.size_data]; omega
  refine ⟨object.data[o], ?_, Array.getElem?_eq_getElem hsize⟩
  rw [byteOf, hc, Option.bind_some, Content.byteAt_eq_bytes, hbytes, ByteArray.data_extract,
    Array.getElem?_extract, ByteArray.size_data, Nat.succ_mul, if_pos (by omega), hdiv]
  exact Array.getElem?_eq_getElem hsize

theorem partComplete_iff (h : l.Leading s object n) (hlt : n < object.size)
    (hfit : object.size < Offset.limit) {m : Nat} (hm : n = m * l.partSize) {j : Nat} :
    l.partComplete s object.size j = true ↔ j < m := by
  have hpos := l.partSize_pos
  rw [SplitLayout.partComplete_iff, ← Nat.mul_lt_mul_right hpos, ← hm]
  constructor
  · rintro ⟨c, hc, -⟩
    exact (h.part (Nat.le_of_lt hlt) hc).1
  · intro hj
    obtain ⟨c, hc⟩ := h.exists_part hj
    have hsize := (h.part (Nat.le_of_lt hlt) hc).2.2
    have hwhole : (j + 1) * l.partSize ≤ n := by
      rw [hm] at hj ⊢
      exact Nat.mul_le_mul_right _ (Nat.lt_of_mul_lt_mul_right hj)
    rw [Nat.succ_mul] at hwhole
    refine ⟨c, hc, ?_⟩
    rw [expectedLength_eq (by omega) hfit]
    omega

theorem existingSize (h : l.Leading s object n) (hlt : n < object.size)
    (hfit : object.size < Offset.limit) {m : Nat} (hm : n = m * l.partSize) :
    l.existingSize s object.size = .ok n := by
  have hall := fun j => h.partComplete_iff hlt hfit hm (j := j)
  have hcount : l.existingPartCount s object.size ≤ m := Nat.le_of_not_lt fun hmore => by
    have hm' := (l.existingPartCount_spec s object.size).2.1 m hmore
    rw [hall] at hm'
    exact Nat.lt_irrefl m hm'
  have hsmall : l.existingPartCount s object.size * l.partSize < Offset.limit :=
    Nat.lt_of_le_of_lt (Nat.mul_le_mul_right _ hcount) (by omega)
  obtain ⟨resume, hresume⟩ := exists_existingSize_of_lt hsmall
  obtain ⟨k, hk, rfl, hbelow, hstop⟩ := existingSize_spec hresume
  have hkm : k = m := by
    refine Nat.le_antisymm (Nat.le_of_not_lt fun hmore => ?_) (Nat.le_of_not_lt fun hless => ?_)
    · exact Nat.lt_irrefl m ((hall m).mp (hbelow m hmore))
    · have hcut := Nat.mul_le_mul_right l.partSize (Nat.le_of_lt hless)
      have := hstop (lt_partCount.mpr (by omega))
      rw [(hall k).mpr hless] at this
      cases this
  rw [hresume, hkm, ← hm, Nat.min_eq_left (Nat.le_of_lt hlt)]

end Leading

end SplitLayout

namespace Placement

variable {p : Placement} {k : Sink} {s s' : Store} {object : ByteArray} {n : Nat}

/-- At the place are the first `n` bytes of the object and nothing else: a file of just these bytes,
or a directory with just the parts that they fill. -/
def HoldsFirst (p : Placement) (s : Store) (object : ByteArray) (n : Nat) : Prop :=
  match p with
  | direct path _ => (s.file? path).map Content.bytes = some (object.extract 0 n)
  | split l _ => l.Made s ∧ l.Leading s object n

/-- A download that has not come to the end of the object: nothing is at the place, or a file with
the bytes below the resume offset, or a directory with the whole parts below it. -/
structure Begun (p : Placement) (s : Store) (object : ByteArray) : Prop where
  proper : p.resume < object.size
  held : p.resume = 0 ∧ p.Absent s ∨ p.restart p.resume = p.resume ∧ p.HoldsFirst s object p.resume

/-- The storage works for an object of `size` bytes: a sink can be opened at the place, and it takes
every write within the object. -/
def Works (p : Placement) (s : Store) (size : Nat) : Prop :=
  ∀ kind, ∃ k s', p.openSink s kind size = (.ok k, s') ∧ k.Writable size

theorem Begun.leading {l : SplitLayout} {resume : Nat} (h : (split l resume).Begun s object) :
    l.Leading s object resume ∧ resume = resume / l.partSize * l.partSize := by
  rcases h.held with ⟨hzero, hne, habsent⟩ | ⟨hborder, -, hleading⟩
  · obtain rfl : resume = 0 := hzero
    exact ⟨SplitLayout.leading_zero (SplitLayout.part?_of_absent hne habsent),
      by rw [Nat.zero_div, Nat.zero_mul]⟩
  · exact ⟨hleading, hborder.symm⟩

theorem Begun.file {path : Path} {resume : Nat} (h : (direct path resume).Begun s object) :
    resume = 0 ∧ s.pathExists path = false ∨ ∃ place fd, s.find path = .ok (place, .file fd) ∧
      (s.content ⟨fd⟩).bytes = object.extract 0 resume ∧ (s.content ⟨fd⟩).size = resume := by
  refine h.held.imp id fun hheld => ?_
  obtain ⟨c, hc, hbytes⟩ := Option.map_eq_some_iff.mp hheld.2
  obtain ⟨place, fd, hfind, rfl⟩ := file?_eq_some hc
  have hlt : resume < object.size := h.proper
  have hbytes : (s.content ⟨fd⟩).bytes = object.extract 0 resume := hbytes
  refine ⟨place, fd, hfind, hbytes, ?_⟩
  rw [← SplitLayout.size_bytes, hbytes, ByteArray.size_extract]
  omega

theorem Begun.resumes (h : p.Begun s object) (hfit : object.size < Offset.limit) :
    p.Resumes s object.size := by
  cases p with
  | direct path resume =>
    show resume = s.directResume path object.size
    rcases h.file with ⟨rfl, hnone⟩ | ⟨place, fd, hfind, -, hsize⟩
    · rw [pathExists] at hnone
      rw [directResume, reportedSize?]
      cases hfind : s.find path with
      | error e => exact (ite_self 0).symm
      | ok found =>
        rw [hfind] at hnone
        cases hnone
    · have hlt : (s.content ⟨fd⟩).size < object.size := by
        rw [hsize]
        exact h.proper
      rw [directResume_of_find hfind hlt, hsize]
  | split l resume =>
    obtain ⟨hleading, hborder⟩ := h.leading
    exact hleading.existingSize h.proper hfit hborder

theorem Begun.agrees (h : p.Begun s object) :
    Agrees (IsByte object) (p.byteAt s) 0 p.resume := by
  have hlt := h.proper
  cases p with
  | direct path resume =>
    intro o _ ho
    have hlt : resume < object.size := hlt
    have ho : o < resume := ho
    rcases h.file with ⟨rfl, -⟩ | ⟨place, fd, hfind, hbytes, -⟩
    · exact absurd ho (Nat.not_lt_zero o)
    · have hin : o < object.data.size := by rw [ByteArray.size_data]; omega
      refine ⟨object.data[o], ?_, Array.getElem?_eq_getElem hin⟩
      show (s.file? path).bind (·.byteAt o) = _
      rw [file?_of_find (h := ⟨fd⟩) hfind, Option.bind_some, Content.byteAt_eq_bytes, hbytes,
        ByteArray.data_extract, Array.getElem?_extract, ByteArray.size_data, if_pos (by omega),
        Nat.zero_add]
      exact Array.getElem?_eq_getElem hin
  | split l resume => exact h.leading.1.agrees (Nat.le_of_lt hlt)

theorem Begun.leading_claimed {l : SplitLayout} {resume : Nat}
    (h : (split l resume).Begun s object) (hs : s.WellFormed) (hroot : s.Rooted l.directory)
    (hclaim : l.claimDirectory s = (.ok (), s')) : l.Leading s' object resume := by
  rcases h.held with ⟨hzero, hne, habsent⟩ | ⟨-, hmade, hleading⟩
  · obtain rfl : resume = 0 := hzero
    rcases SplitLayout.claimDirectory_of_absent hs hroot hne habsent hclaim with
      ⟨-, e, he⟩ | ⟨-, hgrows, -, d, hd, -, hempty⟩
    · cases he
    · exact SplitLayout.leading_zero fun j => (part?_of_empty hgrows hd hempty j).1
  · rw [SplitLayout.claimDirectory_of_made hmade] at hclaim
    cases hclaim
    exact hleading

/-- A sink that was opened where an object was begun has the beginning, and nothing behind the end
of the object. -/
theorem Begun.opened {kind : StrategyKind} (h : p.Begun s object) (hs : s.WellFormed)
    (hroot : s.Rooted p.path) (hopen : p.openSink s kind object.size = (.ok k, s')) :
    p.Of k ∧ k.Sound ∧ k.Within object.size ∧ Agrees (IsByte object) k.byteAt 0 p.resume := by
  obtain ⟨hstore, hof, hsound, -⟩ := openSink_spec hs hopen
  have hle := Nat.le_of_lt h.proper
  refine ⟨hof, hsound, within_openSink hs hopen hle ?_, agrees_openSink hs hopen h.agrees⟩
  rw [hstore]
  cases p with
  | direct path resume => trivial
  | split l resume =>
    obtain ⟨s₁, hclaim, -, -, -, -, hcut, -⟩ := openSink_split hs hopen
    exact hcut.within hle ((h.leading_claimed hs hroot hclaim).within hle)

theorem holdsFirst_whole (hof : p.Of k) (hs : k.Sound) (hpos : 0 < object.size)
    (hwithin : k.Within object.size) (hright : Agrees (IsByte object) k.byteAt 0 object.size)
    (fault : Option StorageError) : p.HoldsFirst (k.tryFlush fault).2.store object object.size := by
  have halike := Sink.alike_tryFlush k fault
  cases p with
  | direct path resume => exact holdsJust_whole hof hs hwithin hright fault
  | split layout resume =>
    obtain ⟨output, s⟩ := k
    cases output with
    | direct d => exact hof.elim
    | split q =>
      obtain rfl : q.layout = layout := hof
      have hleading :
          q.layout.Leading (Sink.tryFlush ⟨.split q, s⟩ fault).2.store object object.size := by
        intro j
        rw [halike.part?]
        split
        · rename_i hlt
          exact SplitLayout.exact_part hwithin hright hlt
        · rename_i hend
          cases hc : q.layout.part? s j with
          | none => rfl
          | some c => exact absurd (hwithin j c hc).1 hend
      obtain ⟨c, hc⟩ := hleading.exists_part (j := 0) (by rwa [Nat.zero_mul])
      exact ⟨SplitLayout.made_of_part hc, hleading⟩

end Placement

end RangeTransfer
