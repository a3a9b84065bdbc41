import RangeTransfer.Proofs.Transfer.DirectCheckpoint
import RangeTransfer.Proofs.Transfer.Resumption
/-!
# Bytes that stay on disk

At a ready place the bytes below the resume offset are right (`Ready.agrees`), and they stay at every
moment of opening a sink there (`Ready.agrees_opening`); those below the cut stay at every moment of
a trim (`Open.agrees_trimming`). An attempt takes up whatever whole parts are right
(`Ready.restart_le`).
-/

namespace RangeTransfer
open Store

theorem SplitLayout.mul_le_existingSize {l : SplitLayout} {s : Store}
    {good : Nat → UInt8 → Prop} {q total resume : Nat} (hwithin : l.Within s total)
    (hfit : total < Offset.limit) (hle : q * l.partSize ≤ total)
    (hright : Agrees good (byteOf l.partSize (l.part? s)) 0 (q * l.partSize))
    (hresume : l.existingSize s total = .ok resume) : q * l.partSize ≤ resume := by
  obtain ⟨k, -, rfl, -, hstop⟩ := existingSize_spec hresume
  rcases Nat.lt_or_ge k q with hlt | hge
  · -- part `k` has all its bytes, so the count does not stop there
    have hpos := l.partSize_pos
    have hend := Nat.mul_le_mul_right l.partSize (Nat.succ_le_of_lt hlt)
    rw [Nat.succ_mul] at hend
    have hk : k * l.partSize < total := by omega
    obtain ⟨x, hx, -⟩ := hright (k * l.partSize + (l.partSize - 1)) (Nat.zero_le _) (by omega)
    rw [byteOf_at (by omega)] at hx
    obtain ⟨c, hc, hbyte⟩ := Option.bind_eq_some_iff.mp hx
    have hlong : l.partSize - 1 < c.size := Nat.lt_of_not_le fun hle => by
      rw [Content.byteAt_of_le hle] at hbyte
      cases hbyte
    have hshort := (hwithin k c hc).2
    have hincomplete := hstop (lt_partCount.mpr hk)
    rw [partComplete_iff.mpr ⟨c, hc, by rw [expectedLength_eq hk hfit]; omega⟩] at hincomplete
    cases hincomplete
  · have := Nat.mul_le_mul_right l.partSize hge
    omega

namespace Placement

variable {p : Placement} {base s s' : Store} {object : ByteArray} {n : Nat}

/-- Nothing is at the place but a file that is shorter than the object, or a split directory. -/
def Vacant (p : Placement) (s : Store) (size : Nat) : Prop :=
  match p with
  | .direct path _ => s.isDirectory path = false ∧ ∀ c, s.file? path = some c → c.size < size
  | .split _ _ => True

/-- There is nothing at the place. The empty path names the working directory. -/
def Absent (p : Placement) (s : Store) : Prop :=
  match p with
  | .direct path _ => s.pathExists path = false
  | .split l _ => l.directory.bytes ≠ [] ∧ s.pathExists l.directory = false

theorem Absent.untouched (h : p.Absent s) : p.Untouched s object := by
  cases p with
  | direct path resume =>
    intro c hc
    obtain ⟨place, m, hfind, -⟩ := file?_eq_some hc
    have hnone : s.pathExists path = false := h
    rw [pathExists, hfind] at hnone
    cases hnone
  | split l resume => exact h

theorem Absent.vacant {size : Nat} (h : p.Absent s) : p.Vacant s size := by
  cases p with
  | direct path resume =>
    have hnone : s.pathExists path = false := h
    refine ⟨Bool.eq_false_iff.mpr fun hdir => ?_, fun c hc => ?_⟩
    · obtain ⟨place, hfind⟩ := isDirectory_iff.mp hdir
      rw [pathExists, hfind] at hnone
      cases hnone
    · obtain ⟨place, m, hfind, -⟩ := file?_eq_some hc
      rw [pathExists, hfind] at hnone
      cases hnone
  | split l resume => trivial

theorem restart_le_self (p : Placement) (n : Nat) : p.restart n ≤ n := by
  cases p with
  | direct path resume => exact Nat.le_refl n
  | split l resume => exact Nat.div_mul_le_self n l.partSize

theorem Ready.agrees (h : p.Ready base s object) (hvacant : p.Vacant s object.size)
    (hresume : p.Resumes s object.size) : Agrees (IsByte object) (p.byteAt s) 0 p.resume := by
  cases p with
  | direct path resume =>
    have hright := resumable_of_trusted hvacant.1 h.trusted
    rw [Resumable, ← show resume = s.directResume path object.size from hresume] at hright
    exact hright
  | split l resume =>
    rcases h.trusted with ⟨hne, habsent⟩ | ⟨d, n, -, -, -, hright⟩
    · obtain rfl : resume = 0 := SplitLayout.existingSize_of_absent hne habsent hresume
      exact fun o _ ho => absurd ho (Nat.not_lt_zero o)
    · exact hright.right.mono (Nat.le_refl _) (hright.existingSize_le hresume)

theorem Ready.restart_le (h : p.Ready base s object) (hvacant : p.Vacant s object.size)
    (hfit : object.size < Offset.limit) (hresume : p.Resumes s object.size) (hle : n ≤ object.size)
    (hright : Agrees (IsByte object) (p.byteAt s) 0 (p.restart n)) : p.restart n ≤ p.resume := by
  cases p with
  | direct path resume =>
    have hright : Agrees (IsByte object) (fun o => (s.file? path).bind (·.byteAt o)) 0 n := hright
    show n ≤ resume
    cases n with
    | zero => exact Nat.zero_le resume
    | succ n =>
      obtain ⟨x, hx, -⟩ := hright n (Nat.zero_le n) (Nat.lt_succ_self n)
      obtain ⟨c, hc, hbyte⟩ := Option.bind_eq_some_iff.mp hx
      obtain ⟨place, m, hfind, rfl⟩ := file?_eq_some hc
      have hshort : (s.content ⟨m⟩).size < object.size := hvacant.2 _ hc
      have hfound : s.directResume path object.size = (s.content ⟨m⟩).size :=
        directResume_of_find hfind hshort
      have hresume : resume = s.directResume path object.size := hresume
      rw [hresume, hfound]
      refine Nat.lt_of_not_le fun hge => ?_
      rw [Content.byteAt_of_le hge] at hbyte
      cases hbyte
  | split l resume =>
    have hq := Nat.div_mul_le_self n l.partSize
    have hright : Agrees (IsByte object) (byteOf l.partSize (l.part? s)) 0
      (n / l.partSize * l.partSize) := hright
    show n / l.partSize * l.partSize ≤ resume
    rcases h.trusted with ⟨hne, habsent⟩ | ⟨d, m, -, hwithin, -, -⟩
    · refine Nat.le_of_not_lt fun hlt => ?_
      obtain ⟨x, hx, -⟩ := hright resume (Nat.zero_le _) hlt
      obtain ⟨c, hc, -⟩ := Option.bind_eq_some_iff.mp hx
      rw [SplitLayout.part?_of_absent hne habsent] at hc
      cases hc
    · exact SplitLayout.mul_le_existingSize hwithin hfit (Nat.le_trans hq hle) hright hresume

/-! ## Opening -/

theorem agrees_opening_direct {path : Path} {resume : Nat} {kind : StrategyKind} {size : Nat}
    (hs : s.WellFormed) (hroot : s.Rooted path)
    (hright : Agrees (IsByte object) ((direct path resume).byteAt s) 0 resume)
    (hlt : resume < size) (hmem : s' ∈ (direct path resume).opening s kind size) :
    Agrees (IsByte object) ((direct path resume).byteAt s') 0 resume := by
  rcases DirectSink.mem_opening hs hroot hmem with rfl | ⟨place, fd, -, hfind, hcontent⟩
  · exact hright
  · intro o _ ho
    obtain ⟨x, hx, hgood⟩ := hright o (Nat.zero_le o) ho
    obtain ⟨c, hc, hbyte⟩ := Option.bind_eq_some_iff.mp hx
    rw [hc, Option.getD_some] at hcontent
    refine ⟨x, ?_, hgood⟩
    show (s'.file? path).bind (·.byteAt o) = some x
    rw [file?_of_find hfind, Option.bind_some]
    rcases hcontent with heq | heq | ⟨size', hsize, heq⟩ <;> rw [heq]
    · exact hbyte
    · rw [Content.byteAt_setSize, if_pos ho, hbyte]
      rfl
    · obtain rfl : size = size' := by
        split at hsize
        · exact Option.some.inj hsize
        · cases hsize
      rw [Content.byteAt_setSize, if_pos (Nat.lt_trans ho hlt), Content.byteAt_setSize, if_pos ho, hbyte]
      rfl

theorem agrees_opening_split {l : SplitLayout} {resume : Nat} {kind : StrategyKind} {size : Nat}
    (hs : s.WellFormed) (hborder : resume % l.partSize < lengthLimit)
    (hright : Agrees (IsByte object) ((split l resume).byteAt s) 0 resume)
    (hmem : s' ∈ (split l resume).opening s kind size) :
    Agrees (IsByte object) ((split l resume).byteAt s') 0 resume := by
  have hright : Agrees (IsByte object) (byteOf l.partSize (l.part? s)) 0 resume := hright
  simp only [opening] at hmem
  cases hclaim : l.claimDirectory s with
  | mk claimed s₁ =>
    rw [hclaim] at hmem
    obtain ⟨hs₁, hmade, hkept⟩ := SplitLayout.claimDirectory_spec hs hclaim
    -- a part with a right byte is there only in a directory that is claimed as it is
    have hclaimed : Agrees (IsByte object) (byteOf l.partSize (l.part? s₁)) 0 resume := by
      intro o h₁ h₂
      obtain ⟨x, hx, hgood⟩ := hright o h₁ h₂
      obtain ⟨c, hc, -⟩ := Option.bind_eq_some_iff.mp hx
      rw [hkept _ c hc]
      exact ⟨x, hx, hgood⟩
    cases claimed with
    | error e =>
      obtain rfl := List.mem_singleton.mp hmem
      exact hclaimed
    | ok _ =>
      rcases List.mem_cons.mp hmem with rfl | hmem
      · exact hclaimed
      · obtain ⟨d, hd⟩ := (hmade rfl).at
        obtain ⟨-, -, hcut⟩ := SplitLayout.mem_discarding hd hs₁ hborder hmem
        intro o h₁ h₂
        obtain ⟨x, hx, hgood⟩ := hclaimed o h₁ h₂
        exact ⟨x, hcut.byteOf h₂ hx, hgood⟩

theorem Ready.agrees_opening {kind : StrategyKind} (h : p.Ready base s object)
    (hroot : base.Rooted p.path) (hvacant : p.Vacant s object.size)
    (hresume : p.Resumes s object.size) (hlt : p.resume < object.size)
    (hmem : s' ∈ p.opening s kind object.size) :
    Agrees (IsByte object) (p.byteAt s') 0 p.resume := by
  have hright := h.agrees hvacant hresume
  cases p with
  | direct path resume =>
    exact agrees_opening_direct h.wellFormed (hroot.keeps h.retains.keeps) hright hlt hmem
  | split l resume =>
    refine agrees_opening_split h.wellFormed ?_ hright hmem
    obtain ⟨k, -, heq, -⟩ := SplitLayout.existingSize_spec hresume
    have hlt : resume < object.size := hlt
    rw [show resume = k * l.partSize by omega, Nat.mul_mod_left]
    exact Nat.two_pow_pos 63

theorem byteAt_openSink_split {l : SplitLayout} {resume size : Nat} {kind : StrategyKind} {k : Sink}
    (hs : s.WellFormed) (hresume : l.existingSize s size = .ok resume) (hlt : resume < size)
    (hopen : (split l resume).openSink s kind size = (.ok k, s')) :
    (split l resume).byteAt s' resume = none := by
  obtain ⟨s₁, -, -, -, -, -, hcut, -⟩ := openSink_split hs hopen
  obtain ⟨i, -, heq, -⟩ := SplitLayout.existingSize_spec hresume
  have hzero : resume % l.partSize = 0 := by
    rw [show resume = i * l.partSize by omega, Nat.mul_mod_left]
  show (l.part? s' (resume / l.partSize)).bind (·.byteAt (resume % l.partSize)) = none
  rw [hcut.cut, hzero]
  cases l.part? s₁ (resume / l.partSize) with
  | none => rfl
  | some c => exact Content.byteAt_of_le (Nat.le_of_eq (Content.size_setSize c 0))

/-! ## Trimming -/

theorem Open.agrees_trimming {k : Sink} (h : p.Open base k object)
    (hright : Agrees (IsByte object) k.byteAt 0 n) (hmem : s' ∈ k.trimming n) :
    Agrees (IsByte object) (p.byteAt s') 0 n := by
  obtain ⟨hof, hsound, -, -, -, hshort⟩ := h
  obtain ⟨output, s⟩ := k
  cases p <;> cases output <;> simp only [Of] at hof
  · rename_i path resume d
    obtain rfl := List.mem_singleton.mp hmem
    have hle : n ≤ (s.content d.handle).size := le_size_of_agrees hright
    have hshort : (s.content d.handle).size < lengthLimit := hshort
    obtain ⟨r, s', heq, ⟨-, place, hfind⟩, -, -, hok, hcut, -⟩ := Sink.truncate_direct hsound n
    rw [heq]
    intro o h₁ h₂
    obtain ⟨x, hx, hgood⟩ := hright o h₁ h₂
    have hx : (s.content d.handle).byteAt o = some x := hx
    refine ⟨x, ?_, hgood⟩
    show (s'.file? path).bind (·.byteAt o) = some x
    rw [← hof, file?_of_find hfind, Option.bind_some, hcut (hok (by omega)), Content.byteAt_setSize,
      if_pos h₂, hx]
    rfl
  · rename_i l resume q
    obtain ⟨d, hs, hd, -⟩ := hsound
    obtain ⟨-, -, hcut⟩ := SplitLayout.mem_discarding hd hs (SplitLayout.border_lt hshort hright) hmem
    intro o h₁ h₂
    obtain ⟨x, hx, hgood⟩ := hright o h₁ h₂
    rw [hof] at hcut
    have hx : byteOf q.layout.partSize (q.layout.part? s) o = some x := hx
    exact ⟨x, hcut.byteOf h₂ (hof ▸ hx), hgood⟩

/-- A sink that is trimmed before the end of the object leaves no file that is as long as it. -/
theorem Open.vacant_truncate {sink : Sink} {good : Nat → UInt8 → Prop}
    (h : p.Open base sink object) (hlt : n < object.size)
    (hthere : Agrees good sink.byteAt 0 n) (fault : Option StorageError) :
    p.Vacant ((sink.truncate n).2.tryFlush fault).2.store object.size := by
  obtain ⟨hof, hsound, -, -, -, hshort⟩ := h
  obtain ⟨output, s⟩ := sink
  cases p with
  | split l resume => trivial
  | direct path resume =>
    cases output with
    | split q => exact hof.elim
    | direct d =>
      obtain rfl : d.path = path := hof
      have hle : n ≤ (s.content d.handle).size := le_size_of_agrees hthere
      have hshort : (s.content d.handle).size < lengthLimit := hshort
      obtain ⟨r, s', heq, ⟨-, place, hfind⟩, -, -, hok, hcut, -⟩ := Sink.truncate_direct hsound n
      have halike := Sink.alike_tryFlush ⟨.direct d, s'⟩ fault
      have hfind : ((Sink.tryFlush ⟨.direct d, s'⟩ fault).2.store).find d.path =
        .ok (place, .file d.handle.number) := (halike.find _).trans hfind
      rw [heq]
      refine ⟨Bool.eq_false_iff.mpr fun hdir => ?_, fun c hc => ?_⟩
      · obtain ⟨place', hplace⟩ := isDirectory_iff.mp hdir
        rw [hfind] at hplace
        cases hplace
      · rw [file?_of_find hfind] at hc
        obtain rfl := Option.some.inj hc
        rw [halike.content, hcut (hok (by omega)), Content.size_setSize]
        exact hlt

end Placement

end RangeTransfer
