import RangeTransfer.Proofs.Layout.Completeness
import RangeTransfer.Proofs.Transfer.Retrying
import RangeTransfer.Proofs.Transfer.Unstored
/-!
# What a failed setup reports

An attempt that fails before it fetches ranges reports the resume offset of its place, unless it found
no place. The bytes below that offset are there (`Placement.Backs`): the single file is as long, or the
leading parts of final length are. They were when the offset was taken (`backs_iff_of_resumes`), and
they are when the sink could not be opened (`backs_iff_of_closed`). But a directory in place of the
single file counts with the length that the system reports for it, and no file backs that. A download
that ends with this attempt reports the same.
-/

namespace RangeTransfer
open Store

namespace Placement

/-- The place holds `n` bytes of an object of `size` bytes: it is a file that is as long, or leading
parts of final length are. -/
def Backs (p : Placement) (s : Store) (size n : Nat) : Prop :=
  match p with
  | direct path _ => ∃ c, s.file? path = some c ∧ n ≤ c.size
  | split l _ => n ≤ l.leadingBytes s size

/-- A directory is in place of the single file. -/
def OnDirectory (p : Placement) (s : Store) : Prop :=
  match p with
  | direct path _ => s.isDirectory path = true
  | split _ _ => False

variable {p : Placement} {path : Path} {l : SplitLayout} {s s' : Store} {size n resume : Nat}

theorem backs_iff_of_directory (h : s.isDirectory path = true) :
    (direct path resume).Backs s size n ↔ ¬ (direct path resume).OnDirectory s := by
  refine iff_of_false ?_ fun hno => hno h
  rintro ⟨c, hc, -⟩
  obtain ⟨place, number, hfile, -⟩ := file?_eq_some hc
  obtain ⟨place', hdir⟩ := isDirectory_iff.mp h
  cases hfile.symm.trans hdir

theorem backs_iff_of_file {c : Content} (hc : s.file? path = some c) (hle : n ≤ c.size) :
    (direct path resume).Backs s size n ↔ ¬ (direct path resume).OnDirectory s := by
  refine iff_of_true ⟨c, hc, hle⟩ fun hdir => ?_
  obtain ⟨place, number, hfile, -⟩ := file?_eq_some hc
  obtain ⟨place', hdir⟩ := isDirectory_iff.mp hdir
  cases hfile.symm.trans hdir

theorem directory_or_file (h : (direct path resume).Resumes s size) (hne : resume ≠ 0) :
    s.isDirectory path = true ∨ ∃ c, s.file? path = some c ∧ c.size = resume := by
  have hresume : resume = s.directResume path size := h
  unfold directResume reportedSize? at hresume
  unfold isDirectory file?
  cases hfind : s.find path with
  | error e =>
    rw [hfind] at hresume
    simp only [Option.getD_none, ite_self] at hresume
    exact absurd hresume hne
  | ok found =>
    obtain ⟨place, entry⟩ := found
    cases entry with
    | directory => exact Or.inl rfl
    | file number =>
      rw [hfind] at hresume
      simp only [Option.getD_some] at hresume
      split at hresume
      · exact Or.inr ⟨_, rfl, hresume.symm⟩
      · exact absurd hresume hne

theorem leadingBytes_of_resumes (hfit : size < Offset.limit) (h : (split l resume).Resumes s size) :
    resume = l.leadingBytes s size := by
  rw [SplitLayout.leadingBytes_eq hfit]
  exact (SplitLayout.existingSize_eq_ok_iff.mp h).2

theorem backs_iff_of_resumes (hfit : size < Offset.limit) (h : p.Resumes s size)
    (hne : p.resume ≠ 0) : p.Backs s size p.resume ↔ ¬ p.OnDirectory s := by
  cases p with
  | direct path resume =>
    rcases directory_or_file h hne with hdir | ⟨c, hc, hsize⟩
    · exact backs_iff_of_directory hdir
    · exact backs_iff_of_file hc (Nat.le_of_eq hsize.symm)
  | split l resume => exact iff_of_true (Nat.le_of_eq (leadingBytes_of_resumes hfit h)) id

/-! ## A sink that cannot be opened -/

theorem backs_iff_of_closed_direct {kind : StrategyKind} {halt : Halt} (hs : s.WellFormed)
    (h : (direct path resume).Resumes s size) (hne : resume ≠ 0)
    (hclosed : (direct path resume).openSink s kind size = (.error halt, s')) :
    (direct path resume).Backs s' size resume ↔ ¬ (direct path resume).OnDirectory s' := by
  obtain ⟨made, s₁, hmade, hopen⟩ := DirectSink.openAt_spec hs path resume
    (if kind = .parallel then some size else none)
  have hgrows := grows_createDirectories hs (path.parentDirectory?.getD ⟨[]⟩)
  rw [hmade] at hgrows
  unfold openSink at hclosed
  rcases hopen with ⟨e, hopen⟩ | ⟨fd, place, r, s₂, hopen, -, hretains, hfind, hcase⟩
  · simp only [hopen] at hclosed
    obtain rfl := (Prod.mk.inj hclosed).2
    rcases directory_or_file h hne with hdir | ⟨c, hc, hsize⟩
    · exact backs_iff_of_directory (hgrows.keeps.isDirectory hdir)
    · exact backs_iff_of_file (hgrows.file? hc) (Nat.le_of_eq hsize.symm)
  · rcases hcase with ⟨rfl, -⟩ | ⟨⟨e, rfl⟩, hcontent⟩
    · simp only [hopen] at hclosed
      cases hclosed
    · simp only [hopen] at hclosed
      obtain rfl := (Prod.mk.inj hclosed).2
      rcases directory_or_file h hne with hdir | ⟨c, hc, hsize⟩
      · exact backs_iff_of_directory ((hgrows.keeps.trans hretains.keeps).isDirectory hdir)
      · refine backs_iff_of_file (file?_of_find hfind) ?_
        rw [hgrows.file? hc, Option.getD_some] at hcontent
        rcases hcontent with hsame | hcut
        · exact Nat.le_of_eq (hsame ▸ hsize.symm)
        · exact Nat.le_of_eq (by rw [hcut, Content.size_setSize])

/-- A split directory that cannot be claimed has no parts; one that cannot be cut keeps the parts
below the cut. -/
theorem le_leadingBytes_of_closed {kind : StrategyKind} {halt : Halt} (hs : s.WellFormed)
    (hfit : size < Offset.limit) (h : (split l resume).Resumes s size) (hne : resume ≠ 0)
    (hlt : resume < size) (hclosed : (split l resume).openSink s kind size = (.error halt, s')) :
    resume ≤ l.leadingBytes s' size := by
  obtain ⟨k, hk, hresume, hall, -⟩ := SplitLayout.existingSize_spec h
  obtain rfl : resume = k * l.partSize := by omega
  have hfirst : 0 < k := Nat.pos_of_ne_zero fun hzero => hne (by rw [hzero, Nat.zero_mul])
  obtain ⟨c, hc, -⟩ := SplitLayout.partComplete_iff.mp (hall 0 hfirst)
  have hmade := SplitLayout.made_of_part hc
  obtain ⟨d, hd⟩ := hmade.at
  obtain ⟨r, s₁, hdiscard, -, -, -, hcut, -⟩ :=
    SplitLayout.discardFrom_spec (k * l.partSize) hd hs
  have hborder : k * l.partSize % l.partSize = 0 := Nat.mul_mod_left k l.partSize
  have hcut := hcut (Or.inr (by rw [hborder]; decide))
  have hstore : s₁ = s' := by
    simp only [openSink, SplitSink.openAt, SplitLayout.claimDirectory_of_made hmade, hdiscard]
      at hclosed
    cases r with
    | error halt => exact (Prod.mk.inj hclosed).2
    | ok _ => cases hclosed
  subst hstore
  have hsame : ∀ j < k, l.partComplete s₁ size j = true := fun j hj => by
    have hbelow := hcut.below j (by rwa [Nat.mul_div_cancel _ l.partSize_pos])
    rw [SplitLayout.partComplete_iff, hbelow]
    exact SplitLayout.partComplete_iff.mp (hall j hj)
  have hle := SplitLayout.le_leadingBytes hfit hk hsame
  rwa [Nat.min_eq_left (Nat.le_of_lt hlt)] at hle

theorem backs_iff_of_closed {kind : StrategyKind} {halt : Halt} (hs : s.WellFormed)
    (hfit : size < Offset.limit) (h : p.Resumes s size) (hne : p.resume ≠ 0)
    (hlt : p.resume < size) (hclosed : p.openSink s kind size = (.error halt, s')) :
    p.Backs s' size p.resume ↔ ¬ p.OnDirectory s' := by
  cases p with
  | direct path resume => exact backs_iff_of_closed_direct hs h hne hclosed
  | split l resume =>
    exact iff_of_true (le_leadingBytes_of_closed hs hfit h hne hlt hclosed) id

end Placement

namespace Transfer

variable {ρ : Type} [Remote ρ] {job : Job} {size k n : Nat} {x x₀ y : Transfer ρ}
  {e : TransferError}

/-! ## The report of a download -/

theorem Starts.before_eq {conditions : Nat → Conditions} (h : Starts job conditions x₀ k x) :
    (Loop.ofJob job conditions x₀).before k = x := by
  induction h with
  | first => rfl
  | @next k n x y e delay before failed waits calm ih =>
    have hpos := before.download_eq.1
    obtain rfl := eq_pace_of_waitAfter hpos waits
    have hanswer : (Loop.ofJob job conditions x₀).answer k = (.error (.failed e n), y) := by
      rw [Loop.answer, ih]
      exact failed
    rw [Loop.before_succ _ hpos, hanswer]
    rfl

theorem Starts.bytes_eq {conditions : Nat → Conditions} {f : Failure} {z : Transfer ρ}
    (h : Starts job conditions x₀ k x)
    (hfailed : attempt job (conditions k) x = (.error (.failed e n), y))
    (hdownload : download job conditions x₀ = (.error (.failed f), z)) (hk : f.attempts = k) :
    f.bytes = n := by
  have hanswer : (Loop.ofJob job conditions x₀).answer k = (.error (.failed e n), y) := by
    rw [Loop.answer, h.before_eq]
    exact hfailed
  obtain ⟨last, -, -, -, hends⟩ := (Loop.ofJob job conditions x₀).ends_retry (Nat.le_refl 1)
    (Nat.add_sub_cancel' (RetryPolicy.one_le_most _))
  have hends : (Loop.ofJob job conditions x₀).Ends last (download job conditions x₀) := hends
  rw [hdownload] at hends
  subst hk
  cases hends with
  | failed answer _ =>
    cases hanswer.symm.trans answer
    rfl
  | stopped answer _ _ =>
    cases hanswer.symm.trans answer
    rfl

/-! ## The report of an attempt -/

/-- An attempt that fails before it fetches ranges reports no bytes, or the resume offset of its
place; these bytes are there unless a directory is in place of the single file. The byte counter is
not raised above them. -/
theorem setup_report {conditions : Conditions} (hs : x.store.WellFormed)
    (hfit : size < Offset.limit) (hsize : x.size? job = some size)
    (hclosed : ∀ p run, ¬ x.Opens job conditions size p run)
    (hfailed : attempt job conditions x = (.error (.failed e n), y)) :
    ((∃ halt z, x.choosePlace job conditions size = (.error halt, z)) ∧ n = 0 ∨
      ∃ p z, x.choosePlace job conditions size = (.ok p, z) ∧ n = p.resume ∧
        (n = 0 ∨ (p.Backs y.store size n ↔ ¬ p.OnDirectory y.store))) ∧
    (y.session.progress.bytes = x.session.progress.bytes ∨
      y.session.progress.bytes = max x.session.progress.bytes n) ∧
    ∀ conditions' x₀ k f z, Starts job conditions' x₀ k x → conditions' k = conditions →
      download job conditions' x₀ = (.error (.failed f), z) → f.attempts = k → f.bytes = n := by
  have hbytes := x.bytes_choosePlace job conditions size
  have hgrows := growsOn_choosePlace hs job conditions size
  refine ⟨?_, ?_, ?_⟩
  · cases halts_of_failed hsize hclosed hfailed with
    | misplaced chosen => exact Or.inl ⟨⟨_, _, chosen⟩, rfl⟩
    | @cancelled p z chosen _ =>
      refine Or.inr ⟨p, _, chosen, rfl, Classical.or_iff_not_imp_left.mpr fun hne => ?_⟩
      exact Placement.backs_iff_of_resumes hfit (resumes_of_chosen chosen) hne
    | @refused _ p z _ chosen _ =>
      have hresumes : p.Resumes z.store size := resumes_of_chosen chosen
      refine Or.inr ⟨p, z, chosen, rfl, Classical.or_iff_not_imp_left.mpr fun hne => ?_⟩
      exact Placement.backs_iff_of_resumes hfit hresumes hne
    | @closed _ p _ z _ _ chosen hlt opening _ =>
      refine Or.inr ⟨p, z, chosen, rfl, Classical.or_iff_not_imp_left.mpr fun hne => ?_⟩
      rw [chosen] at hgrows
      exact Placement.backs_iff_of_closed (hgrows.wellFormed hs) hfit (resumes_of_chosen chosen) hne
        hlt opening
  · cases halts_of_failed hsize hclosed hfailed with
    | misplaced chosen => exact Or.inl (by rw [chosen] at hbytes; exact hbytes)
    | cancelled chosen _ => exact Or.inl (by rw [chosen] at hbytes; exact hbytes)
    | refused _ bytes => exact Or.inr bytes
    | closed _ _ _ bytes => exact Or.inr bytes
  · rintro conditions' x₀ k f z hstart rfl hdownload hk
    exact hstart.bytes_eq hfailed hdownload hk

/-- The two bytes that are reported are in the file. -/
theorem setup_report_refusedHalf :
    let y := (attempt sampleFileJob .calm refusedHalf).2
    halfFile.WellFormed ∧ 4 < Offset.limit ∧ refusedHalf.size? sampleFileJob = some 4 ∧
    (∀ p run, ¬ refusedHalf.Opens sampleFileJob .calm 4 p run) ∧
    attempt sampleFileJob .calm refusedHalf =
      (.error (.failed (.transport "remote" "connect 0 refused") 2), y) ∧
    (∃ c, y.store.file? ⟨[97]⟩ = some c ∧ 2 ≤ c.size) ∧
    (y.session.progress.bytes = 0 ∨ y.session.progress.bytes = max 0 2) ∧
    ∀ f z, download sampleFileJob (fun _ => .calm) refusedHalf = (.error (.failed f), z) →
      f.attempts = 1 → f.bytes = 2 := by
  intro y
  have hfit : 4 < Offset.limit := by decide
  have hsize : refusedHalf.size? sampleFileJob = some 4 := rfl
  have hclosed : ∀ p run, ¬ refusedHalf.Opens sampleFileJob .calm 4 p run := by
    rintro p run ⟨z, hchoose, -, -, hopen⟩
    obtain rfl : (refusedHalf.choosePlace sampleFileJob .calm 4).2 = z := congrArg Prod.snd hchoose
    cases hopen
  have hfailed : attempt sampleFileJob .calm refusedHalf =
    (.error (.failed (.transport "remote" "connect 0 refused") 2), y) := Prod.ext rfl rfl
  obtain ⟨hplace, hbytes, hreport⟩ := setup_report wellFormed_halfFile hfit hsize hclosed hfailed
  refine ⟨wellFormed_halfFile, hfit, hsize, hclosed, hfailed, ?_, hbytes, fun f z hdownload =>
    hreport (fun _ => .calm) _ 1 f z .first rfl hdownload⟩
  have hchosen : (refusedHalf.choosePlace sampleFileJob .calm 4).1 = .ok (.direct ⟨[97]⟩ 2) := rfl
  rcases hplace with ⟨-, hnone⟩ | ⟨p, z, hchoose, -, hnone | hbacks⟩
  · cases hnone
  · cases hnone
  · rw [hchoose] at hchosen
    cases hchosen
    exact hbacks.mpr nofun

/-- A directory with the name of the target. -/
abbrev directoryStore : Store := ((Store.fresh []).createDirectories ⟨[100]⟩).2

/-- A transfer of an object that is longer than the directory is said to be. -/
abbrev longerThanDirectory : Transfer ScriptedRemote :=
  ⟨⟨.new 5000, .fresh, []⟩, directoryStore⟩

abbrev longerJob : Job :=
  ⟨⟨"http://h/f", ⟨[100]⟩, 5000, 1000, 1, .direct⟩,
    { TransferSettings.standard with retry := .single }⟩

/-- The length of the directory is reported as stored, with no file and no request. -/
theorem not_backed_directory :
    let y := (attempt longerJob .calm longerThanDirectory).2
    (longerThanDirectory.choosePlace longerJob .calm 5000).1 = .ok (.direct ⟨[100]⟩ 4096) ∧
    (attempt longerJob .calm longerThanDirectory).1 =
      .error (.failed (.storage ⟨[100]⟩ .isDirectory) 4096) ∧
    y.session.requests = [] ∧ y.session.progress.bytes = 4096 ∧
    ¬ (Placement.direct ⟨[100]⟩ 4096).Backs y.store 5000 4096 ∧
    (download longerJob (fun _ => .calm) longerThanDirectory).1 =
      .error (.failed ⟨.storage ⟨[100]⟩ .isDirectory, 4096, 1⟩) := by
  refine ⟨rfl, rfl, rfl, rfl, ?_, rfl⟩
  rintro ⟨c, hc, -⟩
  cases hc

end Transfer

end RangeTransfer
