import RangeTransfer.Proofs.Layout.Resume
import RangeTransfer.Proofs.Transfer.Location
import RangeTransfer.Proofs.Transfer.Placement
/-!
# What the next attempt trusts

Between attempts a place is `Ready`: a single file is right as far as it goes, or too long to be
counted, and a split directory is missing or the attempts' own, with a right beginning that ends
before a part of full length could. Then the bytes below the resume offset are right in an open sink
(`Ready.openSink`); trimming a sink at the end of its right bytes makes the place ready again
(`Open.ready_truncate`), and where all bytes are right the place holds the object (`Open.holds`).
-/

namespace RangeTransfer
open Store

/-- The directory has come since `base`, and has nothing in it but parts that are files. -/
structure SplitLayout.Own (l : SplitLayout) (base s : Store) (d : Location) : Prop where
  made : l.Made s
  here : l.At s d
  new : base.entryAt d = none
  only : ∀ name, s.entryAt (name :: d) ≠ none → ∃ i n, name = SplitLayout.partBytes i ∧
    l.Addressable i ∧ s.entryAt (name :: d) = some (.file n)

namespace SplitLayout.Own

variable {l : SplitLayout} {base s s' : Store} {d : Location}

theorem steady (h : l.Own base s d) (hsteady : s.Steady l.Addressable d s') : l.Own base s' d := by
  refine ⟨h.made.keeps hsteady.toKeeps, h.here.keeps hsteady.toKeeps, h.new, fun name hne => ?_⟩
  rcases hsteady.entry (name :: d) with heq | ⟨i, hplace, ha, hfile⟩
  · rw [heq] at hne ⊢
    exact h.only name hne
  · obtain ⟨e, he⟩ := Option.ne_none_iff_exists'.mp hne
    obtain ⟨n, rfl⟩ := hfile e he
    exact ⟨i, n, (List.cons.inj hplace).1, ha, he⟩

theorem retains (h : l.Own base s d) (hbase : base.WellFormed) (hret : base.Retains s)
    (hsteady : s.Steady l.Addressable d s') : base.Retains s' := by
  refine ⟨hsteady.working.trans hret.working, fun place e he => ?_⟩
  rcases hsteady.entry place with heq | ⟨i, rfl, -, -⟩
  · rw [heq]
    exact hret.entry place e he
  · have := hbase.parent _ _ _ he
    rw [h.new] at this
    cases this

end SplitLayout.Own

theorem SplitLayout.part?_of_absent {l : SplitLayout} {s : Store} (hne : l.directory.bytes ≠ [])
    (habsent : s.pathExists l.directory = false) (i : Nat) : l.part? s i = none := by
  cases hp : l.part? s i with
  | none => rfl
  | some c =>
    obtain ⟨place, hfind⟩ := isDirectory_iff.mp ((made_of_part hp).resolve_left hne)
    rw [pathExists, hfind] at habsent
    cases habsent

theorem SplitLayout.existingSize_of_absent {l : SplitLayout} {s : Store} {total resume : Nat}
    (hne : l.directory.bytes ≠ []) (habsent : s.pathExists l.directory = false)
    (hresume : l.existingSize s total = .ok resume) : resume = 0 := by
  obtain ⟨k, -, hk, hall, -⟩ := existingSize_spec hresume
  cases k with
  | zero => rw [hk, Nat.zero_mul, Nat.zero_min]
  | succ k =>
    obtain ⟨c, hc, -⟩ := partComplete_iff.mp (hall 0 (Nat.succ_pos k))
    rw [part?_of_absent hne habsent] at hc
    cases hc

theorem SplitLayout.border_lt {l : SplitLayout} {s : Store} {good : Nat → UInt8 → Prop} {n : Nat}
    (hshort : l.Short s) (hright : Agrees good (byteOf l.partSize (l.part? s)) 0 n) :
    n % l.partSize < lengthLimit := by
  by_cases hzero : n % l.partSize = 0
  · rw [hzero]
    exact Nat.two_pow_pos 63
  · have hmod := Nat.mod_lt n l.partSize_pos
    have hdiv := Nat.div_add_mod n l.partSize
    rw [Nat.mul_comm] at hdiv
    obtain ⟨x, hx, -⟩ := hright (n / l.partSize * l.partSize + (n % l.partSize - 1))
      (Nat.zero_le _) (by omega)
    rw [byteOf_at (by omega)] at hx
    obtain ⟨c, hc, hbyte⟩ := Option.bind_eq_some_iff.mp hx
    have hsize := hshort _ c hc
    have : n % l.partSize - 1 < c.size := Nat.lt_of_not_le fun hle => by
      rw [Content.byteAt_of_le hle] at hbyte
      cases hbyte
    omega

namespace Placement

variable {p : Placement} {base s s' : Store} {object : ByteArray}

/-- The layout of a split directory. -/
def layout? : Placement → Option SplitLayout
  | .direct _ _ => none
  | .split l _ => some l

/-- The place holds the object and nothing else. -/
def Holds (p : Placement) (s : Store) (object : ByteArray) : Prop :=
  match p with
  | .direct path _ => (s.file? path).map Content.bytes = some object
  | .split l _ => ∃ d, l.At s d ∧
      (∀ i < l.partCount object.size, (l.part? s i).map Content.bytes =
        some (object.extract (i * l.partSize) (min ((i + 1) * l.partSize) object.size))) ∧
      ∀ name, s.entryAt (name :: d) ≠ none →
        ∃ i < l.partCount object.size, name = SplitLayout.partBytes i

/-- The offset at which the placement resumes is the one that is found in the store. -/
def Resumes (p : Placement) (s : Store) (size : Nat) : Prop :=
  match p with
  | .direct path resume => resume = s.directResume path size
  | .split l resume => l.existingSize s size = .ok resume

/-- What the place has in it can be resumed from. -/
def Trusted (p : Placement) (base s : Store) (object : ByteArray) : Prop :=
  match p with
  | .direct path _ => ∀ c, s.file? path = some c →
      object.size ≤ c.size ∨ Agrees (IsByte object) c.byteAt 0 c.size
  | .split l _ => (l.directory.bytes ≠ [] ∧ s.pathExists l.directory = false) ∨
      ∃ d n, l.Own base s d ∧ l.Within s object.size ∧ l.Short s ∧ l.RightTo s object n

/-- The state of the store between attempts; `base` is the store before the first of them. -/
structure Ready (p : Placement) (base s : Store) (object : ByteArray) : Prop where
  wellFormed : s.WellFormed
  retains : base.Retains s
  trusted : p.Trusted base s object

theorem Ready.alike (h : p.Ready base s object) (hs : s.Alike s') : p.Ready base s' object := by
  obtain ⟨hwf, hret, htrusted⟩ := h
  have hentry := fun place => entryAt_congr hs.entries place
  refine ⟨hwf.of_entries hs.working hs.entries hs.nextFile,
    hret.trans (retains_of_entries hs.working hs.entries), ?_⟩
  cases p with
  | direct path resume => exact fun c hc => htrusted c (hs.file? path ▸ hc)
  | split l resume =>
    refine htrusted.imp (And.imp_right fun hnone => ?_)
      fun ⟨d, n, hown, hwithin, hshort, hright⟩ => ⟨d, n, hown.steady
        (steady_of_entries _ d hs.working hs.entries), ?_, ?_, ?_, ?_, ?_⟩
    · rw [pathExists, hs.find]
      exact hnone
    · exact fun j c hc => hwithin j c (hs.part? l ▸ hc)
    · exact fun j c hc => hshort j c (hs.part? l ▸ hc)
    · exact hright.le
    · rw [hs.part? l]
      exact hright.right
    · exact fun hn c hc => hright.short hn c (hs.part? l ▸ hc)

theorem Holds.alike (h : p.Holds s object) (hs : s.Alike s') : p.Holds s' object := by
  cases p with
  | direct path resume =>
    show (s'.file? path).map Content.bytes = some object
    rw [hs.file?]
    exact h
  | split l resume =>
    obtain ⟨d, hd, hparts, honly⟩ := h
    refine ⟨d, hd.keeps (keeps_of_entries hs.working hs.entries), fun i hi => ?_, fun name hne => ?_⟩
    · rw [hs.part? l]
      exact hparts i hi
    · rw [entryAt_congr hs.entries] at hne
      exact honly name hne

/-! ## Opening -/

/-- An open sink at a place that was ready. -/
structure Open (p : Placement) (base : Store) (k : Sink) (object : ByteArray) : Prop where
  of : p.Of k
  sound : k.Sound
  retains : base.Retains k.store
  own : ∀ l, p.layout? = some l → ∃ d, l.Own base k.store d
  within : k.Within object.size
  short : k.Short

/-- What opening leaves: an open sink with the bytes below the resume offset right, or a place that
is ready again. -/
def Opening (p : Placement) (base : Store) (object : ByteArray) (r : Except Halt Sink) (s : Store) :
    Prop :=
  match r with
  | .error _ => p.Ready base s object
  | .ok k => k.store = s ∧ p.Open base k object ∧ Agrees (IsByte object) k.byteAt 0 p.resume

theorem directResume_of_file {path : Path} {place : Location} {n : Nat} (hk : s.Keeps s')
    (hfind : s'.find path = .ok (place, .file n)) (size : Nat) :
    s.directResume path size =
      if ((s.file? path).getD .empty).size < size then ((s.file? path).getD .empty).size else 0 := by
  unfold Store.directResume Store.reportedSize? Store.file?
  cases hs : s.find path with
  | error e => rfl
  | ok found =>
    obtain ⟨place', entry⟩ := found
    cases entry with
    | file m => rfl
    | directory =>
      have := hk.isDirectory (isDirectory_iff.mpr ⟨place', hs⟩)
      obtain ⟨place'', h⟩ := isDirectory_iff.mp this
      rw [hfind] at h
      cases h

theorem agrees_setSize {c : Content} {size : Nat}
    (hc : size ≤ c.size ∨ Agrees (IsByte object) c.byteAt 0 c.size) :
    Agrees (IsByte object) (c.setSize (if c.size < size then c.size else 0)).byteAt 0
      (if c.size < size then c.size else 0) := by
  intro o _ ho
  split at ho
  · rename_i hlt
    obtain ⟨x, hx, hgood⟩ := (hc.resolve_left (Nat.not_le.mpr hlt)) o (Nat.zero_le _) ho
    rw [if_pos hlt, Content.byteAt_setSize, if_pos ho, hx]
    exact ⟨x, rfl, hgood⟩
  · exact absurd ho (Nat.not_lt_zero o)

theorem Ready.opening_direct {path : Path} {resume : Nat} {kind : StrategyKind}
    (hroot : base.Rooted path) (h : (direct path resume).Ready base s object)
    (hresume : resume = s.directResume path object.size) (hlt : resume < object.size) :
    ∃ r s', (direct path resume).openSink s kind object.size = (r, s') ∧
      (direct path resume).Opening base object r s' := by
  obtain ⟨hwf, hret, htrusted⟩ := h
  obtain ⟨made, s₁, hmade, hopen⟩ := DirectSink.openAt_spec hwf path resume
    (if kind = .parallel then some object.size else none)
  obtain rfl : s₁ = s := by
    have := (hroot.keeps hret.keeps).createDirectories_eq
    rwa [hmade] at this
  unfold openSink
  rcases hopen with ⟨e, hopen⟩ | ⟨fd, place, r, s₂, hopen, hs₂, hret₂, hfind, hcase⟩
  · simp only [hopen]
    exact ⟨_, _, rfl, hwf, hret, htrusted⟩
  · have hstart : object.size ≤ ((s₁.file? path).getD .empty).size ∨ Agrees (IsByte object)
        ((s₁.file? path).getD .empty).byteAt 0 ((s₁.file? path).getD .empty).size := by
      cases hfile : s₁.file? path with
      | none => exact Or.inr fun o _ ho => absurd ho (Nat.not_lt_zero o)
      | some c => exact htrusted c hfile
    rw [directResume_of_file hret₂.keeps hfind] at hresume
    generalize (s₁.file? path).getD .empty = c₀ at *
    have hret' := hret.trans hret₂
    rcases hcase with ⟨rfl, hprep⟩ | ⟨⟨e, rfl⟩, hcontent⟩
    · simp only [hopen]
      refine ⟨_, _, rfl, rfl, ⟨rfl, ⟨hs₂, place, hfind⟩, hret', nofun, ?_, hprep.size_lt⟩,
        fun o _ ho => ?_⟩
      · show (s₂.content fd).size ≤ object.size
        rcases hprep.size with hsize | ⟨hsize, -⟩
        · rw [hsize]
          exact Nat.le_of_lt hlt
        · split at hsize
          · exact Nat.le_of_eq (Option.some.inj hsize).symm
          · cases hsize
      · have ho : o < resume := ho
        have hbelow := hprep.below o ho
        obtain ⟨x, hx, hgood⟩ := agrees_setSize hstart o (Nat.zero_le _) (hresume ▸ ho)
        rw [Content.byteAt_setSize, if_pos (hresume ▸ ho)] at hx
        exact ⟨x, hbelow.trans hx, hgood⟩
    · simp only [hopen]
      refine ⟨_, _, rfl, hs₂, hret', fun c hc => ?_⟩
      rw [file?_of_find hfind] at hc
      cases hc
      rcases hcontent with heq | heq
      · rw [heq]
        exact hstart
      · rw [heq, hresume]
        exact Or.inr (agrees_setSize hstart)

theorem openSink_claimed {l : SplitLayout} {resume size : Nat} {kind : StrategyKind} {s₁ : Store}
    (hclaim : l.claimDirectory s = (.ok (), s₁)) {r : Except Halt Unit}
    (hdiscard : l.discardFrom s₁ resume = (r, s')) :
    (split l resume).openSink s kind size = (r.map fun _ => ⟨.split ⟨l, none⟩, s'⟩, s') := by
  unfold openSink SplitSink.openAt
  simp only [hclaim, hdiscard]
  cases r <;> rfl

theorem opening_own {l : SplitLayout} {resume n : Nat} {d : Location} (hbase : base.WellFormed)
    (hs : s.WellFormed) (hret : base.Retains s) (hfit : object.size < Offset.limit)
    (hown : l.Own base s d) (hwithin : l.Within s object.size) (hshort : l.Short s)
    (hright : l.RightTo s object n) (hresume : l.existingSize s object.size = .ok resume)
    (hlt : resume < object.size) :
    ∃ r s', l.discardFrom s resume = (r, s') ∧
      (split l resume).Opening base object (r.map fun _ => ⟨.split ⟨l, none⟩, s'⟩) s' := by
  have hle := hright.existingSize_le hresume
  have hborder : resume % l.partSize < lengthLimit := by
    obtain ⟨k, -, heq, -⟩ := SplitLayout.existingSize_spec hresume
    rw [show resume = k * l.partSize by omega, Nat.mul_mod_left]
    exact Nat.two_pow_pos 63
  obtain ⟨r, s', hdiscard, hs', hsteady, hshort', hcut, -⟩ :=
    SplitLayout.discardFrom_spec resume hown.here hs
  have hcut := hcut (Or.inr hborder)
  have hright' := hcut.rightTo hlt hfit (hright.right.mono (Nat.le_refl _) hle)
  have hwithin' := hcut.within (Nat.le_of_lt hlt) hwithin
  have hret' := hown.retains hbase hret hsteady
  refine ⟨r, s', hdiscard, ?_⟩
  cases r with
  | error halt =>
    exact ⟨hs', hret', Or.inr ⟨d, resume, hown.steady hsteady, hwithin', hshort' hshort, hright'⟩⟩
  | ok _ =>
    refine ⟨rfl, ⟨rfl, ⟨d, hs', hown.here.keeps hsteady.toKeeps, nofun⟩, hret', fun l' hl => ?_,
      hwithin', hshort' hshort⟩, hright'.right⟩
    cases hl
    exact ⟨d, hown.steady hsteady⟩

theorem part?_of_empty {l : SplitLayout} {d : Location} (hgrows : s.Grows s') (hd : l.At s' d)
    (hempty : ∀ name, s'.entryAt (name :: d) = none) (i : Nat) :
    l.part? s' i = none ∧ l.part? s i = none := by
  have hnone : l.part? s' i = none := hd.part?_of_not_file fun n hn => by
    rw [hempty] at hn
    cases hn
  refine ⟨hnone, ?_⟩
  cases hp : l.part? s i with
  | none => rfl
  | some c =>
    rw [SplitLayout.part?_eq_file?] at hp hnone
    rw [hgrows.file? hp] at hnone
    cases hnone

theorem Ready.opening_split {l : SplitLayout} {resume : Nat} {kind : StrategyKind}
    (hbase : base.WellFormed) (hroot : base.Rooted l.directory) (hfit : object.size < Offset.limit)
    (h : (split l resume).Ready base s object)
    (hresume : l.existingSize s object.size = .ok resume) (hlt : resume < object.size) :
    ∃ r s', (split l resume).openSink s kind object.size = (r, s') ∧
      (split l resume).Opening base object r s' := by
  obtain ⟨hwf, hret, htrusted⟩ := h
  rcases htrusted with ⟨hne, habsent⟩ | ⟨d, n, hown, hwithin, hshort, hright⟩
  · cases hclaim : l.claimDirectory s with
    | mk claimed s₁ =>
      rcases SplitLayout.claimDirectory_of_absent hwf (hroot.keeps hret.keeps) hne habsent hclaim with
        ⟨rfl, e, rfl⟩ | ⟨rfl, hgrows, hmade, d, hd, hnone, hempty⟩
      · refine ⟨.error (.failed e), s₁, ?_, hwf, hret, Or.inl ⟨hne, habsent⟩⟩
        unfold openSink SplitSink.openAt
        simp only [hclaim]
      · have hparts := part?_of_empty hgrows hd hempty
        have hown : l.Own base s₁ d := by
          refine ⟨hmade, hd, ?_, fun name hne => absurd (hempty name) hne⟩
          cases hentry : base.entryAt d with
          | none => rfl
          | some e =>
            rw [hret.entry d e hentry] at hnone
            cases hnone
        have hcomplete : l.partComplete s₁ object.size = l.partComplete s object.size :=
          funext fun i => by
            rw [SplitLayout.partComplete, SplitLayout.partComplete,
              SplitLayout.fileSize?_partPath, SplitLayout.fileSize?_partPath, (hparts i).1,
              (hparts i).2]
        have hresume₁ : l.existingSize s₁ object.size = .ok resume := by
          rw [← hresume, SplitLayout.existingSize, SplitLayout.existingSize,
            SplitLayout.existingPartCount, SplitLayout.existingPartCount, hcomplete]
        have hright : l.RightTo s₁ object 0 := ⟨Nat.zero_le _,
          fun o _ ho => absurd ho (Nat.not_lt_zero o),
          fun _ c hc => by rw [(hparts _).1] at hc; cases hc⟩
        obtain ⟨r, s', hdiscard, hopening⟩ := opening_own hbase (hgrows.wellFormed hwf)
          (hret.trans hgrows.toRetains) hfit hown
          (fun j c hc => by rw [(hparts j).1] at hc; cases hc)
          (fun j c hc => by rw [(hparts j).1] at hc; cases hc) hright hresume₁ hlt
        exact ⟨_, _, openSink_claimed hclaim hdiscard, hopening⟩
  · obtain ⟨r, s', hdiscard, hopening⟩ :=
      opening_own hbase hwf hret hfit hown hwithin hshort hright hresume hlt
    exact ⟨_, _, openSink_claimed (SplitLayout.claimDirectory_of_made hown.made) hdiscard, hopening⟩

theorem Ready.opening {kind : StrategyKind} (hbase : base.WellFormed) (hroot : base.Rooted p.path)
    (hfit : object.size < Offset.limit) (h : p.Ready base s object)
    (hresume : p.Resumes s object.size) (hlt : p.resume < object.size) :
    ∃ r s', p.openSink s kind object.size = (r, s') ∧ p.Opening base object r s' := by
  cases p with
  | direct path resume => exact h.opening_direct hroot hresume hlt
  | split l resume => exact h.opening_split hbase hroot hfit hresume hlt

/-! ## Closing -/

variable {k k' : Sink} {n : Nat}

theorem Of.steady {l : SplitLayout} {resume total : Nat} {d : Location}
    (hof : (split l resume).Of k) (hd : l.At k.store d) (hf : k.Follows total k') :
    k.store.Steady l.Addressable d k'.store := by
  obtain ⟨output, s⟩ := k
  cases output with
  | direct sink => exact absurd hof id
  | split q =>
    obtain rfl : q.layout = l := hof
    exact hf.steady d hd

theorem Of.retains {path : Path} {resume total : Nat} (hof : (direct path resume).Of k)
    (hf : k.Follows total k') : k.store.Retains k'.store := by
  obtain ⟨output, s⟩ := k
  cases output with
  | split q => exact absurd hof id
  | direct sink =>
    have hsteady := hf.steady s.workingDirectory trivial
    refine ⟨hsteady.working, fun place e he => ?_⟩
    rcases hsteady.entry place with heq | ⟨i, -, htakes, -⟩
    · exact heq.trans he
    · exact absurd htakes id

theorem Open.follows (hbase : base.WellFormed) (h : p.Open base k object)
    (hf : k.Follows object.size k') : p.Open base k' object := by
  obtain ⟨hof, hsound, hret, hown, hwithin, hshort⟩ := h
  refine ⟨hof.samePlace hf.place, hf.sound hsound, ?_, fun l hl => ?_, hf.within hwithin,
    hf.short hshort⟩
  · cases p with
    | direct path resume => exact hret.trans (hof.retains hf)
    | split l resume =>
      obtain ⟨d, hd⟩ := hown l rfl
      exact hd.retains hbase hret (hof.steady hd.here hf)
  · obtain ⟨d, hd⟩ := hown l hl
    cases p with
    | direct path resume => cases hl
    | split l' resume =>
      cases hl
      exact ⟨d, hd.steady (hof.steady hd.here hf)⟩

theorem le_size_of_agrees {c : Content} {good : Nat → UInt8 → Prop}
    (h : Agrees good c.byteAt 0 n) : n ≤ c.size := by
  refine Nat.le_of_not_lt fun hlt => ?_
  obtain ⟨x, hx, -⟩ := h c.size (Nat.zero_le _) hlt
  rw [Content.byteAt_of_le (Nat.le_refl _)] at hx
  cases hx

theorem Open.ready_truncate (hbase : base.WellFormed) (hfit : object.size < Offset.limit)
    (h : p.Open base k object) (hlt : n < object.size)
    (hright : Agrees (IsByte object) k.byteAt 0 n) :
    p.Ready base (k.truncate n).2.store object := by
  obtain ⟨hof, hsound, hret, hown, hwithin, hshort⟩ := h
  obtain ⟨output, s⟩ := k
  cases p <;> cases output <;> simp only [Of] at hof
  · rename_i path resume d
    have hle : n ≤ (s.content d.handle).size := le_size_of_agrees hright
    have hshort : (s.content d.handle).size < lengthLimit := hshort
    obtain ⟨r, s', heq, ⟨hs', place, hfind⟩, hentries, hworking, hok, hcut, -⟩ :=
      Sink.truncate_direct hsound n
    rw [heq]
    refine ⟨hs', hret.trans (retains_of_entries hworking hentries), fun c hc => Or.inr ?_⟩
    have hc : s'.file? path = some c := hc
    rw [← hof, file?_of_find hfind] at hc
    obtain rfl := Option.some.inj hc
    rw [hcut (hok (by omega)), Content.size_setSize]
    intro o h₁ h₂
    obtain ⟨x, hx, hgood⟩ := hright o h₁ h₂
    have hx : (s.content d.handle).byteAt o = some x := hx
    rw [Content.byteAt_setSize, if_pos h₂, hx]
    exact ⟨x, rfl, hgood⟩
  · rename_i l resume q
    obtain ⟨d, hd⟩ := hown l rfl
    have hborder := SplitLayout.border_lt hshort hright
    obtain ⟨r, s', heq, ⟨-, hs', -, -⟩, hsteady, hshort', hcut, -⟩ := Sink.truncate_split hsound n
    have hcut := hcut (Or.inr hborder)
    rw [heq]
    rw [hof] at hsteady hcut hshort'
    have hwithin : l.Within s object.size := hof ▸ hwithin
    have hright : Agrees (IsByte object) (byteOf l.partSize (l.part? s)) 0 n := hof ▸ hright
    exact ⟨hs', hd.retains hbase hret (hsteady d hd.here), Or.inr ⟨d, n,
      hd.steady (hsteady d hd.here), hcut.within (Nat.le_of_lt hlt) hwithin,
      hshort' (hof ▸ hshort), hcut.rightTo hlt hfit hright⟩⟩

theorem holds_split {l : SplitLayout} {resume : Nat} {d : Location} (hown : l.Own base s d)
    (hwithin : l.Within s object.size)
    (hright : Agrees (IsByte object) (byteOf l.partSize (l.part? s)) 0 object.size) :
    (split l resume).Holds s object := by
  refine ⟨d, hown.here, fun i hi =>
    SplitLayout.exact_part hwithin hright (SplitLayout.lt_partCount.mp hi), fun name hne => ?_⟩
  obtain ⟨i, n, hname, ha, hentry⟩ := hown.only name hne
  rw [hname] at hentry
  exact ⟨i, SplitLayout.lt_partCount.mpr
    (hwithin i _ (hown.here.part?_of_file ha hentry)).1, hname⟩

theorem Open.holds (h : p.Open base k object)
    (hright : Agrees (IsByte object) k.byteAt 0 object.size) :
    p.Ready base k.store object ∧ p.Holds k.store object := by
  obtain ⟨hof, hsound, hret, hown, hwithin, hshort⟩ := h
  obtain ⟨output, s⟩ := k
  cases p <;> cases output <;> simp only [Of] at hof
  · rename_i path resume d
    obtain ⟨hs, place, hfind⟩ := hsound
    have hle : object.size ≤ (s.content d.handle).size := le_size_of_agrees hright
    have hge : (s.content d.handle).size ≤ object.size := hwithin
    have hfile : s.file? path = some (s.content d.handle) := hof ▸ file?_of_find hfind
    refine ⟨⟨hs, hret, fun c hc => Or.inl ?_⟩, ?_⟩
    · have hc : s.file? path = some c := hc
      rw [hfile] at hc
      cases hc
      exact hle
    · show (s.file? path).map Content.bytes = some object
      rw [hfile, Option.map_some, Content.bytes_eq_extract (a := 0) (b := object.size) (by omega)
        (Nat.le_refl _) fun i hi => ?_, ByteArray.extract_zero_size]
      obtain ⟨x, hx, hgood⟩ := hright i (Nat.zero_le _) (by omega)
      exact ⟨x, hx, (Nat.zero_add i).symm ▸ hgood⟩
  · rename_i l resume q
    obtain ⟨d, hd⟩ := hown l rfl
    obtain ⟨d', hs, -, -⟩ := hsound
    have hwithin : l.Within s object.size := hof ▸ hwithin
    have hright : Agrees (IsByte object) (byteOf l.partSize (l.part? s)) 0 object.size :=
      hof ▸ hright
    exact ⟨⟨hs, hret, Or.inr ⟨d, object.size, hd, hwithin, hof ▸ hshort, Nat.le_refl _, hright,
      fun hlt => absurd hlt (Nat.lt_irrefl _)⟩⟩, holds_split hd hwithin hright⟩

theorem Ready.holds (h : p.Ready base s object) (hpos : 0 < object.size)
    (hresume : p.Resumes s object.size) (hle : object.size ≤ p.resume) : p.Holds s object := by
  obtain ⟨-, -, htrusted⟩ := h
  cases p with
  | direct path resume =>
    have hresume : resume = s.directResume path object.size := hresume
    have hle : object.size ≤ resume := hle
    unfold Store.directResume at hresume
    simp only at hresume
    split at hresume <;> omega
  | split l resume =>
    have hle : object.size ≤ resume := hle
    rcases htrusted with ⟨hne, habsent⟩ | ⟨d, n, hown, hwithin, -, hright⟩
    · have := SplitLayout.existingSize_of_absent hne habsent hresume
      omega
    · have := hright.existingSize_le hresume
      have := hright.le
      obtain rfl : n = object.size := by omega
      exact holds_split hown hwithin hright.right

end Placement

end RangeTransfer
