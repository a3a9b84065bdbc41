import RangeTransfer.Proofs.Sink.Basic
/-!
# Opening a sink

A single file is opened at its resume offset with the bytes below that offset as they were
(`DirectSink.openAt_spec`), whether the file was there or not. A split directory that is there is
opened as it is (`claimDirectory_of_made`); one that is missing is made, and then it is empty
(`claimDirectory_of_absent`).
-/

namespace RangeTransfer
open Store

namespace Store

variable {s s' : Store} {p : Path} {c : Content}

/-- What the path names, if that is a file. -/
def file? (s : Store) (p : Path) : Option Content :=
  match s.find p with
  | .ok (_, .file n) => some (s.content ⟨n⟩)
  | _ => none

theorem file?_of_find {place : Location} {h : Handle} (hf : s.find p = .ok (place, .file h.number)) :
    s.file? p = some (s.content h) := by
  unfold file?
  rw [hf]

theorem file?_eq_some (hc : s.file? p = some c) :
    ∃ place n, s.find p = .ok (place, .file n) ∧ c = s.content ⟨n⟩ := by
  unfold file? at hc
  split at hc
  · rename_i place n hf
    exact ⟨place, n, hf, (Option.some.inj hc).symm⟩
  · cases hc

theorem Grows.find {place : Location} {e : Entry} (h : s.Grows s')
    (hf : s.find p = .ok (place, e)) : s'.find p = .ok (place, e) := by
  rcases find_cases hf with ⟨hr, rfl⟩ | ⟨parent, name, b, hr, hlen, rfl, he, hb⟩
  · simp only [Store.find, h.keeps.resolve hr]; rfl
  · simp only [Store.find, h.keeps.resolve hr, bind, Except.bind, if_neg (Nat.not_lt.mpr hlen),
      h.entry _ _ he]
    cases e with
    | directory => rfl
    | file n =>
      cases b with
      | false => rfl
      | true => cases hb rfl

theorem Grows.file? (h : s.Grows s') (hc : s.file? p = some c) : s'.file? p = some c := by
  obtain ⟨place, n, hf, rfl⟩ := file?_eq_some hc
  rw [← h.content]
  exact file?_of_find (h := ⟨n⟩) (h.find hf)

theorem content_openFile {create : Bool} {fd : Handle} (hok : s.openFile p create = .ok (fd, s')) :
    s'.content fd = (s.file? p).getD .empty := by
  obtain ⟨parent, name, hr, hlen, ⟨he, rfl⟩ | ⟨-, hnone, rfl, rfl⟩⟩ := openFile_eq_ok hok
  · rw [file?_of_find (find_of_resolve hr hlen he)]
    rfl
  · have hmissing : s.file? p = none := by
      simp only [file?, find, hr, bind, Except.bind, if_neg (Nat.not_lt.mpr hlen), hnone]
      rfl
    rw [hmissing]
    simp only [content, fileData, Table.get?_set, if_true]
    rfl

end Store

/-! ## Single files -/

namespace DirectSink

/-- What `prepare` makes of a file that holds `c`, if it succeeds. -/
structure Prepared (resume : Nat) (presize : Option Nat) (c c' : Content) : Prop where
  size : c'.size = resume ∨ presize = some c'.size ∧ resume ≤ c'.size
  size_lt : c'.size < lengthLimit
  resume_le : resume ≤ c'.size
  presize_le : ∀ size, presize = some size → size ≤ c'.size
  below : ∀ o < resume, c'.byteAt o = some ((c.byteAt o).getD 0)

theorem prepare_spec {d : DirectSink} {s : Store} (resume : Nat) (presize : Option Nat) :
    ∃ r s', d.prepare s resume presize = (r, s') ∧ s'.entries = s.entries ∧
      s'.workingDirectory = s.workingDirectory ∧ s'.nextFile = s.nextFile ∧
      ((r = .ok d ∧ Prepared resume presize (s.content d.handle) (s'.content d.handle)) ∨
        (∃ e, r = .error e) ∧ (s'.content d.handle = s.content d.handle ∨
          s'.content d.handle = (s.content d.handle).setSize resume)) := by
  unfold prepare
  cases hset : s.setSize d.handle resume with
  | error e => exact ⟨_, _, rfl, rfl, rfl, rfl, Or.inr ⟨⟨_, rfl⟩, Or.inl rfl⟩⟩
  | ok s₁ =>
    obtain ⟨hlimit, rfl⟩ := setSize_eq_ok hset
    generalize hcut : (s.content d.handle).setSize resume = cut
    have hcontent : (s.setContent d.handle cut).content d.handle = cut := by
      rw [content_setContent, if_pos rfl]
    have hsize : cut.size = resume := by rw [← hcut, Content.size_setSize]
    have hbelow : ∀ o < resume, cut.byteAt o = some (((s.content d.handle).byteAt o).getD 0) :=
      fun o ho => by rw [← hcut, Content.byteAt_setSize, if_pos ho]
    simp only
    cases hpresize : presize.filter (resume < ·) with
    | none =>
      refine ⟨_, _, rfl, rfl, rfl, rfl, Or.inl ⟨rfl, ?_⟩⟩
      rw [hcontent]
      refine ⟨Or.inl hsize, hsize ▸ hlimit, Nat.le_of_eq hsize.symm, fun size hsome => ?_, hbelow⟩
      have hle : ¬ resume < size := by simpa using Option.filter_eq_none_iff.mp hpresize size hsome
      rw [hsize]
      exact Nat.not_lt.mp hle
    | some size =>
      obtain ⟨rfl, hlt⟩ := Option.filter_eq_some_iff.mp hpresize
      have hlt : resume < size := of_decide_eq_true hlt
      simp only
      cases hset' : (s.setContent d.handle cut).setSize d.handle size with
      | error e =>
        exact ⟨_, _, rfl, rfl, rfl, rfl, Or.inr ⟨⟨_, rfl⟩, Or.inr hcontent⟩⟩
      | ok s₂ =>
        obtain ⟨hlimit', rfl⟩ := setSize_eq_ok hset'
        refine ⟨_, _, rfl, rfl, rfl, rfl, Or.inl ⟨rfl, ?_⟩⟩
        rw [content_setContent, if_pos rfl, hcontent]
        refine ⟨Or.inr ⟨rfl, Nat.le_of_lt hlt⟩, hlimit', Nat.le_of_lt hlt,
          fun _ hsome => Nat.le_of_eq (Option.some.inj hsome).symm, fun o ho => ?_⟩
        rw [Content.byteAt_setSize, if_pos (by omega), hbelow o ho]
        rfl

theorem openAt_spec {s : Store} (hs : s.WellFormed) (path : Path) (resume : Nat)
    (presize : Option Nat) :
    ∃ made s₁, s.createDirectories (path.parentDirectory?.getD ⟨[]⟩) = (made, s₁) ∧
      ((∃ e, openAt s path resume presize = (.error e, s₁)) ∨
        ∃ fd place r s', openAt s path resume presize = (r, s') ∧ s'.WellFormed ∧ s₁.Retains s' ∧
          s'.find path = .ok (place, .file fd.number) ∧
          ((r = .ok ⟨path, fd⟩ ∧
              Prepared resume presize ((s₁.file? path).getD .empty) (s'.content fd)) ∨
            (∃ e, r = .error e) ∧ (s'.content fd = (s₁.file? path).getD .empty ∨
              s'.content fd = ((s₁.file? path).getD .empty).setSize resume))) := by
  unfold openAt
  cases hmade : s.createDirectories (path.parentDirectory?.getD ⟨[]⟩) with
  | mk made s₁ =>
    refine ⟨made, s₁, rfl, ?_⟩
    have hs₁ : s₁.WellFormed := by
      have := (grows_createDirectories hs (path.parentDirectory?.getD ⟨[]⟩)).wellFormed hs
      rwa [hmade] at this
    cases made with
    | error e => exact Or.inl ⟨.storage (path.parentDirectory?.getD ⟨[]⟩) e, by simp only [hmade]⟩
    | ok _ =>
      simp only [hmade]
      cases hopen : s₁.openFile path true with
      | error e => exact Or.inl ⟨_, rfl⟩
      | ok x =>
        obtain ⟨fd, s₂⟩ := x
        right
        obtain ⟨hs₂, hretains, place, hfind⟩ := openFile_spec hs₁ hopen
        obtain ⟨r, s', heq, hentries, hworking, hnext, hcase⟩ :=
          prepare_spec (d := ⟨path, fd⟩) (s := s₂) resume presize
        rw [content_openFile hopen] at hcase
        refine ⟨fd, place, r, s', heq, hs₂.of_entries hworking hentries hnext,
          hretains.trans (retains_of_entries hworking hentries), ?_, hcase⟩
        rw [find_congr hworking hentries]
        exact hfind

end DirectSink

/-! ## Split directories -/

namespace SplitLayout

variable {l : SplitLayout} {s s' : Store} {d : Location}

theorem part?_eq_file? (l : SplitLayout) (s : Store) (i : Nat) :
    l.part? s i = s.file? (l.partPath i) := by
  unfold part? file?
  cases s.find (l.partPath i) with
  | error e => rfl
  | ok found =>
    obtain ⟨place, entry⟩ := found
    cases entry <;> rfl

/-- The directory is there; the empty path is the directory where the paths start. -/
def Made (l : SplitLayout) (s : Store) : Prop :=
  l.directory.bytes = [] ∨ s.isDirectory l.directory = true

theorem Made.keeps (h : l.Made s) (hk : s.Keeps s') : l.Made s' := h.imp_right hk.isDirectory

theorem Made.at (h : l.Made s) : ∃ d, l.At s d := by
  rcases h with hnil | hd
  · refine ⟨s.start l.directory, ?_⟩
    rw [At, Path.names, hnil]
    rfl
  · obtain ⟨place, hp⟩ := isDirectory_iff.mp hd
    exact ⟨place, walk_of_find hp⟩

end SplitLayout

theorem Store.isDirectory_of_walk {s : Store} {p : Path} {d : Location} (hw : Walkable p)
    (h : s.walk (s.start p) p.names = .ok d) : s.isDirectory p = true := by
  refine isDirectory_iff.mpr ?_
  have hresolve := resolve_of_walkable (s := s) hw
  rcases List.eq_nil_or_concat p.names with hnil | ⟨names, last, hlast⟩
  · rw [hnil, List.getLast?_nil] at hresolve
    exact ⟨s.start p, by simp only [find, hresolve]; rfl⟩
  · rw [List.concat_eq_append] at hlast
    rw [hlast, walk_append] at h
    rw [hlast, List.getLast?_concat, List.dropLast_concat] at hresolve
    cases hparent : s.walk (s.start p) names with
    | error e => rw [hparent] at h; cases h
    | ok parent =>
      simp only [hparent, bind, Except.bind, walk] at h hresolve
      split at h
      · rename_i hdot
        rw [if_pos hdot] at hresolve
        exact ⟨parent, by simp only [find, hresolve]; rfl⟩
      · rename_i hdot
        split at h
        · rename_i hdots
          rw [if_neg hdot, if_pos hdots] at hresolve
          exact ⟨parent.tail, by simp only [find, hresolve]; rfl⟩
        · rename_i hdots
          rw [if_neg hdot, if_neg hdots] at hresolve
          split at h
          · cases h
          · rename_i hlen
            split at h
            · cases h
            · cases h
            · rename_i he
              exact ⟨last :: parent, by
                simp only [find, hresolve, bind, Except.bind, pure, Except.pure, if_neg hlen, he]⟩

namespace SplitLayout

variable {l : SplitLayout} {s s' : Store} {d : Location}

theorem made_of_part {i : Nat} {c : Content} (hc : l.part? s i = some c) :
    l.Made s := by
  by_cases hnil : l.directory.bytes = []
  · exact Or.inl hnil
  · right
    rw [part?_eq_file?] at hc
    obtain ⟨place, n, hfind, -⟩ := file?_eq_some hc
    obtain ⟨x, hx⟩ : ∃ x, s.resolve (l.partPath i) = .ok x := by
      rcases find_cases hfind with ⟨hr, -⟩ | ⟨_, _, _, hr, -⟩ <;> exact ⟨_, hr⟩
    obtain ⟨hnul, -, hlen⟩ := walkable_of_resolve hx
    have hfront : ∃ more, l.directory.front = l.directory.bytes ++ more := by
      unfold Path.front
      split
      · exact ⟨[], (List.append_nil _).symm⟩
      · exact ⟨_, rfl⟩
    obtain ⟨more, hmore⟩ := hfront
    rw [bytes_partPath, hmore] at hnul hlen
    have hwalk : ∃ d, s.walk (s.start l.directory) l.directory.names = .ok d := by
      rcases resolve_cases hx with ⟨hnames, -⟩ | ⟨names, last, parent, hnames, hwalk, -⟩
      · rw [names_partPath] at hnames
        simp at hnames
      · rw [names_partPath] at hnames
        rw [(List.append_inj' hnames (by simp)).1, ← start_partPath l s i]
        exact ⟨parent, hwalk⟩
    obtain ⟨d, hd⟩ := hwalk
    refine isDirectory_of_walk ⟨?_, hnil, ?_⟩ hd
    · simp only [List.contains_eq_mem, List.mem_append, decide_eq_false_iff_not, not_or] at hnul ⊢
      exact hnul.1.1
    · simp only [List.length_append] at hlen
      omega

theorem claimDirectory_of_made (h : l.Made s) : l.claimDirectory s = (.ok (), s) := by
  have hfile : s.isFile l.directory = false := by
    rcases h with hnil | hd
    · have hfind : s.find l.directory = .error .notFound := by
        simp only [find, resolve, hnil, List.contains_nil, Bool.false_eq_true, if_false, if_true]
        rfl
      simp only [isFile, fileSize?, hfind]
      rfl
    · obtain ⟨place, hp⟩ := isDirectory_iff.mp hd
      simp only [isFile, fileSize?, hp]
      rfl
  simp only [claimDirectory, hfile, Bool.false_eq_true, if_false,
    createDirectories_of_isDirectory h]

theorem claimDirectory_cases (l : SplitLayout) (s : Store) :
    (∃ e, l.claimDirectory s = (.error (.storage l.directory e), s)) ∨
      ∃ s₁, (s₁ = s ∨ s.removeFile l.directory = .ok s₁) ∧
        l.claimDirectory s = ((s₁.createDirectories l.directory).1.mapError (.storage l.directory),
          (s₁.createDirectories l.directory).2) := by
  by_cases hfile : s.isFile l.directory = true
  · cases hremove : s.removeFile l.directory with
    | error e => exact Or.inl ⟨e, by simp only [claimDirectory, hfile, if_true, hremove]⟩
    | ok s₁ =>
      refine Or.inr ⟨s₁, Or.inr rfl, ?_⟩
      simp only [claimDirectory, hfile, if_true, hremove]
      rcases s₁.createDirectories l.directory with ⟨e | _, s₂⟩ <;> rfl
  · refine Or.inr ⟨s, Or.inl rfl, ?_⟩
    simp only [claimDirectory, hfile, Bool.false_eq_true, if_false]
    rcases s.createDirectories l.directory with ⟨e | _, s₂⟩ <;> rfl

theorem claimDirectory_spec (hs : s.WellFormed) {r : Except TransferError Unit}
    (h : l.claimDirectory s = (r, s')) :
    s'.WellFormed ∧ (r = .ok () → l.Made s') ∧ ∀ i c, l.part? s i = some c → s' = s := by
  have hkept : ∀ i c, l.part? s i = some c → s' = s := fun i c hc => by
    rw [claimDirectory_of_made (made_of_part hc)] at h
    exact (congrArg Prod.snd h).symm
  rcases l.claimDirectory_cases s with ⟨e, heq⟩ | ⟨s₁, hs₁, heq⟩
  · rw [heq] at h
    cases h
    exact ⟨hs, fun h => (by cases h), hkept⟩
  · have hwf : s₁.WellFormed := by
      rcases hs₁ with rfl | hremove
      · exact hs
      · exact (removeFile_spec hs hremove).1
    rw [heq] at h
    cases h
    refine ⟨(grows_createDirectories hwf l.directory).wellFormed hwf, fun hok => ?_, hkept⟩
    cases hmade : s₁.createDirectories l.directory with
    | mk made s₂ =>
      rw [hmade] at hok
      cases made with
      | error e => cases hok
      | ok _ => exact isDirectory_of_createDirectories hwf hmade

theorem keeps_claimDirectory (hs : s.WellFormed) (l : SplitLayout) :
    s.Keeps (l.claimDirectory s).2 := by
  rcases l.claimDirectory_cases s with ⟨e, heq⟩ | ⟨s₁, rfl | hremove, heq⟩
  · rw [heq]
    exact Keeps.refl s
  · rw [heq]
    exact (grows_createDirectories hs l.directory).keeps
  · obtain ⟨hs₁, hkeeps⟩ := removeFile_spec hs hremove
    rw [heq]
    exact hkeeps.trans (grows_createDirectories hs₁ l.directory).keeps

theorem claimDirectory_fresh (hs : s.WellFormed) {r : Except TransferError Unit}
    (h : l.claimDirectory s = (r, s')) {place : Location} (hnone : s.entryAt place = none) :
    s'.entryAt place = none ∨ s'.entryAt place = some .directory := by
  rcases l.claimDirectory_cases s with ⟨e, heq⟩ | ⟨s₁, rfl | hremove, heq⟩
  · rw [heq] at h
    cases h
    exact Or.inl hnone
  · rw [heq] at h
    cases h
    exact (grows_createDirectories hs l.directory).fresh place hnone
  · have hs₁ := (removeFile_spec hs hremove).1
    rw [heq] at h
    cases h
    refine (grows_createDirectories hs₁ l.directory).fresh place ?_
    obtain ⟨parent, name, n, -, -, -, rfl⟩ := removeFile_eq_ok hremove
    rw [entryAt_erase rfl, hnone, ite_self]

end SplitLayout

namespace SplitSink

variable {s s' : Store} {l : SplitLayout} {k : SplitSink} {resume : Nat}

theorem openAt_eq_ok (hs : s.WellFormed) (h : openAt s l resume = (.ok k, s')) :
    k = ⟨l, none⟩ ∧ ∃ s₁ d, l.claimDirectory s = (.ok (), s₁) ∧ s₁.WellFormed ∧ l.At s₁ d ∧
      l.discardFrom s₁ resume = (.ok (), s') := by
  unfold openAt at h
  cases hclaim : l.claimDirectory s with
  | mk claimed s₁ =>
    obtain ⟨hs₁, hmade, -⟩ := SplitLayout.claimDirectory_spec hs hclaim
    simp only [hclaim] at h
    cases claimed with
    | error e => cases h
    | ok _ =>
      obtain ⟨d, hd⟩ := (hmade rfl).at
      simp only at h
      cases hdiscard : l.discardFrom s₁ resume with
      | mk discarded s₂ =>
        simp only [hdiscard] at h
        cases discarded with
        | error halt => cases h
        | ok _ =>
          cases h
          exact ⟨rfl, s₁, d, rfl, hs₁, hd, hdiscard⟩

theorem opened_openAt (hs : s.WellFormed) (h : openAt s l resume = (.ok k, s')) :
    k.layout = l ∧ ∃ d, k.Opened s' d := by
  obtain ⟨rfl, s₁, d, -, hs₁, hd, hdiscard⟩ := openAt_eq_ok hs h
  obtain ⟨r, s₂, heq, hs₂, hsteady, -⟩ := SplitLayout.discardFrom_spec resume hd hs₁
  rw [hdiscard] at heq
  cases heq
  exact ⟨rfl, d, hs₂, hd.keeps hsteady.toKeeps, nofun⟩

theorem openAt_of_absent (hs : s.WellFormed) (h : openAt s l 0 = (.ok k, s'))
    (habsent : ∀ d, l.At s' d → s.entryAt d = none) :
    k.layout = l ∧ ∃ d, k.Opened s' d ∧ ∀ j, l.part? s' j = none := by
  obtain ⟨rfl, s₁, d, hclaim, hs₁, hd, hdiscard⟩ := openAt_eq_ok hs h
  obtain ⟨r, s₂, heq, hs₂, hsteady, -, hdiscarded, -⟩ := SplitLayout.discardFrom_spec 0 hd hs₁
  rw [hdiscard] at heq
  cases heq
  have hd₂ := hd.keeps hsteady.toKeeps
  refine ⟨rfl, d, ⟨hs₂, hd₂, nofun⟩, ?_⟩
  have hempty : ∀ j, l.part? s₁ j = none := fun j => by
    have hplace : s.entryAt (SplitLayout.partBytes j :: d) = none := by
      cases he : s.entryAt (SplitLayout.partBytes j :: d) with
      | none => rfl
      | some e =>
        have := hs.parent _ _ _ he
        rw [habsent d hd₂] at this
        cases this
    refine hd.part?_of_not_file fun n hn => ?_
    rcases SplitLayout.claimDirectory_fresh hs hclaim hplace with hnone | hdir
    · rw [hnone] at hn
      cases hn
    · rw [hdir] at hn
      cases hn
  intro j
  have hcut := hdiscarded (Or.inl rfl)
  rcases Nat.eq_zero_or_pos j with rfl | hj
  · have := hcut.cut
    rw [Nat.zero_div, hempty] at this
    exact this
  · exact (hcut.above j (by rwa [Nat.zero_div])).elim (·.trans (hempty j)) id

end SplitSink

end RangeTransfer
