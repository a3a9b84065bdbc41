import RangeTransfer.Proofs.Storage.Tree
/-!
# What the operations of a store do

One lemma for each operation that a transfer uses: what it needs, what it leaves, and that the store
stays well formed. Making directories adds directories and nothing else (`grows_createDirectories`),
and once made they are found (`isDirectory_of_createDirectories`) and are not made again
(`createDirectories_of_isDirectory`). Writing to a file changes no entry.
-/

namespace RangeTransfer.Store

variable {s s' s'' : Store} {p : Path} {place parent : Location} {name : Name} {h : Handle}

/-! ## Entries -/

theorem entryAt_congr (h : s'.entries = s.entries) (place : Location) :
    s'.entryAt place = s.entryAt place := by
  unfold entryAt
  rw [h]

theorem entryAt_set {e : Entry} (h : s'.entries = s.entries.set (name :: parent) e)
    (place : Location) :
    s'.entryAt place = if place = name :: parent then some e else s.entryAt place := by
  by_cases hroot : place = []
  · rw [hroot, if_neg (by simp), entryAt_root, entryAt_root]
  · rw [entryAt_of_ne hroot, entryAt_of_ne hroot, h, Table.get?_set]

theorem entryAt_erase (h : s'.entries = s.entries.erase (name :: parent)) (place : Location) :
    s'.entryAt place = if place = name :: parent then none else s.entryAt place := by
  by_cases hroot : place = []
  · rw [hroot, if_neg (by simp), entryAt_root, entryAt_root]
  · rw [entryAt_of_ne hroot, entryAt_of_ne hroot, h, Table.get?_erase]

theorem retains_of_entries (hw : s'.workingDirectory = s.workingDirectory)
    (h : s'.entries = s.entries) : s.Retains s' :=
  ⟨hw, fun place _ he => (entryAt_congr h place).trans he⟩

theorem keeps_of_entries (hw : s'.workingDirectory = s.workingDirectory)
    (h : s'.entries = s.entries) : s.Keeps s' := (retains_of_entries hw h).keeps

theorem walk_congr (h : s'.entries = s.entries) (place : Location) (names : List Name) :
    s'.walk place names = s.walk place names := by
  induction names generalizing place with
  | nil => rfl
  | cons x names ih => simp only [walk, ih, entryAt_congr h]

theorem find_congr (hw : s'.workingDirectory = s.workingDirectory) (h : s'.entries = s.entries)
    (p : Path) : s'.find p = s.find p := by
  have hresolve : s'.resolve p = s.resolve p := by simp only [resolve, walk_congr h, hw]
  simp only [find, hresolve, entryAt_congr h]

theorem WellFormed.of_entries (hs : s.WellFormed) (hw : s'.workingDirectory = s.workingDirectory)
    (he : s'.entries = s.entries) (hn : s'.nextFile = s.nextFile) : s'.WellFormed where
  working := by rw [hw, entryAt_congr he]; exact hs.working
  parent name place e h := by
    rw [entryAt_congr he] at h ⊢
    exact hs.parent name place e h
  number_lt place n h := by
    rw [entryAt_congr he] at h
    exact hn ▸ hs.number_lt place n h
  number_inj place place' n h h' := by
    rw [entryAt_congr he] at h h'
    exact hs.number_inj place place' n h h'

theorem WellFormed.add {e : Entry} (hs : s.WellFormed)
    (hw : s'.workingDirectory = s.workingDirectory)
    (he : s'.entries = s.entries.set (name :: parent) e)
    (hparent : s.entryAt parent = some .directory) (hnone : s.entryAt (name :: parent) = none)
    (hle : s.nextFile ≤ s'.nextFile)
    (hnew : ∀ n, e = .file n → n = s.nextFile ∧ n < s'.nextFile) : s'.WellFormed := by
  have hold : ∀ {place e'}, s.entryAt place = some e' → s'.entryAt place = some e' := by
    intro place e' h
    rw [entryAt_set he, if_neg, h]
    rintro rfl
    rw [hnone] at h
    cases h
  refine ⟨hw ▸ hold hs.working, fun name' place e' h => ?_, fun place n h => ?_,
    fun place place' n h h' => ?_⟩
  · rw [entryAt_set he] at h
    split at h
    · rename_i heq
      cases heq
      exact hold hparent
    · exact hold (hs.parent name' place e' h)
  · rw [entryAt_set he] at h
    split at h
    · cases h
      exact (hnew n rfl).2
    · exact Nat.lt_of_lt_of_le (hs.number_lt place n h) hle
  · rw [entryAt_set he] at h h'
    split at h
    · rename_i heq
      cases h
      split at h'
      · rename_i heq'
        rw [heq, heq']
      · have := hs.number_lt place' n h'
        have := (hnew n rfl).1
        omega
    · split at h'
      · cases h'
        have := hs.number_lt place n h
        have := (hnew n rfl).1
        omega
      · exact hs.number_inj place place' n h h'

/-! ## Directories -/

/-- `s'` is `s` with further directories. -/
structure Grows (s s' : Store) : Prop extends Retains s s' where
  files : s'.files = s.files
  fresh : ∀ place, s.entryAt place = none →
    s'.entryAt place = none ∨ s'.entryAt place = some .directory
  wellFormed : s.WellFormed → s'.WellFormed

theorem Grows.refl (s : Store) : s.Grows s :=
  ⟨Retains.refl s, rfl, fun _ => Or.inl, id⟩

theorem Grows.trans (h : s.Grows s') (h' : s'.Grows s'') : s.Grows s'' where
  toRetains := h.toRetains.trans h'.toRetains
  files := h'.files.trans h.files
  fresh place hn := by
    rcases h.fresh place hn with hn | hd
    · exact h'.fresh place hn
    · exact Or.inr (h'.entry place _ hd)
  wellFormed hs := h'.wellFormed (h.wellFormed hs)

theorem Grows.content (h : s.Grows s') (fd : Handle) : s'.content fd = s.content fd := by
  simp only [Store.content, fileData, h.files]

theorem createDirectory_eq_ok (h : s.createDirectory p = .ok s') :
    ∃ parent name b, s.resolve p = .ok (.name parent name b) ∧ name.length ≤ nameLimit ∧
      s.entryAt (name :: parent) = none ∧
      s' = { s with entries := s.entries.set (name :: parent) .directory } := by
  simp only [createDirectory, bind, Except.bind] at h
  split at h
  · cases h
  · rename_i x hx
    cases x with
    | directory q => cases h
    | name parent name b =>
      simp only at h
      split at h
      · cases h
      · rename_i hlen
        cases he : s.entryAt (name :: parent) with
        | some e => simp only [he] at h; cases h
        | none =>
          simp only [he] at h
          cases h
          exact ⟨parent, name, b, hx, Nat.not_lt.mp hlen, he, rfl⟩

theorem grows_createDirectory (hs : s.WellFormed) (h : s.createDirectory p = .ok s') :
    s.Grows s' := by
  obtain ⟨parent, name, b, hr, -, hnone, rfl⟩ := createDirectory_eq_ok h
  refine ⟨⟨rfl, fun place e he => ?_⟩, rfl, fun place hn => ?_, fun _ =>
    hs.add rfl rfl (parent_directory hs hr) hnone (Nat.le_refl _) (by simp)⟩
  · rw [entryAt_set rfl, if_neg, he]
    rintro rfl
    rw [hnone] at he
    cases he
  · rw [entryAt_set rfl]
    split
    · exact Or.inr rfl
    · exact Or.inl hn

theorem isDirectory_of_createDirectory (hs : s.WellFormed) (h : s.createDirectory p = .ok s') :
    s'.isDirectory p = true := by
  have hkeeps := (grows_createDirectory hs h).keeps
  obtain ⟨parent, name, b, hr, hlen, -, rfl⟩ := createDirectory_eq_ok h
  have he : Store.entryAt { s with entries := s.entries.set (name :: parent) .directory }
      (name :: parent) = some .directory := by rw [entryAt_set rfl, if_pos rfl]
  refine isDirectory_iff.mpr ⟨name :: parent, ?_⟩
  simp only [find, hkeeps.resolve hr, bind, Except.bind, if_neg (Nat.not_lt.mpr hlen), he]
  rfl

theorem grows_ensureDirectory (hs : s.WellFormed) (p : Path) : s.Grows (s.ensureDirectory p).2 := by
  unfold ensureDirectory
  split
  · rename_i h
    exact grows_createDirectory hs h
  · exact Grows.refl s

theorem isDirectory_of_ensureDirectory (hs : s.WellFormed)
    (h : s.ensureDirectory p = (.ok (), s')) : s'.isDirectory p = true := by
  unfold ensureDirectory at h
  split at h
  · rename_i hc
    cases h
    exact isDirectory_of_createDirectory hs hc
  · split at h
    · rename_i hd
      cases h
      exact hd
    · cases h

theorem createDirectoriesWithin_spec (n : Nat) (hs : s.WellFormed) (p : Path) :
    s.Grows (createDirectoriesWithin n s p).2 ∧
      ((createDirectoriesWithin n s p).1 = .ok () →
        (createDirectoriesWithin n s p).2.isDirectory p = true) := by
  have hensure : ∀ {s : Store} (_ : s.WellFormed), s.Grows (s.ensureDirectory p).2 ∧
      ((s.ensureDirectory p).1 = .ok () → (s.ensureDirectory p).2.isDirectory p = true) :=
    fun hs => ⟨grows_ensureDirectory hs p, fun h =>
      isDirectory_of_ensureDirectory hs (Prod.ext h rfl)⟩
  induction n generalizing p s with
  | zero => exact hensure hs
  | succ n ih =>
    rw [createDirectoriesWithin]
    split
    · rename_i parent _ _
      split
      · exact hensure hs
      · have hup := (ih (s := s) hs parent fun hs => ⟨grows_ensureDirectory hs parent, fun h =>
          isDirectory_of_ensureDirectory hs (Prod.ext h rfl)⟩).1
        split
        · rename_i s₁ heq
          rw [heq] at hup
          obtain ⟨hg, hd⟩ := hensure (hup.wellFormed hs)
          exact ⟨hup.trans hg, hd⟩
        · rename_i e s₁ heq
          rw [heq] at hup
          exact ⟨hup, fun h => by cases h⟩
    · exact hensure hs

theorem grows_createDirectories (hs : s.WellFormed) (p : Path) :
    s.Grows (s.createDirectories p).2 := by
  unfold createDirectories
  split
  · exact Grows.refl s
  · exact (createDirectoriesWithin_spec _ hs p).1

theorem isDirectory_of_createDirectories (hs : s.WellFormed)
    (h : s.createDirectories p = (.ok (), s')) : p.bytes = [] ∨ s'.isDirectory p = true := by
  unfold createDirectories at h
  split at h
  · rename_i hnil
    exact Or.inl hnil
  · have := (createDirectoriesWithin_spec p.bytes.length hs p).2
    rw [h] at this
    exact Or.inr (this rfl)

theorem createDirectory_of_isDirectory (h : s.isDirectory p = true) :
    s.createDirectory p = .error .alreadyExists := by
  obtain ⟨place, hp⟩ := isDirectory_iff.mp h
  rcases find_directory_cases hp with hr | ⟨parent, name, b, hr, hlen, -, he⟩
  · simp only [createDirectory, hr, bind, Except.bind]
    rfl
  · simp only [createDirectory, hr, bind, Except.bind, if_neg (Nat.not_lt.mpr hlen), he]
    rfl

theorem ensureDirectory_of_isDirectory (h : s.isDirectory p = true) :
    s.ensureDirectory p = (.ok (), s) := by
  simp only [ensureDirectory, createDirectory_of_isDirectory h, h, if_true]

theorem createDirectoriesWithin_of_isDirectory (n : Nat) (h : s.isDirectory p = true) :
    createDirectoriesWithin n s p = (.ok (), s) := by
  cases n with
  | zero => exact ensureDirectory_of_isDirectory h
  | succ n =>
    rw [createDirectoriesWithin, createDirectory_of_isDirectory h]
    exact ensureDirectory_of_isDirectory h

theorem createDirectories_of_isDirectory (h : p.bytes = [] ∨ s.isDirectory p = true) :
    s.createDirectories p = (.ok (), s) := by
  unfold createDirectories
  split
  · rfl
  · exact createDirectoriesWithin_of_isDirectory _ (h.resolve_left (by assumption))

/-! ## Files -/

theorem openFile_eq_ok {create : Bool} (hok : s.openFile p create = .ok (h, s')) :
    ∃ parent name, s.resolve p = .ok (.name parent name false) ∧ name.length ≤ nameLimit ∧
      ((s.entryAt (name :: parent) = some (.file h.number) ∧ s' = s) ∨
        (create = true ∧ s.entryAt (name :: parent) = none ∧ h = ⟨s.nextFile⟩ ∧
          s' = { s with
            entries := s.entries.set (name :: parent) (.file s.nextFile)
            files := s.files.set s.nextFile ⟨.empty, true⟩
            nextFile := s.nextFile + 1 })) := by
  simp only [openFile, bind, Except.bind] at hok
  split at hok
  · cases hok
  · rename_i x hx
    cases x with
    | directory q => cases hok
    | name parent name b =>
      simp only at hok
      split at hok
      · cases hok
      · rename_i hdir
        split at hok
        · cases hok
        · rename_i hlen
          cases he : s.entryAt (name :: parent) with
          | some e =>
            cases e with
            | directory => simp only [he] at hok; cases hok
            | file n =>
              simp only [he] at hok
              cases b with
              | true => cases hok
              | false =>
                cases hok
                exact ⟨parent, name, hx, Nat.not_lt.mp hlen, Or.inl ⟨he, rfl⟩⟩
          | none =>
            simp only [he] at hok
            cases create with
            | false => cases hok
            | true =>
              have hb : b = false := by simpa using hdir
              cases hok
              exact ⟨parent, name, hb ▸ hx, Nat.not_lt.mp hlen, Or.inr ⟨rfl, he, rfl, rfl⟩⟩

theorem removeFile_eq_ok (hok : s.removeFile p = .ok s') :
    ∃ parent name n, s.resolve p = .ok (.name parent name false) ∧ name.length ≤ nameLimit ∧
      s.entryAt (name :: parent) = some (.file n) ∧
      s' = { s with entries := s.entries.erase (name :: parent) } := by
  simp only [removeFile, bind, Except.bind] at hok
  split at hok
  · cases hok
  · rename_i x hx
    cases x with
    | directory q => cases hok
    | name parent name b =>
      simp only at hok
      split at hok
      · cases hok
      · rename_i hlen
        cases he : s.entryAt (name :: parent) with
        | none => simp only [he] at hok; cases hok
        | some e =>
          cases e with
          | directory => simp only [he] at hok; cases hok
          | file n =>
            simp only [he] at hok
            cases b with
            | true => cases hok
            | false =>
              cases hok
              exact ⟨parent, name, n, hx, Nat.not_lt.mp hlen, he, rfl⟩

theorem openFile_spec {create : Bool} (hs : s.WellFormed)
    (hok : s.openFile p create = .ok (h, s')) :
    s'.WellFormed ∧ s.Retains s' ∧ ∃ place, s'.find p = .ok (place, .file h.number) := by
  obtain ⟨parent, name, hr, hlen, ⟨he, rfl⟩ | ⟨-, hnone, rfl, rfl⟩⟩ := openFile_eq_ok hok
  · exact ⟨hs, Retains.refl _, _, find_of_resolve hr hlen he⟩
  · have hretains : s.Retains { s with
        entries := s.entries.set (name :: parent) (.file s.nextFile)
        files := s.files.set s.nextFile ⟨.empty, true⟩
        nextFile := s.nextFile + 1 } := by
      refine ⟨rfl, fun place e he => ?_⟩
      rw [entryAt_set rfl, if_neg, he]
      rintro rfl
      rw [hnone] at he
      cases he
    refine ⟨hs.add rfl rfl (parent_directory hs hr) hnone (Nat.le_succ _) fun n hn => ?_, hretains,
      _, find_of_resolve (hretains.keeps.resolve hr) hlen ?_⟩
    · cases hn
      exact ⟨rfl, Nat.lt_succ_self _⟩
    · rw [entryAt_set rfl, if_pos rfl]

theorem removeFile_spec (hs : s.WellFormed) (hok : s.removeFile p = .ok s') :
    s'.WellFormed ∧ s.Keeps s' := by
  obtain ⟨parent, name, n, hr, -, he, rfl⟩ := removeFile_eq_ok hok
  have hkeep : ∀ {place}, s.entryAt place = some .directory →
      Store.entryAt { s with entries := s.entries.erase (name :: parent) } place =
        some .directory := by
    intro place hd
    rw [entryAt_erase rfl, if_neg, hd]
    rintro rfl
    rw [he] at hd
    cases hd
  have hold : ∀ {place e}, Store.entryAt { s with entries := s.entries.erase (name :: parent) }
      place = some e → s.entryAt place = some e := by
    intro place e h
    rw [entryAt_erase rfl] at h
    split at h
    · cases h
    · exact h
  exact ⟨⟨hkeep hs.working, fun name' place e h => hkeep (hs.parent name' place e (hold h)),
    fun place n h => hs.number_lt place n (hold h),
    fun place place' n h h' => hs.number_inj place place' n (hold h) (hold h')⟩,
    rfl, fun _ => hkeep⟩

/-! ## Contents -/

theorem content_setContent (s : Store) (h h' : Handle) (c : Content) :
    (s.setContent h c).content h' = if h'.number = h.number then c else s.content h' := by
  simp only [content, fileData, setContent, Table.get?_set]
  split <;> rfl

theorem sync_eq_ok {fault : Option StorageError} (hok : s.sync h fault = .ok s') :
    s' = { s with files := s.files.set h.number ⟨s.content h, true⟩ } := by
  cases fault with
  | none => exact (Except.ok.inj hok).symm
  | some e => cases hok

theorem fileData_sync {fault : Option StorageError} (hok : s.sync h fault = .ok s') (h' : Handle) :
    s'.fileData h' = if h'.number = h.number then ⟨s.content h, true⟩ else s.fileData h' := by
  rw [sync_eq_ok hok]
  simp only [fileData, Table.get?_set]
  split <;> rfl

theorem content_sync {fault : Option StorageError} (hok : s.sync h fault = .ok s') (h' : Handle) :
    s'.content h' = s.content h' := by
  rw [content, fileData_sync hok]
  split
  · rename_i heq
    rw [content, fileData, content, fileData, heq]
  · rfl

theorem writeAt_eq_ok {offset : Nat} {data : ByteArray} (hok : s.writeAt h offset data = .ok s') :
    (data.size ≠ 0 → offset + data.size < lengthLimit) ∧
      (∀ h', s'.content h' =
        if h'.number = h.number then (s.content h).write offset data else s.content h') ∧
      s'.entries = s.entries ∧ s'.workingDirectory = s.workingDirectory ∧
      s'.nextFile = s.nextFile := by
  unfold writeAt at hok
  split at hok
  · cases hok
  · split at hok
    · rename_i hzero
      cases hok
      refine ⟨fun h => absurd hzero h, fun h' => ?_, rfl, rfl, rfl⟩
      split
      · rename_i heq
        simp only [Content.write, hzero, if_true]
        simp only [content, fileData, heq]
      · rfl
    · split at hok
      · cases hok
      · rename_i hlimit
        cases hok
        exact ⟨fun _ => Nat.not_le.mp hlimit, fun h' => content_setContent s h h' _, rfl, rfl, rfl⟩

theorem setSize_eq_ok {size : Nat} (hok : s.setSize h size = .ok s') :
    size < lengthLimit ∧ s' = s.setContent h ((s.content h).setSize size) := by
  unfold setSize at hok
  split at hok
  · cases hok
  · rename_i hlimit
    cases hok
    exact ⟨Nat.not_le.mp hlimit, rfl⟩

end RangeTransfer.Store
