import RangeTransfer.Layout.Parts
import RangeTransfer.Proofs.Layout.Names
import RangeTransfer.Proofs.Storage.Operations
/-!
# The parts of a split directory

`part? s index` is what a store holds as part `index`. Once the path of the directory leads to a
place `d` (`At`), each part that can be named is the entry of its name in `d`, and the lemmas here
say what opening, writing and removing one part does to all of them. Different parts are different
entries, so there are no more of them than rows in the tree (`le_length_rows`).
-/

namespace RangeTransfer

theorem Table.length_erase_lt {κ ν : Type} [DecidableEq κ] {t : Table κ ν} {key : κ}
    (h : t.get? key ≠ none) : (t.erase key).rows.length < t.rows.length := by
  have hmem : ∀ rows : List (κ × ν), lookup key rows ≠ none → ∃ row ∈ rows, row.1 = key := by
    intro rows
    induction rows with
    | nil => exact fun h => absurd rfl h
    | cons row rows ih =>
      intro h
      by_cases hk : row.1 = key
      · exact ⟨row, List.mem_cons_self, hk⟩
      · obtain ⟨k, v⟩ := row
        rw [lookup, if_neg hk] at h
        obtain ⟨row, hrow, heq⟩ := ih h
        exact ⟨row, List.mem_cons_of_mem _ hrow, heq⟩
  obtain ⟨row, hrow, heq⟩ := hmem t.rows h
  exact List.length_filter_lt_length_iff_exists.mpr ⟨row, hrow, by simp [heq]⟩

/-- The directories stay, and nothing comes or goes but files in the directory `d` that are parts
with numbers of `P`. -/
structure Store.Steady (P : Nat → Prop) (d : Location) (s s' : Store) : Prop extends Keeps s s' where
  entry : ∀ place, s'.entryAt place = s.entryAt place ∨ ∃ i, place = SplitLayout.partBytes i :: d ∧
    P i ∧ ∀ e, s'.entryAt place = some e → ∃ n, e = .file n

theorem Store.Steady.refl (P : Nat → Prop) (d : Location) (s : Store) : s.Steady P d s :=
  ⟨Keeps.refl s, fun _ => Or.inl rfl⟩

theorem Store.Steady.trans {P : Nat → Prop} {d : Location} {s s' s'' : Store}
    (h : s.Steady P d s') (h' : s'.Steady P d s'') : s.Steady P d s'' := by
  refine ⟨h.toKeeps.trans h'.toKeeps, fun place => ?_⟩
  rcases h'.entry place with heq | hnew
  · rw [heq]
    exact h.entry place
  · exact Or.inr hnew

theorem Store.steady_of_entries {s s' : Store} (P : Nat → Prop) (d : Location)
    (hw : s'.workingDirectory = s.workingDirectory) (h : s'.entries = s.entries) :
    s.Steady P d s' :=
  ⟨keeps_of_entries hw h, fun place => Or.inl (entryAt_congr h place)⟩

namespace SplitLayout
open Store

variable {l : SplitLayout} {s s' : Store} {d : Location} {i j : Nat}

/-- What is stored as part `index`, if that is a file. -/
def part? (l : SplitLayout) (s : Store) (index : Nat) : Option Content :=
  match s.find (l.partPath index) with
  | .ok (_, .file n) => some (s.content ⟨n⟩)
  | .ok (_, .directory) => none
  | .error _ => none

theorem fileSize?_partPath (l : SplitLayout) (s : Store) (i : Nat) :
    s.fileSize? (l.partPath i) = (l.part? s i).map Content.size := by
  unfold fileSize? part?
  cases s.find (l.partPath i) with
  | error e => rfl
  | ok found =>
    obtain ⟨place, entry⟩ := found
    cases entry <;> rfl

/-- The path of the directory leads to `d`. -/
def At (l : SplitLayout) (s : Store) (d : Location) : Prop :=
  s.walk (s.start l.directory) l.directory.names = .ok d

/-- The path of part `index` is one that the system takes. -/
def Addressable (l : SplitLayout) (index : Nat) : Prop :=
  Walkable (l.partPath index) ∧ (partBytes index).length ≤ nameLimit

instance (l : SplitLayout) (index : Nat) : Decidable (l.Addressable index) :=
  inferInstanceAs (Decidable (_ ∧ _))

theorem names_partPath (l : SplitLayout) (i : Nat) :
    (l.partPath i).names = l.directory.names ++ [partBytes i] :=
  Path.names_join (partBytes_ne_nil i) (slash_not_mem_partBytes i)

theorem bytes_partPath (l : SplitLayout) (i : Nat) :
    (l.partPath i).bytes = l.directory.front ++ partBytes i :=
  Path.bytes_join (slash_not_mem_partBytes i)

theorem start_partPath (l : SplitLayout) (s : Store) (i : Nat) :
    s.start (l.partPath i) = s.start l.directory := by
  have habs : (l.partPath i).isAbsolute = l.directory.isAbsolute :=
    Path.isAbsolute_join (slash_not_mem_partBytes i)
  rw [start, start, habs]

theorem At.keeps (h : l.At s d) (hk : s.Keeps s') : l.At s' d := by
  unfold At
  rw [hk.start]
  exact hk.walk h

theorem At.inj {d' : Location} (h : l.At s d) (h' : l.At s d') : d = d' :=
  Except.ok.inj (h.symm.trans h')

theorem At.resolve (h : l.At s d) (hw : Walkable (l.partPath i)) :
    s.resolve (l.partPath i) = .ok (.name d (partBytes i) false) := by
  have hlast : decide ((l.partPath i).bytes.getLast? = some Path.slash) = false :=
    decide_eq_false (Path.getLast?_join (partBytes_ne_nil i) (slash_not_mem_partBytes i))
  rw [resolve_of_walkable hw, names_partPath, List.getLast?_append, List.dropLast_concat,
    start_partPath]
  simp only [List.getLast?_singleton, Option.some_or, show s.walk _ _ = .ok d from h, bind,
    Except.bind, if_neg (partBytes_ne_dot i).1, if_neg (partBytes_ne_dot i).2, hlast]
  rfl

/-- A part whose path the system does not take is refused by every operation, and not because it is
missing. -/
theorem At.refused (h : l.At s d) (ha : ¬ l.Addressable i) :
    ∃ e, e ≠ .notFound ∧ s.find (l.partPath i) = .error e ∧
      s.removeFile (l.partPath i) = .error e ∧
      ∀ create, s.openFile (l.partPath i) create = .error e := by
  by_cases hw : Walkable (l.partPath i)
  · have hlen : nameLimit < (partBytes i).length := Nat.not_le.mp fun hle => ha ⟨hw, hle⟩
    refine ⟨.nameTooLong, by simp, ?_, ?_, fun create => ?_⟩
    · simp only [find, h.resolve hw, bind, Except.bind, if_pos hlen]; rfl
    · simp only [removeFile, h.resolve hw, bind, Except.bind, if_pos hlen]; rfl
    · simp only [openFile, h.resolve hw, bind, Except.bind, if_pos hlen, Bool.and_false,
        Bool.false_eq_true, if_false]
      rfl
  · have hnonempty : (l.partPath i).bytes ≠ [] := fun hnil => by
      have := congrArg List.length (names_partPath l i)
      rw [show (l.partPath i).names = [] by simp [Path.names, hnil, Path.cut]] at this
      simp at this
    obtain ⟨e, hne, hres⟩ := resolve_of_not_walkable (s := s) hw hnonempty
    refine ⟨e, hne, ?_, ?_, fun create => ?_⟩
    · simp only [find, hres]; rfl
    · simp only [removeFile, hres]; rfl
    · simp only [openFile, hres]; rfl

/-! ## One part -/

theorem At.find (h : l.At s d) (ha : l.Addressable i) : s.find (l.partPath i) =
    match s.entryAt (partBytes i :: d) with
    | none => .error .notFound
    | some e => .ok (partBytes i :: d, e) := by
  simp only [Store.find, h.resolve ha.1, bind, Except.bind, if_neg (Nat.not_lt.mpr ha.2)]
  cases s.entryAt (partBytes i :: d) with
  | none => rfl
  | some e => cases e <;> rfl

theorem At.part?_of_file (h : l.At s d) (ha : l.Addressable i) {n : Nat}
    (he : s.entryAt (partBytes i :: d) = some (.file n)) : l.part? s i = some (s.content ⟨n⟩) := by
  rw [part?, h.find ha, he]

theorem At.part?_of_not_file (h : l.At s d)
    (he : ∀ n, s.entryAt (partBytes i :: d) ≠ some (.file n)) : l.part? s i = none := by
  by_cases ha : l.Addressable i
  · rw [part?, h.find ha]
    cases hentry : s.entryAt (partBytes i :: d) with
    | none => rfl
    | some e =>
      cases e with
      | directory => rfl
      | file n => exact absurd hentry (he n)
  · obtain ⟨e, -, hfind, -⟩ := h.refused ha
    rw [part?, hfind]

theorem At.part?_eq_some (h : l.At s d) {c : Content} (hp : l.part? s i = some c) :
    l.Addressable i ∧ ∃ n, s.entryAt (partBytes i :: d) = some (.file n) ∧ c = s.content ⟨n⟩ := by
  have ha : l.Addressable i := by
    refine Classical.byContradiction fun ha => ?_
    obtain ⟨e, -, hfind, -⟩ := h.refused ha
    rw [part?, hfind] at hp
    cases hp
  have hfile : ∃ n, s.entryAt (partBytes i :: d) = some (.file n) :=
    Classical.byContradiction fun hno => by
      rw [h.part?_of_not_file fun n hn => hno ⟨n, hn⟩] at hp
      cases hp
  obtain ⟨n, hn⟩ := hfile
  rw [h.part?_of_file ha hn] at hp
  exact ⟨ha, n, hn, (Option.some.inj hp).symm⟩

theorem At.part?_congr (h : l.At s d) (h' : l.At s' d)
    (he : s'.entryAt (partBytes i :: d) = s.entryAt (partBytes i :: d))
    (hc : ∀ n, s.entryAt (partBytes i :: d) = some (.file n) → s'.content ⟨n⟩ = s.content ⟨n⟩) :
    l.part? s' i = l.part? s i := by
  by_cases hfile : l.Addressable i ∧ ∃ n, s.entryAt (partBytes i :: d) = some (.file n)
  · obtain ⟨ha, n, hn⟩ := hfile
    rw [h.part?_of_file ha hn, h'.part?_of_file ha (he.trans hn), hc n hn]
  · have hnone : ∀ {s}, l.At s d → s.entryAt (partBytes i :: d) = s'.entryAt (partBytes i :: d) →
        l.part? s i = none := by
      intro s₁ h₁ heq
      cases hp : l.part? s₁ i with
      | none => rfl
      | some c =>
        obtain ⟨ha, n, hn, -⟩ := h₁.part?_eq_some hp
        exact absurd ⟨ha, n, by rw [← he, ← heq, hn]⟩ hfile
    rw [hnone h he.symm, hnone h' rfl]

theorem partPlace_ne (h : j ≠ i) (d : Location) : partBytes j :: d ≠ partBytes i :: d := fun heq =>
  h (partBytes_inj (List.cons.inj heq).1)

/-- Part `index` is open as `fd`. -/
structure Holds (l : SplitLayout) (s : Store) (d : Location) (index : Nat) (fd : Handle) : Prop where
  addressable : l.Addressable index
  entry : s.entryAt (partBytes index :: d) = some (.file fd.number)

theorem Holds.part? {fd : Handle} (ho : l.Holds s d i fd) (h : l.At s d) :
    l.part? s i = some (s.content fd) := h.part?_of_file ho.addressable ho.entry

theorem At.openFile (h : l.At s d) (hs : s.WellFormed) {create : Bool} {fd : Handle}
    (hok : s.openFile (l.partPath i) create = .ok (fd, s')) :
    s'.WellFormed ∧ s.Steady l.Addressable d s' ∧ l.Holds s' d i fd ∧
      s'.content fd = (l.part? s i).getD .empty ∧ (∀ j, j ≠ i → l.part? s' j = l.part? s j) ∧
      (create = false → s' = s ∧ l.part? s i ≠ none) := by
  have ha : l.Addressable i := Classical.byContradiction fun ha => by
    obtain ⟨e, -, -, -, hopen⟩ := h.refused ha
    rw [hopen] at hok
    cases hok
  obtain ⟨hs', hretains, -⟩ := openFile_spec hs hok
  have hkeeps := hretains.keeps
  obtain ⟨parent, name, hr, -, hcase⟩ := openFile_eq_ok hok
  rw [h.resolve ha.1] at hr
  cases hr
  obtain ⟨he, rfl⟩ | ⟨hcreate, hnone, rfl, rfl⟩ := hcase
  · have hp := h.part?_of_file ha he
    exact ⟨hs, Steady.refl _ _ _, ⟨ha, he⟩, by rw [hp]; rfl, fun _ _ => rfl,
      fun _ => ⟨rfl, by rw [hp]; simp⟩⟩
  · refine ⟨hs', ⟨hkeeps, fun place => ?_⟩, ⟨ha, by rw [entryAt_set rfl, if_pos rfl]⟩, ?_,
      fun j hj => ?_, ?_⟩
    · rw [entryAt_set rfl]
      split
      · exact Or.inr ⟨i, by assumption, ha, fun e he => ⟨_, (Option.some.inj he).symm⟩⟩
      · exact Or.inl rfl
    · rw [h.part?_of_not_file fun n hn => by rw [hnone] at hn; cases hn]
      simp only [Store.content, fileData, Table.get?_set, if_true]
      rfl
    · refine h.part?_congr (h.keeps hkeeps) ?_ fun n hn => ?_
      · rw [entryAt_set rfl, if_neg (partPlace_ne hj d)]
      · have := hs.number_lt _ n hn
        simp only [Store.content, fileData, Table.get?_set, if_neg (Nat.ne_of_lt this)]
    · intro hfalse
      rw [hfalse] at hcreate
      cases hcreate

theorem Holds.part?_update {fd : Handle} (ho : l.Holds s d i fd) (h : l.At s d) (hs : s.WellFormed)
    (hw : s'.workingDirectory = s.workingDirectory) (he : s'.entries = s.entries)
    (hc : ∀ fd', fd'.number ≠ fd.number → s'.content fd' = s.content fd') (j : Nat) :
    l.part? s' j = if j = i then some (s'.content fd) else l.part? s j := by
  have h' := h.keeps (keeps_of_entries hw he)
  split
  · rename_i heq
    rw [heq]
    exact h'.part?_of_file ho.addressable ((entryAt_congr he _).trans ho.entry)
  · rename_i hne
    refine h.part?_congr h' (entryAt_congr he _) fun n hn => hc _ fun heq => ?_
    refine partPlace_ne hne d (hs.number_inj _ _ n hn ?_)
    rw [show n = fd.number from heq]
    exact ho.entry

theorem At.removeFile (h : l.At s d) (hs : s.WellFormed)
    (hok : s.removeFile (l.partPath i) = .ok s') :
    s'.WellFormed ∧ s.Steady l.Addressable d s' ∧ (∀ j, l.part? s' j = if j = i then none else l.part? s j) ∧
      l.part? s i ≠ none ∧ s'.entries.rows.length < s.entries.rows.length := by
  have ha : l.Addressable i := Classical.byContradiction fun ha => by
    obtain ⟨e, -, -, hremove, -⟩ := h.refused ha
    rw [hremove] at hok
    cases hok
  obtain ⟨hs', hkeeps⟩ := removeFile_spec hs hok
  have h' := h.keeps hkeeps
  obtain ⟨parent, name, n, hr, -, he, rfl⟩ := removeFile_eq_ok hok
  rw [h.resolve ha.1] at hr
  cases hr
  refine ⟨hs', ⟨hkeeps, fun place => ?_⟩, fun j => ?_,
    by rw [h.part?_of_file ha he]; simp, ?_⟩
  · rw [entryAt_erase rfl]
    split
    · exact Or.inr ⟨i, by assumption, ha, nofun⟩
    · exact Or.inl rfl
  · split
    · rename_i heq
      refine h'.part?_of_not_file fun n hn => ?_
      rw [entryAt_erase rfl, if_pos (by rw [heq])] at hn
      cases hn
    · rename_i hne
      exact h.part?_congr h'
        (by rw [entryAt_erase rfl, if_neg (partPlace_ne hne d)]) fun _ _ => rfl
  · refine Table.length_erase_lt ?_
    rw [entryAt_of_ne (by simp)] at he
    rw [he]
    simp

/-! ## Leading parts -/

theorem At.sub_le_length_rows (h : l.At s d) {i m : Nat}
    (hparts : ∀ j, i ≤ j → j < m → l.part? s j ≠ none) : m - i ≤ s.entries.rows.length := by
  have hcount : ∀ (n : Nat) (t : Table Location Entry),
      (∀ j, i ≤ j → j < i + n → t.get? (partBytes j :: d) ≠ none) → n ≤ t.rows.length := by
    intro n
    induction n with
    | zero => exact fun t _ => Nat.zero_le _
    | succ n ih =>
      intro t ht
      have hlt := Table.length_erase_lt (ht (i + n) (Nat.le_add_right i n) (Nat.lt_succ_self _))
      have := ih (t.erase (partBytes (i + n) :: d)) fun j hj hjlt => by
        rw [Table.get?_erase, if_neg (partPlace_ne (Nat.ne_of_lt hjlt) d)]
        exact ht j hj (Nat.lt_succ_of_lt hjlt)
      omega
  refine hcount (m - i) s.entries fun j hj hjlt hnone => hparts j hj (by omega)
    (h.part?_of_not_file fun n hn => ?_)
  rw [entryAt_of_ne (by simp), hnone] at hn
  cases hn

theorem At.le_length_rows (h : l.At s d) {m : Nat} (hparts : ∀ j, j < m → l.part? s j ≠ none) :
    m ≤ s.entries.rows.length :=
  h.sub_le_length_rows (i := 0) fun j _ hj => hparts j hj

theorem At.scan_eq (h : l.At s d) {m : Nat} (hparts : ∀ j, j < m → l.part? s j ≠ none)
    (hgap : l.part? s m = none) :
    l.scan s = (List.range m).map fun j => (j, ((l.part? s j).map Content.size).getD 0) := by
  have hfrom : ∀ n bound index, index + n = m → n ≤ bound →
      l.scanFrom s bound index =
        (List.range' index n).map fun j => (j, ((l.part? s j).map Content.size).getD 0) := by
    intro n
    induction n with
    | zero =>
      intro bound index hm _
      cases bound with
      | zero => rfl
      | succ bound =>
        rw [scanFrom, fileSize?_partPath, show index = m by omega, hgap]
        rfl
    | succ n ih =>
      intro bound index hm hle
      obtain ⟨bound, rfl⟩ : ∃ b, bound = b + 1 := ⟨bound - 1, by omega⟩
      obtain ⟨c, hc⟩ := Option.ne_none_iff_exists'.mp (hparts index (by omega))
      rw [scanFrom, fileSize?_partPath, hc, List.range'_succ, List.map_cons, hc,
        ← ih bound (index + 1) (by omega) (by omega)]
      rfl
  rw [scan, hfrom m _ 0 (Nat.zero_add m) (h.le_length_rows hparts), List.range_eq_range']

end SplitLayout

end RangeTransfer
