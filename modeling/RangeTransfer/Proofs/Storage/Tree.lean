import RangeTransfer.Proofs.Path
import RangeTransfer.Storage.Store
/-!
# The tree of a store

`Store.WellFormed` is what every operation keeps: what has an entry lies in a directory, and no two
entries share a file. A path is walked name by name from its start (`resolve_cases`). What it leads
to does not change as long as the directories stay (`Keeps`), which is all that a transfer does to
them; `Grows` is the change in which directories are added and nothing else.
-/

namespace RangeTransfer.Store

structure WellFormed (s : Store) : Prop where
  working : s.entryAt s.workingDirectory = some .directory
  parent : ∀ name place e, s.entryAt (name :: place) = some e → s.entryAt place = some .directory
  number_lt : ∀ place n, s.entryAt place = some (.file n) → n < s.nextFile
  number_inj : ∀ place place' n, s.entryAt place = some (.file n) →
    s.entryAt place' = some (.file n) → place = place'

/-- Where a path starts. -/
def start (s : Store) (p : Path) : Location := if p.isAbsolute then [] else s.workingDirectory

variable {s s' : Store} {p : Path} {place d : Location} {names : List Name}

@[simp] theorem entryAt_root (s : Store) : s.entryAt [] = some .directory := if_pos rfl

theorem entryAt_of_ne (h : place ≠ []) : s.entryAt place = s.entries.get? place := if_neg h

theorem WellFormed.start (h : s.WellFormed) (p : Path) : s.entryAt (s.start p) = some .directory := by
  unfold Store.start
  split
  · exact s.entryAt_root
  · exact h.working

theorem entryAt_fresh (wd place : Location) :
    (fresh wd).entryAt place = if place <:+ wd then some .directory else none := by
  have hlookup : place ≠ [] → (fresh wd).entries.get? place =
      if place <:+ wd then some .directory else none := by
    intro hne
    show Table.lookup place ((placesTo wd).map fun place => (place, Entry.directory)) = _
    induction wd with
    | nil => simp [placesTo, Table.lookup, hne]
    | cons name parent ih =>
      rw [placesTo, List.map_cons, Table.lookup, ih]
      by_cases heq : name :: parent = place
      · rw [if_pos heq, if_pos (heq ▸ List.suffix_rfl)]
      · rw [if_neg heq]
        simp only [List.suffix_cons_iff, Ne.symm heq, false_or]
  by_cases hroot : place = []
  · rw [hroot, entryAt_root, if_pos List.nil_suffix]
  · rw [entryAt_of_ne hroot, hlookup hroot]

theorem wellFormed_fresh (wd : Location) : (fresh wd).WellFormed where
  working := by
    show (fresh wd).entryAt wd = _
    rw [entryAt_fresh, if_pos List.suffix_rfl]
  parent name place e h := by
    rw [entryAt_fresh] at h ⊢
    split at h
    · rename_i hsuffix
      rw [if_pos ((List.suffix_cons name place).trans hsuffix)]
    · cases h
  number_lt place n h := by
    rw [entryAt_fresh] at h
    split at h <;> cases h
  number_inj place place' n h := by
    rw [entryAt_fresh] at h
    split at h <;> cases h

/-! ## Walking -/

theorem walk_append (xs ys : List Name) :
    s.walk place (xs ++ ys) = s.walk place xs >>= fun d => s.walk d ys := by
  induction xs generalizing place with
  | nil => rfl
  | cons x xs ih =>
    rw [List.cons_append, walk, walk]
    split
    · exact ih
    · split
      · exact ih
      · split
        · rfl
        · split
          · rfl
          · rfl
          · exact ih

theorem walk_directory (hs : s.WellFormed) (hplace : s.entryAt place = some .directory)
    (h : s.walk place names = .ok d) : s.entryAt d = some .directory := by
  induction names generalizing place with
  | nil => cases h; exact hplace
  | cons x names ih =>
    rw [walk] at h
    split at h
    · exact ih hplace h
    · split at h
      · refine ih ?_ h
        cases place with
        | nil => exact hplace
        | cons y place => exact hs.parent y place _ hplace
      · split at h
        · cases h
        · split at h
          · cases h
          · cases h
          · rename_i hdir
            exact ih hdir h

/-- The directories stay where they are. -/
structure Keeps (s s' : Store) : Prop where
  working : s'.workingDirectory = s.workingDirectory
  directory : ∀ place, s.entryAt place = some .directory → s'.entryAt place = some .directory

theorem Keeps.refl (s : Store) : s.Keeps s := ⟨rfl, fun _ => id⟩

theorem Keeps.trans {s'' : Store} (h : s.Keeps s') (h' : s'.Keeps s'') : s.Keeps s'' :=
  ⟨h'.working.trans h.working, fun place hd => h'.directory place (h.directory place hd)⟩

/-- Everything in the tree stays where it is. -/
structure Retains (s s' : Store) : Prop where
  working : s'.workingDirectory = s.workingDirectory
  entry : ∀ place e, s.entryAt place = some e → s'.entryAt place = some e

theorem Retains.refl (s : Store) : s.Retains s := ⟨rfl, fun _ _ => id⟩

theorem Retains.trans {s'' : Store} (h : s.Retains s') (h' : s'.Retains s'') : s.Retains s'' :=
  ⟨h'.working.trans h.working, fun place e he => h'.entry place e (h.entry place e he)⟩

theorem Retains.keeps (h : s.Retains s') : s.Keeps s' := ⟨h.working, fun place => h.entry place _⟩

theorem Keeps.start (h : s.Keeps s') (p : Path) : s'.start p = s.start p := by
  simp only [Store.start, h.working]

theorem Keeps.walk (h : s.Keeps s') (hw : s.walk place names = .ok d) :
    s'.walk place names = .ok d := by
  induction names generalizing place with
  | nil => exact hw
  | cons x names ih =>
    rw [Store.walk] at hw ⊢
    split at hw
    · rename_i hdot
      rw [if_pos hdot]
      exact ih hw
    · rename_i hdot
      rw [if_neg hdot]
      split at hw
      · rename_i hup
        rw [if_pos hup]
        exact ih hw
      · rename_i hup
        rw [if_neg hup]
        split at hw
        · cases hw
        · rename_i hlimit
          rw [if_neg hlimit]
          split at hw
          · cases hw
          · cases hw
          · rename_i hdir
            rw [h.directory _ hdir]
            exact ih hw

/-! ## Resolving -/

/-- A path that can be walked at all. -/
def Walkable (p : Path) : Prop :=
  p.bytes.contains 0 = false ∧ p.bytes ≠ [] ∧ p.bytes.length < pathLimit

instance (p : Path) : Decidable (Walkable p) := inferInstanceAs (Decidable (_ ∧ _ ∧ _))

theorem resolve_of_walkable (h : Walkable p) : s.resolve p =
    match p.names.getLast? with
    | none => .ok (.directory (s.start p))
    | some last => do
      let parent ← s.walk (s.start p) p.names.dropLast
      if last = Path.dot then return .directory parent
      else if last = Path.dotDot then return .directory parent.tail
      else return .name parent last (p.bytes.getLast? = some Path.slash) := by
  obtain ⟨h₁, h₂, h₃⟩ := h
  rw [resolve, h₁, if_neg Bool.false_ne_true, if_neg h₂, if_neg (Nat.not_le.mpr h₃)]
  rfl

theorem walkable_of_resolve {x : Destination} (h : s.resolve p = .ok x) : Walkable p := by
  unfold resolve at h
  split at h
  · cases h
  · rename_i hnul
    split at h
    · cases h
    · rename_i hne
      split at h
      · cases h
      · rename_i hlen
        exact ⟨by simpa using hnul, hne, Nat.not_le.mp hlen⟩

/-- A path that cannot be walked is refused, and not because something is missing. -/
theorem resolve_of_not_walkable (hw : ¬ Walkable p) (hne : p.bytes ≠ []) :
    ∃ e, e ≠ .notFound ∧ s.resolve p = .error e := by
  unfold resolve
  by_cases hnul : p.bytes.contains 0 = true
  · exact ⟨.nulInPath, by simp, by rw [if_pos hnul]⟩
  · rw [if_neg hnul, if_neg hne]
    refine ⟨.nameTooLong, by simp, if_pos (Nat.not_lt.mp fun hlt => hw ⟨?_, hne, hlt⟩)⟩
    simpa using hnul

/-- Where a path leads: to its start, along dots to a directory, or to its last name. -/
theorem resolve_cases {x : Destination} (h : s.resolve p = .ok x) :
    (p.names = [] ∧ x = .directory (s.start p)) ∨
    ∃ names last parent, p.names = names ++ [last] ∧ s.walk (s.start p) names = .ok parent ∧
      ((last = Path.dot ∧ x = .directory parent) ∨
        (last ≠ Path.dot ∧ last = Path.dotDot ∧ x = .directory parent.tail) ∨
        (last ≠ Path.dot ∧ last ≠ Path.dotDot ∧
          x = .name parent last (p.bytes.getLast? = some Path.slash))) := by
  rw [resolve_of_walkable (walkable_of_resolve h)] at h
  cases hlast : p.names.getLast? with
  | none =>
    rw [hlast] at h
    cases h
    exact Or.inl ⟨List.getLast?_eq_none_iff.mp hlast, rfl⟩
  | some last =>
    rw [hlast] at h
    obtain ⟨names, hnames⟩ := List.getLast?_eq_some_iff.mp hlast
    refine Or.inr ⟨names, last, ?_⟩
    simp only [hnames, List.dropLast_concat, bind, Except.bind] at h
    split at h
    · cases h
    · rename_i parent hparent
      refine ⟨parent, hnames, hparent, ?_⟩
      split at h
      · rename_i hdot
        cases h
        exact Or.inl ⟨hdot, rfl⟩
      · rename_i hdot
        split at h
        · rename_i hup
          cases h
          exact Or.inr (Or.inl ⟨hdot, hup, rfl⟩)
        · rename_i hup
          cases h
          exact Or.inr (Or.inr ⟨hdot, hup, rfl⟩)

theorem Keeps.resolve {x : Destination} (h : s.Keeps s') (hr : s.resolve p = .ok x) :
    s'.resolve p = .ok x := by
  have hw := walkable_of_resolve hr
  rw [resolve_of_walkable hw] at hr ⊢
  rw [h.start]
  cases hlast : p.names.getLast? with
  | none => rwa [hlast] at hr
  | some last =>
    rw [hlast] at hr
    simp only [bind, Except.bind] at hr ⊢
    split at hr
    · cases hr
    · rename_i parent hparent
      rw [h.walk hparent]
      exact hr

theorem parent_directory (hs : s.WellFormed) {parent : Location} {name : Name} {b : Bool}
    (h : s.resolve p = .ok (.name parent name b)) : s.entryAt parent = some .directory := by
  rcases resolve_cases h with ⟨-, h⟩ | ⟨names, last, parent', -, hwalk, h | h | h⟩
  · cases h
  · cases h.2
  · cases h.2.2
  · obtain ⟨-, -, heq⟩ := h
    cases heq
    exact walk_directory hs (hs.start p) hwalk

theorem find_of_resolve {parent : Location} {name : Name} {e : Entry}
    (h : s.resolve p = .ok (.name parent name false)) (hlen : name.length ≤ nameLimit)
    (he : s.entryAt (name :: parent) = some e) : s.find p = .ok (name :: parent, e) := by
  simp only [find, h, bind, Except.bind, if_neg (Nat.not_lt.mpr hlen), he]
  cases e <;> rfl

/-- What is found is a directory that the path leads to, or an entry of its last name. -/
theorem find_cases {e : Entry} (h : s.find p = .ok (place, e)) :
    (s.resolve p = .ok (.directory place) ∧ e = .directory) ∨
      ∃ parent name b, s.resolve p = .ok (.name parent name b) ∧ name.length ≤ nameLimit ∧
        place = name :: parent ∧ s.entryAt (name :: parent) = some e ∧
        (b = true → e = .directory) := by
  simp only [find, bind, Except.bind] at h
  split at h
  · cases h
  · rename_i x hx
    cases x with
    | directory q => cases h; exact Or.inl ⟨hx, rfl⟩
    | name parent name b =>
      simp only at h
      split at h
      · cases h
      · rename_i hlen
        refine Or.inr ⟨parent, name, b, hx, Nat.not_lt.mp hlen, ?_⟩
        cases he : s.entryAt (name :: parent) with
        | none => rw [he] at h; cases h
        | some entry =>
          rw [he] at h
          cases entry with
          | directory => cases h; exact ⟨rfl, rfl, fun _ => rfl⟩
          | file n =>
            cases b with
            | true => cases h
            | false => cases h; exact ⟨rfl, rfl, nofun⟩

theorem find_directory_cases (h : s.find p = .ok (place, .directory)) :
    s.resolve p = .ok (.directory place) ∨
      ∃ parent name b, s.resolve p = .ok (.name parent name b) ∧ name.length ≤ nameLimit ∧
        place = name :: parent ∧ s.entryAt (name :: parent) = some .directory := by
  rcases find_cases h with ⟨hr, -⟩ | ⟨parent, name, b, hr, hlen, hplace, he, -⟩
  · exact Or.inl hr
  · exact Or.inr ⟨parent, name, b, hr, hlen, hplace, he⟩

theorem isDirectory_iff : s.isDirectory p = true ↔ ∃ place, s.find p = .ok (place, .directory) := by
  unfold isDirectory
  split
  · rename_i place h
    exact iff_of_true rfl ⟨place, h⟩
  · rename_i hno
    exact iff_of_false Bool.false_ne_true fun ⟨place, h⟩ => hno place h

theorem Keeps.isDirectory (h : s.Keeps s') (hd : s.isDirectory p = true) :
    s'.isDirectory p = true := by
  obtain ⟨place, hp⟩ := isDirectory_iff.mp hd
  refine isDirectory_iff.mpr ⟨place, ?_⟩
  rcases find_directory_cases hp with hr | ⟨parent, name, b, hr, hlen, rfl, he⟩
  · simp only [find, h.resolve hr]; rfl
  · simp only [find, h.resolve hr, bind, Except.bind, if_neg (Nat.not_lt.mpr hlen),
      h.directory _ he]
    rfl

theorem walk_of_find (h : s.find p = .ok (place, .directory)) :
    s.walk (s.start p) p.names = .ok place := by
  have hlast : ∀ {names last parent}, p.names = names ++ [last] →
      s.walk (s.start p) names = .ok parent →
      s.walk (s.start p) p.names = s.walk parent [last] := by
    intro names last parent hnames hwalk
    rw [hnames, walk_append, hwalk]
    rfl
  rcases find_directory_cases h with hr | ⟨parent, name, b, hr, hlen, rfl, he⟩
  · rcases resolve_cases hr with ⟨hnil, heq⟩ | ⟨names, last, parent, hnames, hwalk, hx⟩
    · cases heq
      rw [hnil]
      rfl
    · rw [hlast hnames hwalk]
      rcases hx with ⟨hdot, heq⟩ | ⟨hdot, hup, heq⟩ | ⟨-, -, heq⟩
      · cases heq
        rw [walk, if_pos hdot]
        rfl
      · cases heq
        rw [walk, if_neg hdot, if_pos hup]
        rfl
      · cases heq
  · rcases resolve_cases hr with ⟨-, heq⟩ | ⟨names, last, parent', hnames, hwalk, hx⟩
    · cases heq
    · rcases hx with ⟨-, heq⟩ | ⟨-, -, heq⟩ | ⟨hdot, hup, heq⟩
      · cases heq
      · cases heq
      · cases heq
        rw [hlast hnames hwalk, walk, if_neg hdot, if_neg hup, if_neg (Nat.not_lt.mpr hlen), he]
        rfl

end RangeTransfer.Store
