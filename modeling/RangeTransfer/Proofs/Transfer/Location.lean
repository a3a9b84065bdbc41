import RangeTransfer.Proofs.Sink.Open
import RangeTransfer.Transfer.Placement
/-!
# Where attempts write

Every attempt at a transfer makes the directory above its path, or moves to the fallback directory.
Once that has worked, the path is rooted in a directory that is there (`usableParent_spec`), and the
next attempt finds the same place and makes no more directories (`usableParent_again`). Opening a
sink at a rooted path adds no directory but a split directory that is missing
(`claimDirectory_of_absent`).
-/

namespace RangeTransfer
open Store

/-- The path in the directory that an attempt has moved to, if it has. -/
def Path.movedTo (p : Path) : Option Path → Path
  | some parent => parent.join ⟨p.fileName?.getD []⟩
  | none => p

/-- The layout in the directory that an attempt has moved to, if it has. -/
def SplitLayout.movedTo (l : SplitLayout) : Option Path → SplitLayout
  | some parent => l.relocated parent
  | none => l

theorem SplitLayout.directory_movedTo (l : SplitLayout) (moved : Option Path) :
    (l.movedTo moved).directory = l.directory.movedTo moved := by
  cases moved <;> rfl

namespace Store

variable {s s' : Store} {p : Path}

/-- The directory above the path is there: it is the parent, or the names before the last lead
to it. -/
def Rooted (s : Store) (p : Path) : Prop :=
  (∀ q, p.parentDirectory? = some q → s.isDirectory q = true) ∨
    ∃ place, s.walk (s.start p) p.names.dropLast = .ok place

theorem Rooted.keeps (h : s.Rooted p) (hk : s.Keeps s') : s'.Rooted p := by
  refine h.imp (fun h q hq => hk.isDirectory (h q hq)) fun ⟨place, hwalk⟩ => ⟨place, ?_⟩
  rw [hk.start]
  exact hk.walk hwalk

theorem walk_of_made {f : Path} (hf : f.bytes = [] ∨ s.isDirectory f = true) (n : Nat) :
    ∃ place, s.walk (s.start f) (f.names.take n) = .ok place := by
  have hwhole : ∃ place, s.walk (s.start f) f.names = .ok place := by
    rcases hf with hnil | hd
    · rw [Path.names, hnil]
      exact ⟨_, rfl⟩
    · obtain ⟨place, hfind⟩ := isDirectory_iff.mp hd
      exact ⟨place, walk_of_find hfind⟩
  obtain ⟨place, hwalk⟩ := hwhole
  rw [← List.take_append_drop n f.names, walk_append] at hwalk
  cases hfirst : s.walk (s.start f) (f.names.take n) with
  | error e => rw [hfirst] at hwalk; cases hwalk
  | ok parent => exact ⟨parent, rfl⟩

theorem rooted_join {f : Path} {name : Name} (hf : f.bytes = [] ∨ s.isDirectory f = true)
    (hslash : Path.slash ∉ name) : s.Rooted (f.join ⟨name⟩) := by
  right
  rw [start, Path.isAbsolute_join hslash, ← start]
  by_cases hnil : name = []
  · rw [hnil, Path.names_join_nil, List.dropLast_eq_take]
    exact walk_of_made hf _
  · rw [Path.names_join hnil hslash, List.dropLast_concat, ← List.take_length (l := f.names)]
    exact walk_of_made hf _

theorem Rooted.createDirectories_eq (h : s.Rooted p) :
    (s.createDirectories (p.parentDirectory?.getD ⟨[]⟩)).2 = s := by
  cases hparent : p.parentDirectory? with
  | none => rfl
  | some q =>
    obtain ⟨hq, hne⟩ := Option.filter_eq_some_iff.mp hparent
    have hne : q.bytes ≠ [] := of_decide_eq_true hne
    by_cases hd : s.isDirectory q = true
    · exact congrArg Prod.snd (createDirectories_of_isDirectory (Or.inr hd))
    · rcases h with h | ⟨place, hwalk⟩
      · exact absurd (h q hparent) hd
      · -- the names of the parent can be walked, so the parent is refused for what it is
        obtain ⟨habsolute, more, hmore⟩ := Path.names_parent? hq hne
        rw [← hmore, walk_append, start, ← habsolute, ← start] at hwalk
        have hrefused : ¬ Walkable q := fun hw => by
          cases hfirst : s.walk (s.start q) q.names with
          | error e =>
            rw [hfirst] at hwalk
            cases hwalk
          | ok parent => exact hd (isDirectory_of_walk hw hfirst)
        obtain ⟨e, hno, hres⟩ := resolve_of_not_walkable (s := s) hrefused hne
        have hmake : s.createDirectory q = .error e := by
          simp only [createDirectory, hres]
          rfl
        have hensure : (s.ensureDirectory q).2 = s := by
          unfold ensureDirectory
          rw [hmake]
        show (s.createDirectories q).2 = s
        rw [createDirectories, if_neg hne]
        cases hlen : q.bytes.length with
        | zero => exact hensure
        | succ n =>
          rw [createDirectoriesWithin, hmake]
          split
          · rename_i heq _
            cases heq
            exact absurd rfl hno
          · exact hensure

theorem createDirectory_ne_notFound {place : Location} (hne : p.bytes ≠ [])
    (hwalk : s.walk (s.start p) p.names.dropLast = .ok place) :
    s.createDirectory p ≠ .error .notFound := by
  intro hmake
  simp only [createDirectory, bind, Except.bind] at hmake
  split at hmake
  · rename_i e hres
    cases hmake
    by_cases hw : Walkable p
    · rw [resolve_of_walkable hw] at hres
      split at hres
      · cases hres
      · simp only [hwalk, bind, Except.bind] at hres
        split at hres
        · cases hres
        · split at hres <;> cases hres
    · obtain ⟨e, hno, hres'⟩ := resolve_of_not_walkable (s := s) hw hne
      rw [hres'] at hres
      cases hres
      exact hno rfl
  · rename_i x hx
    cases x with
    | directory q => cases hmake
    | name parent name b =>
      simp only at hmake
      split at hmake
      · cases hmake
      · split at hmake <;> cases hmake

theorem Rooted.createDirectories_of_absent (h : s.Rooted p) (hne : p.bytes ≠ [])
    (habsent : s.pathExists p = false) {made : Except StorageError Unit}
    (hmade : s.createDirectories p = (made, s')) :
    (s' = s ∧ ∃ e, made = .error e) ∨ made = .ok () ∧ s.createDirectory p = .ok s' := by
  have hdir : s.isDirectory p = false := by
    unfold pathExists at habsent
    unfold isDirectory
    cases hfind : s.find p with
    | error e => rfl
    | ok found => rw [hfind] at habsent; cases habsent
  have hensure : ∀ {made : Except StorageError Unit} {s'}, s.ensureDirectory p = (made, s') →
      (s' = s ∧ ∃ e, made = .error e) ∨ made = .ok () ∧ s.createDirectory p = .ok s' := by
    intro made s' heq
    unfold ensureDirectory at heq
    cases hc : s.createDirectory p with
    | ok s₁ =>
      rw [hc] at heq
      cases heq
      exact Or.inr ⟨rfl, rfl⟩
    | error e =>
      rw [hc, hdir] at heq
      cases heq
      exact Or.inl ⟨rfl, e, rfl⟩
  rw [createDirectories, if_neg hne] at hmade
  cases hlen : p.bytes.length with
  | zero => exact absurd (List.length_eq_zero_iff.mp hlen) hne
  | succ n =>
    rw [hlen, createDirectoriesWithin] at hmade
    split at hmade
    · rename_i parent hmissing hparent
      split at hmade
      · exact hensure hmade
      · rename_i hnil
        have hd : s.isDirectory parent = true := by
          rcases h with h | ⟨place, hwalk⟩
          · refine h parent ?_
            rw [Path.parentDirectory?, hparent]
            exact Option.filter_eq_some_iff.mpr ⟨rfl, decide_eq_true hnil⟩
          · exact absurd hmissing (createDirectory_ne_notFound hne hwalk)
        rw [createDirectoriesWithin_of_isDirectory n hd] at hmade
        exact hensure hmade
    · exact hensure hmade

/-! ## Parents -/

variable {fallback moved : Option Path}

theorem usableParent_spec (hs : s.WellFormed) (h : s.usableParent fallback p = (.ok moved, s')) :
    s.Grows s' ∧ s'.Rooted (p.movedTo moved) := by
  unfold usableParent at h
  cases hparent : p.parentDirectory? with
  | none =>
    rw [hparent] at h
    cases h
    exact ⟨Grows.refl s, Or.inl fun q hq => by rw [Path.movedTo, hparent] at hq; cases hq⟩
  | some parent =>
    have hne : parent.bytes ≠ [] := by
      have := (Option.filter_eq_some_iff.mp hparent).2
      exact of_decide_eq_true this
    have hgrows := grows_createDirectories hs parent
    simp only [hparent] at h
    cases hmade : s.createDirectories parent with
    | mk made s₁ =>
      rw [hmade] at h hgrows
      cases made with
      | ok _ =>
        cases h
        refine ⟨hgrows, Or.inl fun q hq => ?_⟩
        rw [Path.movedTo, hparent] at hq
        cases hq
        exact (isDirectory_of_createDirectories hs hmade).resolve_left hne
      | error e =>
        cases fallback with
        | none => cases h
        | some f =>
          have hs₁ := hgrows.wellFormed hs
          have hgrows' := grows_createDirectories hs₁ f
          simp only at h
          cases hmade' : s₁.createDirectories f with
          | mk made' s₂ =>
            rw [hmade'] at h hgrows'
            cases made' with
            | error e' => cases h
            | ok _ =>
              cases h
              refine ⟨hgrows.trans hgrows', rooted_join
                (isDirectory_of_createDirectories hs₁ hmade') ?_⟩
              cases hname : p.fileName? with
              | none => exact List.not_mem_nil
              | some name => exact Path.slash_not_mem_fileName? hname

/-- Where the parent could be made, it is there for the next attempt. -/
theorem usableParent_again (hs : s.WellFormed) (h : s.usableParent fallback p = (.ok none, s'))
    {s'' : Store} (hk : s'.Keeps s'') : s''.usableParent fallback p = (.ok none, s'') := by
  obtain ⟨-, hrooted⟩ := usableParent_spec hs h
  unfold usableParent
  cases hparent : p.parentDirectory? with
  | none => rfl
  | some parent =>
    have hd : s''.isDirectory parent = true := by
      unfold usableParent at h
      simp only [hparent] at h
      cases hmade : s.createDirectories parent with
      | mk made s₁ =>
        rw [hmade] at h
        cases made with
        | ok _ =>
          cases h
          have hne : parent.bytes ≠ [] := of_decide_eq_true (Option.filter_eq_some_iff.mp hparent).2
          exact hk.isDirectory ((isDirectory_of_createDirectories hs hmade).resolve_left hne)
        | error e =>
          cases fallback with
          | none => cases h
          | some f =>
            simp only at h
            split at h <;> cases h
    simp only [createDirectories_of_isDirectory (Or.inr hd)]

end Store

theorem SplitLayout.claimDirectory_of_absent {l : SplitLayout} {s s' : Store} (hs : s.WellFormed)
    (h : s.Rooted l.directory) (hne : l.directory.bytes ≠ [])
    (habsent : s.pathExists l.directory = false) {r : Except TransferError Unit}
    (hclaim : l.claimDirectory s = (r, s')) :
    (s' = s ∧ ∃ e, r = .error e) ∨ r = .ok () ∧ s.Grows s' ∧ l.Made s' ∧
      ∃ d, l.At s' d ∧ s.entryAt d = none ∧ ∀ name, s'.entryAt (name :: d) = none := by
  have hfile : s.isFile l.directory = false := by
    unfold Store.pathExists at habsent
    unfold Store.isFile Store.fileSize?
    cases hfind : s.find l.directory with
    | error e => rfl
    | ok found => rw [hfind] at habsent; cases habsent
  simp only [claimDirectory, hfile, Bool.false_eq_true, if_false] at hclaim
  cases hmade : s.createDirectories l.directory with
  | mk made s₁ =>
    rw [hmade] at hclaim
    rcases h.createDirectories_of_absent hne habsent hmade with ⟨rfl, e, rfl⟩ | ⟨rfl, hmake⟩
    · cases hclaim
      exact Or.inl ⟨rfl, _, rfl⟩
    · cases hclaim
      have hgrows := grows_createDirectory hs hmake
      have hmade := isDirectory_of_createDirectory hs hmake
      obtain ⟨parent, name, b, hr, hlen, hnone, rfl⟩ := createDirectory_eq_ok hmake
      have he : Store.entryAt { s with entries := s.entries.set (name :: parent) .directory }
          (name :: parent) = some .directory := by rw [entryAt_set rfl, if_pos rfl]
      refine Or.inr ⟨rfl, hgrows, Or.inr hmade, name :: parent, walk_of_find ?_, hnone, fun child => ?_⟩
      · simp only [find, hgrows.keeps.resolve hr, bind, Except.bind, if_neg (Nat.not_lt.mpr hlen), he]
        rfl
      · rw [entryAt_set rfl, if_neg fun heq => by simpa using congrArg List.length heq]
        cases hchild : s.entryAt (child :: name :: parent) with
        | none => rfl
        | some e =>
          have := hs.parent _ _ _ hchild
          rw [hnone] at this
          cases this

end RangeTransfer
