import RangeTransfer.Proofs.Storage.Operations
/-!
# The directories on the way to a path

Making the directories along a path adds directories, and each of them is on the way to the path:
the first names of the path lead to it (`growsOn_createDirectories`). Which place that is does not
change when further directories are made (`OnWay.keeps`).
-/

namespace RangeTransfer.Store

variable {s s' s'' : Store} {p q : Path} {paths paths' : List Path} {place : Location}

/-- The first names of the path lead to `place`. -/
def OnWay (s : Store) (p : Path) (place : Location) : Prop :=
  ∃ names, names <+: p.names ∧ s.walk (s.start p) names = .ok place

theorem OnWay.keeps (h : s.OnWay p place) (hk : s.Keeps s') : s'.OnWay p place := by
  obtain ⟨names, hnames, hwalk⟩ := h
  exact ⟨names, hnames, by rw [hk.start]; exact hk.walk hwalk⟩

/-- `q` is the start of `p`. -/
def Leads (q p : Path) : Prop := q.isAbsolute = p.isAbsolute ∧ q.names <+: p.names

theorem OnWay.leads (h : s.OnWay q place) (hq : Leads q p) : s.OnWay p place := by
  obtain ⟨names, hnames, hwalk⟩ := h
  refine ⟨names, hnames.trans hq.2, ?_⟩
  rwa [start, ← hq.1]

theorem leads_parent? (h : p.parent? = some q) (hne : q.bytes ≠ []) : Leads q p := by
  obtain ⟨habsolute, hnames⟩ := Path.names_parent? h hne
  exact ⟨habsolute, hnames.trans (List.dropLast_prefix _)⟩

theorem Grows.file_iff (h : s.Grows s') (place : Location) (n : Nat) :
    s'.entryAt place = some (.file n) ↔ s.entryAt place = some (.file n) := by
  refine ⟨fun hfile => ?_, h.entry place _⟩
  cases hold : s.entryAt place with
  | none =>
    rcases h.fresh place hold with hnone | hdir
    · rw [hnone] at hfile
      cases hfile
    · rw [hdir] at hfile
      cases hfile
  | some e =>
    rw [h.entry place e hold] at hfile
    exact hfile

/-- `s'` is `s` with further directories, each of them on the way to one of the paths. -/
structure GrowsOn (s : Store) (paths : List Path) (s' : Store) : Prop extends Grows s s' where
  onWay : ∀ place, s.entryAt place = none → s'.entryAt place ≠ none →
    ∃ p ∈ paths, s'.OnWay p place

namespace GrowsOn

theorem refl (s : Store) (paths : List Path) : s.GrowsOn paths s :=
  ⟨Grows.refl s, fun _ hnone hsome => absurd hnone hsome⟩

theorem trans (h : s.GrowsOn paths s') (h' : s'.GrowsOn paths s'') : s.GrowsOn paths s'' := by
  refine ⟨h.toGrows.trans h'.toGrows, fun place hnone hsome => ?_⟩
  by_cases hmade : s'.entryAt place = none
  · exact h'.onWay place hmade hsome
  · obtain ⟨p, hp, hway⟩ := h.onWay place hnone hmade
    exact ⟨p, hp, hway.keeps h'.keeps⟩

theorem mono (h : s.GrowsOn paths s') (hle : ∀ q ∈ paths, ∃ p ∈ paths', Leads q p) :
    s.GrowsOn paths' s' := by
  refine ⟨h.toGrows, fun place hnone hsome => ?_⟩
  obtain ⟨q, hq, hway⟩ := h.onWay place hnone hsome
  obtain ⟨p, hp, hleads⟩ := hle q hq
  exact ⟨p, hp, hway.leads hleads⟩

theorem subset (h : s.GrowsOn paths s') (hle : paths ⊆ paths') : s.GrowsOn paths' s' :=
  h.mono fun q hq => ⟨q, hle hq, rfl, List.prefix_rfl⟩

end GrowsOn

/-! ## Making directories -/

theorem growsOn_createDirectory (hs : s.WellFormed) (h : s.createDirectory p = .ok s') :
    s.GrowsOn [p] s' := by
  have hgrows := grows_createDirectory hs h
  obtain ⟨parent, name, b, hr, hlen, hnone, rfl⟩ := createDirectory_eq_ok h
  refine ⟨hgrows, fun place hold hnew => ⟨p, List.mem_singleton_self p, ?_⟩⟩
  rw [entryAt_set rfl] at hnew
  split at hnew
  · rename_i heq
    subst heq
    obtain ⟨-, hx⟩ | ⟨names, last, parent', hnames, hwalk, hx⟩ := resolve_cases hr
    · cases hx
    · rcases hx with ⟨-, hx⟩ | ⟨-, -, hx⟩ | ⟨hdot, hup, hx⟩
      · cases hx
      · cases hx
      · cases hx
        have hdir : Store.entryAt
            { s with entries := s.entries.set (name :: parent) .directory } (name :: parent) =
              some .directory := by rw [entryAt_set rfl, if_pos rfl]
        refine ⟨p.names, List.prefix_rfl, ?_⟩
        rw [hnames, walk_append, hgrows.keeps.start, hgrows.keeps.walk hwalk]
        show Store.walk _ parent [name] = _
        rw [walk, if_neg hdot, if_neg hup, if_neg (Nat.not_lt.mpr hlen), hdir]
        rfl
  · exact absurd hold hnew

theorem growsOn_ensureDirectory (hs : s.WellFormed) (p : Path) :
    s.GrowsOn [p] (s.ensureDirectory p).2 := by
  unfold ensureDirectory
  split
  · rename_i h
    exact growsOn_createDirectory hs h
  · exact GrowsOn.refl s [p]

theorem growsOn_createDirectoriesWithin (n : Nat) (hs : s.WellFormed) (p : Path) :
    s.GrowsOn [p] (createDirectoriesWithin n s p).2 := by
  induction n generalizing p s with
  | zero => exact growsOn_ensureDirectory hs p
  | succ n ih =>
    rw [createDirectoriesWithin]
    split
    · rename_i parent _ hparent
      split
      · exact growsOn_ensureDirectory hs p
      · rename_i hne
        have habove : s.GrowsOn [p] (createDirectoriesWithin n s parent).2 :=
          (ih hs parent).mono fun q hq => by
            obtain rfl := List.mem_singleton.mp hq
            exact ⟨p, List.mem_singleton_self p, leads_parent? hparent hne⟩
        split
        · rename_i heq
          rw [heq] at habove
          exact habove.trans (growsOn_ensureDirectory (habove.wellFormed hs) p)
        · rename_i heq
          rw [heq] at habove
          exact habove
    · exact growsOn_ensureDirectory hs p

theorem growsOn_createDirectories (hs : s.WellFormed) (p : Path) :
    s.GrowsOn [p] (s.createDirectories p).2 := by
  unfold createDirectories
  split
  · exact GrowsOn.refl s [p]
  · exact growsOn_createDirectoriesWithin _ hs p

end RangeTransfer.Store
