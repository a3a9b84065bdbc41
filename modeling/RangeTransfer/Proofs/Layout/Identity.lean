import RangeTransfer.Proofs.Layout.Names
import RangeTransfer.Proofs.Layout.SafeNames
import RangeTransfer.Proofs.Path.Children
/-!
# Where a split placement belongs

The name of a split directory is a plain one whatever the target is called: its base starts with no
dot and is not empty, and nothing in it is a slash (`plain_directoryBytes`). So the directory is the
child of that name beside the target, and under another directory it is the child of the same name
(`forTarget_relocated_spec`). The parts of any layout are children of its directory, a different one
for each number (`parent?_partPath`, `partPath_inj`).
-/

namespace RangeTransfer.SplitLayout

variable {l : SplitLayout} {i j : Nat}

/-! ## The name of the directory -/

theorem toList_safeName (name : String) : ∃ c cs, (Layout.safeName name).toList = c :: cs ∧
    Layout.isPlain c = true := by
  have hbase := Layout.isBase_safeBase (Layout.splitExtension name.toList).1
  rw [Layout.safeName_eq, String.toList_ofList]
  obtain ⟨c, rest, heq⟩ := List.exists_cons_of_ne_nil hbase.ne_nil
  rw [heq, List.cons_append]
  exact ⟨c, _, rfl, hbase.plain c (heq ▸ List.mem_cons_self)⟩

/-- A name that is a segment of its own and leads to an entry of its directory. -/
structure PlainText (name : String) : Prop where
  ne_empty : name ≠ ""
  ne_dot : name ≠ "."
  ne_dotDot : name ≠ ".."
  slash_not_mem : '/' ∉ name.toList

theorem PlainText.encode {name : String} (h : PlainText name) : Path.Plain (Text.encode name) := by
  refine ⟨fun heq => h.ne_empty (Text.encode_inj heq), ?_,
    fun heq => h.ne_dot (Text.encode_inj heq), fun heq => h.ne_dotDot (Text.encode_inj heq)⟩
  rw [← String.ofList_toList (s := name)]
  exact Text.slash_not_mem_encode h.slash_not_mem

theorem plainText_directoryName (target : Path) : PlainText (directoryName target) := by
  obtain ⟨c, cs, hname, hplain⟩ := toList_safeName (Text.decodeLossy (target.fileName?.getD []))
  have hfirst : ∀ {name}, directoryName target = name → name.toList.head? = some c := by
    rintro _ rfl
    rw [directoryName, hname]
    rfl
  refine ⟨fun h => ?_, fun h => ?_, fun h => ?_, ?_⟩
  · cases hfirst h
  · cases hfirst h
    exact absurd hplain (by decide)
  · cases hfirst h
    exact absurd hplain (by decide)
  · obtain ⟨cs, -, hslash, heq⟩ := directoryBytes_eq target
    rw [Text.encode_inj heq, String.toList_ofList]
    exact hslash

theorem plain_directoryBytes (target : Path) : Path.Plain (directoryBytes target) :=
  (plainText_directoryName target).encode

/-! ## Parts -/

theorem plain_partBytes (i : Nat) : Path.Plain (partBytes i) :=
  ⟨partBytes_ne_nil i, slash_not_mem_partBytes i, (partBytes_ne_dot i).1, (partBytes_ne_dot i).2⟩

theorem partPath_inj (h : (l.partPath i).components = (l.partPath j).components) : i = j :=
  partBytes_inj (Path.join_components_inj (plain_partBytes i) (plain_partBytes j) h)

theorem parent?_partPath (l : SplitLayout) (i : Nat) :
    (l.partPath i).parent? = some l.directory.stripped :=
  Path.parent?_join (plain_partBytes i)

/-- The parts lie in the directory, and no two of them are the same. -/
structure HoldsParts (l : SplitLayout) : Prop where
  child : ∀ i, (l.partPath i).parent? = some l.directory
  inj : ∀ i j, (l.partPath i).components = (l.partPath j).components → i = j

theorem holdsParts_join {parent : Path} {name : Name} (h : Path.Plain name)
    (hl : l.directory = parent.join ⟨name⟩) : l.HoldsParts :=
  ⟨fun i => by rw [parent?_partPath, hl, Path.stripped_join h], fun _ _ => partPath_inj⟩

/-! ## Placements -/

theorem stripped_parent?_getD (target : Path) :
    (target.parent?.getD ⟨[]⟩).stripped = target.parent?.getD ⟨[]⟩ := by
  cases hparent : target.parent? with
  | none => rfl
  | some q => exact Path.stripped_parent? hparent

theorem directory_relocated {name : Name} (h : l.directory.fileName? = some name) (parent : Path) :
    (l.relocated parent).directory = parent.join ⟨name⟩ := by
  rw [relocated, new, h, Option.getD_some]

/-- The directory for a target has a plain name and is the child of that name in the directory of
the target. Moved to any other directory, the layout has the child of the same name there. Either
way the parts are different children of the directory. -/
theorem forTarget_relocated_spec (target parent : Path) (partSize : Nat) :
    let name := directoryName target
    let l := forTarget target partSize
    let l' := l.relocated parent
    PlainText name ∧
    l.directory.fileName? = some (Text.encode name) ∧
    l.directory.parent? = some (target.parent?.getD ⟨[]⟩) ∧
    l'.directory = parent.join (.ofString name) ∧
    l'.directory.fileName? = l.directory.fileName? ∧ l'.partSize = l.partSize ∧
    l.HoldsParts ∧ l'.HoldsParts := by
  intro name l l'
  have hplain := plain_directoryBytes target
  have hdir : l.directory = (target.parent?.getD ⟨[]⟩).join ⟨directoryBytes target⟩ :=
    directory_forTarget target partSize
  have hname : l.directory.fileName? = some (directoryBytes target) := by
    rw [hdir, Path.fileName?_join hplain]
  have hmoved : l'.directory = parent.join ⟨directoryBytes target⟩ :=
    directory_relocated hname parent
  refine ⟨plainText_directoryName target, hname, ?_, hmoved, ?_, ?_, holdsParts_join hplain hdir,
    holdsParts_join hplain hmoved⟩
  · rw [hdir, Path.parent?_join hplain, stripped_parent?_getD]
  · rw [hname, hmoved, Path.fileName?_join hplain]
  · exact Nat.max_eq_left l.partSize_pos

end RangeTransfer.SplitLayout
