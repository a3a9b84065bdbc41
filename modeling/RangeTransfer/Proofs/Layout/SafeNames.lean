import RangeTransfer.Proofs.Layout.DirectoryNames
import RangeTransfer.Proofs.Text.Trimming
/-!
# The shape of safe names

A safe name is a base with the extension behind it. The base is made of plain characters, at least
one and at most as many as the limit, and starts with no space or underscore; nor does it end with
one, unless it was cut at the limit behind one (`safeName_spec`). The extension stays as it is, and so
does a base of this shape (`safeBase_eq_self_iff`). So making a name safe twice is making it safe once,
except where the cut leaves a space or an underscore at the end.
-/

namespace RangeTransfer.Layout

variable {cs ext : List Char} {c : Char}

/-! ## Extensions -/

/-- `ext` is `name` from its last dot on, and is empty if there is no dot but perhaps the first
character. -/
def IsExtension (name ext : List Char) : Prop :=
  (ext = [] ∧ '.' ∉ name.tail) ∨
    ∃ stem rest, stem ≠ [] ∧ '.' ∉ rest ∧ name = stem ++ '.' :: rest ∧ ext = '.' :: rest

theorem splitExtension_cases (cs : List Char) :
    ('.' ∉ cs.tail ∧ splitExtension cs = (cs, [])) ∨
      ∃ stem rest, stem ≠ [] ∧ '.' ∉ rest ∧ cs = stem ++ '.' :: rest ∧
        splitExtension cs = (stem, '.' :: rest) := by
  have hsplit := List.takeWhile_append_dropWhile (p := (· ≠ '.')) (l := cs.reverse)
  have hplain : '.' ∉ cs.reverse.takeWhile (· ≠ '.') := fun hmem =>
    absurd (List.all_eq_true.mp List.all_takeWhile '.' hmem) (by decide)
  unfold splitExtension
  generalize cs.reverse.takeWhile (· ≠ '.') = ext at hsplit hplain
  cases hdrop : cs.reverse.dropWhile (· ≠ '.') with
  | nil =>
    -- no dot at all
    rw [hdrop, List.append_nil] at hsplit
    obtain rfl : cs = ext.reverse := by rw [hsplit, List.reverse_reverse]
    refine Or.inl ⟨fun h => hplain (List.mem_reverse.mp (List.mem_of_mem_tail h)), ?_⟩
    simp
  | cons c before =>
    have hdot : c = '.' := by
      have hhead : (cs.reverse.dropWhile (· ≠ '.')).head? = some c := by
        rw [hdrop]
        rfl
      simpa using Text.not_of_head?_dropWhile hhead
    rw [hdrop, hdot] at hsplit
    obtain rfl : cs = before.reverse ++ '.' :: ext.reverse := by
      rw [← List.reverse_reverse cs, ← hsplit]
      simp
    have htake : (before.reverse ++ '.' :: ext.reverse).take
        ((before.reverse ++ '.' :: ext.reverse).length - ext.reverse.length - 1) =
          before.reverse := by
      refine List.take_left' ?_
      simp only [List.length_append, List.length_cons]
      omega
    simp only [htake]
    by_cases hstem : before.reverse = []
    · rw [if_pos hstem, hstem]
      exact Or.inl ⟨fun h => hplain (List.mem_reverse.mp h), rfl⟩
    · rw [if_neg hstem]
      exact Or.inr ⟨_, _, hstem, fun h => hplain (List.mem_reverse.mp h), rfl, rfl⟩

theorem isExtension_splitExtension (cs : List Char) : IsExtension cs (splitExtension cs).2 := by
  rcases splitExtension_cases cs with ⟨hdot, heq⟩ | ⟨stem, rest, hstem, hrest, hcs, heq⟩
  · exact Or.inl ⟨by rw [heq], hdot⟩
  · exact Or.inr ⟨stem, rest, hstem, hrest, hcs, by rw [heq]⟩

theorem splitExtension_append {base : List Char} (hne : base ≠ []) (hdot : '.' ∉ base)
    (hext : IsExtension cs ext) : splitExtension (base ++ ext) = (base, ext) := by
  rcases hext with ⟨rfl, -⟩ | ⟨-, rest, -, hrest, -, rfl⟩
  · rw [List.append_nil]
    rcases splitExtension_cases base with ⟨-, heq⟩ | ⟨stem, rest, -, -, rfl, -⟩
    · exact heq
    · exact absurd (List.mem_append_right stem List.mem_cons_self) hdot
  · rcases splitExtension_cases (base ++ '.' :: rest) with
      ⟨habsent, -⟩ | ⟨stem, rest', -, hrest', hsame, heq⟩
    · obtain ⟨c, base, rfl⟩ := List.exists_cons_of_ne_nil hne
      exact absurd (List.mem_append_right base List.mem_cons_self) habsent
    · -- both cut the name at its last dot
      rw [heq]
      rcases List.append_eq_append_iff.mp hsame with ⟨more, rfl, hmore⟩ | ⟨more, rfl, hmore⟩
      · cases more with
        | nil => rw [List.append_nil]; exact congrArg _ hmore.symm
        | cons c more =>
          obtain ⟨-, rfl⟩ := List.cons.inj hmore
          exact absurd (List.mem_append_right more List.mem_cons_self) hrest
      · cases more with
        | nil => rw [List.append_nil]; exact congrArg _ hmore
        | cons c more =>
          obtain ⟨rfl, -⟩ := List.cons.inj hmore
          exact absurd (List.mem_append_right stem List.mem_cons_self) hdot

/-! ## Bases -/

theorem plain_of_isPlain (h : isPlain c = true) : plain c = [c] := if_pos h

theorem flatMap_plain (h : ∀ c ∈ cs, isPlain c = true) : cs.flatMap plain = cs := by
  induction cs with
  | nil => rfl
  | cons c cs ih =>
    rw [List.flatMap_cons, plain_of_isPlain (h c List.mem_cons_self),
      ih fun d hd => h d (List.mem_cons_of_mem c hd)]
    rfl

theorem isPlain_of_mem_plain {d : Char} (h : d ∈ plain c) : isPlain d = true := by
  unfold plain at h
  split at h
  · rename_i hplain
    exact List.mem_singleton.mp h ▸ hplain
  · rw [List.eq_of_mem_replicate h]
    decide

theorem utf8Size_of_isPlain (h : isPlain c = true) : c.utf8Size = 1 := by
  have hascii : c.val ≤ 127 := by
    delta isPlain Char.isAlphanum Char.isAlpha Char.isUpper Char.isLower Char.isDigit at h
    simp only [Bool.or_eq_true, Bool.and_eq_true, decide_eq_true_eq, List.contains_iff_mem] at h
    rcases h with ((⟨-, h⟩ | ⟨-, h⟩) | ⟨-, h⟩) | h
    · exact UInt32.le_trans h (by decide)
    · exact UInt32.le_trans h (by decide)
    · exact UInt32.le_trans h (by decide)
    · have hothers : (" -_[]()+".toList.all fun c => c.val ≤ 127) = true := by decide
      exact of_decide_eq_true (List.all_eq_true.mp hothers c h)
  rw [Char.utf8Size, if_pos]
  exact hascii

/-- The base before it is cut at the limit. -/
def uncutBase (cs : List Char) : List Char :=
  let trimmed := Text.trimWhile isPadding (cs.flatMap plain)
  if trimmed = [] then "file".toList else trimmed

theorem safeBase_eq (cs : List Char) : safeBase cs = (uncutBase cs).take baseNameLimit := rfl

theorem isPlain_of_mem_uncutBase (h : c ∈ uncutBase cs) : isPlain c = true := by
  simp only [uncutBase] at h
  split at h
  · have hfile : "file".toList.all isPlain = true := by decide
    exact List.all_eq_true.mp hfile c h
  · obtain ⟨d, -, hd⟩ := List.mem_flatMap.mp ((Text.trimWhile_sublist _ _).subset h)
    exact isPlain_of_mem_plain hd

theorem uncutBase_trimmed (cs : List Char) :
    (∀ c, (uncutBase cs).head? = some c → isPadding c = false) ∧
      ∀ c, (uncutBase cs).getLast? = some c → isPadding c = false := by
  simp only [uncutBase]
  split
  · exact ⟨fun c hc => by cases hc; rfl, fun c hc => by cases hc; rfl⟩
  · exact ⟨fun c => Text.not_of_head?_trimWhile, fun c => Text.not_of_getLast?_trimWhile⟩

/-- What a base has, whatever it was made from. -/
structure IsBase (base : List Char) : Prop where
  ne_nil : base ≠ []
  bytes_le : (Text.encode (String.ofList base)).length ≤ baseNameLimit
  plain : ∀ c ∈ base, isPlain c = true
  first : ∀ c, base.head? = some c → isPadding c = false

namespace IsBase

variable {base : List Char}

theorem length_le (h : IsBase base) : base.length ≤ baseNameLimit := by
  have hbytes := h.bytes_le
  rwa [Text.encode_of_ascii fun c hc => utf8Size_of_isPlain (h.plain c hc),
    List.length_map] at hbytes

theorem dot_not_mem (h : IsBase base) : '.' ∉ base := fun hdot =>
  absurd (h.plain '.' hdot) (by decide)

/-- A base of this shape is left as it is unless it ends with padding. -/
theorem safeBase_eq_self_iff (h : IsBase base) :
    safeBase base = base ↔ ∀ c, base.getLast? = some c → isPadding c = false := by
  have hsame : base.flatMap Layout.plain = base := flatMap_plain h.plain
  have hkept : Text.trimWhile isPadding base = base ↔
      ∀ c, base.getLast? = some c → isPadding c = false := by
    rw [Text.trimWhile_eq_self_iff]
    exact and_iff_right h.first
  have hnonempty : Text.trimWhile isPadding base ≠ [] :=
    Text.trimWhile_ne_nil h.ne_nil h.first
  have hshort : (Text.trimWhile isPadding base).length ≤ baseNameLimit :=
    Nat.le_trans (Text.trimWhile_sublist _ _).length_le h.length_le
  rw [← hkept, safeBase_eq, uncutBase, hsame]
  simp only [if_neg hnonempty, List.take_of_length_le hshort]

end IsBase

theorem isBase_safeBase (cs : List Char) : IsBase (safeBase cs) := by
  have hplain : ∀ c ∈ safeBase cs, isPlain c = true := fun c hc =>
    isPlain_of_mem_uncutBase (List.mem_of_mem_take hc)
  refine ⟨safeBase_ne_nil cs, ?_, hplain, fun c hc => ?_⟩
  · rw [Text.encode_of_ascii fun c hc => utf8Size_of_isPlain (hplain c hc), List.length_map]
    exact List.length_take_le _ _
  · refine (uncutBase_trimmed cs).1 c ?_
    rwa [safeBase_eq, List.head?_take, if_neg (by decide)] at hc

/-- A base is cut at the limit, and the cut leaves a space or an underscore at its end. -/
def CutBehindPadding (cs : List Char) : Prop :=
  ∃ c, (uncutBase cs)[baseNameLimit - 1]? = some c ∧ isPadding c = true

theorem last_safeBase_iff (cs : List Char) :
    (∀ c, (safeBase cs).getLast? = some c → isPadding c = false) ↔ ¬ CutBehindPadding cs := by
  rw [safeBase_eq, List.getLast?_take, if_neg (by decide)]
  cases hat : (uncutBase cs)[baseNameLimit - 1]? with
  | none =>
    exact iff_of_true (fun c hc => (uncutBase_trimmed cs).2 c hc) fun ⟨c, hc, _⟩ => by
      rw [hat] at hc
      cases hc
  | some d =>
    simp only [CutBehindPadding, hat, Option.some_or, Option.some.injEq, exists_eq_left',
      forall_eq', Bool.not_eq_true]

/-! ## Names -/

/-- The base that `cs` should have: of the right shape, and padded at no end. -/
def TrimmedBase (base : List Char) : Prop :=
  IsBase base ∧ ∀ c, base.getLast? = some c → isPadding c = false

theorem safeName_eq (name : String) : safeName name =
    String.ofList (safeBase (splitExtension name.toList).1 ++ (splitExtension name.toList).2) := rfl

/-- A safe name is a base and the extension of the name. The base is trimmed, and making the name
safe again changes nothing, exactly if the base was not cut behind a space or an underscore. -/
theorem safeName_spec (name : String) :
    let cs := (splitExtension name.toList).1
    ∃ base ext, safeName name = String.ofList (base ++ ext) ∧ IsExtension name.toList ext ∧
      IsBase base ∧ (TrimmedBase base ↔ ¬ CutBehindPadding cs) ∧
      (safeName (safeName name) = safeName name ↔ ¬ CutBehindPadding cs) := by
  intro cs
  have hbase : IsBase (safeBase cs) := isBase_safeBase cs
  have hext := isExtension_splitExtension name.toList
  refine ⟨_, _, safeName_eq name, hext, hbase, ?_, ?_⟩
  · rw [TrimmedBase, last_safeBase_iff]
    exact and_iff_right hbase
  · -- the second time, the base is what it was made the first time
    have hagain : safeName (safeName name) =
        String.ofList (safeBase (safeBase cs) ++ (splitExtension name.toList).2) := by
      rw [safeName_eq (safeName name), safeName_eq name, String.toList_ofList,
        splitExtension_append hbase.ne_nil hbase.dot_not_mem hext]
    rw [hagain, safeName_eq name, String.ofList_inj, List.append_cancel_right_eq,
      hbase.safeBase_eq_self_iff, last_safeBase_iff]

/-- Cut behind the space, the name ends with it, and loses it the second time. -/
theorem safeName_cutBehindSpace :
    let stem := List.replicate 79 'a'
    let name := String.ofList (stem ++ " b".toList)
    safeName name = String.ofList (stem ++ " ".toList) ∧
    safeName (safeName name) = String.ofList stem ∧ safeName (safeName name) ≠ safeName name ∧
    ¬ ∃ base ext, safeName name = String.ofList (base ++ ext) ∧ IsExtension name.toList ext ∧
      TrimmedBase base := by
  intro stem name
  have hlist : name.toList = stem ++ " b".toList := String.toList_ofList
  have hname : safeName name = String.ofList (stem ++ " ".toList) := by
    rw [safeName, hlist]
    decide
  have hagain : safeName (safeName name) = String.ofList stem := by
    rw [hname, safeName, String.toList_ofList]
    decide
  refine ⟨hname, hagain, ?_, ?_⟩
  · rw [hagain, hname, ne_eq, String.ofList_inj]
    decide
  · rintro ⟨base, ext, heq, hext, -, hlast⟩
    rw [hlist] at hext
    obtain rfl : ext = [] := by
      rcases hext with ⟨hext, -⟩ | ⟨before, rest, -, -, hdot, -⟩
      · exact hext
      · have hmem : '.' ∈ stem ++ " b".toList := hdot ▸ List.mem_append_right _ List.mem_cons_self
        exact absurd hmem (by decide)
    rw [List.append_nil, hname, String.ofList_inj] at heq
    exact absurd (hlast ' ' (heq ▸ by decide)) (by decide)

end RangeTransfer.Layout
