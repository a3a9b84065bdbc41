import RangeTransfer.Layout.Split
import RangeTransfer.Proofs.Path
import RangeTransfer.Proofs.Text.Encoding
/-!
# Names of split directories

Whatever the target is called, the name of its split directory is one plain segment of a path: it is
not empty, and it has no slash. Bytes that are no text are shown without a slash
(`slash_not_mem_decodeLossyFrom`), the name is made of what is shown and of plain characters
(`slash_not_mem_safeBase`, `slash_not_mem_splitExtension`), and no other character is written with
the byte of a slash. So the directory stands beside the target (`names_forTarget`).
-/

namespace RangeTransfer

/-! ## Slashes in bytes and in text -/

namespace Text

theorem ofNat_ne_slash {n : Nat} (h : n ≠ 47) : Char.ofNat n ≠ '/' := by
  by_cases hvalid : n.isValidChar
  · have hchar : Char.ofNat n = Char.ofNatAux n hvalid := dif_pos hvalid
    rw [hchar]
    exact fun heq => h (congrArg Char.toNat heq)
  · have hzero : Char.ofNat n = Char.ofNat 0 := dif_neg hvalid
    rw [hzero]
    decide

theorem le_foldl_continuation (code : Nat) (rest : List UInt8) :
    code ≤ rest.foldl (fun code c => 64 * code + c.toNat % 64) code := by
  induction rest generalizing code with
  | nil => exact Nat.le_refl code
  | cons c rest ih => exact Nat.le_trans (by omega) (ih (64 * code + c.toNat % 64))

/-- The first byte of a longer character, or the one after it, adds to its number. -/
theorem followers_spec {b low high : UInt8} {n : Nat} (h : followers b = some (n, low, high)) :
    (n = 1 ∨ n = 2 ∨ n = 3) ∧
      (1 ≤ b.toNat % (1 <<< (6 - n)) ∨ 2 ≤ n ∧ 144 ≤ low.toNat ∧ high.toNat ≤ 191) := by
  unfold followers at h
  simp only [UInt8.lt_iff_toNat_lt, ← UInt8.toNat_inj, UInt8.reduceToNat] at h
  -- one case for each row of the table
  repeat' split at h
  all_goals cases h
  all_goals simp only [Nat.reduceSub, Nat.reduceShiftLeft, UInt8.reduceToNat, Nat.reduceLeDiff,
    Nat.reduceEqDiff, or_true, true_and, or_false, or_self, false_and, and_self]
  all_goals omega

theorem continuation_spec {n : Nat} {low high : UInt8} {bytes rest : List UInt8}
    (h : continuation (n + 1) low high bytes = rest) (hlen : rest.length = n + 1) :
    ∃ c cs, rest = c :: cs ∧ cs.length = n ∧ low ≤ c ∧ c ≤ high := by
  cases bytes with
  | nil => cases h; cases hlen
  | cons b bytes =>
    rw [continuation] at h
    split at h
    · rename_i hrange
      subst h
      rw [Bool.and_eq_true, decide_eq_true_eq, decide_eq_true_eq] at hrange
      exact ⟨b, _, rfl, Nat.succ.inj hlen, hrange⟩
    · subst h
      cases hlen

theorem firstChar_ne_slash {b : UInt8} (hb : b ≠ 47) (bytes : List UInt8) :
    (firstChar b bytes).1 ≠ '/' := by
  unfold firstChar
  split
  · exact ofNat_ne_slash fun heq => hb (UInt8.toNat_inj.mp heq)
  · split
    · decide
    · rename_i n low high hfollowers
      simp only
      split
      · rename_i hlen
        obtain ⟨hn, hadds⟩ := followers_spec hfollowers
        obtain ⟨n, rfl⟩ : ∃ m, n = m + 1 := ⟨n - 1, by omega⟩
        obtain ⟨c, cs, hrest, hmore, hlow, hhigh⟩ := continuation_spec rfl hlen
        rw [UInt8.le_iff_toNat_le] at hlow hhigh
        refine ofNat_ne_slash (Nat.ne_of_gt ?_)
        rw [hrest, List.foldl_cons]
        rcases hadds with hlead | ⟨hlong, hfrom, hto⟩
        · refine Nat.lt_of_lt_of_le ?_ (le_foldl_continuation _ cs)
          omega
        · obtain ⟨c', cs, rfl⟩ : ∃ c' cs', cs = c' :: cs' :=
            List.exists_cons_of_length_pos (by omega)
          rw [List.foldl_cons]
          refine Nat.lt_of_lt_of_le ?_ (le_foldl_continuation _ cs)
          omega
      · show replacement ≠ '/'
        decide

theorem slash_not_mem_decodeLossyFrom {bytes : List UInt8} (h : Path.slash ∉ bytes) (skip : Nat) :
    '/' ∉ decodeLossyFrom skip bytes := by
  induction bytes generalizing skip with
  | nil => exact List.not_mem_nil
  | cons b bytes ih =>
    obtain ⟨hb, hrest⟩ := List.ne_and_not_mem_of_not_mem_cons h
    cases skip with
    | zero =>
      rw [decodeLossyFrom]
      exact List.not_mem_cons_of_ne_of_not_mem (firstChar_ne_slash hb.symm bytes).symm (ih hrest _)
    | succ skip => exact ih hrest skip

theorem eq_slash_of_mem_utf8EncodeChar {c : Char} (h : Path.slash ∈ String.utf8EncodeChar c) :
    c = '/' := by
  have hbyte : ∀ n, Path.slash = UInt8.ofNat n ↔ 47 = n % 256 := fun n => by
    rw [← UInt8.toNat_inj, UInt8.toNat_ofNat']
    rfl
  have hvalue : c.val.toNat = 47 := by
    unfold String.utf8EncodeChar at h
    simp only at h
    -- one case for each number of bytes
    repeat' split at h
    all_goals
      simp only [List.mem_cons, List.not_mem_nil, or_false, hbyte] at h
      omega
  exact Char.toNat_inj.mp hvalue

theorem slash_not_mem_encode {cs : List Char} (h : '/' ∉ cs) :
    Path.slash ∉ encode (String.ofList cs) := by
  rw [encode_ofList, List.mem_flatMap]
  rintro ⟨c, hc, hslash⟩
  exact h (eq_slash_of_mem_utf8EncodeChar hslash ▸ hc)

end Text

/-! ## The name of a split directory -/

namespace Layout

theorem slash_not_mem_plain (c : Char) : '/' ∉ plain c := by
  unfold plain
  split
  · rename_i hplain
    rw [List.mem_singleton]
    rintro rfl
    exact absurd hplain (by decide)
  · intro h
    exact absurd (List.eq_of_mem_replicate h) (by decide)

theorem slash_not_mem_safeBase (cs : List Char) : '/' ∉ safeBase cs := by
  unfold safeBase
  intro h
  have h := List.mem_of_mem_take h
  split at h
  · exact absurd h (by decide)
  · simp only [Text.trimWhile, Text.dropEndWhile, List.mem_reverse] at h
    have h := List.mem_reverse.mp ((List.dropWhile_sublist _).subset h)
    obtain ⟨c, -, hc⟩ := List.mem_flatMap.mp ((List.dropWhile_sublist _).subset h)
    exact slash_not_mem_plain c hc

theorem safeBase_ne_nil (cs : List Char) : safeBase cs ≠ [] := by
  unfold safeBase
  simp only [ne_eq, List.take_eq_nil_iff, not_or]
  refine ⟨by decide, ?_⟩
  split
  · decide
  · assumption

theorem slash_not_mem_splitExtension {cs : List Char} (h : '/' ∉ cs) :
    '/' ∉ (splitExtension cs).2 := by
  unfold splitExtension
  simp only
  split
  · exact List.not_mem_nil
  · refine List.not_mem_cons_of_ne_of_not_mem (by decide) fun hmem => h ?_
    exact List.mem_reverse.mp ((List.takeWhile_sublist _).subset (List.mem_reverse.mp hmem))

end Layout

namespace SplitLayout

/-- The name of the split directory for `target`, as it stands in a path. -/
def directoryBytes (target : Path) : Name := Text.encode (directoryName target)

theorem directoryBytes_eq (target : Path) : ∃ cs, cs ≠ [] ∧ '/' ∉ cs ∧
    directoryBytes target = Text.encode (String.ofList cs) := by
  have hname : Path.slash ∉ target.fileName?.getD [] := by
    cases hname : target.fileName? with
    | none => exact List.not_mem_nil
    | some name => exact Path.slash_not_mem_fileName? hname
  have hshown : '/' ∉ (Text.decodeLossy (target.fileName?.getD [])).toList := by
    rw [Text.decodeLossy, String.toList_ofList]
    exact Text.slash_not_mem_decodeLossyFrom hname 0
  generalize hcs : (Text.decodeLossy (target.fileName?.getD [])).toList = cs at hshown
  refine ⟨Layout.safeBase (Layout.splitExtension cs).1 ++ (Layout.splitExtension cs).2, ?_, ?_, ?_⟩
  · exact List.append_ne_nil_of_left_ne_nil (Layout.safeBase_ne_nil _) _
  · rw [List.mem_append, not_or]
    exact ⟨Layout.slash_not_mem_safeBase _, Layout.slash_not_mem_splitExtension hshown⟩
  · rw [directoryBytes, directoryName, Layout.safeName, hcs]

theorem directoryBytes_ne_nil (target : Path) : directoryBytes target ≠ [] := by
  obtain ⟨cs, hne, -, heq⟩ := directoryBytes_eq target
  exact heq ▸ Text.encode_ne_nil hne

theorem slash_not_mem_directoryBytes (target : Path) : Path.slash ∉ directoryBytes target := by
  obtain ⟨cs, -, hslash, heq⟩ := directoryBytes_eq target
  exact heq ▸ Text.slash_not_mem_encode hslash

theorem directory_forTarget (target : Path) (partSize : Nat) :
    (forTarget target partSize).directory =
      (target.parent?.getD ⟨[]⟩).join ⟨directoryBytes target⟩ := by
  rw [forTarget, new, Path.ofString, directoryBytes]

theorem names_forTarget (target : Path) (partSize : Nat) :
    (forTarget target partSize).directory.names =
        (target.parent?.getD ⟨[]⟩).names ++ [directoryBytes target] ∧
      (forTarget target partSize).directory.isAbsolute =
        (target.parent?.getD ⟨[]⟩).isAbsolute := by
  rw [directory_forTarget]
  exact ⟨Path.names_join (directoryBytes_ne_nil target) (slash_not_mem_directoryBytes target),
    Path.isAbsolute_join (slash_not_mem_directoryBytes target)⟩

end SplitLayout

end RangeTransfer
