import RangeTransfer.Proofs.Layout.Scan
import RangeTransfer.Proofs.Sink.Open
/-!
# Discarding from an offset on

Opening and truncating a split sink cut the part that holds the offset, and remove the parts behind
it up to the first that is missing (`Discards`). So the parts behind the cut are all gone exactly if
none of them stood behind a missing one (`Discards.cleared_iff`), and so are the bytes exactly if no
part with bytes did (`Discards.bytes_iff`). Such gaps arise when several workers write parts in any
order and one of them fails.
-/

namespace RangeTransfer
open Store

namespace SplitLayout

variable {l : SplitLayout} {s s' : Store} {n : Nat}

/-- Nothing is left from the offset `n` on, neither a part behind the one that holds it nor a byte
of that one, and the parts before it are as they were. -/
structure Cleared (l : SplitLayout) (s s' : Store) (n : Nat) : Prop where
  below : ∀ j, j < n / l.partSize → l.part? s' j = l.part? s j
  cut : ∀ c, l.part? s' (n / l.partSize) = some c → c.size ≤ n % l.partSize
  behind : ∀ j, n / l.partSize < j → l.part? s' j = none

/-- A part lies behind part `q` and a missing part. -/
def Gapped (l : SplitLayout) (s : Store) (q : Nat) : Prop :=
  ∃ i j, q < i ∧ i < j ∧ l.part? s i = none ∧ l.part? s j ≠ none

theorem byteOf_border {j : Nat} (hbody : 0 < (l.partBody s j).size) :
    byteOf l.partSize (l.part? s) (j * l.partSize) ≠ none := by
  have hborder := byteOf_at l.partSize_pos (j := j) (l.part? s)
  rw [Nat.add_zero] at hborder
  rw [hborder]
  unfold partBody at hbody
  cases hpart : l.part? s j with
  | none =>
    rw [hpart] at hbody
    exact absurd hbody (Nat.lt_irrefl 0)
  | some c =>
    rw [hpart, Option.getD_some, size_bytes] at hbody
    obtain ⟨b, hb⟩ := Content.byteAt_of_lt hbody
    rw [Option.bind_some, hb]
    nofun

/-- What discarding from `n` on leaves of the parts, if it succeeds. -/
structure Discards (l : SplitLayout) (s s' : Store) (n : Nat) : Prop
    extends l.Discarded s s' n where
  upToGap : l.UpToGap s s' (n / l.partSize)

namespace Discards

/-- Of the parts behind the cut those behind a missing one stay, and no others. -/
theorem part?_behind (h : l.Discards s s' n) {j : Nat} (hj : n / l.partSize < j) :
    ((∃ i, n / l.partSize < i ∧ i < j ∧ l.part? s i = none) → l.part? s' j = l.part? s j) ∧
      ((∀ i, n / l.partSize < i → i < j → l.part? s i ≠ none) → l.part? s' j = none) := by
  obtain ⟨gap, hlt, hnone, hbetween, habove⟩ := h.upToGap
  refine ⟨fun ⟨i, hi, hij, hmissing⟩ => habove j ?_, fun hall => ?_⟩
  · have hgap : gap ≤ i := Nat.le_of_not_lt fun hlt' => (hbetween i hi hlt').1 hmissing
    omega
  · rcases Nat.lt_trichotomy j gap with hbelow | rfl | hfar
    · exact (hbetween j hj hbelow).2
    · exact (habove j (Nat.le_refl j)).trans hnone
    · exact absurd hnone (hall gap hlt hfar)

theorem size_cut (h : l.Discards s s' n) {c : Content}
    (hc : l.part? s' (n / l.partSize) = some c) : c.size = n % l.partSize := by
  rw [h.cut] at hc
  obtain ⟨c₀, -, rfl⟩ := Option.map_eq_some_iff.mp hc
  exact c₀.size_setSize _

theorem cleared_iff (h : l.Discards s s' n) :
    l.Cleared s s' n ↔ ¬ l.Gapped s (n / l.partSize) := by
  constructor
  · rintro hcleared ⟨i, j, hi, hij, hmissing, hpart⟩
    have hj : n / l.partSize < j := Nat.lt_trans hi hij
    rw [← (h.part?_behind hj).1 ⟨i, hi, hij, hmissing⟩] at hpart
    exact hpart (hcleared.behind j hj)
  · intro hgapped
    refine ⟨h.below, fun c hc => Nat.le_of_eq (h.size_cut hc), fun j hj => ?_⟩
    by_cases hmissing : ∃ i, n / l.partSize < i ∧ i < j ∧ l.part? s i = none
    · obtain ⟨i, hi, hij, hnone⟩ := hmissing
      rw [(h.part?_behind hj).1 ⟨i, hi, hij, hnone⟩]
      exact Classical.byContradiction fun hpart => hgapped ⟨i, j, hi, hij, hnone, hpart⟩
    · exact (h.part?_behind hj).2 fun i hi hij hnone => hmissing ⟨i, hi, hij, hnone⟩

theorem bytes_iff (h : l.Discards s s' n) :
    (∀ o, n ≤ o → byteOf l.partSize (l.part? s') o = none) ↔ ¬ l.Stranded s (n / l.partSize) := by
  have hdiv := Nat.div_add_mod n l.partSize
  have hmod := Nat.mod_lt n l.partSize_pos
  rw [Nat.mul_comm] at hdiv
  constructor
  · rintro hempty ⟨i, j, hi, hij, hmissing, hbody⟩
    have hj : n / l.partSize < j := Nat.lt_trans hi hij
    have hstays := (h.part?_behind hj).1 ⟨i, hi, hij, hmissing⟩
    have hborder := Nat.mul_le_mul_right l.partSize (Nat.succ_le_of_lt hj)
    rw [Nat.succ_mul] at hborder
    refine byteOf_border (s := s') (j := j) ?_ (hempty _ (by omega))
    rwa [partBody, hstays]
  · intro hstranded o ho
    -- a byte that is left is at the cut or behind a gap
    refine Classical.byContradiction fun hbyte => ?_
    obtain ⟨b, hb⟩ := Option.ne_none_iff_exists'.mp hbyte
    obtain ⟨c, hc, hget⟩ := Option.bind_eq_some_iff.mp hb
    have hin : o % l.partSize < c.size := by
      refine Nat.lt_of_not_le fun hout => ?_
      rw [Content.byteAt_of_le hout] at hget
      cases hget
    rcases Nat.lt_or_eq_of_le (Nat.div_le_div_right (c := l.partSize) ho) with hj | hj
    · by_cases hmissing : ∃ i, n / l.partSize < i ∧ i < o / l.partSize ∧ l.part? s i = none
      · obtain ⟨i, hi, hij, hnone⟩ := hmissing
        refine hstranded ⟨i, _, hi, hij, hnone, ?_⟩
        rw [(h.part?_behind hj).1 ⟨i, hi, hij, hnone⟩] at hc
        rw [partBody, hc, Option.getD_some, size_bytes]
        omega
      · rw [(h.part?_behind hj).2 fun i hi hij hnone => hmissing ⟨i, hi, hij, hnone⟩] at hc
        cases hc
    · rw [← hj] at hc
      have hcut := h.size_cut hc
      have hdiv' := Nat.div_add_mod o l.partSize
      rw [← hj, Nat.mul_comm] at hdiv'
      omega

end Discards

theorem files_claimDirectory (hs : s.WellFormed) {r : Except TransferError Unit}
    (h : l.claimDirectory s = (r, s')) {place : Location} {m : Nat}
    (hfile : s'.entryAt place = some (.file m)) :
    s.entryAt place = some (.file m) ∧ s'.content ⟨m⟩ = s.content ⟨m⟩ := by
  have hgrown : ∀ {s₁ : Store}, s₁.WellFormed → (s₁.createDirectories l.directory).2 = s' →
      s₁.entryAt place = some (.file m) ∧ s'.content ⟨m⟩ = s₁.content ⟨m⟩ := by
    rintro s₁ hs₁ rfl
    have hgrows := grows_createDirectories hs₁ l.directory
    refine ⟨?_, hgrows.content ⟨m⟩⟩
    cases he : s₁.entryAt place with
    | none =>
      rcases hgrows.fresh place he with hnone | hdir
      · rw [hnone] at hfile
        cases hfile
      · rw [hdir] at hfile
        cases hfile
    | some e =>
      rw [hgrows.entry place e he] at hfile
      exact hfile
  rcases l.claimDirectory_cases s with ⟨e, heq⟩ | ⟨s₁, rfl | hremove, heq⟩
  · rw [heq] at h
    cases h
    exact ⟨hfile, rfl⟩
  · rw [heq] at h
    exact hgrown hs (congrArg Prod.snd h)
  · have hs₁ := (removeFile_spec hs hremove).1
    rw [heq] at h
    obtain ⟨he, hcontent⟩ := hgrown hs₁ (congrArg Prod.snd h)
    obtain ⟨parent, name, number, -, -, -, rfl⟩ := removeFile_eq_ok hremove
    rw [entryAt_erase rfl] at he
    split at he
    · cases he
    · exact ⟨he, hcontent⟩

end SplitLayout

namespace SplitSink

variable {l : SplitLayout} {s s' : Store} {n : Nat}

theorem discards_openAt {k : SplitSink} (hs : s.WellFormed)
    (h : openAt s l n = (.ok k, s')) :
    ∃ s₁, l.claimDirectory s = (.ok (), s₁) ∧ l.Discards s₁ s' n := by
  obtain ⟨rfl, s₁, d, hclaim, hs₁, hd, hdiscard⟩ := openAt_eq_ok hs h
  obtain ⟨r, s₂, heq, -, -, -, hcut, hgap⟩ := SplitLayout.discardFrom_spec n hd hs₁
  rw [hdiscard] at heq
  cases heq
  exact ⟨s₁, hclaim, hcut (Or.inl rfl), hgap rfl⟩

theorem discards_truncate {k k' : SplitSink} (hs : s.WellFormed) (hmade : k.layout.Made s)
    (h : k.truncate s n = (.ok (), k', s')) : k.layout.Discards s s' n := by
  obtain ⟨d, hd⟩ := hmade.at
  obtain ⟨r, s₁, hdiscard, -, -, -, hcut, hgap⟩ := SplitLayout.discardFrom_spec n hd hs
  unfold truncate at h
  rw [hdiscard] at h
  cases h
  exact ⟨hcut (Or.inl rfl), hgap rfl⟩

/-- What is left of the parts when a sink has been opened or truncated at the offset `n`: those
before the cut, the first bytes of the one at the cut, and those behind the cut and a missing part.
-/
theorem left_behind_cut (hs : s.WellFormed) :
    (∀ (k : SplitSink) s', openAt s l n = (.ok k, s') → ∃ s₁, l.claimDirectory s = (.ok (), s₁) ∧
      (l.Made s → s₁ = s) ∧
      (∀ place m, s₁.entryAt place = some (.file m) →
        s.entryAt place = some (.file m) ∧ s₁.content ⟨m⟩ = s.content ⟨m⟩) ∧
      l.Discards s₁ s' n ∧ (l.Cleared s₁ s' n ↔ ¬ l.Gapped s₁ (n / l.partSize)) ∧
      ((∀ o, n ≤ o → byteOf l.partSize (l.part? s') o = none) ↔
        ¬ l.Stranded s₁ (n / l.partSize))) ∧
    ∀ (k k' : SplitSink) s', k.layout = l → l.Made s → k.truncate s n = (.ok (), k', s') →
      l.Discards s s' n ∧ (l.Cleared s s' n ↔ ¬ l.Gapped s (n / l.partSize)) ∧
      ((∀ o, n ≤ o → byteOf l.partSize (l.part? s') o = none) ↔
        ¬ l.Stranded s (n / l.partSize)) := by
  constructor
  · intro k s' hopen
    obtain ⟨s₁, hclaim, hdiscards⟩ := discards_openAt hs hopen
    refine ⟨s₁, hclaim, fun hmade => ?_,
      fun place m => SplitLayout.files_claimDirectory hs hclaim, hdiscards, hdiscards.cleared_iff,
      hdiscards.bytes_iff⟩
    rw [SplitLayout.claimDirectory_of_made hmade] at hclaim
    exact (congrArg Prod.snd hclaim).symm
  · rintro k k' s' rfl hmade htruncate
    have hdiscards := discards_truncate hs hmade htruncate
    exact ⟨hdiscards, hdiscards.cleared_iff, hdiscards.bytes_iff⟩

/-- A directory of parts of two bytes. -/
abbrev pairs : SplitLayout := .new ⟨[97]⟩ 2

/-- The store in which the parts `00`, `01` and `03` of two bytes each have been written, the last one
first, and no part `02`. -/
abbrev gapStore : Store :=
  let made := (openAt (.fresh []) pairs 0).2
  let last := ((⟨pairs, none⟩ : SplitSink).write made 6 ⟨#[6, 7]⟩).2
  (last.1.write last.2 0 ⟨#[0, 1, 2, 3]⟩).2.2

theorem wellFormed_gapStore : gapStore.WellFormed := by
  have hopen : openAt (.fresh []) pairs 0 = (.ok ⟨pairs, none⟩, (openAt (.fresh []) pairs 0).2) := by
    rfl
  have hplace : pairs.At (openAt (.fresh []) pairs 0).2 [[97]] := by rfl
  obtain ⟨-, d, hd, -⟩ := openAt_of_absent (wellFormed_fresh []) hopen fun d hd => by
    rw [hd.inj hplace]
    rfl
  obtain ⟨_, _, k₁, s₁, hlast, -, -, hwrote⟩ := write_spec hd 6 ⟨#[6, 7]⟩
  obtain ⟨_, _, k₂, s₂, hfirst, -, -, hwrote'⟩ := write_spec hwrote.opened 0 ⟨#[0, 1, 2, 3]⟩
  have hs₂ := hwrote'.opened.wellFormed
  have heq : s₂ = gapStore := by
    have h₂ : s₂ = (k₁.write s₁ 0 ⟨#[0, 1, 2, 3]⟩).2.2 := by rw [hfirst]
    have h₁ : (k₁, s₁) = ((⟨pairs, none⟩ : SplitSink).write (openAt (.fresh []) pairs 0).2 6
      ⟨#[6, 7]⟩).2 := by rw [hlast]
    rw [h₂, show k₁ = _ from congrArg Prod.fst h₁, show s₁ = _ from congrArg Prod.snd h₁]
  rwa [heq] at hs₂

theorem left_behind_cut_gapStore : gapStore.WellFormed ∧ pairs.Made gapStore ∧
    (∃ s', openAt gapStore pairs 1 = (.ok ⟨pairs, none⟩, s') ∧ pairs.Discards gapStore s' 1 ∧
      (pairs.Cleared gapStore s' 1 ↔ ¬ pairs.Gapped gapStore (1 / pairs.partSize)) ∧
      ((∀ o, 1 ≤ o → byteOf pairs.partSize (pairs.part? s') o = none) ↔
        ¬ pairs.Stranded gapStore (1 / pairs.partSize))) ∧
    ∃ s', (⟨pairs, none⟩ : SplitSink).truncate gapStore 3 = (.ok (), ⟨pairs, none⟩, s') ∧
      pairs.Discards gapStore s' 3 ∧
      (pairs.Cleared gapStore s' 3 ↔ ¬ pairs.Gapped gapStore (3 / pairs.partSize)) ∧
      ((∀ o, 3 ≤ o → byteOf pairs.partSize (pairs.part? s') o = none) ↔
        ¬ pairs.Stranded gapStore (3 / pairs.partSize)) := by
  have hmade : pairs.Made gapStore := Or.inr (by rfl)
  have hopen : openAt gapStore pairs 1 = (.ok ⟨pairs, none⟩, (openAt gapStore pairs 1).2) := by rfl
  have htruncate : (⟨pairs, none⟩ : SplitSink).truncate gapStore 3 =
      (.ok (), ⟨pairs, none⟩, ((⟨pairs, none⟩ : SplitSink).truncate gapStore 3).2.2) := by rfl
  obtain ⟨s₁, -, hsame, -, hleft⟩ := (left_behind_cut wellFormed_gapStore).1 _ _ hopen
  obtain rfl := hsame hmade
  exact ⟨wellFormed_gapStore, hmade, ⟨_, hopen, hleft⟩, _, htruncate,
    (left_behind_cut wellFormed_gapStore).2 _ _ _ rfl hmade htruncate⟩

/-- Part `03` is there before and after its directory is opened for a transfer that resumes at the
first byte, with a byte at offset 6, and so it is when the sink is truncated. -/
theorem not_cleared_gapStore :
    (∃ s', openAt gapStore pairs 1 = (.ok ⟨pairs, none⟩, s') ∧ ¬ pairs.Cleared gapStore s' 1 ∧
      byteOf pairs.partSize (pairs.part? s') 6 = some 6) ∧
    ∃ s', (⟨pairs, none⟩ : SplitSink).truncate gapStore 1 = (.ok (), ⟨pairs, none⟩, s') ∧
      ¬ pairs.Cleared gapStore s' 1 ∧ byteOf pairs.partSize (pairs.part? s') 6 = some 6 := by
  have hstays : ∀ {s' : Store}, byteOf pairs.partSize (pairs.part? s') 6 = some 6 →
      ¬ pairs.Cleared gapStore s' 1 := by
    intro s' hbyte hcleared
    rw [byteOf, hcleared.behind (6 / pairs.partSize) (by decide)] at hbyte
    cases hbyte
  have hopened : byteOf pairs.partSize (pairs.part? (openAt gapStore pairs 1).2) 6 = some 6 := by rfl
  have hcut : byteOf pairs.partSize
      (pairs.part? ((⟨pairs, none⟩ : SplitSink).truncate gapStore 1).2.2) 6 = some 6 := by rfl
  exact ⟨⟨_, rfl, hstays hopened, hopened⟩, _, rfl, hstays hcut, hcut⟩

end SplitSink

end RangeTransfer
