import RangeTransfer.Proofs.Sink.Lengths
import RangeTransfer.Proofs.Sink.Open
/-!
# The same writes to a directory and to a file

Writes that go to an empty split directory and to an empty file, one after the other, in any order
and across any part borders, leave the same bytes in both (`split_refines_direct`): each byte
written stands in its part where it stands in the file, no part is there that no write has touched,
none is too long, and where the writes leave no hole the parts are the file, cut into pieces.
-/

namespace RangeTransfer
open Store

namespace Sink

/-- Writes data at offsets, one after the other, up to the first write that does not succeed. -/
def writeAll (k : Sink) : List (Nat × ByteArray) → Except Halt Unit × Sink
  | [] => (.ok (), k)
  | (offset, data) :: rest =>
    match k.write offset data with
    | (.ok (), k) => k.writeAll rest
    | (.error halt, k) => (.error halt, k)

end Sink

/-- Byte `o` is in one of the writes. -/
def Written (writes : List (Nat × ByteArray)) (o : Nat) : Prop :=
  ∃ w ∈ writes, w.1 ≤ o ∧ o < w.1 + w.2.size

theorem written_cons {w : Nat × ByteArray} {writes : List (Nat × ByteArray)} {o : Nat} :
    Written (w :: writes) o ↔ (w.1 ≤ o ∧ o < w.1 + w.2.size) ∨ Written writes o := by
  simp only [Written, List.mem_cons, exists_eq_or_imp]

/-! ## Writes that cannot fail -/

namespace SplitSink

theorem writeFrom_ne_aborted (bytes : ByteArray) (pieces : Nat) {done offset : Nat} {k : SplitSink}
    {s : Store} (hdone : done ≤ bytes.size) (hfit : offset + (bytes.size - done) < Offset.limit)
    (abort : Abort) :
    (writeFrom bytes pieces done offset k s).1 ≠ .error (.aborted abort) := by
  induction pieces generalizing done offset k s with
  | zero => intro h; cases h
  | succ pieces ih =>
    rw [writeFrom]
    split
    · intro h; cases h
    · simp only [SplitLayout.locate]
      generalize hsize : min (bytes.size - done) (k.layout.partSize - offset % k.layout.partSize) =
        size
      split
      · intro h; cases h
      · split
        · intro h; cases h
        · rw [Offset.add_eq_ok (by omega)]
          exact ih (by omega) (by omega)

end SplitSink

namespace Sink

variable {k k' : Sink} {writes : List (Nat × ByteArray)} {offset : Nat} {data : ByteArray}

theorem write_ne_aborted (hfit : offset + data.size < Offset.limit) (abort : Abort) :
    (k.write offset data).1 ≠ .error (.aborted abort) := by
  obtain ⟨output, s⟩ := k
  cases output with
  | direct d =>
    simp only [write]
    split <;> nofun
  | split p =>
    exact SplitSink.writeFrom_ne_aborted data data.size (Nat.zero_le _) hfit abort

theorem writeAll_ok (hfit : ∀ w ∈ writes, w.1 + w.2.size < Offset.limit)
    (hstorage : ∀ e, (k.writeAll writes).1 ≠ .error (.failed e)) :
    ∃ k', k.writeAll writes = (.ok (), k') := by
  induction writes generalizing k with
  | nil => exact ⟨k, rfl⟩
  | cons w writes ih =>
    rw [writeAll] at hstorage ⊢
    cases hwrite : k.write w.1 w.2 with
    | mk r k₁ =>
      simp only [hwrite] at hstorage ⊢
      match r with
      | .ok () => exact ih (fun v hv => hfit v (by simp [hv])) hstorage
      | .error (.failed e) => exact absurd rfl (hstorage e)
      | .error (.aborted abort) =>
        have := write_ne_aborted (k := k) (hfit w (by simp)) abort
        rw [hwrite] at this
        exact absurd rfl this

theorem write_of_empty (hdata : data.size = 0) (hok : (k.write offset data).1 = .ok ()) :
    k.write offset data = (.ok (), k) := by
  obtain ⟨output, s⟩ := k
  cases output with
  | direct d =>
    simp only [write, DirectSink.write, writeAt, hdata, if_true] at hok ⊢
    split at hok
    · cases hok
    · rename_i s' hs'
      split at hs'
      · cases hs'
      · cases hs'
        rfl
  | split p => simp only [write, SplitSink.write, hdata, SplitSink.writeFrom]

theorem writeAll_filter (h : k.writeAll writes = (.ok (), k')) :
    k.writeAll (writes.filter (0 < ·.2.size)) = (.ok (), k') := by
  induction writes generalizing k with
  | nil => exact h
  | cons w writes ih =>
    rw [writeAll] at h
    cases hwrite : k.write w.1 w.2 with
    | mk r k₁ =>
      simp only [hwrite] at h
      cases r with
      | error halt => cases h
      | ok _ =>
        by_cases hw : 0 < w.2.size
        · rw [List.filter_cons_of_pos (by simpa using hw), writeAll, hwrite]
          exact ih h
        · have hsame : k.write w.1 w.2 = _ := write_of_empty (by omega) (by rw [hwrite])
          rw [hwrite] at hsame
          cases hsame
          rw [List.filter_cons_of_neg (by simpa using hw)]
          exact ih h

theorem written_filter (writes : List (Nat × ByteArray)) (o : Nat) :
    Written (writes.filter (0 < ·.2.size)) o ↔ Written writes o := by
  simp only [Written, List.mem_filter, decide_eq_true_eq]
  refine ⟨fun ⟨w, hw, ho⟩ => ⟨w, hw.1, ho⟩, fun ⟨w, hw, ho⟩ => ⟨w, ⟨hw, ?_⟩, ho⟩⟩
  omega

/-! ## What the writes put -/

/-- `v'` is what putting the data of all writes, one after the other, makes of `v`. -/
inductive PutsAll : (v v' : Nat → Option UInt8) → List (Nat × ByteArray) → Prop
  | nil (v : Nat → Option UInt8) : PutsAll v v []
  | cons {v v₁ v' : Nat → Option UInt8} {w : Nat × ByteArray} {writes : List (Nat × ByteArray)}
      (first : Puts v v₁ w.1 w.2) (rest : PutsAll v₁ v' writes) : PutsAll v v' (w :: writes)

theorem PutsAll.agree {u u' v v' : Nat → Option UInt8} (hu : PutsAll u u' writes)
    (hv : PutsAll v v' writes) {o : Nat}
    (ho : Written writes o ∨ ∃ b, u o = some b ∧ v o = some b) :
    ∃ b, u' o = some b ∧ v' o = some b := by
  induction hu generalizing v with
  | nil u =>
    cases hv
    exact ho.resolve_left fun ⟨w, hw, _⟩ => by cases hw
  | @cons u u₁ u' w writes hfirst hrest ih =>
    cases hv with
    | cons hfirst' hrest' =>
      refine ih hrest' ?_
      have hput := hfirst o
      have hput' := hfirst' o
      split at hput
      · rename_i hin
        rw [if_pos hin] at hput'
        have hlt : o - w.1 < w.2.data.size := by rw [ByteArray.size_data]; omega
        rw [Array.getElem?_eq_getElem hlt] at hput hput'
        exact Or.inr ⟨_, hput, hput'⟩
      · rename_i hout
        rw [if_neg hout] at hput'
        rcases ho with hwritten | ⟨b, hub, hvb⟩
        · exact Or.inl ((written_cons.mp hwritten).resolve_left hout)
        · refine Or.inr ⟨b, hput.elim (·.trans hub) fun hnone => ?_,
            hput'.elim (·.trans hvb) fun hnone => ?_⟩
          · rw [hub] at hnone
            cases hnone.1
          · rw [hvb] at hnone
            cases hnone.1

theorem writeAll_spec {total : Nat} (h : k.Sound)
    (hle : ∀ w ∈ writes, w.1 + w.2.size ≤ total) (hok : k.writeAll writes = (.ok (), k')) :
    k.Follows total k' ∧ PutsAll k.byteAt k'.byteAt writes := by
  induction writes generalizing k with
  | nil =>
    cases hok
    exact ⟨Follows.refl total _, .nil _⟩
  | cons w writes ih =>
    obtain ⟨m, r, k₁, hwrite, -, hall, hfollows, hputs⟩ := write_spec h (hle w (by simp))
    rw [writeAll] at hok
    simp only [hwrite] at hok
    cases r with
    | error halt => cases hok
    | ok _ =>
      rw [hall rfl, ByteArray.extract_zero_size] at hputs
      obtain ⟨hrest, hputsRest⟩ := ih (hfollows.sound h) (fun v hv => hle v (by simp [hv])) hok
      exact ⟨hfollows.trans hrest, .cons hputs hputsRest⟩

theorem writeAll_filled {q : SplitSink} {s : Store} (h : (⟨.split q, s⟩ : Sink).Sound)
    (hne : ∀ w ∈ writes, 0 < w.2.size)
    (hok : (⟨.split q, s⟩ : Sink).writeAll writes = (.ok (), k')) :
    ∃ q' s' rs, k' = ⟨.split q', s'⟩ ∧ q'.layout = q.layout ∧ q.layout.Filled s s' rs ∧
      ∀ r ∈ rs, ∃ w ∈ writes, r.first = w.1 ∧ r.pastEnd = w.1 + w.2.size := by
  induction writes generalizing q s with
  | nil =>
    cases hok
    exact ⟨q, s, [], rfl, rfl, SplitLayout.Filled.refl _ s, nofun⟩
  | cons w writes ih =>
    have hsize := hne w (by simp)
    have hlt : w.1 < w.1 + w.2.size := by omega
    have hdata : w.2.size = (ByteRange.upTo w.1 _ hlt).length := by
      rw [ByteRange.length_eq, ByteRange.upTo_pastEnd, ByteRange.upTo_first]
      omega
    rw [writeAll] at hok
    cases hwrite : (⟨.split q, s⟩ : Sink).write w.1 w.2 with
    | mk r k₁ =>
      simp only [hwrite] at hok
      cases r with
      | error halt => cases hok
      | ok _ =>
        have hsound : k₁.Sound := by
          obtain ⟨-, r', k₂, heq, -, -, hfollows, -⟩ := write_spec h (Nat.le_refl _)
          rw [hwrite] at heq
          cases heq
          exact hfollows.sound h
        obtain ⟨q₁, s₁, heq, hlayout₁, hfilled₁⟩ :=
          filled_write h (r := .upTo w.1 _ hlt) hdata (by rw [ByteRange.upTo_first, hwrite])
        rw [ByteRange.upTo_first, hwrite] at heq
        obtain rfl : k₁ = ⟨.split q₁, s₁⟩ := heq
        obtain ⟨q', s', rs, hk', hlayout, hfilled, hrs⟩ :=
          ih hsound (fun v hv => hne v (by simp [hv])) hok
        rw [hlayout₁] at hfilled
        refine ⟨q', s', rs ++ [.upTo w.1 _ hlt], hk', hlayout.trans hlayout₁,
          hfilled₁.trans hfilled, fun r hr => ?_⟩
        rcases List.mem_append.mp hr with hr | hr
        · obtain ⟨v, hv, hrv⟩ := hrs r hr
          exact ⟨v, by simp [hv], hrv⟩
        · obtain rfl := List.mem_singleton.mp hr
          exact ⟨w, by simp, rfl, ByteRange.upTo_pastEnd hlt⟩

end Sink

/-! ## Opening -/

theorem DirectSink.openAt_sound {s s' : Store} {path : Path} {presize : Option Nat} {f : DirectSink}
    (hs : s.WellFormed) (h : DirectSink.openAt s path 0 presize = (.ok f, s')) :
    (⟨.direct f, s'⟩ : Sink).Sound ∧ f.path = path ∧
      (s'.content f.handle).size < lengthLimit ∧
      ((s'.content f.handle).size = 0 ∨ presize = some (s'.content f.handle).size) := by
  obtain ⟨_, s₁, -, ⟨e, herror⟩ | hopen⟩ := openAt_spec hs path 0 presize
  · rw [h] at herror
    cases herror
  · obtain ⟨fd, place, r, s₂, hopen, hwf, -, hfind, hcase⟩ := hopen
    rw [h] at hopen
    cases hopen
    obtain ⟨hf, hprepared⟩ := hcase.resolve_right fun ⟨⟨e, herror⟩, _⟩ => by cases herror
    cases hf
    exact ⟨⟨hwf, place, hfind⟩, rfl, hprepared.size_lt, hprepared.size.imp_right And.left⟩

/-! ## The same writes to both -/

section Refinement

variable {writes : List (Nat × ByteArray)} {s s' : Store} {l : SplitLayout} {rs : List ByteRange}

theorem SplitLayout.Filled.touched (h : l.Filled s s' rs) (hempty : ∀ j, l.part? s j = none)
    (hrs : ∀ r ∈ rs, ∃ w ∈ writes, r.first = w.1 ∧ r.pastEnd = w.1 + w.2.size) {j : Nat}
    {part : Content} (hpart : l.part? s' j = some part) :
    part.size ≤ l.partSize ∧ ∃ o, Written writes o ∧ o / l.partSize = j := by
  have hlength : l.partLength s j = 0 := by rw [partLength, hempty]; rfl
  have hsize : l.partLength s' j = part.size := by rw [partLength, hpart]; rfl
  constructor
  · refine Nat.le_of_not_lt fun hlt => ?_
    rcases (h.length j l.partSize).mp (hsize ▸ hlt) with hold | hreached
    · omega
    · exact Nat.lt_irrefl _ hreached.1
  · obtain ⟨-, r, hr, hfirst, hpast⟩ := ((h.there j).mp (by rw [hpart]; simp)).resolve_left
      fun hold => hold (hempty j)
    obtain ⟨w, hw, hwfirst, hwpast⟩ := hrs r hr
    have hrange := r.first_lt_pastEnd
    have hpos := l.partSize_pos
    refine ⟨max w.1 (j * l.partSize), ⟨w, hw, by omega⟩, ?_⟩
    rw [Nat.succ_mul] at hfirst
    exact Nat.div_eq_of_lt_le (by omega) (by rw [Nat.succ_mul]; omega)

theorem SplitLayout.At.complete {d : Location} {c : Content} (h : l.At s d)
    (hw : l.Within s c.size) (hsize : c.size < lengthLimit) (hpartSize : l.partSize < Offset.limit)
    (hsame : ∀ o < c.size, ∃ b, c.byteAt o = some b ∧ byteOf l.partSize (l.part? s) o = some b) :
    l.scan s = (List.range (l.partCount c.size)).map (fun i => (i, l.expectedLength i c.size)) ∧
      l.scanned s = c.bytes ∧ l.existingSize s c.size = .ok c.size := by
  have hfit : c.size < Offset.limit := Nat.lt_trans hsize (by decide)
  have hlength := size_bytes c
  have hright : Agrees (IsByte c.bytes) (byteOf l.partSize (l.part? s)) 0 c.bytes.size := by
    intro o _ ho
    obtain ⟨b, hc, hs⟩ := hsame o (hlength ▸ ho)
    exact ⟨b, hs, by rw [IsByte, ← Content.byteAt_eq_bytes, hc]⟩
  rw [← hlength] at hw hfit ⊢
  refine ⟨scan_of_complete h hw hright hfit, scanned_of_complete h hw hright,
    existingSize_of_complete (hlength ▸ hsize) hpartSize fun i hi => partComplete_iff.mpr ?_⟩
  obtain ⟨part, hpart, hpartLength, -⟩ := complete_part hw hright (lt_partCount.mpr hi)
  exact ⟨part, hpart, by rw [hpartLength, expectedLength_eq hi hfit]⟩

/-- The same writes, however they lie, leave the same bytes in an empty split directory and in a
file. Only the storage can fail them; the parts are those that a write has touched, and make up the
file if the writes leave no hole. -/
theorem split_refines_direct {ss ss₁ sd sd₁ : Store} (hss : ss.WellFormed) (hsd : sd.WellFormed)
    (hpartSize : l.partSize < Offset.limit) {p : SplitSink}
    (hsplit : SplitSink.openAt ss l 0 = (.ok p, ss₁))
    (habsent : ∀ d, l.At ss₁ d → ss.entryAt d = none) {path : Path} {f : DirectSink}
    {presize : Option Nat} (hdirect : DirectSink.openAt sd path 0 presize = (.ok f, sd₁))
    (hfit : ∀ w ∈ writes, w.1 + w.2.size < Offset.limit)
    (hsplitStorage : ∀ e, ((⟨.split p, ss₁⟩ : Sink).writeAll writes).1 ≠ .error (.failed e))
    (hdirectStorage : ∀ e, ((⟨.direct f, sd₁⟩ : Sink).writeAll writes).1 ≠ .error (.failed e)) :
    ∃ p' ss' sd' c,
      (⟨.split p, ss₁⟩ : Sink).writeAll writes = (.ok (), ⟨.split p', ss'⟩) ∧
      (⟨.direct f, sd₁⟩ : Sink).writeAll writes = (.ok (), ⟨.direct f, sd'⟩) ∧
      sd'.file? path = some c ∧
      (∀ o, Written writes o → ∃ b, c.byteAt o = some b ∧
        (l.part? ss' (o / l.partSize)).bind (·.byteAt (o % l.partSize)) = some b) ∧
      (∀ j part, l.part? ss' j = some part →
        part.size ≤ l.partSize ∧ ∃ o, Written writes o ∧ o / l.partSize = j) ∧
      ∀ n, (∀ o, Written writes o ↔ o < n) → (∀ size, presize = some size → size ≤ n) →
        l.scan ss' = (List.range (l.partCount n)).map (fun i => (i, l.expectedLength i n)) ∧
        l.scanned ss' = c.bytes ∧
        l.existingSize ss' n = .ok n := by
  obtain ⟨hlayout, d, hopened, hempty⟩ := SplitSink.openAt_of_absent hss hsplit habsent
  obtain ⟨hdirectSound, rfl, hlimit, hstart⟩ := DirectSink.openAt_sound hsd hdirect
  have hsplitSound : (⟨.split p, ss₁⟩ : Sink).Sound := ⟨d, hopened⟩
  obtain ⟨ks, hks⟩ := Sink.writeAll_ok hfit hsplitStorage
  obtain ⟨kd, hkd⟩ := Sink.writeAll_ok hfit hdirectStorage
  -- only the writes that write something count
  have hks' := Sink.writeAll_filter hks
  have hkd' := Sink.writeAll_filter hkd
  have hne : ∀ w ∈ writes.filter (0 < ·.2.size), 0 < w.2.size := fun w hw => by
    simpa using (List.mem_filter.mp hw).2
  have hfit' : ∀ w ∈ writes.filter (0 < ·.2.size), w.1 + w.2.size ≤ Offset.limit := fun w hw =>
    Nat.le_of_lt (hfit w (List.mem_filter.mp hw).1)
  have hwritten := Sink.written_filter writes
  obtain ⟨p', ss', rs, rfl, hlayout', hfilled, hrs⟩ := Sink.writeAll_filled hsplitSound hne hks'
  obtain ⟨-, hputs⟩ := Sink.writeAll_spec hsplitSound hfit' hks'
  obtain ⟨hfollows, hputs'⟩ := Sink.writeAll_spec hdirectSound hfit' hkd'
  obtain ⟨output, sd'⟩ := kd
  obtain rfl : output = .direct f := by
    have := hfollows.place
    cases output with
    | direct f => exact congrArg _ this
    | split q => cases this
  obtain ⟨-, place', hfind'⟩ := hfollows.sound hdirectSound
  subst hlayout
  have hsame : ∀ o, Written writes o → ∃ b, (sd'.content f.handle).byteAt o = some b ∧
      byteOf p.layout.partSize (p.layout.part? ss') o = some b := by
    intro o ho
    obtain ⟨b, hs, hd⟩ := hputs.agree hputs' (Or.inl ((hwritten o).mpr ho))
    refine ⟨b, hd, ?_⟩
    rw [← hlayout']
    exact hs
  refine ⟨p', ss', sd', sd'.content f.handle, hks, hkd, file?_of_find hfind', hsame,
    fun j part hpart => ?_, fun n hn hpresize => ?_⟩
  · obtain ⟨hle, o, ho, hj⟩ := hfilled.touched hempty hrs hpart
    exact ⟨hle, o, (hwritten o).mp ho, hj⟩
  · have hend : ∀ w ∈ writes.filter (0 < ·.2.size), w.1 + w.2.size ≤ n := fun w hw => by
      have hpos := hne w hw
      have := (hn (w.1 + w.2.size - 1)).mp
        ((hwritten _).mp ⟨w, hw, by omega, by omega⟩)
      omega
    obtain ⟨hsplitFollows, -⟩ := Sink.writeAll_spec hsplitSound hend hks'
    obtain ⟨hdirectFollows, -⟩ := Sink.writeAll_spec hdirectSound hend hkd'
    have hopened : (sd₁.content f.handle).size ≤ n := by
      rcases hstart with hzero | hsize
      · omega
      · exact hpresize _ hsize
    have hle : (sd'.content f.handle).size ≤ n := hdirectFollows.within hopened
    obtain rfl : n = (sd'.content f.handle).size := by
      refine Nat.le_antisymm (Nat.le_of_not_lt fun hlt => ?_) hle
      obtain ⟨b, hb, -⟩ := hsame _ ((hn _).mpr hlt)
      rw [Content.byteAt_of_le (Nat.le_refl _)] at hb
      cases hb
    have hwithin : p.layout.Within ss' (sd'.content f.handle).size := by
      rw [← hlayout']
      refine hsplitFollows.within fun j c hc => ?_
      rw [hempty] at hc
      cases hc
    obtain ⟨d', hopened'⟩ := hsplitFollows.sound hsplitSound
    have hhere : p.layout.At ss' d' := hlayout' ▸ hopened'.here
    exact hhere.complete hwithin (hfollows.short hlimit) hpartSize
      fun o ho => hsame o ((hn o).mpr ho)

/-- A directory of parts of four bytes. -/
abbrev quarters : SplitLayout := ⟨⟨[100]⟩, 4, by decide⟩

/-- Writes out of order, which overlap and cross the borders of such parts. -/
abbrev overlapping : List (Nat × ByteArray) :=
  [(6, ⟨#[6, 7, 8]⟩), (3, ⟨#[9, 4, 5, 6]⟩), (9, ⟨#[]⟩), (0, ⟨#[0, 1, 2, 3]⟩)]

theorem split_refines_direct_overlapping :
    ∃ p ss₁ f sd₁, SplitSink.openAt (.fresh []) quarters 0 = (.ok p, ss₁) ∧
      DirectSink.openAt (.fresh []) ⟨[102]⟩ 0 none = (.ok f, sd₁) ∧
      ∃ p' ss' sd' c,
        (⟨.split p, ss₁⟩ : Sink).writeAll overlapping = (.ok (), ⟨.split p', ss'⟩) ∧
        (⟨.direct f, sd₁⟩ : Sink).writeAll overlapping = (.ok (), ⟨.direct f, sd'⟩) ∧
        sd'.file? ⟨[102]⟩ = some c ∧
        quarters.scan ss' = [(0, 4), (1, 4), (2, 1)] ∧ quarters.scanned ss' = c.bytes ∧
        quarters.existingSize ss' 9 = .ok 9 := by
  obtain ⟨ss₁, hsplit, hhere, hsplitOk⟩ : ∃ ss₁,
      SplitSink.openAt (.fresh []) quarters 0 = (.ok ⟨quarters, none⟩, ss₁) ∧
      quarters.At ss₁ [[100]] ∧
      ((⟨.split ⟨quarters, none⟩, ss₁⟩ : Sink).writeAll overlapping).1.toBool = true :=
    ⟨_, by rfl, by rfl, by decide +kernel⟩
  obtain ⟨sd₁, hdirect, hdirectOk⟩ : ∃ sd₁,
      DirectSink.openAt (.fresh []) ⟨[102]⟩ 0 none = (.ok ⟨⟨[102]⟩, ⟨0⟩⟩, sd₁) ∧
      ((⟨.direct ⟨⟨[102]⟩, ⟨0⟩⟩, sd₁⟩ : Sink).writeAll overlapping).1.toBool = true :=
    ⟨_, by rfl, by decide +kernel⟩
  have hwritten : ∀ o, Written overlapping o ↔ o < 9 := fun o => by
    simp only [Written, overlapping, List.mem_cons, List.not_mem_nil, or_false, exists_eq_or_imp,
      exists_eq_left, ByteArray.size, List.size_toArray, List.length_cons, List.length_nil]
    omega
  have hfit : ∀ w ∈ overlapping, w.1 + w.2.size < Offset.limit := by decide
  obtain ⟨p', ss', sd', c, hs, hd, hc, -, -, hwhole⟩ := split_refines_direct
    (wellFormed_fresh []) (wellFormed_fresh []) (by decide) hsplit
    (fun d hd => by rw [SplitLayout.At.inj hd hhere]; rfl) hdirect hfit
    (fun e he => by rw [he] at hsplitOk; cases hsplitOk)
    (fun e he => by rw [he] at hdirectOk; cases hdirectOk)
  obtain ⟨hscan, hscanned, hsize⟩ := hwhole 9 hwritten nofun
  exact ⟨_, ss₁, _, sd₁, hsplit, hdirect, p', ss', sd', c, hs, hd, hc, hscan, hscanned, hsize⟩

end Refinement

end RangeTransfer
