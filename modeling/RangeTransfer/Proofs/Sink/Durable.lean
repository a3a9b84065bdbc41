import RangeTransfer.Proofs.Sink.Open
/-!
# Which parts a flush makes durable

Bytes that come into a part are on stable storage only once the part has been synced. A split sink
has one part open and its flush syncs this part alone, so the other parts that bytes have come into
since the sink was opened stay dirty (`synced_after_flush`). Where every write succeeds, a flush
makes all of them durable exactly if the bytes lie in one part.

The proof follows the writes piece by piece (`Dirties`): a piece makes its part dirty, and nothing
else that a write does makes a part durable again.
-/

namespace RangeTransfer
open Store

namespace SplitLayout

variable {l : SplitLayout} {s s' s'' : Store} {d : Location} {i j : Nat}

/-! ## The file of a part -/

/-- The file that is stored as part `index`, if that is a file. -/
def partData? (l : SplitLayout) (s : Store) (index : Nat) : Option FileData :=
  match s.find (l.partPath index) with
  | .ok (_, .file n) => some (s.fileData ⟨n⟩)
  | .ok (_, .directory) => none
  | .error _ => none

/-- All bytes of part `j` are on stable storage. -/
def Synced (l : SplitLayout) (s : Store) (j : Nat) : Prop :=
  (l.partData? s j).map FileData.durable = some true

instance (l : SplitLayout) (s : Store) (j : Nat) : Decidable (l.Synced s j) :=
  inferInstanceAs (Decidable (_ = _))

/-- Bytes have come into part `j` since it was last synced. -/
def Dirty (l : SplitLayout) (s : Store) (j : Nat) : Prop :=
  (l.partData? s j).map FileData.durable = some false

theorem Dirty.not_synced (h : l.Dirty s j) : ¬ l.Synced s j := fun hsynced =>
  absurd (h.symm.trans hsynced) (by decide)

theorem At.partData?_eq (h : l.At s d) (i : Nat) : l.partData? s i =
    if l.Addressable i then
      match s.entryAt (partBytes i :: d) with
      | some (.file n) => some (s.fileData ⟨n⟩)
      | _ => none
    else none := by
  by_cases ha : l.Addressable i
  · rw [partData?, h.find ha, if_pos ha]
    cases s.entryAt (partBytes i :: d) with
    | none => rfl
    | some e => cases e <;> rfl
  · obtain ⟨e, -, hfind, -⟩ := h.refused ha
    rw [partData?, hfind, if_neg ha]

theorem At.partData?_congr (h : l.At s d) (h' : l.At s' d)
    (he : s'.entryAt (partBytes i :: d) = s.entryAt (partBytes i :: d))
    (hf : ∀ n, s.entryAt (partBytes i :: d) = some (.file n) → s'.fileData ⟨n⟩ = s.fileData ⟨n⟩) :
    l.partData? s' i = l.partData? s i := by
  rw [h.partData?_eq, h'.partData?_eq, he]
  split
  · split
    · rename_i n hn
      rw [hf n hn]
    · rfl
  · rfl

theorem Holds.partData? {fd : Handle} (ho : l.Holds s d i fd) (h : l.At s d) :
    l.partData? s i = some (s.fileData fd) := by
  rw [h.partData?_eq, if_pos ho.addressable, ho.entry]

theorem Holds.partData?_update {fd : Handle} (ho : l.Holds s d i fd) (h : l.At s d)
    (hs : s.WellFormed) (hw : s'.workingDirectory = s.workingDirectory)
    (he : s'.entries = s.entries)
    (hf : ∀ fd', fd'.number ≠ fd.number → s'.fileData fd' = s.fileData fd') (j : Nat) :
    l.partData? s' j = if j = i then some (s'.fileData fd) else l.partData? s j := by
  have h' := h.keeps (keeps_of_entries hw he)
  split
  · rename_i heq
    rw [heq]
    exact Holds.partData? ⟨ho.addressable, (entryAt_congr he _).trans ho.entry⟩ h'
  · rename_i hne
    refine h.partData?_congr h' (entryAt_congr he _) fun n hn => hf _ fun heq => ?_
    refine partPlace_ne hne d (hs.number_inj _ _ n hn ?_)
    rw [show n = fd.number from heq]
    exact ho.entry

theorem At.partData?_openFile (h : l.At s d) (hs : s.WellFormed) {create : Bool} {fd : Handle}
    (hok : s.openFile (l.partPath i) create = .ok (fd, s')) (j : Nat) :
    l.partData? s' j =
      if j = i then some ((l.partData? s j).getD ⟨.empty, true⟩) else l.partData? s j := by
  obtain ⟨-, hsteady, hholds, -⟩ := h.openFile hs hok
  have h' := h.keeps hsteady.toKeeps
  obtain ⟨parent, name, hr, -, hcase⟩ := openFile_eq_ok hok
  rw [h.resolve hholds.addressable.1] at hr
  cases hr
  obtain ⟨he, rfl⟩ | ⟨-, hnone, rfl, rfl⟩ := hcase
  · split
    · rename_i heq
      rw [heq, hholds.partData? h]
      rfl
    · rfl
  · split
    · rename_i heq
      rw [heq, hholds.partData? h', h.partData?_eq, hnone, ite_self]
      simp only [fileData, Table.get?_set, if_true]
      rfl
    · rename_i hj
      refine h.partData?_congr h' ?_ fun n hn => ?_
      · rw [entryAt_set rfl, if_neg (partPlace_ne hj d)]
      · have hlt := hs.number_lt _ n hn
        simp only [fileData, Table.get?_set, if_neg (Nat.ne_of_lt hlt)]

/-- The file of part `j` is the same in `s'` as in `s`, or new there and empty. -/
def KeepsPart (l : SplitLayout) (s s' : Store) (j : Nat) : Prop :=
  l.partData? s' j = l.partData? s j ∨
    l.partData? s j = none ∧ l.partData? s' j = some ⟨.empty, true⟩

theorem KeepsPart.trans (h : l.KeepsPart s s' j) (h' : l.KeepsPart s' s'' j) :
    l.KeepsPart s s'' j := by
  rcases h' with heq | ⟨hnone, hnew⟩
  · rw [KeepsPart, heq]
    exact h
  · rcases h with heq | ⟨-, hthere⟩
    · exact Or.inr ⟨heq.symm.trans hnone, hnew⟩
    · rw [hthere] at hnone
      cases hnone

theorem Dirty.keepsPart (h : l.Dirty s j) (hk : l.KeepsPart s s' j) : l.Dirty s' j := by
  rcases hk with heq | ⟨hnone, -⟩
  · rw [Dirty, heq]
    exact h
  · rw [Dirty, hnone] at h
    cases h

/-! ## The parts that bytes come into -/

/-- Of `size` bytes at `offset` some come into part `j`. -/
def Reaches (l : SplitLayout) (offset size j : Nat) : Prop :=
  ∃ o, offset ≤ o ∧ o < offset + size ∧ o / l.partSize = j

theorem not_reaches_zero (l : SplitLayout) (offset j : Nat) : ¬ l.Reaches offset 0 j :=
  fun ⟨_, hle, hlt, _⟩ => absurd hlt (Nat.not_lt.mpr hle)

theorem reaches_add {offset a b : Nat} :
    l.Reaches offset (a + b) j ↔ l.Reaches offset a j ∨ l.Reaches (offset + a) b j := by
  constructor
  · rintro ⟨o, hle, hlt, hpart⟩
    by_cases hfirst : o < offset + a
    · exact Or.inl ⟨o, hle, hfirst, hpart⟩
    · exact Or.inr ⟨o, Nat.not_lt.mp hfirst, by omega, hpart⟩
  · rintro (⟨o, hle, hlt, hpart⟩ | ⟨o, hle, hlt, hpart⟩)
    · exact ⟨o, hle, by omega, hpart⟩
    · exact ⟨o, by omega, by omega, hpart⟩

theorem reaches_piece {offset size : Nat} (hsize : 0 < size)
    (hfit : offset % l.partSize + size ≤ l.partSize) :
    l.Reaches offset size j ↔ j = offset / l.partSize := by
  have hdiv := Nat.div_add_mod offset l.partSize
  rw [Nat.mul_comm] at hdiv
  constructor
  · rintro ⟨o, hle, hlt, rfl⟩
    refine Nat.div_eq_of_lt_le (by omega) ?_
    rw [Nat.succ_mul]
    omega
  · rintro rfl
    exact ⟨offset, Nat.le_refl _, by omega, rfl⟩

/-- Bytes of the writes come into part `j`. -/
def Touched (l : SplitLayout) (writes : List (Nat × ByteArray)) (j : Nat) : Prop :=
  ∃ w ∈ writes, l.Reaches w.1 w.2.size j

theorem touched_cons {w : Nat × ByteArray} {writes : List (Nat × ByteArray)} :
    l.Touched (w :: writes) j ↔ l.Reaches w.1 w.2.size j ∨ l.Touched writes j := by
  simp only [Touched, List.mem_cons, exists_eq_or_imp]

end SplitLayout

namespace SplitSink

variable {k k' k'' : SplitSink} {s s' s'' : Store} {d : Location} {P Q : Nat → Prop}

/-! ## Pieces and writes -/

/-- Bytes came into the parts of `P` and made them dirty, and into no others, between `k` over `s` and
`k'` over `s'`. -/
structure Dirties (k : SplitSink) (s : Store) (k' : SplitSink) (s' : Store) (d : Location)
    (P : Nat → Prop) : Prop where
  layout : k'.layout = k.layout
  opened : k'.Opened s' d
  dirty : ∀ j, P j → k.layout.Dirty s' j
  keeps : ∀ j, ¬ P j → k.layout.KeepsPart s s' j

/-- The open part is one of `P`, or still the one that it was, if there is none in `P`. -/
def EndsIn (k k' : SplitSink) (P : Nat → Prop) : Prop :=
  (∃ part, k'.current = some part ∧ P part.index) ∨ (∀ j, ¬ P j) ∧ k'.current = k.current

theorem Dirties.congr (h : k.Dirties s k' s' d P) (hP : ∀ j, Q j ↔ P j) : k.Dirties s k' s' d Q := by
  rwa [show Q = P from funext fun j => propext (hP j)]

theorem EndsIn.congr (h : k.EndsIn k' P) (hP : ∀ j, Q j ↔ P j) : k.EndsIn k' Q := by
  rwa [show Q = P from funext fun j => propext (hP j)]

theorem Opened.dirties_nothing (h : k.Opened s d) (hP : ∀ j, ¬ P j) : k.Dirties s k s d P :=
  ⟨rfl, h, fun j hj => absurd hj (hP j), fun _ _ => Or.inl rfl⟩

theorem Dirties.trans (h : k.Dirties s k' s' d P) (h' : k'.Dirties s' k'' s'' d Q) :
    k.Dirties s k'' s'' d fun j => P j ∨ Q j := by
  obtain ⟨hlayout, hopened, hdirty, hkeeps⟩ := h'
  rw [h.layout] at hlayout hdirty hkeeps
  refine ⟨hlayout, hopened, fun j hj => ?_, fun j hj => ?_⟩
  · by_cases hlater : Q j
    · exact hdirty j hlater
    · exact (h.dirty j (hj.resolve_right hlater)).keepsPart (hkeeps j hlater)
  · rw [not_or] at hj
    exact (h.keeps j hj.1).trans (hkeeps j hj.2)

theorem EndsIn.trans (h : k.EndsIn k' P) (h' : k'.EndsIn k'' Q) :
    k.EndsIn k'' fun j => P j ∨ Q j := by
  rcases h' with ⟨part, hcurrent, hpart⟩ | ⟨hnone, hsame⟩
  · exact Or.inl ⟨part, hcurrent, Or.inr hpart⟩
  · rw [EndsIn, hsame]
    exact h.imp (fun ⟨part, hcurrent, hpart⟩ => ⟨part, hcurrent, Or.inl hpart⟩)
      fun ⟨hnone', hsame'⟩ => ⟨fun j hj => hj.elim (hnone' j) (hnone j), hsame'⟩

theorem keepsPart_partAt (h : k.Opened s d) {i : Nat} {part : OpenPart}
    (hok : k.partAt s i = .ok (part, s')) (j : Nat) : k.layout.KeepsPart s s' j := by
  have hanew : partAt.openAnew k s i = .ok (part, s') → k.layout.KeepsPart s s' j := by
    intro hok
    simp only [partAt.openAnew, bind, Except.bind] at hok
    split at hok
    · cases hok
    · rename_i x hopen
      cases hok
      have hdata := h.here.partData?_openFile h.wellFormed hopen j
      split at hdata
      · cases hold : k.layout.partData? s j with
        | none =>
          rw [hold] at hdata
          exact Or.inr ⟨hold, hdata⟩
        | some f =>
          rw [hold] at hdata
          exact Or.inl (hdata.trans hold.symm)
      · exact Or.inl hdata
  unfold partAt at hok
  split at hok
  · split at hok
    · cases hok
      exact Or.inl rfl
    · exact hanew hok
  · exact hanew hok

theorem Opened.dirties_piece (h : k.Opened s d) {offset : Nat} {part : OpenPart} {data : ByteArray}
    {s₁ s₂ : Store} (hne : 0 < data.size)
    (hfit : offset % k.layout.partSize + data.size ≤ k.layout.partSize)
    (hpart : k.partAt s (offset / k.layout.partSize) = .ok (part, s₁))
    (hwrite : s₁.writeAt part.handle (offset % k.layout.partSize) data = .ok s₂) :
    k.Dirties s { k with current := some part } s₂ d (k.layout.Reaches offset data.size) := by
  have hopened := (h.wrote_piece hne (Nat.le_refl _) hfit hpart hwrite).opened
  obtain ⟨-, hs₁, hsteady, hholds, -⟩ := partAt_spec h hpart
  have hset : s₂ = s₁.setContent part.handle
      ((s₁.content part.handle).write (offset % k.layout.partSize) data) := by
    unfold writeAt at hwrite
    rw [if_neg (Nat.ne_of_gt hne)] at hwrite
    split at hwrite
    · cases hwrite
    · split at hwrite
      · cases hwrite
      · cases hwrite
        rfl
  have hdata : ∀ j, k.layout.partData? s₂ j = _ :=
    hholds.partData?_update (h.here.keeps hsteady.toKeeps) hs₁ (by rw [hset]; rfl) (by rw [hset]; rfl)
      fun fd' hfd => by simp only [hset, setContent, fileData, Table.get?_set, if_neg hfd]
  refine ⟨rfl, hopened, fun j hj => ?_, fun j hj => ?_⟩
  · rw [SplitLayout.Dirty, hdata, if_pos ((SplitLayout.reaches_piece hne hfit).mp hj), hset]
    simp only [setContent, fileData, Table.get?_set, if_true]
    rfl
  · rw [SplitLayout.reaches_piece hne hfit] at hj
    refine (keepsPart_partAt h hpart j).trans (Or.inl ?_)
    rw [hdata, if_neg hj]

theorem Opened.dirties_created (h : k.Opened s d) {i : Nat} {part : OpenPart} {s₁ : Store}
    (hpart : k.partAt s i = .ok (part, s₁)) (hP : ∀ j, ¬ P j) :
    k.Dirties s { k with current := some part } s₁ d P := by
  obtain ⟨hindex, hs₁, hsteady, hholds, -⟩ := partAt_spec h hpart
  refine ⟨rfl, ⟨hs₁, h.here.keeps hsteady.toKeeps, fun part' heq => ?_⟩,
    fun j hj => absurd hj (hP j), fun j _ => keepsPart_partAt h hpart j⟩
  cases heq
  rwa [hindex]

/-- A write of the rest of `bytes` makes the parts dirty that a first piece of it comes into. If it
succeeds this is all of the rest, and the open part is one of them. -/
theorem writeFrom_dirties (bytes : ByteArray) (pieces : Nat) {done : Nat} (offset : Nat)
    (h : k.Opened s d) (hdone : done ≤ bytes.size) (hpieces : bytes.size - done ≤ pieces) :
    ∃ m r k' s', writeFrom bytes pieces done offset k s = (r, k', s') ∧ m ≤ bytes.size - done ∧
      k.Dirties s k' s' d (k.layout.Reaches offset m) ∧
      (r = .ok () → m = bytes.size - done ∧ k.EndsIn k' (k.layout.Reaches offset m)) := by
  induction pieces generalizing done offset k s with
  | zero =>
    have hnone := k.layout.not_reaches_zero offset
    exact ⟨0, .ok (), k, s, rfl, Nat.zero_le _, h.dirties_nothing hnone, fun _ =>
      ⟨by omega, Or.inr ⟨hnone, rfl⟩⟩⟩
  | succ pieces ih =>
    have hnone := k.layout.not_reaches_zero offset
    by_cases hend : bytes.size ≤ done
    · refine ⟨0, .ok (), k, s, ?_, Nat.zero_le _, h.dirties_nothing hnone, fun _ =>
        ⟨by omega, Or.inr ⟨hnone, rfl⟩⟩⟩
      rw [writeFrom, if_pos hend]
    · have hmod := Nat.mod_lt offset k.layout.partSize_pos
      generalize hsize : min (bytes.size - done) (k.layout.partSize - offset % k.layout.partSize) =
        size
      have hdata : (bytes.extract done (done + size)).size = size := by
        rw [ByteArray.size_extract]
        omega
      rw [writeFrom, if_neg hend]
      simp only [SplitLayout.locate, hsize]
      cases hpart : k.partAt s (offset / k.layout.partSize) with
      | error e =>
        exact ⟨0, _, _, _, rfl, Nat.zero_le _,
          ⟨rfl, ⟨h.wellFormed, h.here, fun _ hcurrent => by cases hcurrent⟩,
            fun j hj => absurd hj (hnone j), fun _ _ => Or.inl rfl⟩, fun hok => by cases hok⟩
      | ok x =>
        obtain ⟨part, s₁⟩ := x
        simp only
        cases hwrite : s₁.writeAt part.handle (offset % k.layout.partSize)
            (bytes.extract done (done + size)) with
        | error e =>
          exact ⟨0, _, _, _, rfl, Nat.zero_le _, h.dirties_created hpart hnone,
            fun hok => by cases hok⟩
        | ok s₂ =>
          have hdirties := h.dirties_piece (by omega) (by omega) hpart hwrite
          rw [hdata] at hdirties
          simp only
          cases hadd : Offset.add offset size with
          | error abort =>
            exact ⟨size, _, _, _, rfl, by omega, hdirties, fun hok => by cases hok⟩
          | ok next =>
            obtain rfl : next = offset + size := Offset.eq_of_add_eq_ok hadd
            obtain ⟨m, r, k', s', heq, hm, hrest, hall⟩ := ih (offset + size) hdirties.opened
              (show done + size ≤ bytes.size by omega) (by omega)
            -- the piece leaves its part open, which is the open part in the end if nothing follows
            have hends : k.EndsIn { k with current := some part } (k.layout.Reaches offset size) := by
              refine Or.inl ⟨part, rfl, (SplitLayout.reaches_piece (by omega) (by omega)).mpr ?_⟩
              exact (partAt_spec h hpart).1
            refine ⟨size + m, r, k', s', heq, by omega,
              (hdirties.trans hrest).congr fun _ => SplitLayout.reaches_add, fun hok => ?_⟩
            obtain ⟨rfl, hends'⟩ := hall hok
            exact ⟨by omega, (hends.trans hends').congr fun _ => SplitLayout.reaches_add⟩

/-! ## Any writes, and a flush -/

/-- All writes one after the other, whatever comes of them, and what comes of each. -/
def writeEach (k : SplitSink) (s : Store) :
    List (Nat × ByteArray) → List (Except Halt Unit) × SplitSink × Store
  | [] => ([], k, s)
  | (offset, bytes) :: rest =>
    let (result, k, s) := k.write s offset bytes
    let (results, k, s) := writeEach k s rest
    (result :: results, k, s)

/-- Of each write the first bytes arrived, and all of them if it succeeded. -/
inductive Arrived :
    List (Nat × ByteArray) → List (Except Halt Unit) → List (Nat × ByteArray) → Prop
  | nil : Arrived [] [] []
  | cons {offset : Nat} {bytes : ByteArray} {m : Nat} {result : Except Halt Unit}
      {writes arrived : List (Nat × ByteArray)} {results : List (Except Halt Unit)}
      (hle : m ≤ bytes.size) (hall : result = .ok () → m = bytes.size)
      (hrest : Arrived writes results arrived) :
      Arrived ((offset, bytes) :: writes) (result :: results) ((offset, bytes.extract 0 m) :: arrived)

theorem Arrived.eq_of_ok {writes arrived : List (Nat × ByteArray)}
    {results : List (Except Halt Unit)} (h : Arrived writes results arrived)
    (hok : ∀ r ∈ results, r = .ok ()) : arrived = writes := by
  induction h with
  | nil => rfl
  | cons hle hall hrest ih =>
    rw [hall (hok _ List.mem_cons_self), ByteArray.extract_zero_size,
      ih fun r hr => hok r (List.mem_cons_of_mem _ hr)]

theorem writeEach_dirties (h : k.Opened s d) (writes : List (Nat × ByteArray)) :
    ∃ results k' s' arrived, k.writeEach s writes = (results, k', s') ∧
      Arrived writes results arrived ∧ k.Dirties s k' s' d (k.layout.Touched arrived) ∧
      ((∀ r ∈ results, r = .ok ()) → k.EndsIn k' (k.layout.Touched arrived)) := by
  induction writes generalizing k s with
  | nil =>
    have hnone : ∀ j, ¬ k.layout.Touched [] j := nofun
    exact ⟨[], k, s, [], rfl, .nil, h.dirties_nothing hnone, fun _ => Or.inr ⟨hnone, rfl⟩⟩
  | cons w writes ih =>
    obtain ⟨offset, bytes⟩ := w
    obtain ⟨m, r, k₁, s₁, hwrite, hm, hfirst, hall⟩ :=
      writeFrom_dirties bytes bytes.size offset h (Nat.zero_le _) (Nat.le_refl _)
    obtain ⟨results, k', s', arrived, hrest, harrived, hdirties, hends⟩ := ih hfirst.opened
    have hsize : (bytes.extract 0 m).size = m := by
      rw [ByteArray.size_extract]
      omega
    rw [hfirst.layout] at hdirties hends
    have htouched : ∀ j, k.layout.Touched ((offset, bytes.extract 0 m) :: arrived) j ↔
        k.layout.Reaches offset m j ∨ k.layout.Touched arrived j := fun j => by
      rw [SplitLayout.touched_cons, hsize]
    refine ⟨r :: results, k', s', (offset, bytes.extract 0 m) :: arrived, ?_,
      .cons hm (fun hok => (hall hok).1) harrived, (hfirst.trans hdirties).congr htouched,
      fun hok => ?_⟩
    · simp only [writeEach, write, hwrite, hrest]
    · exact ((hall (hok r List.mem_cons_self)).2.trans
        (hends fun r' hr => hok r' (List.mem_cons_of_mem _ hr))).congr htouched

theorem synced_flush {fault : Option StorageError} (h : k.Opened s d)
    (hok : k.flush s fault = .ok s') (j : Nat) : k.layout.Synced s' j ↔
      (∃ part, k.current = some part ∧ part.index = j) ∨ k.layout.Synced s j := by
  unfold flush at hok
  cases hcurrent : k.current with
  | none =>
    simp only [hcurrent] at hok
    cases hok
    simp only [reduceCtorEq, false_and, exists_false, false_or]
  | some part =>
    simp only [hcurrent] at hok
    split at hok
    · cases hok
    · rename_i s₁ hsync
      cases hok
      have hdata : k.layout.partData? s' j =
          if j = part.index then some ⟨s.content part.handle, true⟩ else k.layout.partData? s j := by
        have hopen : s'.fileData part.handle = ⟨s.content part.handle, true⟩ := by
          rw [fileData_sync hsync, if_pos rfl]
        have hsame := sync_eq_ok hsync
        rw [← hopen]
        refine (h.current part hcurrent).partData?_update h.here h.wellFormed (by rw [hsame])
          (by rw [hsame]) (fun fd' hfd => ?_) j
        rw [fileData_sync hsync, if_neg hfd]
      simp only [Option.some.injEq, exists_eq_left']
      rw [SplitLayout.Synced, hdata]
      split
      · rename_i heq
        exact iff_of_true rfl (Or.inl heq.symm)
      · rename_i hne
        exact ⟨Or.inr, fun hor => hor.resolve_left fun heq => hne heq.symm⟩

theorem flush_of_no_fault (k : SplitSink) (s : Store) : ∃ s', k.flush s none = .ok s' := by
  unfold flush
  split <;> exact ⟨_, rfl⟩

/-- Of the parts that bytes have come into since the sink was opened, a flush that returns makes the
open one durable and no other. If no write failed, all are durable exactly if the bytes came into one
part. -/
theorem synced_after_flush {s₀ : Store} {l : SplitLayout} {resume : Nat} (hs : s₀.WellFormed)
    (hopen : openAt s₀ l resume = (.ok k, s)) (writes : List (Nat × ByteArray)) :
    ∃ results k' s' arrived, k.writeEach s writes = (results, k', s') ∧
      Arrived writes results arrived ∧ ((∀ r ∈ results, r = .ok ()) → arrived = writes) ∧
      (∀ j, ¬ l.Touched arrived j → l.KeepsPart s s' j) ∧
      (∀ j, l.Touched arrived j → ¬ l.Synced s' j) ∧
      (∃ s'', k'.flush s' none = .ok s'') ∧
      ∀ fault s'', k'.flush s' fault = .ok s'' →
        (∀ j, l.Touched arrived j →
          (l.Synced s'' j ↔ ∃ part, k'.current = some part ∧ part.index = j)) ∧
        ((∀ r ∈ results, r = .ok ()) →
          ((∀ j, l.Touched writes j → l.Synced s'' j) ↔
            ∀ i j, l.Touched writes i → l.Touched writes j → i = j)) := by
  obtain ⟨rfl, d, hopened⟩ := opened_openAt hs hopen
  obtain ⟨results, k', s', arrived, hwrites, harrived, hdirties, hends⟩ :=
    writeEach_dirties hopened writes
  refine ⟨results, k', s', arrived, hwrites, harrived, harrived.eq_of_ok, hdirties.keeps,
    fun j hj => (hdirties.dirty j hj).not_synced, k'.flush_of_no_fault s', fun fault s'' hflush => ?_⟩
  -- no write syncs a part, so of the dirty ones a flush can only have synced the open one
  have hsynced : ∀ j, k.layout.Touched arrived j →
      (k.layout.Synced s'' j ↔ ∃ part, k'.current = some part ∧ part.index = j) := by
    intro j hj
    rw [← hdirties.layout, synced_flush hdirties.opened hflush, hdirties.layout]
    exact or_iff_left (hdirties.dirty j hj).not_synced
  refine ⟨hsynced, fun hok => ?_⟩
  obtain rfl := harrived.eq_of_ok hok
  refine ⟨fun hall i j hi hj => ?_, fun hone j hj => ?_⟩
  · obtain ⟨part, hpart, rfl⟩ := (hsynced i hi).mp (hall i hi)
    obtain ⟨part', hpart', rfl⟩ := (hsynced j hj).mp (hall j hj)
    rw [hpart] at hpart'
    rw [Option.some.inj hpart']
  · rcases hends hok with ⟨part, hpart, htouched⟩ | ⟨hnone, -⟩
    · exact (hsynced j hj).mpr ⟨part, hpart, hone _ _ htouched hj⟩
    · exact absurd hj (hnone j)

/-- A directory of parts of ten bytes. -/
abbrev decades : SplitLayout := .new ⟨[100]⟩ 10

/-- The store in which this directory has just been made. -/
abbrev madeDecades : Store := (openAt (.fresh []) decades 0).2

/-- Two writes within the first part, the later bytes first. -/
abbrev withinFirst : List (Nat × ByteArray) := [(3, ⟨#[3, 4, 5, 6]⟩), (0, ⟨#[0, 1, 2]⟩)]

theorem synced_after_flush_withinFirst : (Store.fresh []).WellFormed ∧
    openAt (.fresh []) decades 0 = (.ok ⟨decades, none⟩, madeDecades) ∧
    ∃ k' s' s'', (⟨decades, none⟩ : SplitSink).writeEach madeDecades withinFirst =
        ([.ok (), .ok ()], k', s') ∧ decades.Touched withinFirst 0 ∧
      k'.flush s' none = .ok s'' ∧
      ∀ j, decades.Touched withinFirst j → decades.Synced s'' j := by
  have hopen : openAt (.fresh []) decades 0 = (.ok ⟨decades, none⟩, madeDecades) := by rfl
  have htouched : ∀ j, decades.Touched withinFirst j ↔ j = 0 := fun j => by
    rw [SplitLayout.touched_cons, SplitLayout.touched_cons,
      SplitLayout.reaches_piece (by decide) (by decide),
      SplitLayout.reaches_piece (by decide) (by decide)]
    exact ⟨fun h => h.elim id fun h => h.resolve_right nofun, Or.inl⟩
  obtain ⟨results, k', s', arrived, hwrites, -, -, -, -, ⟨s'', hflush⟩, hall⟩ :=
    synced_after_flush (wellFormed_fresh []) hopen withinFirst
  have hresults : ((⟨decades, none⟩ : SplitSink).writeEach madeDecades withinFirst).1 =
      [.ok (), .ok ()] := by rfl
  rw [hwrites] at hresults
  subst hresults
  refine ⟨wellFormed_fresh [], hopen, k', s', s'', hwrites, (htouched 0).mpr rfl, hflush,
    ((hall none s'' hflush).2 (by simp)).mpr fun i j hi hj => ?_⟩
  rw [(htouched i).mp hi, (htouched j).mp hj]

/-- The bytes of an object of twenty-five bytes, in one write. -/
abbrev acrossParts : List (Nat × ByteArray) := [(0, ⟨⟨(List.range 25).map UInt8.ofNat⟩⟩)]

/-- One write across three parts. -/
abbrev acrossWritten : SplitSink × Store :=
  ((⟨decades, none⟩ : SplitSink).writeEach madeDecades acrossParts).2

/-- After this write and a flush, the first part is not durable. -/
theorem not_synced_acrossParts :
    openAt (.fresh []) decades 0 = (.ok ⟨decades, none⟩, madeDecades) ∧
    (⟨decades, none⟩ : SplitSink).writeEach madeDecades acrossParts = ([.ok ()], acrossWritten) ∧
    ∃ s'', acrossWritten.1.flush acrossWritten.2 none = .ok s'' ∧
      ¬ ∀ j, decades.Touched acrossParts j → decades.Synced s'' j := by
  have hfirst : ∀ s'' ∈ (acrossWritten.1.flush acrossWritten.2 none).toOption,
      ¬ decades.Synced s'' 0 := by decide +kernel
  obtain ⟨s'', hflush⟩ := acrossWritten.1.flush_of_no_fault acrossWritten.2
  rw [hflush] at hfirst
  refine ⟨by rfl, by rfl, s'', hflush, fun hall => hfirst s'' rfl (hall 0 ?_)⟩
  exact ⟨_, List.mem_cons_self, 0, Nat.le_refl 0, by decide, rfl⟩

end SplitSink

end RangeTransfer
