import RangeTransfer.Proofs.Transfer.Delivery
import RangeTransfer.Proofs.Transfer.Setup
import RangeTransfer.Remote.Scripted
/-!
# Attempts that store nothing

An attempt that ends before it opens its sink leaves every file as it was and makes none
(`growsOn_attempt`), whatever ended it: a layout that needs the size, a parent that cannot be made, a
raised flag, a refused connection, a probe or a request that fails. So what an earlier transfer has
stored outlives it. An object of unknown size replaces the file at its target, or the one of the same
name in the fallback directory, and does so only when its body is there: then the file is the body,
whether or not it could be made durable (`storeWhole_spec`).
-/

namespace RangeTransfer
open Store

/-! ## Storing a whole object -/

theorem Content.bytes_write_of_empty {c : Content} (hc : c.size = 0) (data : ByteArray) :
    (c.write 0 data).bytes = data := by
  by_cases hnone : data.size = 0
  · have hsame : c.write 0 data = c := if_pos hnone
    refine Content.bytes_eq (by rw [hsame, hc, hnone]) fun i hi => ?_
    omega
  · refine Content.bytes_eq ?_ fun i hi => ?_
    · rw [Content.size_write c 0 data hnone, hc]
      omega
    · rw [Content.byteAt_write, if_pos (by omega), Nat.sub_zero]

/-- Where the file can be created and the body is not too long for one, the file is the body, whether
or not it could be made durable. -/
theorem Transfer.storeWhole_spec {s : Store} {path : Path} {body : ByteArray} {sink : DirectSink}
    (hs : s.WellFormed) (hcreate : (DirectSink.create s path).1 = .ok sink)
    (hsize : body.size < lengthLimit) (fault : Option StorageError) :
    ∃ s' c, storeWhole s path body fault = (atPath path (fault.elim (.ok ()) .error), s') ∧
      s'.file? path = some c ∧ c.bytes = body := by
  obtain ⟨made, s₁, -, ⟨e, hopen⟩ | ⟨fd, place, r, s₂, hopen, -, -, hfind, hcase⟩⟩ :=
    DirectSink.openAt_spec hs path 0 none
  · rw [DirectSink.create, hopen] at hcreate
    cases hcreate
  · rcases hcase with ⟨rfl, hprep⟩ | ⟨⟨e, rfl⟩, -⟩
    · have hempty : (s₂.content fd).size = 0 := hprep.size.resolve_right nofun
      have hlimit : ¬ lengthLimit ≤ 0 := by decide
      obtain ⟨s₃, hwrite⟩ : ∃ s₃, s₂.writeAt fd 0 body = .ok s₃ := by
        unfold writeAt
        rw [if_neg hlimit, Nat.zero_add, if_neg (Nat.not_le.mpr hsize)]
        split <;> exact ⟨_, rfl⟩
      obtain ⟨-, hcontent, hentries, hworking, -⟩ := writeAt_eq_ok hwrite
      have hwritten : s₃.file? path = some ((s₂.content fd).write 0 body) := by
        rw [file?_of_find ((find_congr hworking hentries path).trans hfind), hcontent, if_pos rfl]
      have hbytes := Content.bytes_write_of_empty hempty body
      have hstored : DirectSink.write ⟨path, fd⟩ s₂ 0 body = .ok s₃ := by
        rw [DirectSink.write, hwrite]
        rfl
      cases fault with
      | some e =>
        refine ⟨s₃, _, ?_, hwritten, hbytes⟩
        unfold storeWhole
        rw [DirectSink.create, hopen]
        simp only [hstored]
        rfl
      | none =>
        obtain ⟨s₄, hsync⟩ : ∃ s₄, s₃.sync fd none = .ok s₄ := ⟨_, rfl⟩
        have hflush : DirectSink.flush ⟨path, fd⟩ s₃ none = .ok s₄ := by
          rw [DirectSink.flush, hsync]
          rfl
        refine ⟨s₄, _, ?_, ((Store.Alike.of_sync hsync).file? path).trans hwritten, hbytes⟩
        unfold storeWhole
        rw [DirectSink.create, hopen]
        simp only [hstored, hflush]
        rfl
    · rw [DirectSink.create, hopen] at hcreate
      cases hcreate

namespace Transfer

variable {ρ : Type} [Remote ρ] {job : Job} {conditions : Conditions} {size : Nat} {x y : Transfer ρ}

/-! ## Attempts that end before -/

/-- The attempt that starts from `x` comes so far as to open its sink, or to create the file for a
body that it has got. -/
inductive ComesToStore (x : Transfer ρ) (job : Job) (conditions : Conditions) : Prop
  | ranges {size : Nat} {p : Placement} (found : x.size? job = some size)
      (opens : x.ComesToOpen job conditions size p) : x.ComesToStore job conditions
  | whole {path : Path} {y : Transfer ρ} {session session' : Session ρ} {body : ByteArray}
      (unknown : x.size? job = none) (chosen : x.chooseFile job conditions = (.ok path, y))
      (connected : y.session.connect = (.ok (), session))
      (fetched : session.fetchWhole job.request.url = (.ok body, session')) :
      x.ComesToStore job conditions

theorem store_of_runRanged {p : Placement} (hearly : y.chosenKind? job p size = none) :
    (y.runRanged job conditions p size).2.store = y.store := by
  obtain ⟨session, -, hprepares⟩ := y.prepares job p size
  unfold runRanged
  cases hprepares with
  | early _ hresult => rw [hresult]
  | closed _ hkind _ _ => cases hearly.symm.trans hkind
  | ready _ hkind _ _ _ => cases hearly.symm.trans hkind

theorem store_of_fetchTo {url : String} {path : Path} {fault : Option StorageError}
    (hnone : ∀ session body session', y.session.connect = (.ok (), session) →
      session.fetchWhole url ≠ (.ok body, session')) :
    (y.fetchTo url path fault).2.store = y.store := by
  unfold fetchTo
  split
  · rfl
  · rename_i session hconnect
    split
    · rfl
    · rename_i body session' hfetch
      exact absurd hfetch (hnone session body session' hconnect)

/-- An attempt that does not come to store anything makes directories at most. -/
theorem growsOn_attempt (hs : x.store.WellFormed) (hnot : ¬ x.ComesToStore job conditions) :
    x.store.GrowsOn (Site.ofJob job size).ways (attempt job conditions x).2.store := by
  cases hsize : x.size? job with
  | none =>
    have hgrows := growsOn_chooseFile hs job conditions size
    rw [attempt_of_unsized hsize]
    cases hchoose : x.chooseFile job conditions with
    | mk chosen y =>
      rw [hchoose] at hgrows
      cases chosen with
      | error halt => exact hgrows
      | ok path =>
        rw [store_of_fetchTo fun session body session' hconnect hfetch =>
          hnot (.whole hsize hchoose hconnect hfetch)]
        exact hgrows
  | some found =>
    have hgrows := growsOn_choosePlace hs job conditions found
    rw [attempt_of_size hsize]
    cases hchoose : x.choosePlace job conditions found with
    | mk chosen y =>
      rw [hchoose] at hgrows
      cases chosen with
      | error halt => exact hgrows
      | ok p =>
        simp only
        split
        · exact hgrows
        · rename_i hcalm
          split
          · exact hgrows
          · rename_i hlt
            rw [store_of_runRanged]
            · exact hgrows
            · -- with a strategy the sink would be opened
              refine Option.not_isSome_iff_eq_none.mp fun hkind => hnot (.ranges (p := p) hsize ?_)
              exact ⟨y, hchoose, Bool.eq_false_iff.mpr hcalm, Nat.not_le.mp hlt, hkind⟩

/-! ## Attempts that get the whole object -/

theorem not_comesToStore_of_fetchWhole {path : Path} {session session' : Session ρ} {halt : Halt}
    (hsize : x.size? job = none) (hchoose : x.chooseFile job conditions = (.ok path, y))
    (hconnect : y.session.connect = (.ok (), session))
    (hfetch : session.fetchWhole job.request.url = (.error halt, session')) :
    ¬ x.ComesToStore job conditions ∧
      (attempt job conditions x).1 = .error (halt.leaving 0) := by
  constructor
  · rintro (⟨hfound, -⟩ | ⟨-, hchoose', hconnect', hfetch'⟩)
    · cases hsize.symm.trans hfound
    · cases hchoose.symm.trans hchoose'
      cases hconnect.symm.trans hconnect'
      cases hfetch.symm.trans hfetch'
  · rw [attempt_of_unsized hsize, hchoose]
    simp only [fetchTo, hconnect, hfetch]

theorem fetchTo_of_success {url : String} {path : Path} {session session' : Session ρ}
    {r : Response} {sink : DirectSink} (hs : y.store.WellFormed)
    (hconnect : y.session.connect = (.ok (), session))
    (hask : session.ask ⟨0, url, none⟩ = (.response r, session')) (hsuccess : r.isSuccess = true)
    (hcreate : (DirectSink.create y.store path).1 = .ok sink) (hlimit : r.body.size < lengthLimit)
    (fault : Option StorageError) :
    let result := y.fetchTo url path fault
    (fault = none → ∃ outcome, result.1 = .ok outcome ∧ outcome.path = path ∧
      outcome.total = r.body.size) ∧
    (∀ e, fault = some e → result.1 = .error (.failed (.storage path e) 0)) ∧
    (result.2.store.file? path).map Content.bytes = some r.body := by
  obtain ⟨s, c, hstore, hfile, hbytes⟩ := storeWhole_spec hs hcreate hlimit fault
  have hfetch : session.fetchWhole url = (.ok r.body, session') := by
    unfold Session.fetchWhole
    rw [hask]
    exact if_pos hsuccess
  have hbody : (s.file? path).map Content.bytes = some r.body := by
    rw [hfile, Option.map_some, hbytes]
  cases fault with
  | none =>
    have hresult : y.fetchTo url path none =
        (.ok ⟨path, .direct, .singleShot, r.body.size, 0, 1, none, r.body.size, 1⟩,
          ⟨(session'.setTotal r.body.size).advanceTo r.body.size, s⟩) := by
      simp only [fetchTo, hconnect, hfetch, hstore]
      rfl
    rw [hresult]
    exact ⟨fun _ => ⟨_, rfl, rfl, rfl⟩, nofun, hbody⟩
  | some e =>
    have hresult : y.fetchTo url path (some e) =
        (.error (.failed (.storage path e) 0), ⟨session', s⟩) := by
      simp only [fetchTo, hconnect, hfetch, hstore]
      rfl
    rw [hresult]
    refine ⟨nofun, fun e' he => ?_, hbody⟩
    rw [Option.some.inj he]

/-- An attempt that ends before it has anything to store touches no file, and makes directories at
most, on the way to the one above the target or to the fallback directory. A body of an object of
unknown size becomes the file at its target, whatever was there. -/
theorem untouched_unless_stored (x : Transfer ρ) (job : Job) (conditions : Conditions)
    (hs : x.store.WellFormed) :
    let above := job.request.target.parent?.getD ⟨[]⟩
    let fallback := job.settings.fallbackDirectory
    let z := (attempt job conditions x).2
    (¬ x.ComesToStore job conditions →
      (∀ p c, x.store.file? p = some c → z.store.file? p = some c) ∧
      (∀ place n, z.store.entryAt place = some (.file n) ↔ x.store.entryAt place = some (.file n)) ∧
      (∀ fd, z.store.content fd = x.store.content fd) ∧
      (∀ place e, x.store.entryAt place = some e → z.store.entryAt place = some e) ∧
      ∀ place, x.store.entryAt place = none → z.store.entryAt place = none ∨
        z.store.entryAt place = some .directory ∧
          (z.store.OnWay above place ∨ ∃ p, fallback = some p ∧ z.store.OnWay p place)) ∧
    ∀ path y session, x.size? job = none → x.chooseFile job conditions = (.ok path, y) →
      y.session.connect = (.ok (), session) →
      (∃ moved, x.store.usableParent fallback job.request.target = (.ok moved, y.store) ∧
        path = job.request.target.movedTo moved) ∧
      (∀ halt session', session.fetchWhole job.request.url = (.error halt, session') →
        ¬ x.ComesToStore job conditions ∧
          (attempt job conditions x).1 = .error (halt.leaving 0)) ∧
      ∀ r session' sink, session.ask ⟨0, job.request.url, none⟩ = (.response r, session') →
        r.isSuccess = true → (DirectSink.create y.store path).1 = .ok sink →
        r.body.size < lengthLimit →
        (conditions.syncFault = none → ∃ outcome, (attempt job conditions x).1 = .ok outcome ∧
          outcome.path = path ∧ outcome.total = r.body.size) ∧
        (∀ e, conditions.syncFault = some e →
          (attempt job conditions x).1 = .error (.failed (.storage path e) 0)) ∧
        (z.store.file? path).map Content.bytes = some r.body := by
  intro above fallback z
  refine ⟨fun hnot => ?_, fun path y session hsize hchoose hconnect =>
    ⟨chooseFile_eq_ok hchoose, fun halt session' hfetch =>
      not_comesToStore_of_fetchWhole hsize hchoose hconnect hfetch,
      fun r session' sink hask hsuccess hcreate hlimit => ?_⟩⟩
  · have hgrows : x.store.GrowsOn (Site.ofJob job 0).ways z.store := growsOn_attempt hs hnot
    refine ⟨fun p c => hgrows.file?, hgrows.file_iff, hgrows.content, hgrows.entry,
      fun place hnone => ?_⟩
    rcases hgrows.fresh place hnone with hstill | hdir
    · exact Or.inl hstill
    · obtain ⟨p, hp, hway⟩ := hgrows.onWay place hnone (by rw [hdir]; nofun)
      refine Or.inr ⟨hdir, ?_⟩
      rcases List.mem_cons.mp hp with rfl | hp
      · exact Or.inl hway
      · exact Or.inr ⟨p, Option.mem_toList.mp hp, hway⟩
  · have hy : y.store.WellFormed := by
      have hgrows := growsOn_chooseFile hs job conditions 0
      rw [hchoose] at hgrows
      exact hgrows.wellFormed hs
    have hattempt : attempt job conditions x =
        y.fetchTo job.request.url path conditions.syncFault := by
      rw [attempt_of_unsized hsize, hchoose]
    have hfetched := fetchTo_of_success hy hconnect hask hsuccess hcreate hlimit conditions.syncFault
    rw [← hattempt] at hfetched
    exact hfetched

/-- A request for the sample in a single file. -/
abbrev sampleFileJob : Job := sampleJob .direct 1 1 1

/-- A transfer to the file that holds the first half, from a remote that refuses the connection. -/
abbrev refusedHalf : Transfer ScriptedRemote :=
  ⟨⟨{ ScriptedRemote.new 4 with refused := [0] }, .fresh, []⟩, halfFile⟩

/-- A transfer to the same file of an object of one byte, whose size the remote does not tell, with
answers to its first requests. -/
abbrev unsizedByte (script : List Act) : Transfer ScriptedRemote :=
  ⟨⟨{ ScriptedRemote.new 1 with size := none, script }, .fresh, []⟩, halfFile⟩

/-- A request for the object in a single file, without its size. -/
abbrev unsizedJob : Job :=
  ⟨⟨"http://h/f", ⟨[97]⟩, 0, 1, 1, .direct⟩, .standard⟩

/-- Nothing is found at the URL. -/
abbrev missing : Act := ⟨.respond 404 .none .absent, false⟩

theorem not_comesToStore_refusedHalf :
    ¬ refusedHalf.ComesToStore sampleFileJob .calm := by
  rintro (⟨hfound, y, hchoose, -, -, hkind⟩ | ⟨hunknown, -⟩)
  · obtain rfl : 4 = _ := Option.some.inj hfound
    obtain rfl : (refusedHalf.choosePlace sampleFileJob .calm 4).2 = y :=
      congrArg Prod.snd hchoose
    exact Bool.noConfusion hkind
  · exact nomatch (show some 4 = none from hunknown)

/-- The refused transfer and the one that finds nothing leave the two bytes in place, the one that
succeeds replaces them. -/
theorem untouched_unless_stored_halfFile :
    let file (x : Transfer ScriptedRemote) := (x.store.file? ⟨[97]⟩).map Content.bytes
    let sized := attempt sampleFileJob .calm refusedHalf
    let unsized (script : List Act) := attempt unsizedJob .calm (unsizedByte script)
    halfFile.WellFormed ∧ ¬ refusedHalf.ComesToStore sampleFileJob .calm ∧
    sized.1 = .error (.failed (.transport "remote" "connect 0 refused") 2) ∧
    file sized.2 = some ⟨#[0, 1]⟩ ∧
    (unsized [missing]).1 =
      .error (.failed (.protocol "http://h/f" (.unexpectedStatus 404)) 0) ∧
    file (unsized [missing]).2 = some ⟨#[0, 1]⟩ ∧ file (unsized []).2 = some ⟨#[0]⟩ := by
  intro file sized unsized
  have hchoose : ∀ script, (unsizedByte script).chooseFile unsizedJob .calm =
    (.ok ⟨[97]⟩, ((unsizedByte script).chooseFile unsizedJob .calm).2) := fun _ => rfl
  obtain ⟨c, hc, hbytes⟩ : ∃ c, halfFile.file? ⟨[97]⟩ = some c ∧ c.bytes = ⟨#[0, 1]⟩ :=
    ⟨_, rfl, by decide +kernel⟩
  have hkept : ∀ {y : Transfer ScriptedRemote}, (∀ p c, halfFile.file? p = some c →
      y.store.file? p = some c) → file y = some ⟨#[0, 1]⟩ := fun hfile =>
    (congrArg (Option.map _) (hfile _ c hc)).trans (congrArg some hbytes)
  obtain ⟨hrefused, -⟩ := untouched_unless_stored refusedHalf sampleFileJob .calm
    wellFormed_halfFile
  obtain ⟨hmissing, hanswered⟩ := untouched_unless_stored (unsizedByte [missing]) unsizedJob .calm
    wellFormed_halfFile
  obtain ⟨-, hreplaced⟩ := untouched_unless_stored (unsizedByte []) unsizedJob .calm
    wellFormed_halfFile
  obtain ⟨-, hfails, -⟩ := hanswered _ _
    ((unsizedByte [missing]).chooseFile unsizedJob .calm).2.session.connect.2 rfl (hchoose _) rfl
  obtain ⟨-, -, hstores⟩ := hreplaced _ _
    ((unsizedByte []).chooseFile unsizedJob .calm).2.session.connect.2 rfl (hchoose _) rfl
  obtain ⟨hnot, hfailed⟩ := hfails (.failed (.protocol "http://h/f" (.unexpectedStatus 404))) _ rfl
  obtain ⟨-, -, hfile⟩ := hstores ⟨200, patternBytes 0 1, none⟩ _ ⟨⟨[97]⟩, ⟨0⟩⟩ rfl rfl rfl
    (by decide +kernel)
  exact ⟨wellFormed_halfFile, not_comesToStore_refusedHalf, rfl,
    hkept (hrefused not_comesToStore_refusedHalf).1, hfailed, hkept (hmissing hnot).1, hfile⟩

end Transfer

end RangeTransfer
