import RangeTransfer.Proofs.Transfer.Moments
/-!
# The byte counter never decreases

Along the moments of a download the byte counter stands still or is raised (`pairwise_moments`):
it is raised to the resume offset before a sink is opened, and then by the workers. `Rising` says so
of any part of the moments, with bounds that tell how the next part goes on.
-/

namespace RangeTransfer
open Store

namespace Transfer

variable {ρ : Type} [Remote ρ]

theorem bytes_choosePlace (x : Transfer ρ) (job : Job) (conditions : Conditions) (size : Nat) :
    (x.choosePlace job conditions size).2.session.progress.bytes = x.session.progress.bytes := by
  have hfind : ((x.enter .sizeUnknown).findSize job.request).2.session.progress.bytes =
      x.session.progress.bytes := by
    unfold findSize
    split <;> rfl
  unfold choosePlace
  simp only
  split
  · exact hfind
  · exact (Session.bytes_cancelIf _ _).trans hfind

end Transfer

namespace Strategy

variable {ρ σ : Type} [Remote ρ] (strategy : Strategy) (moves : List Move) (granted : Option Nat)
  (x : Shared ρ σ)

theorem bytes_execute [RangeSink σ] :
    (strategy.execute moves granted x).2.session.progress.bytes =
      ((strategy.crew granted x).after strategy.rules
        (strategy.schedule moves granted x)).shared.session.progress.bytes := by
  unfold schedule
  cases strategy with
  | sequential policy =>
    rw [← Crew.run_eq_after]
    simp only [execute, crew, rules]
    split <;> rfl
  | parallel workers policy spawn =>
    simp only [execute, crew, rules]
    cases spawn.startThreads ((x.session.connectMore (workers - 1)).1 + 1) granted with
    | error e => exact (after_of_empty ⟨policy, false⟩ (c := .new _ 0) rfl _).2.2.symm
    | ok n =>
      rw [← Crew.run_eq_after]
      rfl

end Strategy

/-- The byte counter never decreases along the moments, and lies between `low` and `high`. -/
structure Rising (low high : Nat) (passed : List Moment) : Prop where
  pairwise : passed.Pairwise (·.bytes ≤ ·.bytes)
  bounds : ∀ m ∈ passed, low ≤ m.bytes ∧ m.bytes ≤ high

namespace Rising

variable {low mid high : Nat} {passed later : List Moment}

theorem nil (low high : Nat) : Rising low high [] := ⟨List.Pairwise.nil, nofun⟩

theorem same (h : ∀ m ∈ passed, m.bytes = low) : Rising low low passed where
  pairwise := List.Pairwise.imp_of_mem (R := fun _ _ => True)
    (fun hm hm' _ => Nat.le_of_eq ((h _ hm).trans (h _ hm').symm))
    (List.pairwise_of_forall fun _ _ => trivial)
  bounds m hm := ⟨Nat.le_of_eq (h m hm).symm, Nat.le_of_eq (h m hm)⟩

theorem append (h : Rising low mid passed) (h' : Rising mid high later) (hlow : low ≤ mid)
    (hhigh : mid ≤ high) : Rising low high (passed ++ later) where
  pairwise := List.pairwise_append.mpr ⟨h.pairwise, h'.pairwise, fun m hm m' hm' =>
    Nat.le_trans (h.bounds m hm).2 (h'.bounds m' hm').1⟩
  bounds m hm := by
    rcases List.mem_append.mp hm with hm | hm
    · exact ⟨(h.bounds m hm).1, Nat.le_trans (h.bounds m hm).2 hhigh⟩
    · exact ⟨Nat.le_trans hlow (h'.bounds m hm).1, (h'.bounds m hm).2⟩

theorem cons {m : Moment} (hm : m.bytes = low) (h : Rising low high passed) (hle : low ≤ high) :
    Rising low high (m :: passed) :=
  append (same fun m' hm' => by rw [List.mem_singleton.mp hm']; exact hm) h (Nat.le_refl _) hle

theorem last {m : Moment} (hm : m.bytes = high) (hle : low ≤ high) : Rising low high [m] where
  pairwise := List.pairwise_singleton _ _
  bounds m' hm' := by
    rw [List.mem_singleton.mp hm']
    exact ⟨hm ▸ hle, Nat.le_of_eq hm⟩

theorem points {ρ : Type} [Remote ρ] (rules : WorkerRules) (c : Crew ρ Sink) (moves : List Move) :
    Rising c.shared.session.progress.bytes
      (c.after rules moves).shared.session.progress.bytes
      ((c.points rules moves).map Shared.moment) := by
  have hpairwise := c.pairwise_points rules moves
  have hfirst : ∃ rest, c.points rules moves = c.shared :: rest := by
    cases moves <;> exact ⟨_, rfl⟩
  have hlast : ∃ before, c.points rules moves = before ++ [(c.after rules moves).shared] :=
    List.getLast?_eq_some_iff.mp (Crew.getLast?_points moves)
  refine ⟨List.pairwise_map.mpr hpairwise, fun m hm => ?_⟩
  obtain ⟨x, hx, rfl⟩ := List.mem_map.mp hm
  constructor
  · obtain ⟨rest, heq⟩ := hfirst
    rw [heq] at hpairwise hx
    rcases List.mem_cons.mp hx with rfl | hx
    · exact Nat.le_refl _
    · exact (List.pairwise_cons.mp hpairwise).1 x hx
  · obtain ⟨before, heq⟩ := hlast
    rw [heq] at hpairwise hx
    rcases List.mem_append.mp hx with hx | hx
    · exact (List.pairwise_append.mp hpairwise).2.2 x hx _ List.mem_cons_self
    · rw [List.mem_singleton.mp hx]
      exact Nat.le_refl _

end Rising

namespace Transfer

variable {ρ : Type}

theorem rising_settling (run : Run ρ) (p : Placement) (size : Nat) (fault : Option StorageError)
    (executed : Except Halt Unit) (y : Shared ρ Sink) :
    Rising y.session.progress.bytes y.session.progress.bytes
      (settling run p size fault executed y) := by
  have hsession := session_settleRun run p size fault executed y
  refine Rising.same fun m hm => ?_
  unfold settling at hm
  split at hm
  · rename_i heq
    rw [heq] at hsession
    rcases List.mem_append.mp hm with hm | hm
    · split at hm
      · cases hm
      · obtain ⟨s, -, rfl⟩ := List.mem_map.mp hm
        rfl
    · rw [List.mem_singleton.mp hm]
      exact congrArg (·.progress.bytes) hsession
  · rename_i heq
    rw [heq] at hsession
    rw [List.mem_singleton.mp hm]
    exact congrArg (·.progress.bytes) hsession

variable [Remote ρ]

theorem rising_runMoments (x : Transfer ρ) (job : Job) (conditions : Conditions) (p : Placement)
    (size : Nat) : x.session.progress.bytes ≤
        (x.runRanged job conditions p size).2.session.progress.bytes ∧
      Rising x.session.progress.bytes
        (x.runRanged job conditions p size).2.session.progress.bytes
        (x.runMoments job conditions p size) := by
  obtain ⟨session, hbytes, hprepares⟩ := x.prepares job p size
  have hstart : x.session.progress.bytes ≤ session.progress.bytes := by omega
  have hopening : ∀ kind, Rising session.progress.bytes session.progress.bytes
      ((p.opening x.store kind size).map
        (⟨max x.session.progress.bytes p.resume, ·⟩)) := fun kind => Rising.same fun m hm => by
    obtain ⟨s, -, rfl⟩ := List.mem_map.mp hm
    exact hbytes.symm
  have hend : ∀ y : Transfer ρ, y.session = session →
      Rising session.progress.bytes session.progress.bytes [y.moment] := fun y hy =>
    Rising.same fun m hm => by
      rw [List.mem_singleton.mp hm]
      exact congrArg (·.progress.bytes) hy
  -- the counter is raised to the resume offset first, before anything else is done
  have hraised : ∀ {high : Nat} {rest : List Moment}, session.progress.bytes ≤ high →
      Rising session.progress.bytes high rest → Rising x.session.progress.bytes high
        (⟨max x.session.progress.bytes p.resume, x.store⟩ :: rest) := by
    intro high rest hhigh hrest
    refine ⟨(Rising.cons hbytes.symm hrest hhigh).pairwise, fun m hm => ?_⟩
    have := (Rising.cons (m := ⟨_, x.store⟩) hbytes.symm hrest hhigh).bounds m hm
    omega
  unfold runMoments runRanged
  cases hprepares with
  | early hkind hprepare =>
    simp only [hkind, hprepare, Option.elim_none]
    exact ⟨hstart, hraised (Nat.le_refl _) (hend _ rfl)⟩
  | closed hle hkind hopen hprepare =>
    simp only [hkind, hprepare, Option.elim_some]
    exact ⟨hstart, hraised (Nat.le_refl _)
      ((hopening _).append (hend _ rfl) (Nat.le_refl _) (Nat.le_refl _))⟩
  | @ready kind sink store strategy workers chunk hle hkind halone hopen hprepare =>
    simp only [hkind, hprepare, Option.elim_some, session_settleRun]
    let shared : Shared ρ Sink := ⟨session, sink, .new job.request.url p.resume size chunk⟩
    have hcrew := strategy.bytes_crew conditions.granted shared
    have hexecute := strategy.bytes_execute conditions.moves conditions.granted shared
    have hpoints := Rising.points strategy.rules (strategy.crew conditions.granted shared)
      (strategy.schedule conditions.moves conditions.granted shared)
    rw [hcrew, ← hexecute] at hpoints
    have hgrow : session.progress.bytes ≤
        (strategy.execute conditions.moves conditions.granted shared).2.session.progress.bytes := by
      rw [hexecute, ← hcrew]
      exact Crew.bytes_le_after _ _ _
    refine ⟨Nat.le_trans hstart hgrow, hraised hgrow ((hopening kind).append (hpoints.append
      (rising_settling _ _ _ _ _ _) hgrow (Nat.le_refl _)) (Nat.le_refl _) hgrow)⟩

theorem rising_attemptMoments {site : Site} {job : Job} {size : Nat}
    (hasks : site.Asks ρ size job) (hpos : 0 < size) (conditions : Conditions) (x : Transfer ρ) :
    x.session.progress.bytes ≤ (attempt job conditions x).2.session.progress.bytes ∧
      Rising x.session.progress.bytes (attempt job conditions x).2.session.progress.bytes
        (attemptMoments job conditions size x) := by
  have hbytes := x.bytes_choosePlace job conditions size
  rw [attempt_eq hasks hpos]
  unfold attemptMoments
  cases hchoose : x.choosePlace job conditions size with
  | mk chosen y =>
    rw [hchoose] at hbytes
    have hbytes : y.session.progress.bytes = x.session.progress.bytes := hbytes
    cases chosen with
    | error halt =>
      exact ⟨Nat.le_of_eq hbytes.symm, Rising.cons rfl
        (Rising.cons hbytes (Rising.nil _ _) (Nat.le_of_eq hbytes.symm)) (Nat.le_of_eq hbytes.symm)⟩
    | ok p =>
      simp only
      split
      · exact ⟨Nat.le_of_eq hbytes.symm, Rising.cons rfl
          (Rising.cons hbytes (Rising.nil _ _) (Nat.le_of_eq hbytes.symm))
          (Nat.le_of_eq hbytes.symm)⟩
      · split
        · have hadvance : x.session.progress.bytes ≤
              (y.session.advanceTo size).progress.bytes :=
            hbytes ▸ Progress.bytes_advanceTo y.session.progress size
          rename_i hcalm hle
          have heq := attempt_eq hasks hpos conditions x
          simp only [hchoose, if_neg hcalm, if_pos hle] at heq
          rw [heq]
          exact ⟨hadvance, Rising.cons rfl (Rising.cons hbytes (Rising.last rfl hadvance) hadvance)
            hadvance⟩
        · obtain ⟨hgrow, hrising⟩ := rising_runMoments y job conditions p size
          rw [hbytes] at hgrow hrising
          exact ⟨hgrow, Rising.cons rfl (Rising.cons hbytes hrising hgrow) hgrow⟩

theorem pairwise_moments {site : Site} {job : Job} {size : Nat}
    (hasks : site.Asks ρ size job) (hpos : 0 < size) (conditions : Nat → Conditions)
    (x : Transfer ρ) : (moments job conditions size x).Pairwise (·.bytes ≤ ·.bytes) := by
  have hall : ∀ (left number : Nat) (x : Transfer ρ), ∃ high, x.session.progress.bytes ≤ high ∧
      Rising x.session.progress.bytes high
        (retryMoments job.settings.retry (fun number => attempt job (conditions number))
          (fun number => attemptMoments job (conditions number) size)
          (fun number => (conditions number).stopsInWait) left number x) := by
    intro left
    induction left with
    | zero =>
      intro number x
      obtain ⟨hgrow, hrising⟩ := rising_attemptMoments hasks hpos (conditions number) x
      refine ⟨_, hgrow, ?_⟩
      rw [retryMoments.eq_def]
      refine hrising.append ?_ hgrow (Nat.le_refl _)
      split
      · split
        · cases ‹0 = _ + 1›
        · exact Rising.nil _ _
      · exact Rising.nil _ _
    | succ left ih =>
      intro number x
      obtain ⟨hgrow, hrising⟩ := rising_attemptMoments hasks hpos (conditions number) x
      rw [retryMoments.eq_def]
      cases hattempt : attempt job (conditions number) x with
      | mk r y =>
        rw [hattempt] at hgrow hrising
        have hstop : ∃ high, x.session.progress.bytes ≤ high ∧ Rising x.session.progress.bytes high
            (attemptMoments job (conditions number) size x ++ []) :=
          ⟨_, hgrow, hrising.append (Rising.nil _ _) hgrow (Nat.le_refl _)⟩
        split
        · rename_i heq
          cases heq
          split
          · rename_i delay left' hwaits heq
            obtain rfl := Nat.succ.inj heq
            simp only
            split
            · exact hstop
            · obtain ⟨high, hmore, hrest⟩ := ih (number + 1) (y.pause delay (conditions number).stopsInWait)
              have hpause : (y.pause delay (conditions number).stopsInWait).session.progress.bytes =
                y.session.progress.bytes := Session.bytes_cancelIf _ _
              rw [hpause] at hmore hrest
              exact ⟨high, Nat.le_trans hgrow hmore, hrising.append hrest hgrow hmore⟩
          · exact hstop
        · exact hstop
  obtain ⟨high, -, hrising⟩ := hall _ 1 x
  exact hrising.pairwise

end Transfer

end RangeTransfer
