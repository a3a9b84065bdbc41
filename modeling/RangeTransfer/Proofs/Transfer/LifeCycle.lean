import RangeTransfer.Proofs.Transfer.Journal
/-!
# The life cycle of a transfer

What a download shows: the phases of its attempts, with a retry phase between two of them, and a
last phase that says how it ended, after as many attempts as it reports (`lifeCycle_of_download`).
Each attempt shows a part of the way to the fetching of ranges (`Shows`), so none shows that the
transfer has finished. The announcement of a split directory stands behind the last phase of a
successful transfer, and nowhere else (`Closing`).

The phases of the journal are those that the caller sees, one after the other: each is noted when it
has been stored, and only then is the stored phase another one (`Session.Logs`). So the stored phase
is the last one shown, between the attempts and at the end.
-/

namespace RangeTransfer

theorem Session.logs_pause {ρ : Type} (x : Transfer ρ) (delay : Duration) (stops : Bool) :
    x.session.Logs (x.pause delay stops).session [] [.phase .autoRetrying] := by
  have hwait : (x.session.enter .autoRetrying).Logs
      ((x.session.enter .autoRetrying).note (.wait delay)) [] [] := Session.logs_note _ rfl
  exact (x.session.logs_enter _).trans (hwait.trans (Session.logs_cancelIf _ _))

namespace Transfer

variable {ρ : Type} [Remote ρ]

/-! ## One attempt -/

/-- An attempt that starts from `x` can show the phases `shown`, the first one first. -/
inductive Shows (x : Transfer ρ) (job : Job) (conditions : Conditions) : List Phase → Prop
  | unsized {shown : List Phase} (unknown : x.size? job = none) (ne_nil : shown ≠ [])
      (le : shown <+: [.sizeUnknown, .downloading]) : x.Shows job conditions shown
  /-- The attempt ends before it fetches ranges. -/
  | early {size : Nat} {shown : List Phase} (found : x.size? job = some size) (ne_nil : shown ≠ [])
      (le : shown <+: [.sizeUnknown, .sizeResolved, .layoutChosen]) : x.Shows job conditions shown
  | ranged {size : Nat} {p : Placement} {y : Transfer ρ} (found : x.size? job = some size)
      (chosen : x.choosePlace job conditions size = (.ok p, y)) : x.Shows job conditions
        [.sizeUnknown, .sizeResolved, .layoutChosen,
          if 0 < p.resume then .resuming else .downloading]

variable {job : Job} {x : Transfer ρ}

theorem Course.shows {conditions : Conditions} {asked : List (Option ByteRange)} {shown : List Phase}
    (h : x.Course job conditions asked shown) : x.Shows job conditions shown := by
  cases h with
  | unsized unknown _ ne_nil le => exact .unsized unknown ne_nil le
  | early found ne_nil le => exact .early found ne_nil le
  | closed found chosen _ _ => exact .ranged found chosen
  | opened found opens _ =>
    obtain ⟨y, chosen, -⟩ := opens
    exact .ranged found chosen

omit [Remote ρ] in
theorem findSome?_phase (phases : List Phase) :
    (phases.map Event.phase).findSome? Event.phase? = phases.head? := by
  cases phases <;> rfl

theorem Shows.ne_nil {conditions : Conditions} {shown : List Phase}
    (h : x.Shows job conditions shown) : shown ≠ [] := by
  cases h with
  | unsized _ ne_nil _ | early _ ne_nil _ => exact ne_nil
  | ranged _ _ => exact List.cons_ne_nil _ _

/-! ## The attempts of a download -/

variable {conditions : Nat → Conditions} {x₀ : Transfer ρ} {k : Nat}

/-- What the download that starts from `x₀` shows behind the phases of its `k` attempts when it ends
with a result. -/
inductive Closing (job : Job) (conditions : Nat → Conditions) (x₀ : Transfer ρ) (k : Nat) :
    Except DownloadHalt Outcome → List Event → Prop
  | file {o : Outcome} (attempts : o.attempts = k) (layout : o.layout = .direct) :
      Closing job conditions x₀ k (.ok o) [.phase .completed]
  | directory {o : Outcome} (attempts : o.attempts = k) (layout : o.layout = .split) :
      Closing job conditions x₀ k (.ok o) [.phase .completed, .splitCompleted o.path]
  | failed {f : Failure} (attempts : f.attempts = k) :
      Closing job conditions x₀ k (.error (.failed f)) [.phase .failed]
  /-- The flag was up when the wait after the last attempt was over. -/
  | stopped {f : Failure} {x y : Transfer ρ} {e : TransferError} {n : Nat} {delay : Duration}
      (attempts : f.attempts = k) (error : f.error = .cancelled)
      (start : Starts job conditions x₀ k x)
      (failed : attempt job (conditions k) x = (.error (.failed e n), y))
      (waits : waitAfter job.settings.retry e k = .ok (some delay))
      (up : (y.pause delay (conditions k).stopsInWait).cancelled = true) :
      Closing job conditions x₀ k (.error (.failed f)) [.phase .autoRetrying, .phase .failed]
  /-- A download that is aborted does not return. -/
  | aborted {abort : Abort} : Closing job conditions x₀ k (.error (.aborted abort)) []

/-- The download from attempt `k` on, with at most `left` attempts after that. -/
def downloadFrom (job : Job) (conditions : Nat → Conditions) (left k : Nat) (x : Transfer ρ) :
    Except DownloadHalt Outcome × Transfer ρ :=
  retry job.settings.retry (fun number => attempt job (conditions number))
    (fun number => (conditions number).stopsInWait) left k x

theorem downloadFrom_cases (hstart : Starts job conditions x₀ k x) (left : Nat) :
    (∃ ending, Closing job conditions x₀ k (downloadFrom job conditions left k x).1 ending ∧
      (attempt job (conditions k) x).2.session.Logs
        (downloadFrom job conditions left k x).2.session [] ending.reverse) ∨
    ∃ left' e n y delay, left = left' + 1 ∧
      attempt job (conditions k) x = (.error (.failed e n), y) ∧
      Starts job conditions x₀ (k + 1) (y.pause delay (conditions k).stopsInWait) ∧
      downloadFrom job conditions left k x = downloadFrom job conditions left' (k + 1)
        (y.pause delay (conditions k).stopsInWait) := by
  unfold downloadFrom
  rw [retry.eq_def]
  simp only
  split
  · rename_i outcome y hattempt
    rw [hattempt]
    left
    obtain ⟨path, layout, strategy, total, resumedFrom, attempts, parts, chunk, workers⟩ := outcome
    cases layout with
    | direct => exact ⟨_, .file rfl rfl, Session.logs_enter _ _⟩
    | split =>
      exact ⟨_, .directory rfl rfl, (Session.logs_enter _ _).trans (Session.logs_note _ rfl)⟩
  · rename_i hattempt
    rw [hattempt]
    exact Or.inl ⟨[], .aborted, .refl _⟩
  · rename_i e n y hattempt
    split
    · rw [hattempt]
      exact Or.inl ⟨[], .aborted, .refl _⟩
    · rename_i delay left' hwaits
      have hpause := Session.logs_pause y delay (conditions k).stopsInWait
      split
      · rename_i hup
        rw [hattempt]
        exact Or.inl ⟨_, .stopped rfl rfl hstart hattempt hwaits hup,
          hpause.trans (Session.logs_enter _ _)⟩
      · rename_i hcalm
        exact Or.inr ⟨left', e, n, y, delay, rfl, hattempt,
          .next hstart hattempt hwaits (Bool.eq_false_iff.mpr hcalm), rfl⟩
    · rw [hattempt]
      exact Or.inl ⟨_, .failed rfl, Session.logs_enter _ _⟩

/-- The phases of `attempts` with a retry phase between two of them, and then `ending`. -/
def story (attempts : List (List Phase)) (ending : List Event) : List Event :=
  ([Phase.autoRetrying].intercalate attempts).map .phase ++ ending

theorem story_cons (shown : List Phase) {attempts : List (List Phase)} (h : attempts ≠ [])
    (ending : List Event) : story (shown :: attempts) ending =
      shown.map .phase ++ .phase .autoRetrying :: story attempts ending := by
  rw [story, List.intercalate_cons_of_ne_nil h, List.map_append, List.map_append, List.append_assoc,
    List.append_assoc]
  rfl

theorem Starts.phase (h : Starts job conditions x₀ (k + 1) x) (hk : 0 < k) :
    x.session.progress.phase = .autoRetrying := by
  cases h with
  | first => exact absurd hk (Nat.lt_irrefl 0)
  | @next _ _ _ y e delay before failed waits calm =>
    exact (Session.logs_pause y delay (conditions k).stopsInWait).phase

theorem shows_attempt (job : Job) (conditions : Conditions) (x : Transfer ρ) :
    ∃ asked shown, x.Shows job conditions shown ∧
      x.session.Logs (attempt job conditions x).2.session asked (shown.reverse.map .phase) ∧
      some (attempt job conditions x).2.session.progress.phase = shown.getLast? := by
  obtain ⟨asked, shown, hcourse, hlogs⟩ := logs_attempt job conditions x
  refine ⟨asked, shown, hcourse.shows, hlogs, ?_⟩
  rw [hlogs.phase, findSome?_phase, List.head?_reverse,
    List.getLast?_eq_some_getLast hcourse.shows.ne_nil]
  rfl

theorem lifeCycle_downloadFrom (left : Nat) (hstart : Starts job conditions x₀ k x) :
    ∃ attempts ending asked, attempts ≠ [] ∧
      x.session.Logs (downloadFrom job conditions left k x).2.session asked
        (story attempts ending).reverse ∧
      (∀ i (hi : i < attempts.length), ∃ x', Starts job conditions x₀ (k + i) x' ∧
        x'.Shows job (conditions (k + i)) attempts[i] ∧
        some (attempt job (conditions (k + i)) x').2.session.progress.phase =
          attempts[i].getLast?) ∧
      Closing job conditions x₀ (k + attempts.length - 1)
        (downloadFrom job conditions left k x).1 ending := by
  induction left using Nat.strongRecOn generalizing k x with
  | ind left ih =>
    obtain ⟨asked, shown, hshows, hlogs, hlast⟩ := shows_attempt job (conditions k) x
    rcases downloadFrom_cases hstart left with
      ⟨ending, hclosing, hend⟩ | ⟨left', e, n, y, delay, rfl, hattempt, hnext, hrest⟩
    · refine ⟨[shown], ending, [] ++ asked, List.cons_ne_nil _ _, ?_, fun i hi => ?_, hclosing⟩
      · rw [story, List.intercalate_singleton, List.reverse_append, ← List.map_reverse]
        exact hlogs.trans hend
      · obtain rfl : i = 0 := Nat.lt_one_iff.mp hi
        exact ⟨x, hstart, hshows, hlast⟩
    · obtain ⟨attempts, ending, asked', hne, hfrom, hall, hclosing⟩ :=
        ih left' (Nat.lt_succ_self left') hnext
      have hpause := Session.logs_pause y delay (conditions k).stopsInWait
      rw [hattempt] at hlogs
      refine ⟨shown :: attempts, ending, asked' ++ ([] ++ asked), List.cons_ne_nil _ _, ?_,
        fun i hi => ?_, ?_⟩
      · rw [hrest, story_cons shown hne, List.reverse_append, List.reverse_cons, List.append_assoc,
          ← List.map_reverse]
        exact (hlogs.trans hpause).trans hfrom
      · cases i with
        | zero => exact ⟨x, hstart, hshows, hlast⟩
        | succ i =>
          obtain ⟨x', hstart', hshown⟩ := hall i (Nat.lt_of_succ_lt_succ hi)
          rw [Nat.add_right_comm] at hstart' hshown
          exact ⟨x', hstart', hshown⟩
      · have hlength : k + (shown :: attempts).length - 1 = k + 1 + attempts.length - 1 := by
          rw [List.length_cons]
          omega
        rw [hrest, hlength]
        exact hclosing

end Transfer

end RangeTransfer
