import RangeTransfer.Proofs.Attempt.Budget
import RangeTransfer.Proofs.Transfer.LifeCycle
import RangeTransfer.Proofs.Transfer.Resumption
import RangeTransfer.Proofs.Transfer.Retrying
import RangeTransfer.Proofs.Transfer.Window
/-!
# Bounds on a transfer

Whatever the remote and the caller do, a download makes as many attempts as its policy allows at
most, an attempt asks for each range as often as the policy allows at most, and so the requests of
the whole download are bounded by the size of the object (`bounded_download`): one probe for each
attempt and the allowed requests for every chunk, or one request for each attempt if the size is not
known. The bounds come from the policy alone, a loop with more turns would make no more attempts, the
workers of every attempt finish, and no wait is cut into no pieces.
-/

namespace RangeTransfer

theorem RetryPolicy.transferDelay_eq_ok (p : RetryPolicy) {k : Nat} (hpos : 1 ≤ k) :
    ∃ delay, p.transferDelay k = .ok delay := by
  rcases Nat.lt_or_ge k p.most with hmore | hlast
  · exact ⟨_, p.transferDelay_of_lt hpos hmore⟩
  · exact ⟨_, p.transferDelay_of_le hlast⟩

namespace Job

def layout (job : Job) (size : Nat) : LayoutKind :=
  job.request.layout.resolve size job.settings.singleFileLimit job.settings.forceSplit

/-- The chunk in which an object of `size` bytes is fetched. -/
def chunk (job : Job) (size : Nat) : Nat :=
  job.settings.effectiveChunk job.request.chunk
    (TransferSettings.clampWorkers job.request.workers (job.layout size))

/-- The number of chunks of an object of `size` bytes, the last one of which may be smaller. -/
def chunks (job : Job) (size : Nat) : Nat := (size + (job.chunk size - 1)) / job.chunk size

end Job

namespace Store

variable {s : Store} {fallback : Option Path} {target : Path} {size : Nat} {p : Placement}

theorem kind_placeDirect (h : (s.placeDirect fallback target size).1 = .ok p) : p.kind = .direct := by
  unfold placeDirect at h
  simp only at h
  split at h
  · cases h
  · cases h
    rfl

theorem kind_placeSplit {partSize : Nat} (h : (s.placeSplit fallback target partSize size).1 = .ok p) :
    p.kind = .split := by
  unfold placeSplit at h
  simp only at h
  split at h
  · cases h
  · rename_i moved s' _
    cases moved <;> simp only at h <;> split at h <;> cases h <;> rfl

theorem kind_place {settings : TransferSettings} {layout : LayoutKind}
    (h : (s.place settings target layout size).1 = .ok p) : p.kind = layout := by
  cases layout with
  | direct =>
    unfold place at h
    simp only at h
    split at h
    · cases h
    · rename_i heq
      cases h
      exact kind_placeDirect (congrArg Prod.fst heq)
  | split =>
    rw [place] at h
    exact kind_placeSplit h

end Store

namespace Transfer

variable {ρ : Type} [Remote ρ] {job : Job} {size : Nat} {x : Transfer ρ}

/-! ## One attempt -/

theorem kind_choosePlace {conditions : Conditions} {p : Placement} {y : Transfer ρ}
    (h : x.choosePlace job conditions size = (.ok p, y)) : p.kind = job.layout size := by
  unfold choosePlace at h
  simp only at h
  split at h
  · cases h
  · rename_i hplace
    cases h
    exact Store.kind_place (congrArg Prod.fst hplace)

theorem policy_prepareRun {p : Placement} {run : Run ρ}
    (h : (x.prepareRun job p size).1 = .ok run) : run.strategy.rules.policy = job.settings.retry := by
  unfold prepareRun at h
  simp only at h
  split at h
  · cases h
  · split at h
    · cases h
    · split at h
      · cases h
      · unfold openRun at h
        simp only at h
        split at h
        · cases h
        · cases h
          simp only
          split <;> rfl

/-- At every point of an attempt no request was one too many, and all requests were for ranges of
the plan, of which there are as many as the object has chunks at most. -/
theorem Opens.thrifty {conditions : Conditions} {p : Placement} {run : Run ρ}
    (hfit : size < Offset.limit) (h : x.Opens job conditions size p run) (granted : Option Nat)
    (moves : List Move) :
    let most := max job.settings.retry.rangeAttempts 1
    let c := run.strategy.crew granted run.shared
    Thrifty most (c.after run.strategy.rules moves).workers
      (c.after run.strategy.rules moves).shared.tracker.plan
      (Plan.new p.resume size (job.chunk size)).ranges (c.asked run.strategy.rules moves) ∧
      (Plan.new p.resume size (job.chunk size)).ranges.length ≤ job.chunks size := by
  intro most c
  obtain ⟨y, hchoose, -, hlt, hopen⟩ := h
  obtain ⟨-, htracker, -⟩ := opened_of_prepareRun hopen
  obtain ⟨hchunk, -⟩ := share_of_prepareRun hopen
  obtain ⟨session, n, hcrew, -⟩ := run.strategy.crew_eq granted run.shared
  have hchunk : run.chunk = job.chunk size := by
    rw [hchunk, kind_choosePlace hchoose]
    rfl
  have hpos : 0 < job.chunk size := job.settings.effectiveChunk_pos _ _
  have hacc : c.Accounted [] := by
    rw [show c = .new _ n from hcrew]
    exact Crew.accounted_new htracker (Nat.le_of_lt hlt) hfit n
  have hthrifty : c.Thrifty run.strategy.rules [] := by
    rw [show c = .new _ n from hcrew]
    exact Crew.thrifty_new _ _ n
  have hplanned : (c.after run.strategy.rules moves).shared.tracker.planned =
      (Plan.new p.resume size (job.chunk size)).ranges := by
    rw [Tracker.planned_eq_of_task (Crew.task_after c moves), show c = .new _ n from hcrew,
      show (Crew.new { run.shared with session } n).shared.tracker = _ from htracker,
      Tracker.planned_new, hchunk]
  have hafter := hthrifty.after (run.strategy.solitary_crew granted run.shared) hacc moves
  rw [Crew.Thrifty, hplanned, policy_prepareRun hopen, List.append_nil] at hafter
  refine ⟨hafter, Nat.le_trans (Nat.le_of_eq (Plan.length_ranges _ hfit)) ?_⟩
  simp only [Plan.left, Plan.remaining, Plan.new, Nat.max_eq_left hpos, Job.chunks]
  exact Nat.div_le_div_right (by omega)

theorem Course.length_le {conditions : Conditions} {asked : List (Option ByteRange)}
    {shown : List Phase} (hfit : size < Offset.limit) (h : x.Course job conditions asked shown) :
    (x.size? job = some size →
      asked.length ≤ 1 + job.chunks size * max job.settings.retry.rangeAttempts 1) ∧
    (x.size? job = none → asked.length ≤ 1) := by
  cases h with
  | unsized unknown length_le _ _ => exact ⟨fun h => (nomatch unknown.symm.trans h), fun _ => length_le⟩
  | early found _ _ => exact ⟨fun _ => Nat.zero_le _, fun _ => Nat.zero_le _⟩
  | closed found chosen closed probed =>
    exact ⟨fun _ => Nat.le_add_right_of_le probed.length_le, fun _ => probed.length_le⟩
  | opened found opens probed =>
    refine ⟨fun h => ?_, fun h => nomatch found.symm.trans h⟩
    obtain rfl := Option.some.inj (h.symm.trans found)
    rename_i run _
    obtain ⟨hthrifty, hranges⟩ := opens.thrifty hfit conditions.granted
      (run.strategy.schedule conditions.moves conditions.granted run.shared)
    rw [List.length_append, List.length_map, Nat.add_comm]
    exact Nat.add_le_add probed.length_le
      (Nat.le_trans hthrifty.length_le (Nat.mul_le_mul_right _ hranges))

/-! ## All attempts -/

variable {conditions : Nat → Conditions} {x₀ : Transfer ρ} {k : Nat}

/-- A download that is allowed more attempts than its policy allows does not make them. -/
theorem downloadFrom_eq (left left' : Nat)
    (hleft : max job.settings.retry.transferAttempts 1 - k ≤ left)
    (hleft' : max job.settings.retry.transferAttempts 1 - k ≤ left') :
    downloadFrom job conditions left k x = downloadFrom job conditions left' k x := by
  induction left using Nat.strongRecOn generalizing k x left' with
  | ind left ih =>
    unfold downloadFrom
    rw [retry.eq_def, retry.eq_def _ _ _ left']
    simp only
    cases attempt job (conditions k) x with
    | mk result y =>
      cases result with
      | ok outcome => rfl
      | error halt =>
        cases halt with
        | aborted abort => rfl
        | failed e n =>
          simp only
          cases hwaits : waitAfter job.settings.retry e k with
          | error abort => rfl
          | ok delay? =>
            cases delay? with
            | none => rfl
            | some delay =>
              have hmore := lt_of_waitAfter hwaits
              obtain ⟨left, rfl⟩ := Nat.exists_eq_add_one.mpr (show 0 < left by omega)
              obtain ⟨left', rfl⟩ := Nat.exists_eq_add_one.mpr (show 0 < left' by omega)
              simp only
              split
              · rfl
              · exact ih left (Nat.lt_succ_self left) left' (by omega) (by omega)

theorem requests_downloadFrom {most : Nat}
    (hmost : ∀ k x, Starts job conditions x₀ k x → ∀ asked shown,
      x.Course job (conditions k) asked shown → asked.length ≤ most)
    (left : Nat) (hstart : Starts job conditions x₀ k x) :
    (downloadFrom job conditions left k x).2.session.requests.length ≤
      x.session.requests.length + (left + 1) * most := by
  induction left using Nat.strongRecOn generalizing k x with
  | ind left ih =>
    obtain ⟨asked, shown, hcourse, hlogs⟩ := logs_attempt job (conditions k) x
    have hasked := hmost k x hstart asked shown hcourse
    rcases downloadFrom_cases hstart left with
      ⟨ending, -, hend⟩ | ⟨left', e, n, y, delay, rfl, hattempt, hnext, hrest⟩
    · rw [hend.requests, hlogs.requests, List.nil_append, List.length_append, Nat.succ_mul]
      omega
    · have hpause := Session.logs_pause y delay (conditions k).stopsInWait
      have hlater := ih left' (Nat.lt_succ_self left') hnext
      rw [hattempt] at hlogs
      rw [hpause.requests, hlogs.requests, List.nil_append, List.length_append] at hlater
      rw [hrest, Nat.succ_mul]
      omega

theorem reported_of_downloadFrom (left : Nat) (hstart : Starts job conditions x₀ k x) :
    let result := (downloadFrom job conditions left k x).1
    (∀ o, result = .ok o → ∃ x', Starts job conditions x₀ o.attempts x') ∧
      ∀ f, result = .error (.failed f) → ∃ x', Starts job conditions x₀ f.attempts x' := by
  obtain ⟨attempts, ending, -, hne, -, hshows, hclosing⟩ := lifeCycle_downloadFrom left hstart
  have hpos : 1 ≤ attempts.length := List.length_pos_iff.mpr hne
  have hlast : ∃ x', Starts job conditions x₀ (k + attempts.length - 1) x' := by
    obtain ⟨x', hstart', -⟩ := hshows (attempts.length - 1) (by omega)
    rw [← Nat.add_sub_assoc hpos] at hstart'
    exact ⟨x', hstart'⟩
  refine ⟨fun o ho => ?_, fun f hf => ?_⟩
  · rw [ho] at hclosing
    cases hclosing with
    | file attempts _ => exact attempts ▸ hlast
    | directory attempts _ => exact attempts ▸ hlast
  · rw [hf] at hclosing
    cases hclosing with
    | failed attempts => exact attempts ▸ hlast
    | stopped attempts _ _ _ _ _ => exact attempts ▸ hlast

/-- A download is bounded by its policy, whatever the remote, the caller and the order of the steps
do: in its attempts, in the requests for a range, and in all its requests. No number passes its
bound, and no wait is divided by zero. -/
theorem bounded_download (job : Job) (conditions : Nat → Conditions) (x₀ : Transfer ρ)
    (hfit : size < Offset.limit) :
    let policy := job.settings.retry
    let mostAttempts := max policy.transferAttempts 1
    let mostRequests := max policy.rangeAttempts 1
    let result := download job conditions x₀
    (∀ k x, Starts job conditions x₀ k x → 1 ≤ k ∧ k ≤ mostAttempts ∧
      ∀ e, ∃ delay, waitAfter policy e k = .ok delay) ∧
    (∀ left, mostAttempts - 1 ≤ left → downloadFrom job conditions left 1 x₀ = result) ∧
    (∀ o, result.1 = .ok o → 1 ≤ o.attempts ∧ o.attempts ≤ mostAttempts) ∧
    (∀ f, result.1 = .error (.failed f) → 1 ≤ f.attempts ∧ f.attempts ≤ mostAttempts) ∧
    (∀ k x p run, Starts job conditions x₀ k x → x.Opens job (conditions k) size p run →
      let rules := run.strategy.rules
      let c := run.strategy.crew (conditions k).granted run.shared
      (c.after rules (run.strategy.schedule (conditions k).moves (conditions k).granted
        run.shared)).finished = true ∧
      ∀ moves, (∀ a ∈ (c.after rules moves).workers, a.Counted mostRequests) ∧
        (∀ r, (c.asked rules moves).count r ≤ mostRequests) ∧
        ∀ r ∈ c.asked rules moves, r ∈ (Plan.new p.resume size (job.chunk size)).ranges) ∧
    ((∀ k x, Starts job conditions x₀ k x → x.size? job = some size ∨ x.size? job = none) →
      result.2.session.requests.length ≤
        x₀.session.requests.length + mostAttempts * (1 + job.chunks size * mostRequests)) ∧
    ((∀ k x, Starts job conditions x₀ k x → x.size? job = none) →
      result.2.session.requests.length ≤ x₀.session.requests.length + mostAttempts) := by
  intro policy mostAttempts mostRequests result
  have hfirst : Starts job conditions x₀ 1 x₀ := .first
  have hcount : ∀ {k x}, Starts job conditions x₀ k x → 1 ≤ k ∧ k ≤ mostAttempts :=
    fun hstart => ⟨hstart.download_eq.1, hstart.le_attempts⟩
  have hsum : mostAttempts - 1 + 1 = mostAttempts := Nat.sub_add_cancel (Nat.le_max_right _ _)
  obtain ⟨hok, hfailed⟩ := reported_of_downloadFrom (mostAttempts - 1) hfirst
  refine ⟨fun k x hstart => ⟨(hcount hstart).1, (hcount hstart).2, fun e => ?_⟩, fun left hleft =>
    downloadFrom_eq left _ hleft (Nat.le_refl _), fun o ho => ?_, fun f hf => ?_,
    fun k x p run hstart hopens => ⟨run.strategy.finished_crew _ _ _, fun moves => ?_⟩,
    fun hsize => ?_, fun hsize => ?_⟩
  · unfold waitAfter
    split
    · exact policy.transferDelay_eq_ok (hcount hstart).1
    · exact ⟨none, rfl⟩
  · obtain ⟨x, hstart⟩ := hok o ho
    exact hcount hstart
  · obtain ⟨x, hstart⟩ := hfailed f hf
    exact hcount hstart
  · obtain ⟨hthrifty, -⟩ := hopens.thrifty hfit (conditions k).granted moves
    exact ⟨hthrifty.counted, hthrifty.count_le, hthrifty.planned⟩
  · have hall := requests_downloadFrom (fun k x hstart asked shown hcourse => by
      obtain ⟨hknown, hunknown⟩ := hcourse.length_le hfit
      exact (hsize k x hstart).elim hknown fun hnone =>
        Nat.le_add_right_of_le (hunknown hnone)) (mostAttempts - 1) hfirst
    rwa [hsum] at hall
  · have hall := requests_downloadFrom (fun k x hstart asked shown hcourse =>
      (hcourse.length_le hfit).2 (hsize k x hstart)) (mostAttempts - 1) hfirst
    rwa [hsum, Nat.mul_one] at hall

/-- Two attempts at four chunks, one request for each of them, and two probes. -/
theorem bounded_download_firstTwo :
    sample.size < Offset.limit ∧
    (∀ k x, Starts twiceJob (fun _ => .calm) firstTwo k x →
      x.size? twiceJob = some sample.size ∨ x.size? twiceJob = none) ∧
    (download twiceJob (fun _ => .calm) firstTwo).2.session.requests.length ≤
      0 + 2 * (1 + 4 * 1) := by
  have hfit : sample.size < Offset.limit := by decide
  have hsize : ∀ k x, Starts twiceJob (fun _ => .calm) firstTwo k x →
      x.size? twiceJob = some sample.size ∨ x.size? twiceJob = none := fun _ _ _ => Or.inl rfl
  obtain ⟨-, -, -, -, -, hrequests, -⟩ :=
    bounded_download twiceJob (fun _ => .calm) firstTwo hfit
  exact ⟨hfit, hsize, hrequests hsize⟩

end Transfer

end RangeTransfer
