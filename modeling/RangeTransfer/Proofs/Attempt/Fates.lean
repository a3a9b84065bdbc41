import RangeTransfer.Proofs.Attempt.Outcome
/-!
# Fates of ranges

Suppose that whether the fetch of a range ends in a body or in an error depends on the range alone:
`good` tells. Then the ranges that a pool records are good, those that its workers give up are bad,
and nobody stops before either an error is recorded or the plan is exhausted (`Judged`). Since
ranges are claimed in order, a pool that has finished leaves the watermark at the first offset of
the lowest bad range (`reached_eq_lowestBad`), whoever fetched what and when.
-/

namespace RangeTransfer

/-- First offset of the lowest range of `rs` that is not good; `total` if all of them are. -/
def lowestBad (good : ByteRange → Bool) (total : Nat) (rs : List ByteRange) : Nat :=
  ((rs.find? fun r => !good r).map ByteRange.first).getD total

/-- A body is in hand only for a good range, an error only for a bad one, and nobody dies. -/
def Stage.Fated (good : ByteRange → Bool) : Stage → Prop
  | .holding r _ | .written r => good r = true
  | .failing r _ => good r = false
  | .died _ => False
  | _ => True

structure Judged (good : ByteRange → Bool) (ws : List Stage) (t : Tracker)
    (marked lost : List ByteRange) : Prop where
  accounts : Accounts ws t marked lost
  good_of_marked : ∀ r ∈ marked, good r = true
  bad_of_lost : ∀ r ∈ lost, good r = false
  error_iff : t.error = none ↔ lost = []
  stopped : .stopped ∈ ws → t.error = none → t.plan.total ≤ t.plan.next
  parts : ∀ a ∈ ws, a.isWhole = false

namespace Judged

variable {good : ByteRange → Bool} {ws : List Stage} {t t' : Tracker}
  {marked lost ms ls : List ByteRange} {w : Nat} {a a' : Stage}

theorem step (h : Judged good ws t marked lost)
    (hacc : Accounts (ws.set w a') t' (ms ++ marked) (ls ++ lost))
    (hms : ∀ r ∈ ms, good r = true) (hls : ∀ r ∈ ls, good r = false)
    (herror : t'.error = none ↔ t.error = none ∧ ls = [])
    (hplan : t.plan.total ≤ t.plan.next → t'.plan.total ≤ t'.plan.next)
    (hstop : a' = .stopped → t'.error = none → t'.plan.total ≤ t'.plan.next)
    (hpart : a'.isWhole = false) : Judged good (ws.set w a') t' (ms ++ marked) (ls ++ lost) where
  accounts := hacc
  good_of_marked r hr := (List.mem_append.mp hr).elim (hms r) (h.good_of_marked r)
  bad_of_lost r hr := (List.mem_append.mp hr).elim (hls r) (h.bad_of_lost r)
  error_iff := by
    rw [herror, h.error_iff, List.append_eq_nil_iff]
    exact And.comm
  stopped hmem hnone := by
    rcases List.mem_or_eq_of_mem_set hmem with hmem | heq
    · exact hplan (h.stopped hmem (herror.mp hnone).1)
    · exact hstop heq.symm hnone
  parts b hb := by
    rcases List.mem_or_eq_of_mem_set hb with hmem | rfl
    · exact h.parts b hmem
    · exact hpart

theorem quiet (h : Judged good ws t marked lost)
    (hacc : Accounts (ws.set w a') t' (ms ++ marked) (ls ++ lost))
    (hms : ∀ r ∈ ms, good r = true) (hls : ls = []) (herror : t'.error = t.error)
    (hplan : t'.plan = t.plan) (hstop : a' ≠ .stopped) (hpart : a'.isWhole = false) :
    Judged good (ws.set w a') t' (ms ++ marked) (ls ++ lost) := by
  subst hls
  exact h.step hacc hms (by simp) (by simp [herror]) (by rw [hplan]; exact id)
    (fun heq => absurd heq hstop) hpart

variable {ρ σ : Type} [Remote ρ] [RangeSink σ] {rules : WorkerRules} {x x' : Shared ρ σ}

theorem advance (hpool : rules.acceptWhole = false) (h : Judged good ws x.tracker marked lost)
    (hw : ws[w]? = some a) (hstep : Stage.Step rules w x a a' x') (hfate : a.Fated good)
    (hfate' : a'.Fated good) :
    Judged good (ws.set w a') x'.tracker ((a.records x.tracker).toList ++ marked)
      ((a.givesUp a').toList ++ lost) := by
  have hpart := h.parts a (List.mem_of_getElem? hw)
  have hacc := (h.accounts.step (fun hwhole => absurd hwhole (by simp [hpool])) hw
    hstep).resolve_right fun hwhole => by simp [hpart] at hwhole
  cases hstep with
  | idle nothing =>
    exact h.step hacc nofun nofun (and_iff_left rfl).symm id (fun _ => nothing) rfl
  | claim _ lt =>
    exact h.step hacc nofun nofun (and_iff_left rfl).symm (fun hle => absurd lt (Nat.not_lt.mpr hle))
      nofun rfl
  | yield polls => cases polls <;> exact h.quiet hacc nofun rfl rfl rfl nofun rfl
  | @accept _ _ _ body _ _ _ accepted =>
    refine h.quiet hacc nofun rfl rfl rfl nofun ?_
    cases body with
    | part data => rfl
    | whole data => exact absurd (classify_whole accepted).2.2.1 (by simp [hpool])
  | mark =>
    refine h.quiet hacc (fun q hq => ?_) rfl rfl rfl nofun rfl
    obtain rfl := List.mem_singleton.mp hq
    exact hfate
  | record =>
    refine h.step hacc nofun (fun q hq => ?_) (iff_of_false nofun fun h => nomatch h.2) id nofun rfl
    obtain rfl := List.mem_singleton.mp hq
    exact hfate
  | crash | breakOff | overrun => exact hfate'.elim
  | storeWhole | whole => cases hpart
  | rest finished =>
    cases a with
    | stopped =>
      exact h.step hacc nofun nofun (and_iff_left rfl).symm id
        (fun _ => h.stopped (List.mem_of_getElem? hw)) rfl
    | died abort => exact hfate.elim
    | _ => cases finished
  | _ => exact h.quiet hacc nofun rfl rfl rfl nofun rfl

theorem reached_eq_lowestBad (h : Judged good ws t marked lost) (hfate : ∀ a ∈ ws, a.Fated good)
    (hfin : ∀ a ∈ ws, a.finished = true) (hsome : ws ≠ []) :
    t.watermark.reached = lowestBad good t.total t.planned := by
  have hstopped : ∀ a ∈ ws, a = .stopped := fun a ha => by
    have hf := hfin a ha
    have hg := hfate a ha
    cases a <;> first | rfl | exact hg.elim | cases hf
  have hidle : ws.filterMap Stage.unmarked? = [] :=
    List.filterMap_eq_nil_iff.mpr fun a ha => by rw [hstopped a ha]; rfl
  obtain ⟨handed, heq, hperm⟩ := h.accounts.handed
  rw [hidle, List.nil_append] at hperm
  by_cases hlost : lost = []
  · -- nobody met an error, so the workers stopped because the plan was exhausted
    obtain ⟨a, ha⟩ := List.exists_mem_of_ne_nil ws hsome
    have hdone := h.stopped (hstopped a ha ▸ ha) (h.error_iff.mpr hlost)
    subst hlost
    have hall := h.accounts.planned_perm hidle hdone
    have hnone : t.planned.find? (fun r => !good r) = none :=
      List.find?_eq_none.mpr fun r hr => by simp [h.good_of_marked r (hall.mem_iff.mp hr)]
    rw [lowestBad, hnone]
    exact h.accounts.reached_of_perm hall
  · -- the lowest bad range has been handed out, and everything before it is recorded
    obtain ⟨l, hl⟩ := List.exists_mem_of_ne_nil lost hlost
    have hlh : l ∈ handed := hperm.mem_iff.mpr (List.mem_append_right _ hl)
    obtain ⟨b, hb⟩ : ∃ b, handed.find? (fun r => !good r) = some b :=
      Option.isSome_iff_exists.mp
        (List.find?_isSome.mpr ⟨l, hlh, by simp [h.bad_of_lost l hl]⟩)
    have hfind : t.planned.find? (fun r => !good r) = some b := by
      rw [heq, List.find?_append, hb]; rfl
    obtain ⟨hbad, before, behind, hhanded, hgood⟩ := List.find?_eq_some_iff_append.mp hb
    have hbmem : b ∈ handed := by simp [hhanded]
    have hblost : b ∈ lost := by
      refine (List.mem_append.mp (hperm.mem_iff.mp hbmem)).resolve_left fun hm => ?_
      simp [h.good_of_marked b hm] at hbad
    have hbefore : ∀ r ∈ before, r ∈ marked := fun r hr => by
      refine (List.mem_append.mp (hperm.mem_iff.mp (by simp [hhanded, hr]))).resolve_right ?_
      intro hm
      have := hgood r hr
      simp [h.bad_of_lost r hm] at this
    have hcons := h.accounts.consecutive_planned
    have hfirst := (hcons.bounds (List.mem_of_find?_eq_some hfind)).1
    rw [heq, hhanded, List.append_assoc] at hcons
    obtain ⟨m, hleft, hright⟩ := hcons.split
    obtain rfl : b.first = m := hright.1
    rw [lowestBad, hfind]
    refine Nat.le_antisymm (Nat.le_of_not_lt fun hlt => ?_)
      ((h.accounts.covered_iff _).mp fun o ho => ?_)
    · rcases (h.accounts.covered_iff _).mpr (Nat.le_refl _) b.first hlt with hlow | ⟨r, hr, hro⟩
      · have : t.resume ≤ b.first := hfirst
        omega
      · have hapart := (List.pairwise_append.mp h.accounts.pairwise_apart).2.2 r
          (List.mem_append_right _ hr) b hblost
        exact hapart.not_has hro b.has_first
    · by_cases hlow : o < t.resume
      · exact Or.inl hlow
      · obtain ⟨r, hr, hro⟩ := hleft.exists_has (Nat.not_lt.mp hlow) ho
        exact Or.inr ⟨r, hbefore r hr, hro⟩

end Judged

theorem judged_new {good : ByteRange → Bool} {n : Nat} {t : Tracker}
    (h : Accounts (List.replicate n .seeking) t [] []) (herror : t.error = none) :
    Judged good (List.replicate n .seeking) t [] [] where
  accounts := h
  good_of_marked r hr := by cases hr
  bad_of_lost r hr := by cases hr
  error_iff := ⟨fun _ => rfl, fun _ => herror⟩
  stopped hmem := by cases List.eq_of_mem_replicate hmem
  parts a ha := by rw [List.eq_of_mem_replicate ha]; rfl

namespace Crew

variable {ρ σ : Type} [Remote ρ] [RangeSink σ] {rules : WorkerRules} {good : ByteRange → Bool}

/-- Every worker is where the fate of its range lets it be. -/
def Fated (good : ByteRange → Bool) (c : Crew ρ σ) : Prop := ∀ a ∈ c.workers, a.Fated good

theorem judged_apply (hpool : rules.acceptWhole = false) {c : Crew ρ σ} {w : Nat}
    (hfate : c.Fated good) (hfate' : (c.apply rules (.advance w)).Fated good)
    {marked lost : List ByteRange} (h : Judged good c.workers c.shared.tracker marked lost) :
    ∃ marked lost, Judged good (c.apply rules (.advance w)).workers
      (c.apply rules (.advance w)).shared.tracker marked lost := by
  have hmoved := c.moved_apply rules (.advance w)
  generalize c.apply rules (.advance w) = c' at hmoved hfate' ⊢
  cases hmoved with
  | still => exact ⟨marked, lost, h⟩
  | step hw _ hstep =>
    have hi := (List.getElem?_eq_some_iff.mp hw).1
    exact ⟨_, _, h.advance hpool hw hstep (hfate _ (List.mem_of_getElem? hw))
      (hfate' _ (List.mem_of_getElem? (List.getElem?_set_self hi)))⟩

theorem judged_after (hpool : rules.acceptWhole = false) {c : Crew ρ σ} {moves : List Move}
    (hadvance : ∀ m ∈ moves, ∃ w, m = .advance w)
    (hfate : ∀ n, (c.after rules (moves.take n)).Fated good) {marked lost : List ByteRange}
    (h : Judged good c.workers c.shared.tracker marked lost) :
    ∃ marked lost, Judged good (c.after rules moves).workers (c.after rules moves).shared.tracker
      marked lost := by
  induction moves generalizing c marked lost with
  | nil => exact ⟨marked, lost, h⟩
  | cons m moves ih =>
    obtain ⟨w, rfl⟩ := hadvance _ List.mem_cons_self
    obtain ⟨marked', lost', h'⟩ := judged_apply hpool (hfate 0) (hfate 1) h
    exact ih (fun m hm => hadvance m (List.mem_cons_of_mem _ hm)) (fun n => hfate (n + 1)) h'

/-- Whatever the number of workers and the order of their steps, a pool leaves the watermark at the
lowest bad range. -/
theorem reached_run {x : Shared ρ σ} {url : String} {resume total chunk : Nat}
    (htracker : x.tracker = .new url resume total chunk) (hle : resume ≤ total)
    (hfit : total < Offset.limit) (hpool : rules.acceptWhole = false) {workers : Nat}
    (hworkers : 0 < workers) {moves : List Move} (hadvance : ∀ m ∈ moves, ∃ w, m = .advance w)
    (hfate : ∀ n, ((new x workers).after rules
      (((new x workers).schedule rules moves).take n)).Fated good) :
    ((new x workers).run rules moves).shared.tracker.watermark.reached =
      lowestBad good total (Plan.new resume total chunk).ranges := by
  have hstart : Judged good (new x workers).workers (new x workers).shared.tracker [] [] := by
    show Judged good _ x.tracker [] []
    rw [htracker]
    exact judged_new (accounts_new hle hfit workers) rfl
  obtain ⟨marked, lost, h⟩ := judged_after hpool (fun m hm =>
    (mem_schedule hm).elim (hadvance m) id) hfate hstart
  have hlast := hfate ((new x workers).schedule rules moves).length
  have htask : ((new x workers).after rules _).shared.tracker.task = _ :=
    task_after (new x workers) ((new x workers).schedule rules moves)
  have hlength : ((new x workers).after rules _).workers.length = _ :=
    length_workers_after (new x workers) ((new x workers).schedule rules moves)
  rw [List.take_length] at hlast
  rw [← run_eq_after] at h hlast htask hlength
  have hsome : ((new x workers).run rules moves).workers ≠ [] := by
    intro hnil
    rw [hnil] at hlength
    simp only [new, List.length_nil, List.length_replicate] at hlength
    omega
  rw [h.reached_eq_lowestBad hlast
    (List.all_eq_true.mp (finished_run (new x workers) moves)) hsome,
    Tracker.planned_eq_of_task htask, Tracker.total_eq_of_task htask]
  simp only [new, htracker, Tracker.planned_new]
  rfl

end Crew

end RangeTransfer
