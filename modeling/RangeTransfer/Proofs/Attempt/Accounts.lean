import RangeTransfer.Attempt.Worker
import RangeTransfer.Proofs.Attempt.Watermark
/-!
# The accounts of a crew

Every planned range is in exactly one place: held by a worker that has not moved the watermark over
it, taken in by the watermark, lost with a worker that stopped, or not handed out yet. `Accounts`
says so for the workers `ws` and the tracker `t`, where `marked` are the ranges taken in and `lost`
the lost ones, and that the byte count is the length of the ranges taken in, less the ones that
their workers are still about to count. A worker that has accounted for the whole object leaves the
plan; `Settled` is the state after that. Each lemma of `Accounts` is about one thing that a worker
does to the books.
-/

namespace RangeTransfer

namespace Tracker

/-- What an attempt is about: the URL, the offsets that bound it, and the size of its ranges. -/
def task (t : Tracker) : String × Nat × Nat × Nat := (t.url, t.resume, t.total, t.plan.chunk)

variable {t t' : Tracker}

theorem mark_eq_ok {r : ByteRange} (h : t.mark r = .ok t') :
    ∃ w, t' = { t with watermark := w } := by
  simp only [mark, bind, Except.bind] at h
  split at h
  · cases h
  · cases h; exact ⟨_, rfl⟩

theorem count_eq_ok {r : ByteRange} {code : Nat} (h : t.count r code = .ok t') :
    ∃ n, t' = { t with completed := n, code } := by
  simp only [count, bind, Except.bind] at h
  split at h
  · cases h
  · cases h; exact ⟨_, rfl⟩

theorem recordWhole_eq_ok {p p' : Progress} {code : Nat} (h : t.recordWhole p code = .ok (t', p')) :
    (∃ w n, t' = { t with plan := t.plan.exhaust, watermark := w, completed := n, code }) ∧
      p' = p.advanceTo t.total := by
  simp only [recordWhole, markRest, bind, Except.bind] at h
  split at h
  · cases h
  · rename_i t₁ hrest
    cases h
    split at hrest
    · split at hrest
      · cases hrest
      · obtain ⟨w, rfl⟩ := mark_eq_ok hrest
        exact ⟨⟨w, _, rfl⟩, rfl⟩
    · cases hrest
      exact ⟨⟨_, _, rfl⟩, rfl⟩

theorem claim_of_error {e : TransferError} (h : t.error = some e) : t.claim = .ok (none, t) := by
  simp only [claim, h]

theorem claim_of_lt (herr : t.error = none) (hlt : t.plan.next < t.plan.total)
    (hfit : t.plan.total < Offset.limit) :
    t.claim = .ok (some (.upTo _ _ (Plan.lt_nextEnd hlt)), { t with plan := t.plan.rest }) := by
  simp only [claim, herr, Plan.take_of_lt hlt hfit]
  rfl

theorem claim_of_le (hle : t.plan.total ≤ t.plan.next) : t.claim = .ok (none, t) := by
  simp only [claim, Plan.take_of_le hle]
  split <;> rfl

theorem claim_eq_ok {r : Option ByteRange} (h : t.claim = .ok (r, t')) :
    ∃ q, t' = { t with plan := q } ∧
      ((t.error ≠ none ∧ r = none ∧ q = t.plan) ∨ (t.error = none ∧ t.plan.take = .ok (r, q))) := by
  simp only [claim] at h
  split at h
  · rename_i herr
    cases h
    exact ⟨t.plan, rfl, Or.inl ⟨by simp [herr], rfl, rfl⟩⟩
  · rename_i herr
    simp only [bind, Except.bind] at h
    split at h
    · cases h
    · rename_i v htake
      cases h
      exact ⟨v.2, rfl, Or.inr ⟨herr, htake⟩⟩

theorem claim_none (h : t.claim = .ok (none, t')) :
    (t.error = none → t.plan.total ≤ t.plan.next) ∧ t' = t := by
  obtain ⟨q, rfl, ⟨herr, -, rfl⟩ | ⟨-, htake⟩⟩ := claim_eq_ok h
  · exact ⟨fun hnone => absurd hnone herr, rfl⟩
  · obtain ⟨hle, rfl⟩ := Plan.take_none htake
    exact ⟨fun _ => hle, rfl⟩

theorem claim_some {r : ByteRange} (h : t.claim = .ok (some r, t')) :
    t.error = none ∧ ∃ hlt : t.plan.next < t.plan.total,
      r = .upTo _ _ (Plan.lt_nextEnd hlt) ∧ t' = { t with plan := t.plan.rest } := by
  obtain ⟨q, rfl, ⟨-, hnone, -⟩ | ⟨herr, htake⟩⟩ := claim_eq_ok h
  · cases hnone
  · obtain ⟨hlt, hr, rfl⟩ := Plan.take_some htake
    exact ⟨herr, hlt, hr, rfl⟩

theorem recordError_eq (t : Tracker) (e : TransferError) :
    ∃ e', (t.recordError e).2 = { t with error := some e' } := by
  cases herr : t.error with
  | some e' =>
    refine ⟨e', ?_⟩
    simp only [Tracker.recordError, herr]
    rw [← herr]
  | none => exact ⟨e, by simp only [Tracker.recordError, herr]⟩

end Tracker

namespace Stage

/-- The claimed range that the watermark has not moved over. -/
def unmarked? : Stage → Option ByteRange
  | claimed r | asking r _ | pausing r _ | failing r _ | holding r _ | written r
  | writtenWhole r => some r
  | marked _ _ | counted _ _ | seeking | stopped | died _ => none

/-- The range that the watermark has moved over and that is not counted yet. -/
def uncounted? : Stage → Option ByteRange
  | marked r _ => some r
  | _ => none

/-- Whether the worker has the whole object in hand. -/
def isWhole : Stage → Bool
  | holding _ (.whole _) | writtenWhole _ => true
  | _ => false

end Stage

theorem filterMap_set_perm {α β : Type} (f : α → Option β) {l : List α} {i : Nat} {a : α}
    (h : l[i]? = some a) (a' : α) :
    ∃ rest, (l.filterMap f).Perm ((f a).toList ++ rest) ∧
      ((l.set i a').filterMap f).Perm ((f a').toList ++ rest) := by
  obtain ⟨hi, rfl⟩ := List.getElem?_eq_some_iff.mp h
  have hpull : ∀ b, ((l.take i ++ b :: l.drop (i + 1)).filterMap f).Perm
      ((f b).toList ++ ((l.take i).filterMap f ++ (l.drop (i + 1)).filterMap f)) := by
    intro b
    rw [List.filterMap_append, List.filterMap_cons]
    cases f b with
    | none => exact List.Perm.refl _
    | some c => exact List.perm_middle
  refine ⟨(l.take i).filterMap f ++ (l.drop (i + 1)).filterMap f, ?_, ?_⟩
  · have := hpull l[i]
    rwa [← List.drop_eq_getElem_cons hi, List.take_append_drop] at this
  · have := hpull a'
    rwa [List.set_eq_take_append_cons_drop, if_pos hi]

theorem perm_shift {u u' rest o o' m m' l l' : List ByteRange} (hu : u.Perm (o ++ rest))
    (hu' : u'.Perm (o' ++ rest)) (h : (o ++ m ++ l).Perm (o' ++ m' ++ l')) :
    (u ++ m ++ l).Perm (u' ++ m' ++ l') := by
  simp only [List.perm_iff_count, List.count_append] at *
  intro r
  have := hu r
  have := hu' r
  have := h r
  omega

/-! ## The books -/

theorem Stage.mem_handed {ws : List Stage} {a : Stage} {r : ByteRange} {marked lost : List ByteRange}
    (ha : a ∈ ws) (hr : a.unmarked? = some r) :
    r ∈ ws.filterMap Stage.unmarked? ++ marked ++ lost :=
  List.mem_append_left _ (List.mem_append_left _ (List.mem_filterMap.mpr ⟨a, ha, hr⟩))

/-- All ranges of the attempt, handed out or not. -/
def Tracker.planned (t : Tracker) : List ByteRange := (Plan.new t.resume t.total t.plan.chunk).ranges

section Task

variable {t t' : Tracker} (h : t'.task = t.task)

include h

theorem Tracker.url_eq_of_task : t'.url = t.url := congrArg (·.1) h

theorem Tracker.resume_eq_of_task : t'.resume = t.resume := congrArg (·.2.1) h

theorem Tracker.total_eq_of_task : t'.total = t.total := congrArg (·.2.2.1) h

theorem Tracker.chunk_eq_of_task : t'.plan.chunk = t.plan.chunk := congrArg (·.2.2.2) h

theorem Tracker.planned_eq_of_task : t'.planned = t.planned := by
  simp only [planned, resume_eq_of_task h, total_eq_of_task h, chunk_eq_of_task h]

end Task

theorem Tracker.planned_new (url : String) (resume total chunk : Nat) :
    (Tracker.new url resume total chunk).planned = (Plan.new resume total chunk).ranges := by
  simp only [planned, Tracker.new, Plan.new, Nat.max_assoc, Nat.max_self]

structure Accounts (ws : List Stage) (t : Tracker) (marked lost : List ByteRange) : Prop where
  fits : t.total < Offset.limit
  resume_le : t.resume ≤ t.total
  plan_total : t.plan.total = t.total
  next_le : t.plan.next ≤ t.total
  handed : ∃ handed, t.planned = handed ++ t.plan.ranges ∧
    handed.Perm (ws.filterMap Stage.unmarked? ++ marked ++ lost)
  watermark : t.watermark.Marks t.resume marked
  count : t.completed + totalLength (ws.filterMap Stage.uncounted?) = totalLength marked
  alone : ∀ stage ∈ ws, stage.isWhole → ws.length = 1

/-- The whole object has been accounted for. -/
structure Settled (ws : List Stage) (t : Tracker) (marked : List ByteRange) : Prop where
  finished : ∀ stage ∈ ws, stage.finished
  reached : t.watermark.reached = t.total
  completed : t.completed = t.total - t.resume
  exhausted : t.plan.total ≤ t.plan.next
  covers : ∀ o, t.resume ≤ o → o < t.total → ∃ r ∈ marked, r.Has o
  bounds : ∀ r ∈ marked, t.resume ≤ r.first ∧ r.pastEnd ≤ t.total

theorem accounts_new {url : String} {resume total chunk : Nat} (hle : resume ≤ total)
    (hfit : total < Offset.limit) (n : Nat) :
    Accounts (List.replicate n .seeking) (.new url resume total chunk) [] [] := by
  have hidle : ∀ {β : Type} (f : Stage → Option β), f .seeking = none →
      (List.replicate n Stage.seeking).filterMap f = [] := fun f hf => by
    rw [List.filterMap_replicate, hf]
  refine ⟨hfit, hle, rfl, hle, ⟨[], by rw [Tracker.planned_new]; rfl, ?_⟩,
    Watermark.marks_new resume, ?_, fun stage hstage his => ?_⟩
  · rw [hidle Stage.unmarked? rfl]
    exact List.Perm.refl _
  · rw [hidle Stage.uncounted? rfl]
    rfl
  · rw [List.eq_of_mem_replicate hstage] at his
    cases his

namespace Accounts

variable {ws : List Stage} {t : Tracker} {marked lost : List ByteRange}

theorem consecutive_planned (h : Accounts ws t marked lost) :
    Consecutive t.resume t.total t.planned :=
  Plan.consecutive_new t.plan.chunk h.resume_le h.fits

theorem mem_planned (h : Accounts ws t marked lost) {r : ByteRange}
    (hr : r ∈ ws.filterMap Stage.unmarked? ++ marked ++ lost) : r ∈ t.planned := by
  obtain ⟨handed, heq, hperm⟩ := h.handed
  rw [heq]
  exact List.mem_append_left _ (hperm.mem_iff.mpr hr)

theorem pastEnd_le_first (h : Accounts ws t marked lost) {r q : ByteRange}
    (hr : r ∈ ws.filterMap Stage.unmarked? ++ marked ++ lost) (hq : q ∈ t.plan.ranges) :
    r.pastEnd ≤ q.first := by
  obtain ⟨handed, heq, hperm⟩ := h.handed
  have hplanned := h.consecutive_planned
  rw [heq] at hplanned
  obtain ⟨b, hleft, hright⟩ := hplanned.split
  exact Nat.le_trans (hleft.bounds (hperm.mem_iff.mpr hr)).2 (hright.bounds hq).1

theorem bounds (h : Accounts ws t marked lost) {r : ByteRange}
    (hr : r ∈ ws.filterMap Stage.unmarked? ++ marked ++ lost) :
    t.resume ≤ r.first ∧ r.pastEnd ≤ t.total :=
  h.consecutive_planned.bounds (h.mem_planned hr)

theorem pairwise_apart (h : Accounts ws t marked lost) :
    (ws.filterMap Stage.unmarked? ++ marked ++ lost).Pairwise ByteRange.Apart := by
  obtain ⟨handed, heq, hperm⟩ := h.handed
  have := h.consecutive_planned.pairwise_apart
  rw [heq] at this
  exact (hperm.pairwise_iff fun hab => hab.symm).mp (List.pairwise_append.mp this).1

theorem totalLength_marked_le (h : Accounts ws t marked lost) :
    totalLength marked ≤ t.total - t.resume := by
  obtain ⟨handed, heq, hperm⟩ := h.handed
  have hall := h.consecutive_planned.totalLength_eq
  have hsplit := totalLength_perm hperm
  rw [heq, totalLength_append] at hall
  simp only [totalLength_append] at hsplit
  omega

theorem withError (h : Accounts ws t marked lost) (e : Option TransferError) :
    Accounts ws { t with error := e } marked lost :=
  ⟨h.fits, h.resume_le, h.plan_total, h.next_le, h.handed, h.watermark, h.count, h.alone⟩

theorem alone_set (h : Accounts ws t marked lost) {w : Nat} {a' : Stage}
    (hwhole : a'.isWhole → ws.length = 1) :
    ∀ stage ∈ ws.set w a', stage.isWhole → (ws.set w a').length = 1 := by
  intro stage hstage his
  rw [List.length_set]
  rcases List.mem_or_eq_of_mem_set hstage with hmem | rfl
  · exact h.alone stage hmem his
  · exact hwhole his

variable {w : Nat} {a : Stage}

theorem swap (h : Accounts ws t marked lost) (hw : ws[w]? = some a) {a' : Stage}
    (hunmarked : a'.unmarked? = a.unmarked?) (huncounted : a'.uncounted? = a.uncounted?)
    (hwhole : a'.isWhole → ws.length = 1) : Accounts (ws.set w a') t marked lost := by
  obtain ⟨rest, hu, hu'⟩ := filterMap_set_perm Stage.unmarked? hw a'
  obtain ⟨rest', hc, hc'⟩ := filterMap_set_perm Stage.uncounted? hw a'
  rw [hunmarked] at hu'
  rw [huncounted] at hc'
  obtain ⟨handed, heq, hperm⟩ := h.handed
  refine ⟨h.fits, h.resume_le, h.plan_total, h.next_le,
    ⟨handed, heq, hperm.trans (perm_shift hu hu' (List.Perm.refl _))⟩, h.watermark, ?_,
    h.alone_set hwhole⟩
  rw [totalLength_perm (hc'.trans hc.symm)]
  exact h.count

theorem drop (h : Accounts ws t marked lost) (hw : ws[w]? = some a) {r : ByteRange}
    (hr : a.unmarked? = some r) (ha : a.uncounted? = none) {a' : Stage} (hr' : a'.unmarked? = none)
    (ha' : a'.uncounted? = none) (hwhole : a'.isWhole = false) :
    Accounts (ws.set w a') t marked (r :: lost) := by
  obtain ⟨rest, hu, hu'⟩ := filterMap_set_perm Stage.unmarked? hw a'
  obtain ⟨rest', hc, hc'⟩ := filterMap_set_perm Stage.uncounted? hw a'
  rw [hr] at hu
  rw [hr'] at hu'
  rw [ha] at hc
  rw [ha'] at hc'
  obtain ⟨handed, heq, hperm⟩ := h.handed
  refine ⟨h.fits, h.resume_le, h.plan_total, h.next_le,
    ⟨handed, heq, hperm.trans (perm_shift hu hu' ?_)⟩, h.watermark, ?_,
    h.alone_set (by simp [hwhole])⟩
  · exact List.perm_middle.symm
  · rw [totalLength_perm (hc'.trans hc.symm)]
    exact h.count

theorem claim (h : Accounts ws t marked lost) (hw : ws[w]? = some a)
    (hnone : a.unmarked? = none) (ha : a.uncounted? = none) (hlt : t.plan.next < t.plan.total) :
    Accounts (ws.set w (.claimed (.upTo _ _ (Plan.lt_nextEnd hlt)))) { t with plan := t.plan.rest }
      marked lost := by
  obtain ⟨rest, hu, hu'⟩ := filterMap_set_perm Stage.unmarked? hw
    (.claimed (.upTo _ _ (Plan.lt_nextEnd hlt)))
  obtain ⟨rest', hc, hc'⟩ := filterMap_set_perm Stage.uncounted? hw
    (.claimed (.upTo _ _ (Plan.lt_nextEnd hlt)))
  rw [hnone] at hu
  rw [ha] at hc
  obtain ⟨handed, heq, hperm⟩ := h.handed
  refine ⟨h.fits, h.resume_le, h.plan_total, ?_,
    ⟨handed ++ [.upTo _ _ (Plan.lt_nextEnd hlt)], ?_, ?_⟩, h.watermark, ?_,
    h.alone_set (by simp [Stage.isWhole])⟩
  · exact h.plan_total ▸ Nat.min_le_right _ _
  · rw [List.append_assoc, List.singleton_append, ← Plan.ranges_of_lt hlt (h.plan_total ▸ h.fits)]
    exact heq
  · refine List.perm_append_comm.trans ((hperm.cons _).trans ?_)
    rw [← List.cons_append, ← List.cons_append]
    exact perm_shift (hu.cons _) hu' (List.Perm.refl _)
  · rw [totalLength_perm (hc'.trans hc.symm)]
    exact h.count

theorem mark (h : Accounts ws t marked lost) (hw : ws[w]? = some a) {r : ByteRange}
    (hr : a.unmarked? = some r) (ha : a.uncounted? = none) :
    ∃ wm, t.mark r = .ok { t with watermark := wm } ∧
      Accounts (ws.set w (.marked r wm.reached)) { t with watermark := wm } (r :: marked) lost := by
  have hmem : r ∈ ws.filterMap Stage.unmarked? :=
    List.mem_filterMap.mpr ⟨a, List.mem_of_getElem? hw, hr⟩
  have hbounds := h.bounds (r := r) (by simp [hmem])
  have happ := h.pairwise_apart
  rw [List.append_assoc] at happ
  obtain ⟨wm, hok, hm⟩ := h.watermark.complete hbounds.1
    (fun q hq => (List.pairwise_append.mp happ).2.2 r hmem q (List.mem_append_left _ hq))
    (Nat.lt_of_le_of_lt hbounds.2 h.fits)
  refine ⟨wm, by simp only [Tracker.mark, hok]; rfl, ?_⟩
  obtain ⟨rest, hu, hu'⟩ := filterMap_set_perm Stage.unmarked? hw (.marked r wm.reached)
  obtain ⟨rest', hc, hc'⟩ := filterMap_set_perm Stage.uncounted? hw (.marked r wm.reached)
  rw [hr] at hu
  rw [ha] at hc
  obtain ⟨handed, heq, hperm⟩ := h.handed
  refine ⟨h.fits, h.resume_le, h.plan_total, h.next_le,
    ⟨handed, heq, hperm.trans (perm_shift hu hu' (List.Perm.refl _))⟩, hm, ?_,
    h.alone_set (by simp [Stage.isWhole])⟩
  have hcount := h.count
  rw [totalLength_perm hc] at hcount
  rw [totalLength_perm hc']
  simp only [Stage.uncounted?, Option.toList, List.singleton_append, List.nil_append,
    totalLength_cons] at hcount ⊢
  omega

theorem countRange (h : Accounts ws t marked lost) {r : ByteRange} {reached : Nat}
    (hw : ws[w]? = some (.marked r reached)) (code : Nat) :
    t.count r code = .ok { t with completed := t.completed + r.length, code } ∧
      Accounts (ws.set w (.counted r reached))
        { t with completed := t.completed + r.length, code } marked lost := by
  obtain ⟨rest, hu, hu'⟩ := filterMap_set_perm Stage.unmarked? hw (.counted r reached)
  obtain ⟨rest', hc, hc'⟩ := filterMap_set_perm Stage.uncounted? hw (.counted r reached)
  have hcount := h.count
  rw [totalLength_perm hc] at hcount
  simp only [Stage.uncounted?, Option.toList, List.singleton_append, totalLength_cons] at hcount
  have hle := h.totalLength_marked_le
  have hfits := h.fits
  have hlength : r.lengthChecked = .ok r.length :=
    Offset.add_eq_ok (by simp only [ByteRange.length] at hcount; omega)
  refine ⟨?_, h.fits, h.resume_le, h.plan_total, h.next_le, ?_, h.watermark, ?_,
    h.alone_set (by simp [Stage.isWhole])⟩
  · simp only [Tracker.count, hlength, bind, Except.bind,
      Offset.addWrapped_eq (show t.completed + r.length < Offset.limit by omega)]
    rfl
  · obtain ⟨handed, heq, hperm⟩ := h.handed
    exact ⟨handed, heq, hperm.trans (perm_shift hu hu' (List.Perm.refl _))⟩
  · rw [totalLength_perm hc']
    show t.completed + r.length + totalLength rest' = totalLength marked
    omega

theorem recordWhole (h : Accounts ws t marked lost) {r : ByteRange}
    (hw : ws[w]? = some (.writtenWhole r)) (p : Progress) (code : Nat) :
    ∃ (t' : Tracker) (hlt : t.resume < t.total),
      t.recordWhole p code = .ok (t', p.advanceTo t.total) ∧
      t'.resume = t.resume ∧ t'.total = t.total ∧ t'.url = t.url ∧ t'.error = t.error ∧
      Settled (ws.set w .stopped) t' (.upTo t.resume t.total hlt :: marked) := by
  have hbounds := h.bounds (Stage.mem_handed (List.mem_of_getElem? hw) rfl)
  have hlt : t.resume < t.total := by
    have := r.first_lt_pastEnd
    omega
  have hone := h.alone _ (List.mem_of_getElem? hw) rfl
  have hmake : ByteRange.make t.resume (t.total - 1) = .ok (.upTo t.resume t.total hlt) :=
    ByteRange.make_eq_ok (by omega)
  have hcomplete := h.watermark.complete_rest
    (fun q hq => (h.bounds (r := q) (by simp [hq])).2) hlt h.fits
  refine ⟨{ t with plan := t.plan.exhaust, watermark := ⟨t.total, []⟩,
                   completed := t.total - t.resume, code }, hlt, ?_, rfl, rfl, rfl, rfl, ?_⟩
  · simp only [Tracker.recordWhole, Tracker.markRest, hlt, if_true, hmake, bind, Except.bind,
      Tracker.mark, hcomplete]
    rfl
  · refine ⟨fun stage hstage => ?_, rfl, rfl, Nat.le_max_right _ _, fun o ho₁ ho₂ => ?_, ?_⟩
    · obtain ⟨hi, hget⟩ := List.getElem?_eq_some_iff.mp hw
      obtain ⟨b, rfl⟩ := List.length_eq_one_iff.mp hone
      obtain rfl : w = 0 := by simp at hi; exact hi
      simp only [List.set_cons_zero, List.mem_singleton] at hstage
      rw [hstage]; rfl
    · refine ⟨.upTo t.resume t.total hlt, List.mem_cons_self, ho₁, ?_⟩
      rw [ByteRange.upTo_pastEnd]
      exact ho₂
    · intro q hq
      rcases List.mem_cons.mp hq with rfl | hq
      · exact ⟨Nat.le_refl _, Nat.le_of_eq (ByteRange.upTo_pastEnd hlt)⟩
      · exact h.bounds (r := q) (by simp [hq])

end Accounts

end RangeTransfer
