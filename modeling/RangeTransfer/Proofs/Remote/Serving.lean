import RangeTransfer.Proofs.Attempt.Fates
import RangeTransfer.Proofs.Attempt.Stored
import RangeTransfer.Proofs.Remote.Archive
import RangeTransfer.Proofs.Sink.Writable
/-!
# A pool at an archive

At an archive, and with a sink that takes every write, the fate of a range depends on the range
alone: a worker gets its body unless the archive withholds it (`Serving.advance`). If the archive
withholds nothing, a worker that steps alone gets to any range that is left
(`Serving.exists_claimed`), and in the end stops. So a pool can store all ranges but one
(`exists_moves_past`): one worker claims it and waits while another one fetches the rest.
-/

namespace RangeTransfer

theorem classify_extract {object : ByteArray} {r : ByteRange} {header : Option ContentRange}
    (hle : r.pastEnd ≤ object.size) (hfit : object.size < Offset.limit)
    (hheader : ∀ h, header = some h → h.range = r) (url : String) (acceptWhole : Bool) :
    classify url r object.size ⟨206, object.extract r.first r.pastEnd, header⟩ acceptWhole =
      .ok (.part (object.extract r.first r.pastEnd)) := by
  have hlength := r.length_eq
  have hpos := r.length_pos
  have hsize : (object.extract r.first r.pastEnd).size = r.length := by
    rw [ByteArray.size_extract]
    omega
  have hsized : classify.sized url r ⟨206, object.extract r.first r.pastEnd, header⟩ =
      .ok (.part (object.extract r.first r.pastEnd)) := by
    simp only [classify.sized, ByteRange.lengthChecked_eq (Nat.lt_of_le_of_lt hle hfit), hsize,
      if_true]
  simp only [classify, if_true, hsize, if_neg (Nat.ne_of_gt hpos), hsized]
  cases header with
  | none => rfl
  | some h => simp only [Option.map_some, hheader h rfl, ne_eq, not_true_eq_false, if_false]

/-! ## One step -/

namespace Stage

variable {object : ByteArray} {rules : WorkerRules} {w : Nat} {a a' : Stage}
  {x x' : Shared (Archive object) Sink} {good : ByteRange → Bool}

theorem Step.calm (h : Step rules w x a a' x') :
    x'.session.cancelled = x.session.cancelled ∧ x'.session.remote = x.session.remote := by
  obtain ⟨r, attempt, -, -, heq⟩ | ⟨-, heq | ⟨n, heq⟩⟩ := h.session <;> rw [heq] <;>
    exact ⟨rfl, rfl⟩

theorem fated_afterAnswer (hwithholds : ∀ r, x.session.remote.withholds r = !good r)
    (htotal : x.tracker.total = object.size) (hfit : object.size < Offset.limit) {r : ByteRange}
    (hpast : r.pastEnd ≤ object.size) (attempt : Nat) :
    (afterAnswer rules x.tracker.url x.tracker.total r attempt (x.ask w r).1).Fated good := by
  have hanswer : (x.ask w r).1 = x.session.remote.answer (some r) := rfl
  simp only [hanswer, Archive.answer, hwithholds]
  cases hgood : good r with
  | false =>
    simp only [Bool.not_false, if_true, afterAnswer, afterError]
    split
    · trivial
    · exact hgood
  | true =>
    have hpart := @classify_extract object r none hpast hfit fun h heq => by cases heq
    simp only [Bool.not_true, Bool.false_eq_true, if_false, afterAnswer, htotal, hpart]
    exact hgood

theorem Step.fated {ws : List Stage} {marked lost : List ByteRange} {v : Nat → Option UInt8}
    (hstep : Step rules w x a a' x') (hcalm : x.session.cancelled = false)
    (hwithholds : ∀ r, x.session.remote.withholds r = !good r)
    (htotal : x.tracker.total = object.size)
    (hwrites : ∀ offset data, offset + data.size ≤ object.size →
      (x.sink.write offset data).1 = .ok ())
    (hacc : Accounts ws x.tracker marked lost) (hw : ws[w]? = some a)
    (hfaith : a.Faithful (fun _ _ => True) object.size v) (h : a.Fated good) : a'.Fated good := by
  have hanswer : ∀ r attempt, a = asking r attempt →
      (afterAnswer rules x.tracker.url x.tracker.total r attempt (x.ask w r).1).Fated good := by
    rintro r attempt rfl
    exact fated_afterAnswer hwithholds htotal (htotal ▸ hacc.fits)
      (htotal ▸ (hacc.bounds (mem_handed (List.mem_of_getElem? hw) rfl)).2) attempt
  cases hstep with
  | yield _ up => cases hcalm.symm.trans up
  | pause _ answered | fail _ answered | accept _ answered | crash _ answered =>
    exact answered ▸ hanswer _ _ rfl
  | store | rest => exact h
  | refuse failed => cases (hfaith.write_eq_ok hwrites).symm.trans failed
  | breakOff aborted => cases (hfaith.write_eq_ok hwrites).symm.trans aborted
  | overrun overruns => exact absurd overruns (hacc.not_overruns hw)
  | _ => trivial

theorem Step.goes_on {ρ σ : Type} [Remote ρ] [RangeSink σ] {x x' : Shared ρ σ}
    (hstep : Step rules w x a a' x') (h : a.Fated fun _ => true) (h' : a'.Fated fun _ => true)
    (hseek : a ≠ seeking) (hpart : a.isWhole = false) (hbusy : a.finished = false) :
    a'.finished = false ∧ x'.tracker.plan = x.tracker.plan := by
  cases hstep with
  | idle | claim => exact absurd rfl hseek
  | record => cases h
  | whole => cases hpart
  | crash | breakOff | overrun => exact h'.elim
  | rest finished => cases hbusy.symm.trans finished
  | _ => exact ⟨rfl, rfl⟩

end Stage

namespace Crew

theorem unbroken_of_fated {ρ σ : Type} [Remote ρ] [RangeSink σ] {c : Crew ρ σ} {rules : WorkerRules}
    {good : ByteRange → Bool} {w : Nat} (h : c.Fated good)
    (h' : (c.apply rules (.advance w)).Fated good) : Unbroken c (c.apply rules (.advance w)) := by
  intro v r body hv
  obtain ⟨a', hv', hchange⟩ := (c.moved_apply rules (.advance w)).worker hv
  have hgood : good r = true := h _ (List.mem_of_getElem? hv)
  have hnext := h' a' (List.mem_of_getElem? hv')
  rw [hv']
  obtain rfl | ⟨-, _, hstep⟩ | ⟨_, _, _, hmove, -⟩ | ⟨_, _, _, _, _, hmove, -⟩ := hchange
  · exact Or.inl rfl
  · cases hstep with
    | store => exact Or.inr (Or.inl rfl)
    | storeWhole => exact Or.inr (Or.inr rfl)
    | refuse => cases hgood.symm.trans hnext
    | breakOff => exact hnext.elim
    | yield polls => cases polls
    | overrun overruns => cases overruns
    | rest finished => cases finished
  · cases hmove
  · cases hmove

theorem completes_of_fated {ρ σ : Type} [Remote ρ] [RangeSink σ] {c : Crew ρ σ}
    {rules : WorkerRules} {good : ByteRange → Bool} {moves : List Move}
    (hadvance : ∀ m ∈ moves, ∃ w, m = .advance w)
    (hfate : ∀ n, (c.after rules (moves.take n)).Fated good) : Completes rules c moves := by
  induction moves generalizing c with
  | nil => exact fun n w r body hw => Or.inl (by rw [List.take_nil]; rw [List.take_nil] at hw; exact hw)
  | cons m moves ih =>
    obtain ⟨w, rfl⟩ := hadvance _ List.mem_cons_self
    exact Completes.cons (unbroken_of_fated (hfate 0) (hfate 1))
      (ih (fun m hm => hadvance m (List.mem_cons_of_mem _ hm)) fun n => hfate (n + 1))

end Crew

/-! ## Pools -/

namespace Crew

variable {object : ByteArray} {url : String} {good : ByteRange → Bool} {k₀ : Sink}
  {c : Crew (Archive object) Sink} {rules : WorkerRules} {marked lost stored : List ByteRange}

/-- A pool at an archive that withholds the ranges that are not good. -/
structure Serving (url : String) (good : ByteRange → Bool) (k₀ : Sink)
    (c : Crew (Archive object) Sink) (marked lost stored : List ByteRange) : Prop where
  calm : c.shared.session.cancelled = false
  withholds : ∀ r, c.shared.session.remote.withholds r = !good r
  judged : Judged good c.workers c.shared.tracker marked lost
  fated : c.Fated good
  faithful : c.Faithful url object.size (fun _ _ => True) k₀ marked
  shelved : ∀ r ∈ stored, r ∈ marked ∨ .written r ∈ c.workers

theorem serving_new {session : Session (Archive object)} {resume chunk : Nat}
    (hcalm : session.cancelled = false) (hwithholds : ∀ r, session.remote.withholds r = !good r)
    (hs : k₀.Sound) (hle : resume ≤ object.size) (hfit : object.size < Offset.limit) (n : Nat) :
    (new ⟨session, k₀, .new url resume object.size chunk⟩ n).Serving url good k₀ [] [] [] where
  calm := hcalm
  withholds := hwithholds
  judged := judged_new (accounts_new hle hfit n) rfl
  fated a ha := by rw [List.eq_of_mem_replicate ha]; trivial
  faithful := faithful_new (x := ⟨session, k₀, .new url resume object.size chunk⟩) hs rfl n
  shelved := nofun

theorem Serving.fated_advance (hwritable : k₀.Writable object.size)
    (h : c.Serving url good k₀ marked lost stored) {w : Nat} {a a' : Stage}
    {x' : Shared (Archive object) Sink} (hw : c.workers[w]? = some a)
    (hstep : Stage.Step rules w c.shared a a' x') : a'.Fated good := by
  have hmem := List.mem_of_getElem? hw
  exact hstep.fated h.calm h.withholds h.faithful.total_eq
    (fun offset data hle => hwritable _ h.faithful.follows offset data hle) h.judged.accounts hw
    (h.faithful.workers a hmem) (h.fated a hmem)

theorem Serving.written_of_stores (h : c.Serving url good k₀ marked lost stored) {m : Move}
    {r : ByteRange} (hr : c.stores rules m = some r) : .written r ∈ (c.apply rules m).workers := by
  obtain ⟨w, q, body, -, hw, ⟨-, rfl, hws⟩ | ⟨⟨data, rfl⟩, -⟩⟩ := holding_of_stores hr
  · obtain ⟨hi, -⟩ := List.getElem?_eq_some_iff.mp hw
    rw [hws]
    exact List.mem_iff_getElem?.mpr ⟨w, List.getElem?_set_self hi⟩
  · have := h.judged.parts _ (List.mem_of_getElem? hw)
    cases this

theorem Serving.advance (hpool : rules.acceptWhole = false) (hwritable : k₀.Writable object.size)
    (h : c.Serving url good k₀ marked lost stored) (w : Nat) :
    ∃ lost', (c.apply rules (.advance w)).Serving url good k₀
      ((c.records (.advance w)).toList ++ marked) lost'
      ((c.stores rules (.advance w)).toList ++ stored) := by
  have hfaithful : (c.apply rules (.advance w)).Faithful url object.size (fun _ _ => True) k₀
      ((c.records (.advance w)).toList ++ marked) :=
    h.faithful.apply (serves_any _ _ _) (Or.inl ⟨lost, h.judged.accounts⟩) (.advance w)
  have hshelved : ∀ r, c.stores rules (.advance w) = some r →
      .written r ∈ (c.apply rules (.advance w)).workers := fun _ => h.written_of_stores
  have hmoved := c.moved_apply rules (.advance w)
  generalize c.apply rules (.advance w) = c' at hmoved hfaithful hshelved ⊢
  cases hmoved with
  | still idle =>
    rw [records_of_idle idle, stores_of_idle idle]
    exact ⟨lost, h⟩
  | @step _ a a' x' hw _ hstep =>
    have hfate' : a'.Fated good := h.fated_advance hwritable hw hstep
    obtain ⟨hcalm, hremote⟩ := hstep.calm
    have hjudged := h.judged.advance hpool hw hstep (h.fated a (List.mem_of_getElem? hw)) hfate'
    rw [← records_advance hw] at hjudged
    refine ⟨_, hcalm.trans h.calm, fun r => ?_, hjudged, fun b hb => ?_, hfaithful, fun r hr => ?_⟩
    · rw [hremote]
      exact h.withholds r
    · rcases List.mem_or_eq_of_mem_set hb with hmem | rfl
      · exact h.fated b hmem
      · exact hfate'
    · rcases List.mem_append.mp hr with hr | hr
      · exact Or.inr (hshelved r (Option.mem_toList.mp hr))
      · rcases h.shelved r hr with hmarked | hwritten
        · exact Or.inl (List.mem_append_right _ hmarked)
        · obtain ⟨v, hv⟩ := List.mem_iff_getElem?.mp hwritten
          by_cases hvw : v = w
          · -- the worker that has written the range records it
            subst hvw
            cases hv.symm.trans hw
            rw [records_advance hw]
            exact Or.inl List.mem_cons_self
          · exact Or.inr (List.mem_iff_getElem?.mpr
              ⟨v, (List.getElem?_set_ne (Ne.symm hvw)).trans hv⟩)

theorem Serving.after (hpool : rules.acceptWhole = false) (hwritable : k₀.Writable object.size)
    (h : c.Serving url good k₀ marked lost stored) {moves : List Move}
    (hadvance : ∀ m ∈ moves, ∃ w, m = .advance w) :
    ∃ lost', (c.after rules moves).Serving url good k₀ (c.recorded rules moves ++ marked) lost'
      (c.stored rules moves ++ stored) := by
  induction moves generalizing c marked lost stored with
  | nil => exact ⟨lost, h⟩
  | cons m moves ih =>
    obtain ⟨w, rfl⟩ := hadvance _ List.mem_cons_self
    obtain ⟨lost₁, h₁⟩ := h.advance hpool hwritable w
    obtain ⟨lost', h'⟩ := ih h₁ fun m hm => hadvance m (List.mem_cons_of_mem _ hm)
    rw [← List.append_assoc, ← List.append_assoc] at h'
    exact ⟨lost', h'⟩

theorem Serving.mem_planned (h : c.Serving url good k₀ marked lost stored) {r : ByteRange}
    (hr : r ∈ stored) : r ∈ c.shared.tracker.planned := by
  refine h.judged.accounts.mem_planned (List.mem_append_left _ (List.mem_append.mpr ?_))
  exact (h.shelved r hr).symm.imp_left fun hwritten => List.mem_filterMap.mpr ⟨_, hwritten, rfl⟩

theorem Serving.fated_after (hpool : rules.acceptWhole = false) (hwritable : k₀.Writable object.size)
    (h : c.Serving url good k₀ marked lost stored) {moves : List Move}
    (hadvance : ∀ m ∈ moves, ∃ w, m = .advance w) (n : Nat) :
    (c.after rules (moves.take n)).Fated good := by
  obtain ⟨lost', h'⟩ := h.after hpool hwritable fun m (hm : m ∈ moves.take n) =>
    hadvance m (List.mem_of_mem_take hm)
  exact h'.fated

/-! ## One worker alone -/

/-- The next `n` steps of worker `w`. -/
def solo (w n : Nat) : List Move := List.replicate n (.advance w)

theorem mem_solo {w n : Nat} {m : Move} (h : m ∈ solo w n) : ∃ w, m = .advance w :=
  ⟨w, List.eq_of_mem_replicate h⟩

theorem workers_solo {ρ σ : Type} [Remote ρ] [RangeSink σ] {rules : WorkerRules} {v w : Nat}
    (hne : v ≠ w) (n : Nat) (c : Crew ρ σ) :
    (c.after rules (solo w n)).workers[v]? = c.workers[v]? := by
  induction n generalizing c with
  | zero => rfl
  | succ n ih =>
    exact (ih (c.apply rules (.advance w))).trans (getElem?_advance_of_ne rules c hne)

theorem exists_finished {ρ σ : Type} [Remote ρ] [RangeSink σ] {rules : WorkerRules} {w : Nat}
    {a : Stage} {c : Crew ρ σ} (hw : c.workers[w]? = some a) :
    ∃ n a', (c.after rules (solo w n)).workers[w]? = some a' ∧ a'.finished = true := by
  have hnear : ∀ n (c : Crew ρ σ), c.Nears rules w n →
      (c.after rules (solo w n)).Nears rules w 0 := by
    intro n
    induction n with
    | zero => exact fun c h => h
    | succ n ih => exact fun c h => ih _ h.self
  obtain ⟨n, hn⟩ : ∃ n, c.Nears rules w n := ⟨_, fun b hb => Or.inr (Nat.le_of_eq (by
    rw [hw] at hb
    rw [← Option.some.inj hb]))⟩
  have hlength : (c.after rules (solo w n)).workers.length = _ := length_workers_after c (solo w n)
  obtain ⟨hi, -⟩ := List.getElem?_eq_some_iff.mp hw
  obtain ⟨a', ha'⟩ : ∃ a', (c.after rules (solo w n)).workers[w]? = some a' :=
    ⟨_, List.getElem?_eq_getElem (by rw [hlength]; exact hi)⟩
  refine ⟨n, a', ha', ?_⟩
  rcases hnear n c hn a' ha' with hfin | hwork
  · exact hfin
  · simp only [Stage.work] at hwork
    exact Stage.finished_of_steps (show a'.steps (max rules.policy.rangeAttempts 1) = 0 by omega)

theorem Serving.lost_eq_nil (h : c.Serving url (fun _ => true) k₀ marked lost stored) : lost = [] :=
  List.eq_nil_iff_forall_not_mem.mpr fun r hr => by cases h.judged.bad_of_lost r hr

theorem Serving.exists_claimed (hpool : rules.acceptWhole = false)
    (hwritable : k₀.Writable object.size) (h : c.Serving url (fun _ => true) k₀ marked lost stored)
    {w : Nat} {a : Stage} (hw : c.workers[w]? = some a) (hbusy : a.finished = false) {r : ByteRange}
    (hr : r ∈ c.shared.tracker.plan.ranges) :
    ∃ n, (c.after rules (solo w n)).workers[w]? = some (.claimed r) := by
  generalize hwork : a.work (max rules.policy.rangeAttempts 1) c.shared.tracker = work
  induction work using Nat.strongRecOn generalizing c a marked lost stored with
  | ind work ih =>
    obtain ⟨hi, -⟩ := List.getElem?_eq_some_iff.mp hw
    obtain ⟨a', x', hstep, hmoved⟩ : ∃ a' x', Stage.Step rules w c.shared a a' x' ∧
        c.apply rules (.advance w) = ⟨x', c.workers.set w a'⟩ :=
      ⟨_, _, a.step_advance rules w c.shared, advance_of_getElem? hw⟩
    have hstage : (c.apply rules (.advance w)).workers[w]? = some a' := by
      rw [hmoved]
      exact List.getElem?_set_self hi
    have hfit : c.shared.tracker.plan.total < Offset.limit :=
      h.judged.accounts.plan_total ▸ h.judged.accounts.fits
    obtain ⟨lost', h'⟩ := h.advance hpool hwritable w
    by_cases hdone : a' = .claimed r
    · exact ⟨1, hdone ▸ hstage⟩
    · -- the step leaves the range for a later one
      have hnext : a'.finished = false ∧ r ∈ x'.tracker.plan.ranges := by
        by_cases hseek : a = .seeking
        · subst hseek
          cases hstep with
          | idle nothing =>
            rw [Plan.ranges_of_le (nothing (h.judged.error_iff.mpr h.lost_eq_nil))] at hr
            cases hr
          | claim _ lt =>
            rw [Plan.ranges_of_lt lt hfit] at hr
            rcases List.mem_cons.mp hr with rfl | hr
            · exact absurd rfl hdone
            · exact ⟨rfl, hr⟩
          | yield polls => cases polls
          | overrun overruns => exact absurd overruns (h.judged.accounts.not_overruns hw)
          | rest finished => cases finished
        · have hmem := List.mem_of_getElem? hw
          obtain ⟨hgoes, hplan⟩ := hstep.goes_on (h.fated a hmem) (h.fated_advance hwritable hw hstep)
            hseek (h.judged.parts a hmem) hbusy
          exact ⟨hgoes, by rw [hplan]; exact hr⟩
      have hless := hstep.work_lt hbusy
      have hshared : (c.apply rules (.advance w)).shared = x' := by rw [hmoved]
      obtain ⟨n, hn⟩ := ih _ (hwork ▸ hless) h' hstage hnext.1 (by rw [hshared]; exact hnext.2)
        (by rw [hshared])
      exact ⟨n + 1, hn⟩

theorem Serving.others_stored {r : ByteRange} (h : c.Serving url (fun _ => true) k₀ marked lost stored)
    (hstocked : ∀ q ∈ marked, Inside q stored)
    (hclaimed : .claimed r ∈ c.workers)
    (hidle : ∀ a ∈ c.workers, a = .claimed r ∨ a.unmarked? = none) :
    r ∉ stored ∧
      ∀ q ∈ c.shared.tracker.planned, q ≠ r → q ∉ c.shared.tracker.plan.ranges → Inside q stored := by
  refine ⟨fun hmem => ?_, fun q hq hne hleft => ?_⟩
  · rcases h.shelved r hmem with hmarked | hwritten
    · have hapart := (List.pairwise_append.mp h.judged.accounts.pairwise_apart).1
      exact ByteRange.not_apart_self r ((List.pairwise_append.mp hapart).2.2 r
        (List.mem_filterMap.mpr ⟨_, hclaimed, rfl⟩) r hmarked)
    · rcases hidle _ hwritten with heq | hnone
      · cases heq
      · cases hnone
  · obtain ⟨handed, heq, hperm⟩ := h.judged.accounts.handed
    rw [heq] at hq
    have hhanded := hperm.mem_iff.mp ((List.mem_append.mp hq).resolve_right hleft)
    rw [h.lost_eq_nil, List.append_nil] at hhanded
    rcases List.mem_append.mp hhanded with hheld | hmarked
    · obtain ⟨a, ha, hqa⟩ := List.mem_filterMap.mp hheld
      rcases hidle a ha with rfl | hnone
      · exact absurd (Option.some.inj hqa).symm hne
      · rw [hnone] at hqa
        cases hqa
    · exact hstocked q hmarked

/-- Workers that are idle or about to ask for `r` have stored the ranges below `r`, and if one of
them has stopped all others. -/
theorem Serving.stored_but {r : ByteRange} (h : c.Serving url (fun _ => true) k₀ marked lost stored)
    (hstocked : ∀ q ∈ marked, Inside q stored) (hclaimed : .claimed r ∈ c.workers)
    (hidle : ∀ a ∈ c.workers, a = .claimed r ∨ a.unmarked? = none) :
    r ∉ stored ∧ ∀ q ∈ c.shared.tracker.planned, q ≠ r →
      q.first < r.first ∨ .stopped ∈ c.workers → Inside q stored := by
  obtain ⟨hnot, hothers⟩ := h.others_stored hstocked hclaimed hidle
  refine ⟨hnot, fun q hq hne hor => hothers q hq hne fun hleft => ?_⟩
  rcases hor with hlt | hstopped
  · have hheld := h.judged.accounts.pastEnd_le_first (List.mem_append_left _
      (List.mem_append_left _ (List.mem_filterMap.mpr ⟨_, hclaimed, rfl⟩))) hleft
    have := r.first_lt_pastEnd
    omega
  · have hdone := h.judged.stopped hstopped (h.judged.error_iff.mpr h.lost_eq_nil)
    rw [Plan.ranges_of_le hdone] at hleft
    cases hleft

theorem Serving.exists_moves_alone (hpool : rules.acceptWhole = false)
    (hwritable : k₀.Writable object.size) (h : c.Serving url (fun _ => true) k₀ marked lost stored)
    (hseeking : ∀ a ∈ c.workers, a = .seeking) {w : Nat} (hw : w < c.workers.length) {r : ByteRange}
    (hr : r ∈ c.shared.tracker.plan.ranges) :
    ∃ n, (c.after rules (solo w n)).workers[w]? = some (.claimed r) ∧
      ∀ v, v ≠ w → ∀ a, (c.after rules (solo w n)).workers[v]? = some a → a = .seeking := by
  have hidle : c.workers[w]? = some .seeking := by
    rw [List.getElem?_eq_getElem hw, hseeking _ (List.getElem_mem hw)]
  obtain ⟨n, hclaimed⟩ := h.exists_claimed hpool hwritable hidle rfl hr
  refine ⟨n, hclaimed, fun v hne a ha => ?_⟩
  rw [workers_solo hne] at ha
  exact hseeking a (List.mem_of_getElem? ha)

/-- An idle crew can come to where one worker is about to ask for `r`, the others are idle, and if
there are several one of these has stopped. -/
theorem Serving.exists_moves (hpool : rules.acceptWhole = false) (hwritable : k₀.Writable object.size)
    (h : c.Serving url (fun _ => true) k₀ marked lost stored)
    (hseeking : ∀ a ∈ c.workers, a = .seeking) (hworkers : 0 < c.workers.length) {r : ByteRange}
    (hr : r ∈ c.shared.tracker.plan.ranges) :
    ∃ moves, (∀ m ∈ moves, ∃ w, m = .advance w) ∧ .claimed r ∈ (c.after rules moves).workers ∧
      (∀ a ∈ (c.after rules moves).workers, a = .claimed r ∨ a.unmarked? = none) ∧
      (1 < c.workers.length → .stopped ∈ (c.after rules moves).workers) := by
  by_cases hsecond : 1 < c.workers.length
  · -- worker 1 claims `r`, then worker 0 runs until it is done
    obtain ⟨n, hclaimed, hothers⟩ := h.exists_moves_alone hpool hwritable hseeking hsecond hr
    have hfirst : (c.after rules (solo 1 n)).workers[0]? = some .seeking := by
      rw [workers_solo (by decide), List.getElem?_eq_getElem hworkers,
        hseeking _ (List.getElem_mem hworkers)]
    obtain ⟨n', a', hlast, hfinished⟩ :
        ∃ n' a', ((c.after rules (solo 1 n)).after rules (solo 0 n')).workers[0]? = some a' ∧
          a'.finished = true := exists_finished hfirst
    have hadvance : ∀ m ∈ solo 1 n ++ solo 0 n', ∃ w, m = .advance w := fun m hm =>
      (List.mem_append.mp hm).elim mem_solo mem_solo
    rw [← after_append] at hlast
    have hstopped : a' = .stopped := by
      obtain ⟨lost', h'⟩ := h.after hpool hwritable hadvance
      have hfated := h'.fated a' (List.mem_of_getElem? hlast)
      cases a' <;> first | rfl | exact hfated.elim | cases hfinished
    have hother : ∀ v, v ≠ 0 → (c.after rules (solo 1 n ++ solo 0 n')).workers[v]? =
        (c.after rules (solo 1 n)).workers[v]? := fun v hne => by
      rw [after_append, workers_solo hne]
    refine ⟨_, hadvance, List.mem_of_getElem? ((hother 1 (by decide)).trans hclaimed), fun a ha => ?_,
      fun _ => hstopped ▸ List.mem_of_getElem? hlast⟩
    obtain ⟨v, hv⟩ := List.mem_iff_getElem?.mp ha
    by_cases h₀ : v = 0
    · rw [h₀, hlast] at hv
      cases hv
      exact Or.inr (by rw [hstopped]; rfl)
    · rw [hother v h₀] at hv
      by_cases h₁ : v = 1
      · rw [h₁, hclaimed] at hv
        exact Or.inl (Option.some.inj hv).symm
      · exact Or.inr (by rw [hothers v h₁ a hv]; rfl)
  · obtain ⟨n, hclaimed, hothers⟩ := h.exists_moves_alone hpool hwritable hseeking hworkers hr
    refine ⟨_, fun m => mem_solo, List.mem_of_getElem? hclaimed, fun a ha => ?_,
      fun h => absurd h hsecond⟩
    obtain ⟨v, hv⟩ := List.mem_iff_getElem?.mp ha
    by_cases h₀ : v = 0
    · rw [h₀, hclaimed] at hv
      exact Or.inl (Option.some.inj hv).symm
    · exact Or.inr (by rw [hothers v h₀ a hv]; rfl)

/-- A pool can leave out any one range and store all ranges before it. If there is a second worker
it can store those behind it as well. -/
theorem exists_moves_past (url : String) (rules : WorkerRules) {session : Session (Archive object)}
    {resume chunk workers : Nat}
    (hcalm : session.cancelled = false) (hwithholds : ∀ r, session.remote.withholds r = false)
    (hs : k₀.Sound) (hwritable : k₀.Writable object.size) (hle : resume ≤ object.size)
    (hfit : object.size < Offset.limit) (hpool : rules.acceptWhole = false) (hworkers : 0 < workers)
    {r : ByteRange} (hr : r ∈ (Plan.new resume object.size chunk).ranges) :
    ∃ moves, (∀ m ∈ moves, ∃ w, m = .advance w) ∧
      r ∉ (new ⟨session, k₀, .new url resume object.size chunk⟩ workers).stored rules moves ∧
      ∀ q ∈ (Plan.new resume object.size chunk).ranges, q ≠ r → q.first < r.first ∨ 1 < workers →
        Inside q ((new ⟨session, k₀, .new url resume object.size chunk⟩ workers).stored rules moves) := by
  have hstart : (new ⟨session, k₀, .new url resume object.size chunk⟩ workers).Serving url
      (fun _ => true) k₀ [] [] [] :=
    serving_new hcalm (by simpa using hwithholds) hs hle hfit workers
  obtain ⟨moves, hadvance, hclaimed, hidle, hstopped⟩ := hstart.exists_moves hpool hwritable
    (fun a ha => List.eq_of_mem_replicate ha) (by rw [new, List.length_replicate]; exact hworkers) hr
  obtain ⟨lost, h⟩ := hstart.after hpool hwritable hadvance
  rw [List.append_nil, List.append_nil] at h
  obtain ⟨hnot, hothers⟩ := h.stored_but (fun q hq => by
    have := recorded_in_stored (stocked_new _ workers) hq
    rwa [List.append_nil] at this) hclaimed hidle
  refine ⟨moves, hadvance, hnot, fun q hq hne hor => hothers q ?_ hne (hor.imp_right fun h => ?_)⟩
  · rw [Tracker.planned_eq_of_task (task_after _ moves)]
    exact (Tracker.planned_new url resume object.size chunk).symm ▸ hq
  · exact hstopped (by rw [new, List.length_replicate]; exact h)

end Crew

end RangeTransfer
