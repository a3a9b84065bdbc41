import RangeTransfer.Proofs.Attempt.Budget
import RangeTransfer.Proofs.Attempt.Exchanges
import RangeTransfer.Remote.Scripted
/-!
# Fetching a range

A worker that is to ask for a range asks for it until an answer gives a body or an error that no
further request can mend, or until it has made as many requests as the policy allows. It then goes
on with what the last answer gave (`Stage.fetched`), or is cancelled if the stop flag is up before it
asks again (`Fetch.Ends`).

Proof. A step of the worker ends the fetch or brings its end nearer (`Fetch.At.advance`), and the
other moves leave the worker where it is (`Fetch.At.keep`). The run is by induction on the moves
(`Fetch.At.exists_lasts`), with the requests made so far counted in the stage (`Stage.Fetching`).
-/

namespace RangeTransfer

/-! ## Answers -/

/-- What a worker gets out of an answer to a request for `r`. -/
def Answer.result (url : String) (total : Nat) (acceptWhole : Bool) (r : ByteRange) :
    Answer → Except Halt Accepted
  | .response reply => classify url r total reply acceptWhole
  | .failed e => .error (.failed e)
  | .crashed reason => .error (.aborted (.crash reason))

/-- After such a result the same range may be asked for again. -/
def Again (result : Except Halt Accepted) : Prop :=
  ∃ e, result = .error (.failed e) ∧ e.retryable = true

namespace Stage

/-- Where a worker stands whose fetch of `r` had this result. -/
def fetched (r : ByteRange) : Except Halt Accepted → Stage
  | .ok body => holding r body
  | .error (.failed e) => failing r e
  | .error (.aborted abort) => died abort

variable {rules : WorkerRules} {url : String} {total attempt : Nat} {r : ByteRange} {answer : Answer}

theorem afterAnswer_of_again (h : Again (answer.result url total rules.acceptWhole r))
    (hmore : attempt < max rules.policy.rangeAttempts 1) :
    afterAnswer rules url total r attempt answer = pausing r attempt := by
  obtain ⟨e, hresult, hretry⟩ := h
  have hagain : (e.retryable && (rules.policy.rangeDelay attempt).isSome) = true :=
    Bool.and_eq_true_iff.mpr ⟨hretry, isSome_rangeDelay.mpr hmore⟩
  cases answer with
  | response reply =>
    simp only [Answer.result] at hresult
    simp only [afterAnswer, hresult, afterError, hagain, if_true]
  | failed e' =>
    cases hresult
    exact if_pos hagain
  | crashed reason => cases hresult

theorem afterAnswer_of_last (h : ¬ Again (answer.result url total rules.acceptWhole r) ∨
    max rules.policy.rangeAttempts 1 ≤ attempt) :
    afterAnswer rules url total r attempt answer =
      fetched r (answer.result url total rules.acceptWhole r) := by
  have herror : ∀ e, answer.result url total rules.acceptWhole r = .error (.failed e) →
      afterError rules.policy r attempt e = failing r e := by
    intro e hresult
    refine if_neg fun hagain => ?_
    obtain ⟨hretry, hmore⟩ := Bool.and_eq_true_iff.mp hagain
    have hlt := isSome_rangeDelay.mp hmore
    exact h.elim (fun hnot => hnot ⟨e, hresult, hretry⟩) (Nat.not_le.mpr hlt)
  cases answer with
  | response reply =>
    simp only [Answer.result] at herror
    rcases hresult : classify url r total reply rules.acceptWhole with ⟨e | abort⟩ | body
    · simp only [afterAnswer, Answer.result, hresult, fetched, herror e hresult]
    · simp only [afterAnswer, Answer.result, hresult, fetched]
    · simp only [afterAnswer, Answer.result, hresult, fetched]
  | failed e => exact herror e rfl
  | crashed reason => rfl

/-! ## Stages of a fetch -/

/-- A worker fetches `r`, has made `made` requests for it and may make another one, as the first
request or after a wait. -/
inductive Fetching (most : Nat) (r : ByteRange) (made : Nat) : Stage → Prop
  | asking (more : made < most) : Fetching most r made (asking r (made + 1))
  | pausing (more : made < most) : Fetching most r made (pausing r made)

/-- How many steps a worker takes at most for the rest of its fetch. -/
def fetchSteps (most : Nat) : Stage → Nat
  | asking _ attempt => 2 * (most - attempt) + 1
  | pausing _ attempt => 2 * (most - attempt)
  | _ => 0

theorem Fetching.fetchSteps_pos {a : Stage} {most made : Nat} (h : a.Fetching most r made) :
    0 < a.fetchSteps most := by
  cases h with
  | asking more => exact Nat.succ_pos _
  | pausing more =>
    simp only [fetchSteps]
    omega

end Stage

/-! ## One fetch -/

/-- What a worker fetches, and by which rules. -/
structure Fetch where
  rules : WorkerRules
  worker : Nat
  range : ByteRange
  url : String
  total : Nat

namespace Fetch

variable {ρ σ : Type} [Remote ρ] [RangeSink σ]

/-- How many requests the policy allows for a range. -/
def most (f : Fetch) : Nat := max f.rules.policy.rangeAttempts 1

/-- The only request that the fetch makes. -/
def query (f : Fetch) : Query := ⟨f.worker, f.url, some f.range⟩

def result (f : Fetch) (x : Exchange) : Except Halt Accepted :=
  x.answer.result f.url f.total f.rules.acceptWhole f.range

/-- What the worker says and hears in one move of the crew. -/
def said (f : Fetch) (c : Crew ρ σ) (m : Move) : List Exchange := c.talk f.rules f.worker [m]

/-- The fetch is under way: its worker has made `made` requests and stands at `a`. -/
structure At (f : Fetch) (c : Crew ρ σ) (made : Nat) (a : Stage) : Prop where
  url : c.shared.tracker.url = f.url
  total : c.shared.tracker.total = f.total
  stage : c.workers[f.worker]? = some a
  fetching : a.Fetching f.most f.range made

/-- A move leaves the fetch under way, with its worker at `a'`: the answer to a request that it makes
calls for another one. -/
structure GoesOn (f : Fetch) (c : Crew ρ σ) (made : Nat) (m : Move) (a' : Stage) : Prop where
  under : f.At (c.apply f.rules m) (made + (f.said c m).length) a'
  again : ∀ x ∈ f.said c m, x.query = f.query ∧ Again (f.result x)

/-- The next step of the worker ends the fetch, of which `made` requests have been made. -/
inductive Ends (f : Fetch) (c : Crew ρ σ) (made : Nat) : Prop
  | answered {x : Exchange} (calm : c.shared.session.cancelled = false)
      (said : f.said c (.advance f.worker) = [x]) (query : x.query = f.query)
      (last : ¬ Again (f.result x) ∨ made + 1 = f.most)
      (stage : (c.apply f.rules (.advance f.worker)).workers[f.worker]? =
        some (.fetched f.range (f.result x)))
  | cancelled (up : c.shared.session.cancelled = true) (said : f.said c (.advance f.worker) = [])
      (stage : (c.apply f.rules (.advance f.worker)).workers[f.worker]? =
        some (.failing f.range .cancelled))

variable {f : Fetch} {c : Crew ρ σ} {made : Nat} {a : Stage}

theorem GoesOn.quiet {m : Move} {a' : Stage} (hsaid : f.said c m = [])
    (hunder : f.At (c.apply f.rules m) made a') : f.GoesOn c made m a' := by
  refine ⟨?_, ?_⟩
  · rw [hsaid]
    exact hunder
  · rw [hsaid]
    exact fun x hx => absurd hx List.not_mem_nil

theorem GoesOn.asked {m : Move} {a' : Stage} {x : Exchange} (hsaid : f.said c m = [x])
    (hquery : x.query = f.query) (hagain : Again (f.result x))
    (hunder : f.At (c.apply f.rules m) (made + 1) a') : f.GoesOn c made m a' := by
  refine ⟨?_, ?_⟩
  · rw [hsaid]
    exact hunder
  · rw [hsaid]
    intro y hy
    rw [List.mem_singleton.mp hy]
    exact ⟨hquery, hagain⟩

theorem At.apply (h : f.At c made a) {m : Move} {made' : Nat} {a' : Stage}
    (hstage : (c.apply f.rules m).workers[f.worker]? = some a')
    (hfetching : a'.Fetching f.most f.range made') : f.At (c.apply f.rules m) made' a' := by
  have htask : (c.apply f.rules m).shared.tracker.task = c.shared.tracker.task := Crew.task_apply c m
  exact ⟨(Tracker.url_eq_of_task htask).trans h.url, (Tracker.total_eq_of_task htask).trans h.total,
    hstage, hfetching⟩

theorem At.getElem?_advance (h : f.At c made a) :
    (c.apply f.rules (.advance f.worker)).workers[f.worker]? =
      some (a.advance f.rules f.worker c.shared).1 := by
  rw [Crew.advance_of_getElem? h.stage]
  exact List.getElem?_set_self (List.getElem?_eq_some_iff.mp h.stage).1

theorem At.keep (h : f.At c made a) {m : Move} (hm : m ≠ .advance f.worker)
    (hkept : ∀ stored, m ≠ .lose f.worker stored) : f.GoesOn c made m a := by
  obtain ⟨a', hstage, hchange⟩ := (c.moved_apply f.rules m).worker h.stage
  obtain rfl | ⟨hadvance, -⟩ | ⟨_, stored, _, hlose, -⟩ | ⟨r, body, _, _, _, -, rfl, -⟩ := hchange
  · exact .quiet (Crew.talk_of_ne hm) (h.apply hstage h.fetching)
  · exact absurd hadvance hm
  · exact absurd hlose (hkept stored)
  · -- a worker that fetches is in no write
    cases h.fetching

theorem At.ask (h : f.At c made (.asking f.range (made + 1)))
    (hcalm : c.shared.session.cancelled = false) :
    ∃ x, f.said c (.advance f.worker) = [x] ∧ x.query = f.query ∧
      (c.apply f.rules (.advance f.worker)).workers[f.worker]? =
        some (.afterAnswer f.rules f.url f.total f.range (made + 1) x.answer) := by
  have hsaid : f.said c (.advance f.worker) = (c.exchange? (.advance f.worker)).toList :=
    Crew.talk_self f.rules f.worker c
  have hnext := h.getElem?_advance
  simp only [Crew.exchange?, Crew.asks, h.stage, Option.bind_some, Stage.asks, hcalm, h.url,
    Bool.false_eq_true, if_false] at hsaid
  simp only [Stage.advance, hcalm, h.url, h.total, Bool.false_eq_true, if_false] at hnext
  exact ⟨_, hsaid, rfl, hnext⟩

theorem At.said_eq_nil (h : f.At c made a)
    (hquiet : c.shared.session.cancelled = true ∨ a = .pausing f.range made) :
    f.said c (.advance f.worker) = [] := by
  have hnone : a.asks c.shared.session.cancelled = none := by
    rcases hquiet with hup | rfl
    · rw [hup]
      cases a <;> rfl
    · rfl
  refine (Crew.talk_self f.rules f.worker c).trans ?_
  rw [Crew.exchange?, Crew.asks, h.stage, Option.bind_some, hnone]
  rfl

theorem At.advance (h : f.At c made a) : f.Ends c made ∨
    ∃ a', f.GoesOn c made (.advance f.worker) a' ∧ a'.fetchSteps f.most < a.fetchSteps f.most := by
  cases hflag : c.shared.session.cancelled with
  | true =>
    have hcancel : (a.advance f.rules f.worker c.shared).1 = .failing f.range .cancelled := by
      cases h.fetching <;> simp only [Stage.advance, hflag, if_true]
    exact Or.inl (.cancelled hflag (h.said_eq_nil (Or.inl hflag)) (hcancel ▸ h.getElem?_advance))
  | false =>
    cases h.fetching with
    | pausing more =>
      have hnext := h.getElem?_advance
      simp only [Stage.advance, hflag, Bool.false_eq_true, if_false] at hnext
      refine Or.inr ⟨_, .quiet (h.said_eq_nil (Or.inr rfl)) (h.apply hnext (.asking more)), ?_⟩
      simp only [Stage.fetchSteps]
      omega
    | asking more =>
      obtain ⟨x, hsaid, hquery, hnext⟩ := h.ask hflag
      by_cases hmore : Again (f.result x) ∧ made + 1 < f.most
      · rw [Stage.afterAnswer_of_again hmore.1 hmore.2] at hnext
        refine Or.inr ⟨_, .asked hsaid hquery hmore.1 (h.apply hnext (.pausing hmore.2)), ?_⟩
        simp only [Stage.fetchSteps]
        omega
      · have hlast : ¬ Again (f.result x) ∨ made + 1 = f.most := by
          by_cases hagain : Again (f.result x)
          · have hfull : ¬ made + 1 < f.most := fun hlt => hmore ⟨hagain, hlt⟩
            exact Or.inr (by omega)
          · exact Or.inl hagain
        rw [Stage.afterAnswer_of_last (hlast.imp_right fun h => Nat.le_of_eq h.symm)] at hnext
        exact Or.inl (.answered hflag hsaid hquery hlast hnext)

/-! ## The whole fetch -/

/-- The fetch is under way during `before`, each answer calls for another request, and the next step
of the worker is the last one of the fetch. -/
structure Lasts (f : Fetch) (c : Crew ρ σ) (made : Nat) (before : List Move) : Prop where
  under : ∀ cut rest, before = cut ++ rest →
    ∃ a, f.At (c.after f.rules cut) (made + (c.talk f.rules f.worker cut).length) a
  again : ∀ x ∈ c.talk f.rules f.worker before, x.query = f.query ∧ Again (f.result x)
  ends : f.Ends (c.after f.rules before) (made + (c.talk f.rules f.worker before).length)

theorem Lasts.here (h : f.At c made a) (hends : f.Ends c made) : f.Lasts c made [] where
  under := by
    intro cut rest hcut
    obtain ⟨rfl, rfl⟩ := List.append_eq_nil_iff.mp hcut.symm
    exact ⟨a, h⟩
  again := fun x hx => absurd hx List.not_mem_nil
  ends := hends

theorem Lasts.cons (h : f.At c made a) {m : Move} {a' : Stage} (hm : f.GoesOn c made m a')
    {before : List Move}
    (hrest : f.Lasts (c.apply f.rules m) (made + (f.said c m).length) before) :
    f.Lasts c made (m :: before) := by
  have hsplit : ∀ moves, c.talk f.rules f.worker (m :: moves) =
      f.said c m ++ (c.apply f.rules m).talk f.rules f.worker moves :=
    fun moves => Crew.talk_append [m] moves
  refine ⟨fun cut rest hcut => ?_, fun x hx => ?_, ?_⟩
  · cases cut with
    | nil => exact ⟨a, h⟩
    | cons m' cut =>
      obtain ⟨rfl, hbefore⟩ := List.cons.inj hcut
      obtain ⟨b, hb⟩ := hrest.under cut rest hbefore
      rw [hsplit, List.length_append, ← Nat.add_assoc]
      exact ⟨b, hb⟩
  · rw [hsplit] at hx
    exact (List.mem_append.mp hx).elim (hm.again x) (hrest.again x)
  · rw [hsplit, List.length_append, ← Nat.add_assoc]
    exact hrest.ends

/-- All that the worker says and hears in a fetch that ends with its step after `before`. -/
def talk (f : Fetch) (c : Crew ρ σ) (before : List Move) : List Exchange :=
  c.talk f.rules f.worker (before ++ [.advance f.worker])

/-- Where the worker stands after that step. -/
def stage? (f : Fetch) (c : Crew ρ σ) (before : List Move) : Option Stage :=
  (c.after f.rules (before ++ [.advance f.worker])).workers[f.worker]?

theorem talk_eq (f : Fetch) (c : Crew ρ σ) (before : List Move) : f.talk c before =
    c.talk f.rules f.worker before ++ f.said (c.after f.rules before) (.advance f.worker) :=
  Crew.talk_append before [.advance f.worker]

theorem stage?_eq (f : Fetch) (c : Crew ρ σ) (before : List Move) : f.stage? c before =
    ((c.after f.rules before).apply f.rules (.advance f.worker)).workers[f.worker]? := by
  rw [stage?, Crew.after_append]
  rfl

section Lasts

variable {before : List Move} (h : f.Lasts c made before)

include h

theorem Lasts.lt_most : made + (c.talk f.rules f.worker before).length < f.most := by
  obtain ⟨a, ha⟩ := h.under before [] (List.append_nil before).symm
  cases ha.fetching with
  | asking more | pausing more => exact more

theorem Lasts.of_calm (hcalm : (c.after f.rules before).shared.session.cancelled = false) :
    ∃ last, f.talk c before = c.talk f.rules f.worker before ++ [last] ∧ last.query = f.query ∧
      (¬ Again (f.result last) ∨ made + (f.talk c before).length = f.most) ∧
      f.stage? c before = some (.fetched f.range (f.result last)) := by
  cases h.ends with
  | @answered x calm said query last stage =>
    have htalk : f.talk c before = c.talk f.rules f.worker before ++ [x] :=
      (f.talk_eq c before).trans (congrArg _ said)
    refine ⟨x, htalk, query, ?_, (f.stage?_eq c before).trans stage⟩
    rw [htalk, List.length_append]
    exact last
  | cancelled up said stage => exact absurd (up.symm.trans hcalm) Bool.noConfusion

theorem Lasts.of_up (hup : (c.after f.rules before).shared.session.cancelled = true) :
    f.talk c before = c.talk f.rules f.worker before ∧
      f.stage? c before = some (.failing f.range .cancelled) := by
  cases h.ends with
  | answered calm said query last stage => exact absurd (calm.symm.trans hup) Bool.noConfusion
  | cancelled up said stage =>
    exact ⟨(f.talk_eq c before).trans ((congrArg _ said).trans (List.append_nil _)),
      (f.stage?_eq c before).trans stage⟩

theorem Lasts.query_eq {x : Exchange} (hx : x ∈ f.talk c before) : x.query = f.query := by
  cases hflag : (c.after f.rules before).shared.session.cancelled with
  | false =>
    obtain ⟨last, htalk, hquery, -⟩ := h.of_calm hflag
    rw [htalk] at hx
    rcases List.mem_append.mp hx with hx | hx
    · exact (h.again x hx).1
    · rw [List.mem_singleton.mp hx]
      exact hquery
  | true =>
    rw [(h.of_up hflag).1] at hx
    exact (h.again x hx).1

theorem Lasts.length_le : made + (f.talk c before).length ≤ f.most := by
  have hlt := h.lt_most
  cases hflag : (c.after f.rules before).shared.session.cancelled with
  | false =>
    obtain ⟨last, htalk, -⟩ := h.of_calm hflag
    rw [htalk, List.length_append, List.length_singleton]
    omega
  | true =>
    rw [(h.of_up hflag).1]
    omega

end Lasts

theorem At.exists_lasts (h : f.At c made a) {moves : List Move}
    (hkept : ∀ stored, Move.lose f.worker stored ∉ moves)
    (hlong : a.fetchSteps f.most ≤ moves.count (.advance f.worker)) :
    ∃ before after, moves = before ++ .advance f.worker :: after ∧ f.Lasts c made before := by
  induction moves generalizing c made a with
  | nil => exact absurd hlong (Nat.not_le.mpr h.fetching.fetchSteps_pos)
  | cons m moves ih =>
    have hstep : m = .advance f.worker ∧ f.Ends c made ∨ ∃ a', f.GoesOn c made m a' ∧
        a'.fetchSteps f.most ≤ moves.count (.advance f.worker) := by
      by_cases hm : m = .advance f.worker
      · subst hm
        rw [List.count_cons_self] at hlong
        rcases h.advance with hends | ⟨a', hgoes, hlt⟩
        · exact Or.inl ⟨rfl, hends⟩
        · exact Or.inr ⟨a', hgoes, by omega⟩
      · rw [List.count_cons_of_ne hm] at hlong
        have hothers : ∀ stored, m ≠ .lose f.worker stored :=
          fun stored heq => hkept stored (heq ▸ List.mem_cons_self)
        exact Or.inr ⟨a, h.keep hm hothers, hlong⟩
    rcases hstep with ⟨rfl, hends⟩ | ⟨a', hgoes, hle⟩
    · exact ⟨[], moves, rfl, .here h hends⟩
    · obtain ⟨before, after, rfl, hlasts⟩ := ih hgoes.under
        (fun stored hmem => hkept stored (List.mem_cons_of_mem m hmem)) hle
      exact ⟨m :: before, after, rfl, hlasts.cons h hgoes⟩

end Fetch

namespace Crew

variable {ρ σ : Type} [Remote ρ] [RangeSink σ]

/-- A worker whose connection lives and that gets its turns comes to the end of its fetch, whatever
else happens. Up to then it asks for its range only, at most as often as the policy allows, and for
nothing once the flag is up. -/
theorem bounded_fetch {c : Crew ρ σ} {rules : WorkerRules} {w : Nat} {r : ByteRange}
    {moves : List Move} (hw : c.workers[w]? = some (.asking r 1))
    (hkept : ∀ stored, Move.lose w stored ∉ moves)
    (hlong : 2 * max rules.policy.rangeAttempts 1 ≤ moves.count (.advance w) + 1) :
    let url := c.shared.tracker.url
    let most := max rules.policy.rangeAttempts 1
    let result := fun x : Exchange =>
      x.answer.result url c.shared.tracker.total rules.acceptWhole r
    ∃ before after, moves = before ++ .advance w :: after ∧
      let talk := c.talk rules w (before ++ [.advance w])
      let ended := (c.after rules (before ++ [.advance w])).workers[w]?
      (∀ x ∈ talk, x.query = ⟨w, url, some r⟩) ∧ talk.length ≤ most ∧
      (∀ cut rest, before = cut ++ rest → ∃ a, (c.after rules cut).workers[w]? = some a ∧
        a.Fetching most r (c.talk rules w cut).length) ∧
      ((c.after rules before).shared.session.cancelled = false →
        ∃ earlier last, talk = earlier ++ [last] ∧ (∀ x ∈ earlier, Again (result x)) ∧
          (¬ Again (result last) ∨ talk.length = most) ∧ ended = some (.fetched r (result last))) ∧
      (∀ cut rest, before = cut ++ rest → (c.after rules cut).shared.session.cancelled = true →
        talk = c.talk rules w cut ∧ (∀ x ∈ talk, Again (result x)) ∧ talk.length < most ∧
          ended = some (.failing r .cancelled)) ∧
      Talks c.shared.session.remote (c.exchanges rules moves)
        (c.after rules moves).shared.session.remote := by
  intro url most result
  let f : Fetch := ⟨rules, w, r, url, c.shared.tracker.total⟩
  have hone : 0 < f.most := Nat.le_max_right _ _
  have hstart : f.At c 0 (.asking r 1) := ⟨rfl, rfl, hw, .asking hone⟩
  have hsteps : (Stage.asking r 1).fetchSteps f.most ≤ moves.count (.advance w) := by
    have hmost : f.most = max rules.policy.rangeAttempts 1 := rfl
    simp only [Stage.fetchSteps]
    omega
  obtain ⟨before, after, hmoves, hlasts⟩ := hstart.exists_lasts hkept hsteps
  have hunder := hlasts.under
  have hlength : 0 + (f.talk c before).length ≤ most := hlasts.length_le
  have hmore : 0 + (c.talk rules w before).length < most := hlasts.lt_most
  simp only [Nat.zero_add] at hunder hlength hmore
  refine ⟨before, after, hmoves, fun x hx => hlasts.query_eq hx, hlength, fun cut rest hcut => ?_,
    fun hcalm => ?_, fun cut rest hcut hup => ?_, talks_after rules c moves⟩
  · obtain ⟨a, ha⟩ := hunder cut rest hcut
    exact ⟨a, ha.stage, ha.fetching⟩
  · obtain ⟨last, htalk, -, hlast, hstage⟩ := hlasts.of_calm hcalm
    rw [Nat.zero_add] at hlast
    exact ⟨_, last, htalk, fun x hx => (hlasts.again x hx).2, hlast, hstage⟩
  · -- the flag stays up until the last step
    have hlate : (c.after rules before).shared.session.cancelled = true := by
      rw [hcut, after_append]
      exact (logs_after rules _ rest).cancelled hup
    obtain ⟨htalk, hstage⟩ := hlasts.of_up hlate
    have hquiet : c.talk rules w before = c.talk rules w cut := by
      rw [hcut]
      exact talk_append_of_cancelled hup rest
    refine ⟨htalk.trans hquiet, fun x hx => ?_, ?_, hstage⟩
    · exact (hlasts.again x (htalk ▸ hx)).2
    · exact Nat.lt_of_le_of_lt (Nat.le_of_eq (congrArg List.length htalk)) hmore

/-- A worker that is to ask for the first two bytes of four. Its first request fails, and while the
answer to the second one is on its way, the stop flag is raised. -/
def secondTry : Crew ScriptedRemote Recorder where
  shared :=
    { session :=
        { remote := { ScriptedRemote.new 4 with script := [⟨.fail "reset", false⟩, ⟨.default, true⟩] }
          progress := .fresh
          journal := [] }
      sink := ⟨[], 0, none⟩
      tracker := .new "u" 0 4 2 }
  workers := [.asking ⟨0, 1, by decide⟩ 1]

/-- Two requests are allowed, and the worker goes on with what the last one of them gave. -/
theorem bounded_fetch_secondTry :
    let rules : WorkerRules := ⟨RetryPolicy.single.withRange 2 .zero, false⟩
    let r : ByteRange := ⟨0, 1, by decide⟩
    let moves := List.replicate 3 (Move.advance 0)
    secondTry.workers[0]? = some (.asking r 1) ∧ (∀ stored, Move.lose 0 stored ∉ moves) ∧
    2 * max rules.policy.rangeAttempts 1 ≤ moves.count (.advance 0) + 1 ∧
    ∃ before after, moves = before ++ .advance 0 :: after ∧
      (secondTry.talk rules 0 (before ++ [.advance 0])).length ≤ 2 ∧
      ∃ last ∈ secondTry.talk rules 0 (before ++ [.advance 0]),
        (secondTry.after rules (before ++ [.advance 0])).workers[0]? =
          some (.fetched r (last.answer.result "u" 4 false r)) := by
  intro rules r moves
  have hw : secondTry.workers[0]? = some (.asking r 1) := rfl
  have hkept : ∀ stored, Move.lose 0 stored ∉ moves := fun stored hmem =>
    nomatch List.eq_of_mem_replicate hmem
  have hlong : 2 * max rules.policy.rangeAttempts 1 ≤ moves.count (.advance 0) + 1 := by decide
  obtain ⟨before, after, hmoves, -, hle, -, hcalm, -⟩ := bounded_fetch hw hkept hlong
  -- the flag is down until the third step is made
  have hdown : (secondTry.after rules before).shared.session.cancelled = false := by
    obtain ⟨hlength, hbefore, -⟩ := List.append_eq_replicate_iff.mp hmoves.symm
    rw [List.length_cons] at hlength
    rw [hbefore]
    obtain h | h | h : before.length = 0 ∨ before.length = 1 ∨ before.length = 2 := by omega
    all_goals
      rw [h]
      rfl
  obtain ⟨earlier, last, htalk, -, -, hended⟩ := hcalm hdown
  exact ⟨hw, hkept, hlong, before, after, hmoves, hle, last,
    htalk ▸ List.mem_append_right earlier List.mem_cons_self, hended⟩

end Crew

end RangeTransfer
