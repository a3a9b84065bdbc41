import RangeTransfer.Proofs.Attempt.Unhindered
import RangeTransfer.Proofs.Remote.Serving
/-!
# Remotes without faults

A remote that honours ranges answers each request with the bytes of its range, one that ignores them
answers with the whole object; a probe tells them apart (`Session.probe_faultless`), and a `Server` is
either of them. A crew at the first asks for each planned range just once
(`Crew.Ranged.asked_perm`), a single worker at the second makes one request (`Crew.Taking.one`), and
both come to the end of the object (`Crew.Unhindered.reached_eq`).
-/

namespace RangeTransfer

/-- Every request for a range of the object at `url` is answered with the bytes of the range. -/
def Honours (ρ : Type) [Remote ρ] (url : String) (object : ByteArray) : Prop :=
  ∀ (m : ρ) (q : Query) (r : ByteRange), q.url = url → q.range = some r → r.pastEnd ≤ object.size →
    ∃ header : Option ContentRange, (∀ h, header = some h → h.range = r) ∧
      (Remote.get m q).1 = ⟨.response ⟨206, object.extract r.first r.pastEnd, header⟩, false⟩

/-- Every request for the object at `url`, or for a range of it, is answered with the whole
object. -/
def Ignores (ρ : Type) [Remote ρ] (url : String) (object : ByteArray) : Prop :=
  ∀ (m : ρ) (q : Query), q.url = url →
    ∃ header : Option ContentRange, (Remote.get m q).1 = ⟨.response ⟨200, object, header⟩, false⟩

/-- The range of the one byte at `offset`. -/
def ByteRange.single (offset : Nat) : ByteRange := ⟨offset, offset, Nat.le_refl offset⟩

/-- The remote has no faults: it honours ranges, or it ignores them. -/
def Faultless (ρ : Type) [Remote ρ] (url : String) (object : ByteArray) : (honours : Bool) → Prop
  | true => Honours ρ url object
  | false => Ignores ρ url object

section

variable {ρ : Type} [Remote ρ] {url : String} {object : ByteArray} {honours : Bool}

theorem Honours.truthful (h : Honours ρ url object) : Truthful ρ url object := by
  intro m q r response acceptWhole hurl hrange hpast hanswer
  obtain ⟨header, -, hget⟩ := h m q r hurl hrange hpast
  rw [hget] at hanswer
  cases hanswer
  refine ⟨fun body hbody => (classify_part hbody).1, fun body hbody => ?_⟩
  have hstatus : 206 = 200 := (classify_whole hbody).2.1
  cases hstatus

theorem Ignores.truthful (h : Ignores ρ url object) : Truthful ρ url object := by
  intro m q r response acceptWhole hurl _ _ hanswer
  obtain ⟨header, hget⟩ := h m q hurl
  rw [hget] at hanswer
  cases hanswer
  refine ⟨fun body hbody => ?_, fun body hbody => (classify_whole hbody).1⟩
  have hstatus : 200 = 206 := (classify_part hbody).2.1
  cases hstatus

theorem Honours.grants (h : Honours ρ url object) (hfit : object.size < Offset.limit)
    (acceptWhole : Bool) : Grants ρ url object.size acceptWhole false := by
  intro m q r hurl hrange hpast
  obtain ⟨header, hheader, hget⟩ := h m q r hurl hrange hpast
  exact ⟨_, _, hget, classify_extract hpast hfit hheader url acceptWhole⟩

theorem Ignores.grants (h : Ignores ρ url object) : Grants ρ url object.size true true := by
  intro m q r hurl _ _
  obtain ⟨header, hget⟩ := h m q hurl
  exact ⟨_, object, hget, by simp [classify]⟩

theorem Faultless.truthful (h : Faultless ρ url object honours) : Truthful ρ url object := by
  cases honours with
  | true => exact Honours.truthful h
  | false => exact Ignores.truthful h

theorem Session.probe_faultless (hfaultless : Faultless ρ url object honours)
    (hpos : 0 < object.size) (x : Session ρ) : ∃ x', x.probe url = (.ok honours, x') ∧
      x.Sends [some (.single 0)] x' := by
  let q : Query := ⟨0, url, some (.single 0)⟩
  obtain ⟨r, hget, hstatus⟩ : ∃ r, (Remote.get x.remote q).1 = ⟨.response r, false⟩ ∧
      decide (r.status = 206) = honours := by
    cases honours with
    | true =>
      obtain ⟨header, -, hget⟩ := (hfaultless : Honours ρ url object) x.remote q _ rfl rfl hpos
      exact ⟨_, hget, rfl⟩
    | false =>
      obtain ⟨header, hget⟩ := (hfaultless : Ignores ρ url object) x.remote q rfl
      exact ⟨_, hget, rfl⟩
  obtain ⟨hanswer, hsends⟩ := sends_ask hget
  refine ⟨(x.ask q).2, ?_, hsends⟩
  have hask : x.ask q = (.response r, (x.ask q).2) := Prod.ext hanswer rfl
  unfold probe
  simp only
  rw [show x.ask ⟨0, url, some ⟨0, 0, Nat.le_refl 0⟩⟩ = _ from hask]
  exact congrArg (fun b => (Except.ok b, (x.ask q).2)) hstatus

end

/-- A server of one object that honours ranges or ignores them, and accepts `connections` more
connections. -/
structure Server (object : ByteArray) (honours : Bool) where
  connections : Nat

namespace Server

variable {object : ByteArray} {honours : Bool}

def response (object : ByteArray) (honours : Bool) (range : Option ByteRange) : Response :=
  match range, honours with
  | some r, true => ⟨206, object.extract r.first r.pastEnd, none⟩
  | _, _ => ⟨200, object, none⟩

instance : Remote (Server object honours) where
  objectSize m _ := (some object.size, m)
  connect m :=
    if 0 < m.connections then (.ok (), ⟨m.connections - 1⟩)
    else (.error (.transport "server" "refused"), m)
  get m q := (⟨.response (response object honours q.range), false⟩, m)

theorem faultless (object : ByteArray) (honours : Bool) (url : String) :
    Faultless (Server object honours) url object honours := by
  cases honours with
  | true =>
    rintro m ⟨connection, url', range⟩ r - rfl -
    exact ⟨none, nofun, rfl⟩
  | false =>
    intro m q _
    exact ⟨none, by cases hrange : q.range <;> simp [Remote.get, response, hrange]⟩

end Server

namespace Crew

variable {ρ : Type} [Remote ρ] {url : String} {total : Nat} {k₀ : Sink} {session : Session ρ}
  {c : Crew ρ Sink} {rules : WorkerRules} {asked marked : List ByteRange}

theorem Unhindered.sends {whole : Bool} (hgrants : Grants ρ url total rules.acceptWhole whole)
    (hwritable : k₀.Writable total) (h : c.Unhindered url total whole k₀ marked) {w : Nat}
    {a a' : Stage} {x' : Shared ρ Sink} (hw : c.workers[w]? = some a) (hbusy : a.finished = false)
    (hstep : Stage.Step rules w c.shared a a' x')
    (hsends : session.Sends (asked.map some) c.shared.session) :
    session.Sends ((a.asks?.toList ++ asked).map some) x'.session := by
  obtain ⟨-, hproceeds⟩ := h.proceeds hgrants hwritable hw hbusy hstep
  rw [List.map_append]
  exact hsends.trans hproceeds.sends

/-! ## Ranges -/

/-- A crew that gets ranges: what it has asked for is in hand or recorded. -/
structure Ranged (url : String) (total : Nat) (k₀ : Sink) (session : Session ρ) (c : Crew ρ Sink)
    (asked marked : List ByteRange) : Prop where
  unhindered : c.Unhindered url total false k₀ marked
  sends : session.Sends (asked.map some) c.shared.session
  kept : asked.Perm (c.workers.filterMap Stage.answered? ++ marked)

omit [Remote ρ] in
theorem ranged_new {session' : Session ρ} {resume chunk : Nat} (hsends : session.Sends [] session')
    (hcalm : session'.cancelled = false) (hs : k₀.Sound) (hle : resume ≤ total)
    (hfit : total < Offset.limit) (n : Nat) :
    (new ⟨session', k₀, .new url resume total chunk⟩ n).Ranged url total k₀ session [] [] where
  unhindered := unhindered_new hcalm hs hle hfit n
  sends := hsends
  kept := by
    have hidle : (List.replicate n Stage.seeking).filterMap Stage.answered? = [] := by
      rw [List.filterMap_replicate]
      rfl
    rw [new, hidle]
    exact List.Perm.refl _

theorem Ranged.advance (hgrants : Grants ρ url total rules.acceptWhole false)
    (hs : Solitary rules c) (hwritable : k₀.Writable total)
    (h : c.Ranged url total k₀ session asked marked) (w : Nat) :
    ∃ asked', (c.apply rules (.advance w)).Ranged url total k₀ session asked'
      ((c.records (.advance w)).toList ++ marked) := by
  have hnext := h.unhindered.advance hgrants hs hwritable w
  have hmoved := c.moved_apply rules (.advance w)
  generalize c.apply rules (.advance w) = c' at hmoved hnext ⊢
  cases hmoved with
  | still idle =>
    rw [records_of_idle idle]
    exact ⟨asked, h⟩
  | @step _ a a' _ hw hbusy hstep =>
    have hsends := h.unhindered.sends hgrants hwritable hw hbusy hstep h.sends
    obtain ⟨-, hproceeds⟩ := h.unhindered.proceeds hgrants hwritable hw hbusy hstep
    obtain ⟨rest, hold, hnew⟩ := filterMap_set_perm Stage.answered? hw a'
    have hkept := h.kept
    have hparts := List.Perm.of_eq (hproceeds.parts rfl)
    rw [records_advance hw] at hnext ⊢
    refine ⟨_, hnext, hsends, ?_⟩
    simp only [List.perm_iff_count, List.count_append] at *
    intro r
    have := hold r
    have := hnew r
    have := hkept r
    have := hparts r
    omega

theorem Ranged.after (hgrants : Grants ρ url total rules.acceptWhole false)
    (hs : Solitary rules c) (hwritable : k₀.Writable total)
    (h : c.Ranged url total k₀ session asked marked) {moves : List Move}
    (hadvance : ∀ m ∈ moves, ∃ w, m = .advance w) :
    ∃ asked' marked', (c.after rules moves).Ranged url total k₀ session asked' marked' := by
  induction moves generalizing c asked marked with
  | nil => exact ⟨asked, marked, h⟩
  | cons m moves ih =>
    obtain ⟨w, rfl⟩ := hadvance _ List.mem_cons_self
    obtain ⟨asked', h'⟩ := h.advance hgrants hs hwritable w
    exact ih (hs.apply _) h' fun m hm => hadvance m (List.mem_cons_of_mem _ hm)

omit [Remote ρ] in
theorem Ranged.asked_perm (h : c.Ranged url total k₀ session asked marked)
    (hfin : c.finished = true) (hsome : c.workers ≠ []) : asked.Perm c.shared.tracker.planned := by
  obtain ⟨hwhole, -⟩ | ⟨hperm, -⟩ := h.unhindered.settled_or_perm hfin hsome
  · cases hwhole
  · have hidle : c.workers.filterMap Stage.answered? = [] :=
      List.filterMap_eq_nil_iff.mpr fun a ha => by
        rw [h.unhindered.stopped_of_finished hfin a ha]
        rfl
    have hkept := h.kept
    rw [hidle, List.nil_append] at hkept
    exact hkept.trans hperm.symm

/-! ## Whole objects -/

/-- A single worker that gets the whole object, which it has asked for at most once. -/
structure Taking (url : String) (total : Nat) (k₀ : Sink) (session : Session ρ) (c : Crew ρ Sink)
    (asked marked : List ByteRange) : Prop where
  unhindered : c.Unhindered url total true k₀ marked
  sends : session.Sends (asked.map some) c.shared.session
  missing : c.shared.tracker.resume < c.shared.tracker.total
  nothing : c.finished = false → marked = []
  alone : ∃ a, c.workers = [a] ∧ asked.length = a.asked

omit [Remote ρ] in
theorem taking_new {resume chunk : Nat} (hcalm : session.cancelled = false) (hs : k₀.Sound)
    (hlt : resume < total) (hfit : total < Offset.limit) :
    (new ⟨session, k₀, .new url resume total chunk⟩ 1).Taking url total k₀ session [] [] where
  unhindered := unhindered_new hcalm hs (Nat.le_of_lt hlt) hfit 1
  sends := Session.Sends.refl session
  missing := hlt
  nothing _ := rfl
  alone := ⟨.seeking, rfl, rfl⟩

omit [Remote ρ] in
theorem Taking.lt_of_seeking (h : c.Taking url total k₀ session asked marked)
    (hacc : Accounts c.workers c.shared.tracker marked []) (hseek : c.workers = [.seeking]) :
    c.shared.tracker.plan.next < c.shared.tracker.plan.total := by
  refine Nat.lt_of_not_le fun hdone => ?_
  have hperm := hacc.planned_perm (by rw [hseek]; rfl) hdone
  rw [h.nothing (by rw [finished, hseek]; rfl)] at hperm
  have hall := hacc.consecutive_planned
  rw [hperm.eq_nil] at hall
  exact absurd h.missing (Nat.not_lt.mpr (Nat.le_of_eq hall.symm))

theorem Taking.advance (hgrants : Grants ρ url total rules.acceptWhole true)
    (hwritable : k₀.Writable total) (h : c.Taking url total k₀ session asked marked) (w : Nat) :
    ∃ asked' marked', (c.apply rules (.advance w)).Taking url total k₀ session asked' marked' := by
  obtain ⟨a, ha, hasked⟩ := h.alone
  have hnext := h.unhindered.advance hgrants (fun _ => by rw [ha]; rfl) hwritable w
  have hmoved := c.moved_apply rules (.advance w)
  generalize c.apply rules (.advance w) = c' at hmoved hnext ⊢
  cases hmoved with
  | still => exact ⟨asked, marked, h⟩
  | @step _ b b' x' hw hbusy hstep =>
    obtain ⟨rfl, rfl⟩ : w = 0 ∧ b = a := by
      rw [ha] at hw
      cases w with
      | zero => exact ⟨rfl, (Option.some.inj hw).symm⟩
      | succ w => cases hw
    have hsends := h.unhindered.sends hgrants hwritable hw hbusy hstep h.sends
    obtain ⟨hacc, hproceeds⟩ := h.unhindered.proceeds hgrants hwritable hw hbusy hstep
    obtain ⟨hcount, hlast⟩ := hproceeds.wholes rfl (by
      by_cases hseek : b = .seeking
      · exact Or.inl (h.lt_of_seeking hacc (by rw [ha, hseek]))
      · exact Or.inr hseek)
    rw [records_advance hw, ha] at hnext
    rw [ha]
    refine ⟨_, _, hnext, hsends, ?_, fun hbusy' => ?_, _, rfl, ?_⟩
    · rw [Tracker.resume_eq_of_task hstep.task, Tracker.total_eq_of_task hstep.task]
      exact h.missing
    · have hnone := hlast.resolve_left fun hfin => by
        simp [finished, hfin] at hbusy'
      rw [hnone, h.nothing (by simp [finished, ha, hbusy])]
      rfl
    · rw [hcount, List.length_append, hasked]

theorem Taking.after (hgrants : Grants ρ url total rules.acceptWhole true)
    (hwritable : k₀.Writable total) (h : c.Taking url total k₀ session asked marked)
    {moves : List Move} (hadvance : ∀ m ∈ moves, ∃ w, m = .advance w) :
    ∃ asked' marked', (c.after rules moves).Taking url total k₀ session asked' marked' := by
  induction moves generalizing c asked marked with
  | nil => exact ⟨asked, marked, h⟩
  | cons m moves ih =>
    obtain ⟨w, rfl⟩ := hadvance _ List.mem_cons_self
    obtain ⟨asked', marked', h'⟩ := h.advance hgrants hwritable w
    exact ih h' fun m hm => hadvance m (List.mem_cons_of_mem _ hm)

omit [Remote ρ] in
theorem Taking.one (h : c.Taking url total k₀ session asked marked) (hfin : c.finished = true) :
    asked.length = 1 := by
  obtain ⟨a, ha, hasked⟩ := h.alone
  have hstopped :=
    h.unhindered.stopped_of_finished hfin a (by rw [ha]; exact List.mem_singleton_self a)
  rw [hasked, hstopped]
  rfl

end Crew

end RangeTransfer
