import RangeTransfer.Proofs.Attempt.Accounts
import RangeTransfer.Proofs.Sink.Completion
import RangeTransfer.Proofs.Sink.Writable
/-!
# The whole object or the rest of it

A lone worker stores the ranges of its plan in order, each at its own offset. When it gets the whole
object in answer to a range, it stores that at the start instead, and accounts for everything at once. This
leaves what storing all the ranges that were left would have left (`sameEnd_of_resumed`): the books are in
order up to the end either way, and the files have the same bytes, because both complete the object. Only
the status is another one. A sink that takes every write lets a worker come to both ends.
-/

namespace RangeTransfer

/-! ## Books in order -/

namespace Tracker

/-- The tracker with `plan`, after the bytes below `n` were accounted for in order, the last ones with the
status `code`. -/
def upTo (t : Tracker) (plan : Plan) (n code : Nat) : Tracker :=
  { t with plan, error := none, watermark := .new n, completed := n - t.resume, code }

variable {t : Tracker} {q : Plan} {code : Nat} {p : Progress}

theorem new_eq_upTo (url : String) (resume total chunk : Nat) :
    new url resume total chunk =
      (new url resume total chunk).upTo (.new resume total chunk) resume 0 := by
  rw [upTo, show (new url resume total chunk).resume = resume from rfl, Nat.sub_self]
  rfl

theorem recordWritten_upTo {r : ByteRange} (hle : t.resume ≤ r.first) (hfit : r.pastEnd < Offset.limit)
    (status : Nat) : (t.upTo q r.first code).recordWritten p r status =
      .ok (t.upTo q r.pastEnd status, p.advanceTo r.pastEnd) := by
  have hlt := r.first_lt_pastEnd
  have hcount : Offset.addWrapped (r.first - t.resume) r.length = r.pastEnd - t.resume := by
    rw [Offset.addWrapped, r.length_eq, Nat.mod_eq_of_lt (by omega)]
    omega
  simp only [recordWritten, mark, count, upTo, Watermark.complete, Watermark.new, Watermark.absorb, bind,
    Except.bind, pure, Except.pure, r.pastEndChecked_eq hfit, r.lengthChecked_eq hfit,
    if_neg (Nat.lt_irrefl _), Nat.max_eq_right (Nat.le_of_lt hlt), hcount]

/-- Accounting for the whole object leaves what accounting for all of it in order leaves. -/
theorem recordWhole_upTo {n : Nat} (hle : t.resume ≤ n) (hn : n ≤ t.total) (hlt : t.resume < t.total)
    (hfit : t.total < Offset.limit) (status : Nat) : (t.upTo q n code).recordWhole p status =
      .ok (t.upTo q.exhaust t.total status, p.advanceTo t.total) := by
  have hmake : ByteRange.make t.resume (t.total - 1) = .ok (.upTo t.resume t.total hlt) :=
    ByteRange.make_eq_ok (by omega)
  have hpast : (ByteRange.upTo t.resume t.total hlt).pastEndChecked = .ok t.total := by
    rw [ByteRange.pastEndChecked_eq] <;> rw [ByteRange.upTo_pastEnd]
    exact hfit
  simp only [recordWhole, markRest, mark, upTo, Watermark.complete, Watermark.new, Watermark.absorb, bind,
    Except.bind, pure, Except.pure, if_pos hlt, hmake, hpast, ByteRange.upTo_first,
    if_neg (Nat.not_lt.mpr hle), Nat.max_eq_right hn]

end Tracker

namespace Plan

/-- The plan after `n` further ranges, or after all of them if there are fewer. -/
def skip : Nat → Plan → Plan
  | 0, p => p
  | n + 1, p => if p.next < p.total then skip n p.rest else p

variable {p : Plan}

theorem ranges_skip (hfit : p.total < Offset.limit) (n : Nat) : (p.skip n).ranges = p.ranges.drop n := by
  induction n generalizing p with
  | zero => rfl
  | succ n ih =>
    rw [skip]
    split
    · rename_i hlt
      rw [ih (p := p.rest) hfit, ranges_of_lt hlt hfit, List.drop_succ_cons]
    · rename_i hge
      rw [ranges_of_le (Nat.not_lt.mp hge), List.drop_nil]

theorem exhaust_of_le (h : p.total ≤ p.next) : p.exhaust = p := by
  rw [exhaust, Nat.max_eq_left h]

theorem exhaust_rest (h : p.next ≤ p.total) : p.rest.exhaust = p.exhaust := by
  have hend : p.rest.next ≤ p.rest.total := Nat.min_le_right _ _
  rw [exhaust, exhaust, Nat.max_eq_right hend, Nat.max_eq_right h]
  rfl

theorem skip_eq_exhaust {n : Nat} (hle : p.next ≤ p.total) (hn : p.remaining ≤ n) :
    p.skip n = p.exhaust := by
  induction n generalizing p with
  | zero => exact (exhaust_of_le (Nat.sub_eq_zero_iff_le.mp (Nat.le_zero.mp hn))).symm
  | succ n ih =>
    rw [skip]
    split
    · rename_i hlt
      have hrest := remaining_rest hlt
      rw [ih (p := p.rest) (Nat.min_le_right _ _) (by omega), exhaust_rest hle]
    · rename_i hge
      exact (exhaust_of_le (Nat.not_lt.mp hge)).symm

theorem ranges_take_remaining (hle : p.next ≤ p.total) (hfit : p.total < Offset.limit) :
    p.ranges.take p.remaining = p.ranges := by
  have hdrop := ranges_skip hfit p.remaining
  rw [skip_eq_exhaust hle (Nat.le_refl _), ranges_of_le (Nat.le_max_right _ _)] at hdrop
  exact List.take_of_length_le (List.drop_eq_nil_iff.mp hdrop.symm)

end Plan

/-- The plan `q` is for what the attempt of `t` lacks, or for the last part of it. -/
structure Tracker.Plans (t : Tracker) (q : Plan) : Prop where
  total : q.total = t.total
  resume_le : t.resume ≤ q.next
  next_le : q.next ≤ q.total

namespace Tracker.Plans

variable {t : Tracker} {q : Plan}

theorem rest (h : t.Plans q) (hlt : q.next < q.total) : t.Plans q.rest where
  total := h.total
  resume_le := Nat.le_trans h.resume_le (Nat.le_of_lt (Plan.lt_nextEnd hlt))
  next_le := Nat.min_le_right _ _

theorem skip (h : t.Plans q) (n : Nat) : t.Plans (q.skip n) := by
  induction n generalizing q with
  | zero => exact h
  | succ n ih =>
    rw [Plan.skip]
    split
    · rename_i hlt
      exact ih (h.rest hlt)
    · exact h

end Tracker.Plans

/-! ## A lone worker -/

/-- What a lone worker has to do with: the books, the byte counter of the caller, and the sink. -/
structure Account where
  tracker : Tracker
  progress : Progress
  sink : Sink

namespace Account

/-- Writes `data` at `offset`, and accounts for it by `record`. -/
def store (offset : Nat) (data : ByteArray)
    (record : Tracker → Progress → Except Abort (Tracker × Progress)) (a : Account) : Except Halt Account :=
  match a.sink.write offset data with
  | (.error halt, _) => .error halt
  | (.ok (), sink) =>
    match record a.tracker a.progress with
    | .error abort => .error (.aborted abort)
    | .ok (tracker, progress) => .ok ⟨tracker, progress, sink⟩

variable (object : ByteArray)

/-- Stores the bytes of `r` at their offset. -/
def storeRange (r : ByteRange) : Account → Except Halt Account :=
  store r.first (object.extract r.first r.pastEnd) fun t p => t.recordWritten p r Tracker.statusPartial

/-- Stores the whole object at its start. -/
def storeWhole : Account → Except Halt Account :=
  store 0 object fun t p => t.recordWhole p Tracker.statusWhole

/-- Claims and stores up to `n` ranges, one after the other. -/
def fetch : Nat → Account → Except Halt Account
  | 0, a => .ok a
  | n + 1, a =>
    match a.tracker.claim with
    | .error abort => .error (.aborted abort)
    | .ok (none, tracker) => .ok { a with tracker }
    | .ok (some r, tracker) => do fetch n (← storeRange object r { a with tracker })

/-- The bytes of each range, with their offset. -/
def pieces (rs : List ByteRange) : List (Nat × ByteArray) :=
  rs.map fun r => (r.first, object.extract r.first r.pastEnd)

variable {object} {t : Tracker} {q : Plan} {code : Nat} {p : Progress} {k k' : Sink} {a b : Account}

theorem exists_write {offset : Nat} {data : ByteArray} {next : Sink → Except Halt Account}
    (h : (match k.write offset data with
      | (.error halt, _) => Except.error halt
      | (.ok (), k') => next k') = .ok b) :
    ∃ k', k.write offset data = (.ok (), k') ∧ next k' = .ok b := by
  split at h
  · cases h
  · rename_i k' hwrite
    exact ⟨k', hwrite, h⟩

theorem storeRange_upTo {r : ByteRange} (hle : t.resume ≤ r.first) (hfit : r.pastEnd < Offset.limit) :
    storeRange object r ⟨t.upTo q r.first code, p, k⟩ =
      match k.write r.first (object.extract r.first r.pastEnd) with
      | (.error halt, _) => .error halt
      | (.ok (), k') => .ok ⟨t.upTo q r.pastEnd Tracker.statusPartial, p.advanceTo r.pastEnd, k'⟩ := by
  rw [storeRange, store]
  simp only [Tracker.recordWritten_upTo hle hfit]

theorem storeRange_next {q' : Plan} (hlt : q.next < q.total) (hfit : q.total < Offset.limit)
    (hle : t.resume ≤ q.next) :
    storeRange object (.upTo _ _ (Plan.lt_nextEnd hlt)) ⟨t.upTo q' q.next code, p, k⟩ =
      match k.write q.next (object.extract q.next q.nextEnd) with
      | (.error halt, _) => .error halt
      | (.ok (), k') => .ok ⟨t.upTo q' q.nextEnd Tracker.statusPartial, p.advanceTo q.nextEnd, k'⟩ := by
  have hend : q.nextEnd < Offset.limit := Nat.lt_of_le_of_lt (Nat.min_le_right _ _) hfit
  have hstore : storeRange object (.upTo _ _ (Plan.lt_nextEnd hlt)) ⟨t.upTo q' q.next code, p, k⟩ = _ :=
    storeRange_upTo hle (by rwa [ByteRange.upTo_pastEnd])
  rwa [ByteRange.upTo_first, ByteRange.upTo_pastEnd] at hstore

theorem storeWhole_upTo {n : Nat} (hle : t.resume ≤ n) (hn : n ≤ t.total) (hlt : t.resume < t.total)
    (hfit : t.total < Offset.limit) :
    storeWhole object ⟨t.upTo q n code, p, k⟩ =
      match k.write 0 object with
      | (.error halt, _) => .error halt
      | (.ok (), k') => .ok ⟨t.upTo q.exhaust t.total Tracker.statusWhole, p.advanceTo t.total, k'⟩ := by
  rw [storeWhole, store]
  simp only [Tracker.recordWhole_upTo hle hn hlt hfit]

theorem claim_upTo {n : Nat} (hlt : q.next < q.total) (hfit : q.total < Offset.limit) :
    (t.upTo q n code).claim = .ok (some (.upTo _ _ (Plan.lt_nextEnd hlt)), t.upTo q.rest n code) :=
  Tracker.claim_of_lt rfl hlt hfit

theorem fetch_of_le (hge : q.total ≤ q.next) (n : Nat) :
    fetch object n ⟨t.upTo q q.next code, p, k⟩ = .ok ⟨t.upTo q q.next code, p, k⟩ := by
  cases n with
  | zero => rfl
  | succ n => rw [fetch, Tracker.claim_of_le (t := t.upTo q q.next code) hge]

theorem fetch_of_lt (hlt : q.next < q.total) (hfit : q.total < Offset.limit) (hle : t.resume ≤ q.next)
    (n : Nat) : fetch object (n + 1) ⟨t.upTo q q.next code, p, k⟩ =
      match k.write q.next (object.extract q.next q.nextEnd) with
      | (.error halt, _) => .error halt
      | (.ok (), k') => fetch object n
          ⟨t.upTo q.rest q.rest.next Tracker.statusPartial, p.advanceTo q.nextEnd, k'⟩ := by
  rw [fetch, claim_upTo hlt hfit]
  simp only [storeRange_next hlt hfit hle]
  cases k.write q.next (object.extract q.next q.nextEnd) with
  | mk result k' => cases result <;> rfl

theorem advanceTo_advanceTo {m n : Nat} (h : m ≤ n) : (p.advanceTo m).advanceTo n = p.advanceTo n := by
  simp only [Progress.advanceTo, Nat.max_assoc, Nat.max_eq_right h]

/-- Fetching is writing the bytes of the next ranges, and leaves the books in order. Once a range was
recorded, status and progress are those of the last one. -/
theorem fetch_spec {n : Nat} (hq : t.Plans q) (hfit : q.total < Offset.limit)
    (hok : fetch object n ⟨t.upTo q q.next code, p, k⟩ = .ok b) :
    k.writeAll (pieces object (q.ranges.take n)) = (.ok (), b.sink) ∧
    ∃ code', b.tracker = t.upTo (q.skip n) (q.skip n).next code' ∧
      ∀ p₀ : Progress, code = Tracker.statusPartial → p = p₀.advanceTo q.next →
        code' = Tracker.statusPartial ∧ b.progress = p₀.advanceTo (q.skip n).next := by
  induction n generalizing q code p k with
  | zero =>
    cases hok
    exact ⟨rfl, code, rfl, fun p₀ hcode hp => ⟨hcode, hp⟩⟩
  | succ n ih =>
    rw [Plan.skip]
    by_cases hlt : q.next < q.total
    · rw [fetch_of_lt hlt hfit hq.resume_le] at hok
      obtain ⟨k', hwrite, hrest⟩ := exists_write hok
      obtain ⟨hwrites, code', hb, hrecorded⟩ := ih (hq.rest hlt) hfit hrest
      rw [if_pos hlt, Plan.ranges_of_lt hlt hfit, List.take_succ_cons, pieces, List.map_cons, Sink.writeAll,
        ByteRange.upTo_first, ByteRange.upTo_pastEnd, hwrite]
      refine ⟨hwrites, code', hb, fun p₀ _ hp => hrecorded p₀ rfl ?_⟩
      rw [hp, advanceTo_advanceTo (Nat.le_of_lt (Plan.lt_nextEnd hlt))]
      rfl
    · rw [fetch_of_le (Nat.not_lt.mp hlt)] at hok
      cases hok
      rw [if_neg hlt, Plan.ranges_of_le (Nat.not_lt.mp hlt), List.take_nil]
      exact ⟨rfl, code, rfl, fun p₀ hcode hp => ⟨hcode, hp⟩⟩

theorem exists_fetch (n code : Nat) (p : Progress) (hq : t.Plans q) (hfit : q.total < Offset.limit)
    (hsize : object.size = q.total) (hsound : k.Sound) (hwritable : k.Writable object.size) :
    ∃ b, fetch object n ⟨t.upTo q q.next code, p, k⟩ = .ok b ∧ b.sink.Sound ∧
      b.sink.Writable object.size := by
  induction n generalizing q code p k with
  | zero => exact ⟨_, rfl, hsound, hwritable⟩
  | succ n ih =>
    by_cases hlt : q.next < q.total
    · have hle : q.nextEnd ≤ q.total := Nat.min_le_right _ _
      obtain ⟨k', hwrite, hsound', hwritable'⟩ := hwritable.write hsound q.next
        (object.extract q.next q.nextEnd) (by rw [ByteArray.size_extract]; omega)
      rw [fetch_of_lt hlt hfit hq.resume_le, hwrite]
      exact ih _ _ (hq.rest hlt) hfit hsize hsound' hwritable'
    · exact ⟨_, fetch_of_le (Nat.not_lt.mp hlt) _, hsound, hwritable⟩

/-! ### Bytes on disk -/

theorem completes_of_pieces {resume : Nat} {rs : List ByteRange} {writes : List (Nat × ByteArray)}
    (hheld : Agrees (IsByte object) k.byteAt 0 resume) (hrs : ∀ r ∈ rs, r.pastEnd ≤ object.size)
    (hwrites : ∀ w ∈ writes, w ∈ pieces object rs ∨ w = (0, object))
    (hcovers : ∀ o, resume ≤ o → o < object.size → Written writes o) : Sink.Completes object k writes where
  good w hw := by
    rcases hwrites w hw with hpiece | rfl
    · obtain ⟨r, -, rfl⟩ := List.mem_map.mp hpiece
      exact goodAt_extract object r.first r.pastEnd
    · have hgood := goodAt_extract object 0 object.size
      rwa [ByteArray.extract_zero_size] at hgood
  within w hw := by
    rcases hwrites w hw with hpiece | rfl
    · obtain ⟨r, hr, rfl⟩ := List.mem_map.mp hpiece
      have hpast := hrs r hr
      have hlt := r.first_lt_pastEnd
      simp only [ByteArray.size_extract]
      omega
    · exact Nat.le_of_eq (Nat.zero_add _)
  covers o ho := by
    by_cases hlow : o < resume
    · exact Or.inr (hheld o (Nat.zero_le o) hlow)
    · exact Or.inl (hcovers o (Nat.not_lt.mp hlow) ho)

theorem written_pieces {rs : List ByteRange} (hrs : ∀ r ∈ rs, r.pastEnd ≤ object.size) {o : Nat}
    (ho : ∃ r ∈ rs, r.Has o) : Written (pieces object rs) o := by
  obtain ⟨r, hr, hlow, hhigh⟩ := ho
  have hpast := hrs r hr
  refine ⟨_, List.mem_map_of_mem hr, hlow, ?_⟩
  simp only [ByteArray.size_extract]
  omega

end Account

/-! ### The steps of a worker -/

def Shared.account {ρ : Type} (x : Shared ρ Sink) : Account := ⟨x.tracker, x.session.progress, x.sink⟩

def Shared.withAccount {ρ : Type} (x : Shared ρ Sink) (a : Account) : Shared ρ Sink :=
  ⟨{ x.session with progress := a.progress }, a.sink, a.tracker⟩

namespace Stage

variable {ρ : Type} [Remote ρ] {object : ByteArray} {r : ByteRange} {x : Shared ρ Sink} {a : Account}

/-- `n` steps of the worker, with nobody else's between them. -/
def advanceTimes (rules : WorkerRules) (connection : Nat) :
    Nat → Stage → Shared ρ Sink → Stage × Shared ρ Sink
  | 0, stage, x => (stage, x)
  | n + 1, stage, x =>
    let (stage, x) := stage.advance rules connection x
    advanceTimes rules connection n stage x

theorem advanceTimes_storeRange (rules : WorkerRules) (connection : Nat)
    (h : Account.storeRange object r x.account = .ok a) :
    advanceTimes rules connection 4 (.holding r (.part (object.extract r.first r.pastEnd))) x =
      (.seeking, x.withAccount a) := by
  simp only [Account.storeRange, Account.store, Shared.account, Tracker.recordWritten, bind, Except.bind, pure,
    Except.pure] at h
  cases hwrite : x.sink.write r.first (object.extract r.first r.pastEnd) with
  | mk result sink =>
    simp only [hwrite] at h
    cases result with
    | error halt => cases h
    | ok _ =>
      cases hmark : x.tracker.mark r with
      | error abort => simp only [hmark] at h; cases h
      | ok marked =>
        simp only [hmark] at h
        cases hcount : marked.count r Tracker.statusPartial with
        | error abort => simp only [hcount] at h; cases h
        | ok counted =>
          simp only [hcount] at h
          cases h
          simp only [advanceTimes, advance, RangeSink.write, hwrite, afterWrite, hmark, hcount]
          rfl

theorem advanceTimes_storeWhole (rules : WorkerRules) (connection : Nat)
    (h : Account.storeWhole object x.account = .ok a) :
    advanceTimes rules connection 2 (.holding r (.whole object)) x = (.stopped, x.withAccount a) := by
  simp only [Account.storeWhole, Account.store, Shared.account] at h
  cases hwrite : x.sink.write 0 object with
  | mk result sink =>
    simp only [hwrite] at h
    cases result with
    | error halt => cases h
    | ok _ =>
      cases hrecord : x.tracker.recordWhole x.session.progress Tracker.statusWhole with
      | error abort => simp only [hrecord] at h; cases h
      | ok recorded =>
        simp only [hrecord] at h
        cases h
        simp only [advanceTimes, advance, RangeSink.write, hwrite, afterWrite, hrecord]
        rfl

end Stage

/-! ## The two ways to the end -/

/-- An attempt from `resume` that has every one of the `total` bytes. -/
structure Ended (resume total : Nat) (t : Tracker) : Prop where
  claim : t.claim = .ok (none, t)
  persisted : t.persisted = total
  completed : t.completed = total - resume
  isComplete : t.isComplete = .ok true

theorem Tracker.ended_upTo {t : Tracker} {q : Plan} {code : Nat} (hend : q.total ≤ q.next)
    (hle : t.resume ≤ t.total) (hfit : t.total < Offset.limit) :
    Ended t.resume t.total (t.upTo q t.total code) where
  claim := claim_of_le hend
  persisted := rfl
  completed := rfl
  isComplete := by
    have hsum : t.resume + (t.total - t.resume) = t.total := Nat.add_sub_cancel' hle
    have hend : (t.upTo q t.total code).writtenEnd = .ok t.total := by
      change Offset.add t.resume (t.total - t.resume) = _
      rw [Offset.add_eq_ok (by rwa [hsum]), hsum]
    rw [isComplete, hend]
    exact congrArg Except.ok (decide_eq_true (Nat.le_refl _))

/-- Storing the whole object, with `whole`, and storing the ranges that are left, with `rest`, have come
to the same end, but for the status. -/
structure SameEnd (resume total : Nat) (whole rest : Account) : Prop where
  whole_ended : Ended resume total whole.tracker
  rest_ended : Ended resume total rest.tracker
  code : rest.tracker.code = Tracker.statusPartial
  tracker : whole.tracker = { rest.tracker with code := Tracker.statusWhole }
  progress : whole.progress = rest.progress
  disk : whole.sink.disk = rest.sink.disk

namespace Account

variable {object : ByteArray} {t : Tracker} {q : Plan} {code : Nat} {p : Progress} {k : Sink}
  {r : ByteRange} {a b c w : Account}

theorem storeWhole_spec (hq : t.Plans q) (hresume : t.resume < t.total) (hfit : t.total < Offset.limit)
    (hok : storeWhole object ⟨t.upTo q.rest q.next code, p, k⟩ = .ok w) :
    k.writeAll [(0, object)] = (.ok (), w.sink) ∧
      w.tracker = t.upTo q.exhaust t.total Tracker.statusWhole ∧ w.progress = p.advanceTo t.total := by
  rw [storeWhole_upTo hq.resume_le (hq.total ▸ hq.next_le) hresume hfit] at hok
  obtain ⟨k', hwrite, hw⟩ := exists_write hok
  cases hw
  rw [Sink.writeAll, hwrite]
  exact ⟨rfl, by rw [Plan.exhaust_rest hq.next_le], rfl⟩

theorem storeRest_spec (hq : t.Plans q) (hlt : q.next < q.total) (hfit : q.total < Offset.limit)
    (hb : storeRange object (.upTo _ _ (Plan.lt_nextEnd hlt)) ⟨t.upTo q.rest q.next code, p, k⟩ = .ok b)
    (hc : fetch object b.tracker.plan.remaining b = .ok c) :
    k.writeAll (pieces object q.ranges) = (.ok (), c.sink) ∧
      c.tracker = t.upTo q.exhaust t.total Tracker.statusPartial ∧ c.progress = p.advanceTo t.total := by
  have hq' := hq.rest hlt
  rw [storeRange_next hlt hfit hq.resume_le] at hb
  obtain ⟨k', hwrite, hstored⟩ := exists_write hb
  cases hstored
  obtain ⟨hwrites, code', htracker, hrecorded⟩ :=
    fetch_spec (n := q.rest.remaining) (q := q.rest) hq' hfit hc
  obtain ⟨rfl, hprogress⟩ := hrecorded p rfl rfl
  have hskip : q.rest.skip q.rest.remaining = q.exhaust :=
    (Plan.skip_eq_exhaust hq'.next_le (Nat.le_refl _)).trans (Plan.exhaust_rest hq.next_le)
  have hnext : q.exhaust.next = t.total := (Nat.max_eq_right hq.next_le).trans hq.total
  rw [Plan.ranges_take_remaining hq'.next_le hfit] at hwrites
  rw [hskip, hnext] at htracker hprogress
  rw [Plan.ranges_of_lt hlt hfit, pieces, List.map_cons, Sink.writeAll, ByteRange.upTo_first,
    ByteRange.upTo_pastEnd, hwrite]
  exact ⟨hwrites, htracker, hprogress⟩

end Account

section Ways

variable {url : String} {resume chunk : Nat} {object : ByteArray} {progress : Progress} {sink : Sink}

/-- An attempt at an object of which the sink holds the first `resume` bytes. -/
structure Resumed (object : ByteArray) (resume : Nat) (sink : Sink) : Prop where
  lt : resume < object.size
  fit : object.size < Offset.limit
  sound : sink.Sound
  held : Agrees (IsByte object) sink.byteAt 0 resume

theorem Resumed.plans (h : Resumed object resume sink) (url : String) (chunk : Nat) :
    (Tracker.new url resume object.size chunk).Plans (.new resume object.size chunk) :=
  ⟨rfl, Nat.le_refl _, Nat.le_of_lt h.lt⟩

open Account

theorem claimed_of_fetch {k : Nat} {a : Account} {r : ByteRange} {t : Tracker}
    (h : Resumed object resume sink)
    (ha : fetch object k ⟨.new url resume object.size chunk, progress, sink⟩ = .ok a)
    (hclaim : a.tracker.claim = .ok (some r, t)) :
    ∃ (q : Plan) (code : Nat) (hlt : q.next < q.total),
      (Tracker.new url resume object.size chunk).Plans q ∧
      q.ranges = (Plan.new resume object.size chunk).ranges.drop k ∧
      sink.writeAll (pieces object ((Plan.new resume object.size chunk).ranges.take k)) = (.ok (), a.sink) ∧
      r = .upTo _ _ (Plan.lt_nextEnd hlt) ∧
      t = (Tracker.new url resume object.size chunk).upTo q.rest q.next code := by
  rw [Tracker.new_eq_upTo] at ha
  obtain ⟨hwrites, code, htracker, -⟩ := fetch_spec (h.plans url chunk) h.fit ha
  have hq := (h.plans url chunk).skip k
  have hranges := Plan.ranges_skip (p := .new resume object.size chunk) h.fit k
  rw [htracker] at hclaim
  generalize (Plan.new resume object.size chunk).skip k = q at hclaim hq hranges
  have hlt : q.next < q.total := (Tracker.claim_some hclaim).2.1
  rw [claim_upTo hlt (hq.total ▸ h.fit)] at hclaim
  cases hclaim
  exact ⟨_, code, hlt, hq, hranges, hwrites, rfl, rfl⟩

theorem exists_ends {k : Nat} (h : Resumed object resume sink) (hwritable : sink.Writable object.size)
    (hk : k < (Plan.new resume object.size chunk).ranges.length) :
    ∃ a r t w b c, fetch object k ⟨.new url resume object.size chunk, progress, sink⟩ = .ok a ∧
      a.tracker.claim = .ok (some r, t) ∧ storeWhole object { a with tracker := t } = .ok w ∧
      storeRange object r { a with tracker := t } = .ok b ∧
      fetch object b.tracker.plan.remaining b = .ok c := by
  have hplans := h.plans url chunk
  obtain ⟨a, ha, hsound, hwritable⟩ :=
    exists_fetch k 0 progress hplans h.fit rfl h.sound hwritable
  obtain ⟨-, code, htracker, -⟩ := fetch_spec hplans h.fit ha
  have hq := hplans.skip k
  have hranges := Plan.ranges_skip (p := .new resume object.size chunk) h.fit k
  generalize (Plan.new resume object.size chunk).skip k = q at htracker hq hranges
  have hfit : q.total < Offset.limit := hq.total ▸ h.fit
  have hlt : q.next < q.total := Nat.lt_of_not_le fun hge => by
    rw [Plan.ranges_of_le hge] at hranges
    exact absurd (List.drop_eq_nil_iff.mp hranges.symm) (Nat.not_le.mpr hk)
  have hq' := hq.rest hlt
  have hnext : q.next < object.size := Nat.lt_of_lt_of_eq hlt hq.total
  obtain ⟨tracker, p, sink'⟩ := a
  obtain rfl : tracker = _ := htracker
  obtain ⟨kw, hwhole, -, -⟩ := hwritable.write hsound 0 object (by omega)
  obtain ⟨kb, hpiece, hsoundb, hwritableb⟩ := hwritable.write hsound q.next
    (object.extract q.next q.nextEnd) (by rw [ByteArray.size_extract]; omega)
  obtain ⟨c, hc, -, -⟩ := exists_fetch q.rest.remaining Tracker.statusPartial (p.advanceTo q.nextEnd)
    hq' hfit hq.total.symm hsoundb hwritableb
  have hfetch := ha
  rw [show (Plan.new resume object.size chunk).next = resume from rfl,
    ← Tracker.new_eq_upTo url resume object.size chunk] at hfetch
  have hb : storeRange object _ ⟨Tracker.upTo _ q.rest q.next code, p, sink'⟩ = _ :=
    storeRange_next hlt hfit hq.resume_le
  have hw : storeWhole object ⟨Tracker.upTo _ q.rest q.next code, p, sink'⟩ = _ :=
    storeWhole_upTo hq.resume_le (Nat.le_of_lt hnext) h.lt h.fit
  rw [hpiece] at hb
  rw [hwhole] at hw
  exact ⟨_, _, _, _, _, c, hfetch, claim_upTo hlt hfit, hw, hb, hc⟩

/-- A lone worker that gets the whole object in answer to any of its ranges ends like one that
stores this range and all others: the same books, byte counter and bytes on disk. Only the status
tells them apart. -/
theorem sameEnd_of_resumed (url : String) (chunk : Nat) (progress : Progress)
    (h : Resumed object resume sink) :
    let start : Account := ⟨.new url resume object.size chunk, progress, sink⟩
    (∀ k a r t w b c, start.fetch object k = .ok a → a.tracker.claim = .ok (some r, t) →
      storeWhole object { a with tracker := t } = .ok w → storeRange object r { a with tracker := t } = .ok b →
      fetch object b.tracker.plan.remaining b = .ok c → SameEnd resume object.size w c) ∧
    (sink.Writable object.size → ∀ k < (Plan.new resume object.size chunk).ranges.length,
      ∃ a r t w b c, start.fetch object k = .ok a ∧ a.tracker.claim = .ok (some r, t) ∧
        storeWhole object { a with tracker := t } = .ok w ∧
        storeRange object r { a with tracker := t } = .ok b ∧
        fetch object b.tracker.plan.remaining b = .ok c) := by
  intro start
  have hplanned := Plan.consecutive_new chunk (Nat.le_of_lt h.lt) h.fit
  generalize hrs : (Plan.new resume object.size chunk).ranges = rs at hplanned ⊢
  have hbounds (r : ByteRange) (hr : r ∈ rs) : r.pastEnd ≤ object.size := (hplanned.bounds hr).2
  refine ⟨fun k a r t w b c ha hclaim hw hb hc => ?_, fun hwritable k hk => ?_⟩
  · obtain ⟨q, code, hlt, hq, hranges, hwrites, rfl, rfl⟩ := claimed_of_fetch h ha hclaim
    have hfit : q.total < Offset.limit := hq.total ▸ h.fit
    obtain ⟨hwhole, hwt, hwp⟩ := storeWhole_spec hq h.lt h.fit hw
    obtain ⟨hrest, hct, hcp⟩ := storeRest_spec hq hlt hfit hb hc
    rw [hrs] at hranges hwrites
    have hended (status : Nat) : Ended resume object.size
        ((Tracker.new url resume object.size chunk).upTo q.exhaust object.size status) :=
      Tracker.ended_upTo (t := .new url resume object.size chunk) (Nat.le_max_right _ _)
        (Nat.le_of_lt h.lt) h.fit
    refine
      { whole_ended := hwt ▸ hended _
        rest_ended := hct ▸ hended _
        code := by rw [hct]; rfl
        tracker := by rw [hwt, hct]; rfl
        progress := by rw [hwp, hcp]
        disk := ?_ }
    rw [← Sink.writeAll_append hwrites] at hwhole hrest
    rw [pieces, pieces, ← List.map_append, hranges, List.take_append_drop] at hrest
    have hcompletes : Sink.Completes object sink (pieces object (rs.take k) ++ [(0, object)]) := by
      refine completes_of_pieces h.held hbounds (fun v hv => ?_) fun o _ ho => ?_
      · rcases List.mem_append.mp hv with hpiece | hlast
        · exact Or.inl (List.map_subset _ (List.take_subset k rs) hpiece)
        · exact Or.inr (List.mem_singleton.mp hlast)
      · exact ⟨(0, object), List.mem_append_right _ List.mem_cons_self, Nat.zero_le o,
          Nat.lt_of_lt_of_eq ho (Nat.zero_add _).symm⟩
    have hcompletes' : Sink.Completes object sink (pieces object rs) :=
      completes_of_pieces h.held hbounds (fun v hv => Or.inl hv) fun o hlow ho =>
        written_pieces hbounds (hplanned.exists_has hlow ho)
    exact Sink.disk_eq_of_completes h.sound hcompletes hcompletes' hwhole hrest
  · exact exists_ends h hwritable (hrs ▸ hk)

/-- A file of six bytes, and the directory in which it is to be stored in parts of four bytes. -/
abbrev sixBytes : ByteArray := ⟨#[1, 2, 3, 4, 5, 6]⟩

abbrev madeQuarters : Sink := ⟨.split ⟨quarters, none⟩, (SplitSink.openAt (.fresh []) quarters 0).2⟩

theorem writable_madeQuarters : madeQuarters.Sound ∧ madeQuarters.Writable 6 := by
  have hopen : SplitSink.openAt (.fresh []) quarters 0 = (.ok ⟨quarters, none⟩, madeQuarters.store) := by
    rfl
  have hplace : quarters.At madeQuarters.store [[100]] := by rfl
  obtain ⟨-, d, hd, -⟩ := SplitSink.openAt_of_absent (Store.wellFormed_fresh []) hopen fun d hd => by
    rw [hd.inj hplace]
    rfl
  obtain rfl := hd.here.inj hplace
  exact ⟨⟨_, hd⟩, Sink.writable_split hd (SplitLayout.free_of_lt 2 (by decide) (by decide +kernel))
    (by decide) (by decide)⟩

theorem sameEnd_of_resumed_sixBytes : Resumed sixBytes 0 madeQuarters ∧ madeQuarters.Writable 6 ∧
    ∃ a r t w b c,
      fetch sixBytes 1 ⟨.new "u" 0 6 2, .fresh, madeQuarters⟩ = .ok a ∧ a.tracker.claim = .ok (some r, t) ∧
      storeWhole sixBytes { a with tracker := t } = .ok w ∧
      storeRange sixBytes r { a with tracker := t } = .ok b ∧
      fetch sixBytes b.tracker.plan.remaining b = .ok c ∧ SameEnd 0 6 w c := by
  obtain ⟨hsound, hwritable⟩ := writable_madeQuarters
  have hresumed : Resumed sixBytes 0 madeQuarters :=
    ⟨by decide, by decide, hsound, fun o _ h => absurd h (Nat.not_lt_zero o)⟩
  obtain ⟨hsame, hends⟩ := sameEnd_of_resumed "u" 2 .fresh hresumed
  obtain ⟨a, r, t, w, b, c, ha, hr, hw, hb, hc⟩ := hends hwritable 1 (by decide)
  exact ⟨hresumed, hwritable, a, r, t, w, b, c, ha, hr, hw, hb, hc, hsame 1 a r t w b c ha hr hw hb hc⟩

end Ways

end RangeTransfer
