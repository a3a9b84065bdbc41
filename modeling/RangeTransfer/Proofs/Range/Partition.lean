import RangeTransfer.Proofs.Range.Plan
/-!
# Plans partition what is left of an object

A plan hands out as many ranges as chunks fit the bytes that are left, rounded up (`length_ranges`),
all of them full chunks but perhaps the last one (`length_of_mem_dropLast`). `calls` asks a plan
again and again: it gives the ranges in order and then none for ever, and what it has given and what
remains always make up what was left at the start (`calls_spec`).
-/

namespace RangeTransfer

theorem Consecutive.pairwise_le {a b : Nat} {rs : List ByteRange} (h : Consecutive a b rs) :
    rs.Pairwise fun r q => r.pastEnd ≤ q.first := by
  induction rs generalizing a with
  | nil => exact List.Pairwise.nil
  | cons r rs ih => exact List.pairwise_cons.mpr ⟨fun q hq => (h.2.bounds hq).1, ih h.2⟩

namespace Plan

variable {p : Plan}

/-- How many ranges a plan still hands out. -/
def left (p : Plan) : Nat := (p.remaining + (p.chunk - 1)) / p.chunk

theorem left_eq_succ (h : p.next < p.total) : p.left = p.rest.left + 1 := by
  have hpos := p.chunk_pos
  show (p.remaining + (p.chunk - 1)) / p.chunk = (p.rest.remaining + (p.chunk - 1)) / p.chunk + 1
  by_cases hmore : p.next + p.chunk ≤ p.total
  · have hsum : p.remaining + (p.chunk - 1) = p.rest.remaining + (p.chunk - 1) + p.chunk := by
      simp only [remaining, rest, nextEnd]; omega
    rw [hsum, Nat.add_div_right _ hpos]
  · have hnone : p.rest.remaining = 0 := by
      simp only [remaining, rest, nextEnd]; omega
    have hsum : p.remaining + (p.chunk - 1) = p.remaining - 1 + p.chunk := by
      simp only [remaining]; omega
    have hshort : p.remaining - 1 < p.chunk := by
      simp only [remaining]; omega
    rw [hsum, Nat.add_div_right _ hpos, Nat.div_eq_of_lt hshort, hnone,
      Nat.div_eq_of_lt (by omega)]

theorem left_rest (h : p.next < p.total) : p.rest.left < p.left := by
  have := left_eq_succ h
  omega

theorem left_of_le (h : p.total ≤ p.next) : p.left = 0 := by
  have := p.chunk_pos
  refine Nat.div_eq_of_lt ?_
  simp only [remaining]; omega

theorem left_exhaust (p : Plan) : p.exhaust.left = 0 := left_of_le (Nat.le_max_right _ _)

theorem length_ranges (p : Plan) (hfit : p.total < Offset.limit) : p.ranges.length = p.left := by
  induction p using induction_rest with
  | done p hle => rw [ranges_of_le hle, left_of_le hle]; rfl
  | more p hlt ih => rw [ranges_of_lt hlt hfit, List.length_cons, ih hfit, left_eq_succ hlt]

theorem length_of_mem_dropLast (hfit : p.total < Offset.limit) {r : ByteRange}
    (hr : r ∈ p.ranges.dropLast) : r.length = p.chunk := by
  induction p using induction_rest with
  | done p hle => rw [ranges_of_le hle] at hr; cases hr
  | more p hlt ih =>
    rw [ranges_of_lt hlt hfit] at hr
    by_cases hmore : p.nextEnd < p.total
    · -- another range follows, so this one was not cut at the end of the object
      have hnext : p.rest.ranges ≠ [] := by
        rw [ranges_of_lt (p := p.rest) hmore hfit]
        simp
      rw [List.dropLast_cons_of_ne_nil hnext] at hr
      rcases List.mem_cons.mp hr with rfl | hr
      · rw [ByteRange.length_eq, ByteRange.upTo_pastEnd, ByteRange.upTo_first]
        simp only [nextEnd] at hmore ⊢
        omega
      · exact ih hfit hr
    · rw [ranges_of_le (p := p.rest) (Nat.not_lt.mp hmore)] at hr
      cases hr

/-! ## Asking again and again -/

/-- What a plan gives when it is asked `n` times, and the plan after that. -/
def calls : Nat → Plan → Except Abort (List (Option ByteRange) × Plan)
  | 0, p => .ok ([], p)
  | n + 1, p => do
    let (r, q) ← p.take
    let (rest, q) ← calls n q
    return (r :: rest, q)

theorem calls_of_le (h : p.total ≤ p.next) (n : Nat) :
    p.calls n = .ok (List.replicate n none, p) := by
  induction n with
  | zero => rfl
  | succ n ih => simp only [calls, take_of_le h, bind, Except.bind, ih]; rfl

theorem calls_of_lt (h : p.next < p.total) (hfit : p.total < Offset.limit) (n : Nat) :
    p.calls (n + 1) = (p.rest.calls n).map
      fun x => (some (.upTo p.next p.nextEnd (lt_nextEnd h)) :: x.1, x.2) := by
  simp only [calls, take_of_lt h hfit, bind, Except.bind]
  cases p.rest.calls n <;> rfl

theorem calls_spec (p : Plan) (hfit : p.total < Offset.limit) (n : Nat) : ∃ q,
    p.calls n = .ok ((p.ranges.take n).map some ++ List.replicate (n - p.ranges.length) none, q) ∧
    q.remaining + totalLength (p.ranges.take n) = p.remaining ∧ q.ranges = p.ranges.drop n ∧
    q.total = p.total := by
  induction n generalizing p with
  | zero => exact ⟨p, by rw [Nat.zero_sub]; rfl, rfl, rfl, rfl⟩
  | succ n ih =>
    by_cases hlt : p.next < p.total
    · obtain ⟨q, hcalls, hsum, hranges, htotal⟩ := ih p.rest hfit
      have hlen : (ByteRange.upTo p.next p.nextEnd (lt_nextEnd hlt)).length = p.nextEnd - p.next := by
        rw [ByteRange.length_eq, ByteRange.upTo_pastEnd, ByteRange.upTo_first]
      have hends := lt_nextEnd hlt
      refine ⟨q, ?_, ?_, ?_, htotal⟩
      · rw [calls_of_lt hlt hfit, hcalls, ranges_of_lt hlt hfit, List.length_cons,
          Nat.add_sub_add_right]
        rfl
      · rw [ranges_of_lt hlt hfit, List.take_succ_cons, totalLength_cons, hlen]
        simp only [remaining, rest, nextEnd] at hsum hends ⊢
        omega
      · rw [hranges, ranges_of_lt hlt hfit, List.drop_succ_cons]
    · have hle := Nat.not_lt.mp hlt
      refine ⟨p, ?_, ?_, ?_, rfl⟩
      · rw [calls_of_le hle, ranges_of_le hle]
        rfl
      · rw [ranges_of_le hle]
        rfl
      · rw [ranges_of_le hle]
        rfl

theorem exhausted_iff : p.exhausted = true ↔ p.total ≤ p.next := decide_eq_true_iff

theorem exhausted_iff_take (hfit : p.total < Offset.limit) :
    p.exhausted = true ↔ p.take = .ok (none, p) := by
  rw [exhausted_iff]
  refine ⟨take_of_le, fun htake => Nat.not_lt.mp fun hlt => ?_⟩
  rw [take_of_lt hlt hfit] at htake
  cases htake

theorem exhausted_iff_ranges (hfit : p.total < Offset.limit) :
    p.exhausted = true ↔ p.ranges = [] := by
  rw [exhausted_iff]
  refine ⟨ranges_of_le, fun hnil => Nat.not_lt.mp fun hlt => ?_⟩
  rw [ranges_of_lt hlt hfit] at hnil
  cases hnil

/-- A plan partitions the bytes from the resume offset to the end of the object, whatever the offset
and the chunk, into as many ranges as chunks fit, rounded up. Asked again and again, it gives these
one by one and then none for ever, and never aborts. -/
theorem new_partitions (resume total chunk : Nat) (hfit : total < Offset.limit) :
    let plan := Plan.new resume total chunk
    let step := max chunk 1
    let count := if resume < total then (total - resume + (step - 1)) / step else 0
    plan.ranges.length = count ∧
    Consecutive resume (max resume total) plan.ranges ∧
    (plan.ranges.Pairwise fun r q => r.pastEnd ≤ q.first) ∧
    (∀ o, (∃ r ∈ plan.ranges, r.Has o) ↔ resume ≤ o ∧ o < total) ∧
    (∀ r ∈ plan.ranges.dropLast, r.length = step) ∧
    ∀ n, ∃ q, plan.calls n =
        .ok ((plan.ranges.take n).map some ++ List.replicate (n - count) none, q) ∧
      q.remaining + totalLength (plan.ranges.take n) = total - resume ∧
      (q.exhausted = true ↔ q.take = .ok (none, q)) ∧ (q.exhausted = true ↔ count ≤ n) ∧
      q.exhaust.exhausted = true ∧
      ∀ m, q.exhaust.calls m = .ok (List.replicate m none, q.exhaust) := by
  intro plan step count
  have hpos : 0 < step := Offset.pos_max_one chunk
  have hcount : plan.ranges.length = count := by
    show plan.ranges.length = if resume < total then _ else _
    rw [length_ranges plan hfit]
    split
    · rfl
    · rename_i hle
      exact left_of_le (Nat.not_lt.mp hle)
  have hconsecutive : Consecutive resume (max resume total) plan.ranges := by
    rcases Nat.le_total resume total with hle | hle
    · rw [Nat.max_eq_right hle]
      exact consecutive_new chunk hle hfit
    · rw [ranges_of_le (p := plan) hle, Nat.max_eq_left hle]
      rfl
  refine ⟨hcount, hconsecutive, hconsecutive.pairwise_le, fun o => ⟨?_, fun ⟨hlow, hhigh⟩ => ?_⟩,
    fun r hr => length_of_mem_dropLast (p := plan) hfit hr, fun n => ?_⟩
  · rintro ⟨r, hr, hfirst, hpast⟩
    have hbounds := hconsecutive.bounds hr
    omega
  · exact hconsecutive.exists_has hlow (Nat.lt_of_lt_of_le hhigh (Nat.le_max_right _ _))
  · obtain ⟨q, hcalls, hsum, hranges, htotal⟩ := plan.calls_spec hfit n
    have hqfit : q.total < Offset.limit := htotal ▸ hfit
    refine ⟨q, hcount ▸ hcalls, hsum, exhausted_iff_take hqfit, ?_,
      exhausted_iff.mpr (Nat.le_max_right _ _), calls_of_le (Nat.le_max_right _ _)⟩
    rw [exhausted_iff_ranges hqfit, hranges, List.drop_eq_nil_iff, hcount]

/-- The last ten bytes that an object can have, in chunks of four: the end of the third one would lie
past the last number. -/
theorem new_partitions_lastTen :
    let plan := Plan.new (Offset.limit - 11) (Offset.limit - 1) 4
    Offset.limit - 1 < Offset.limit ∧ plan.ranges.length = 3 ∧
    ∃ q, plan.calls 5 = .ok (plan.ranges.map some ++ [none, none], q) ∧ q.remaining = 0 := by
  intro plan
  have hfit : Offset.limit - 1 < Offset.limit := by decide
  obtain ⟨hlength, -, -, -, -, hcalls⟩ :=
    new_partitions (Offset.limit - 11) (Offset.limit - 1) 4 hfit
  have hthree : plan.ranges.length = 3 := hlength
  obtain ⟨q, hgiven, hsum, -⟩ := hcalls 5
  have hall : plan.ranges.take 5 = plan.ranges := List.take_of_length_le (by omega)
  have hten : totalLength plan.ranges = 10 := by decide
  rw [hall] at hgiven hsum
  refine ⟨hfit, hthree, q, hgiven, ?_⟩
  have hbytes : Offset.limit - 1 - (Offset.limit - 11) = 10 := by decide
  omega

end Plan

end RangeTransfer
