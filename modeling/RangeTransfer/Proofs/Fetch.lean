import RangeTransfer.Fetch
import RangeTransfer.Proofs.Range.Plan
/-!
# What a judged response holds

`Verdict` lists what can come of a response, each with the condition under which it does
(`verdict_classify`). A body that is let through is the body of the response: for a part it has the
length of the range, and the whole object is let through only where it is welcome, at its full size.
A response to a request for a planned range is let through exactly if it is a part or the whole
object in this sense, and otherwise its status decides whether it may be asked for again
(`classify_decides`).
-/

namespace RangeTransfer

/-- What a response to a request for `r` is judged to be. -/
inductive Verdict (url : String) (r : ByteRange) (total : Nat) (response : Response)
    (acceptWhole : Bool) : Except Halt Accepted → Prop
  | part (status : response.status = 206) (nonempty : response.body.size ≠ 0)
      (named : ∀ c, response.contentRange = some c → c.range = r)
      (length : r.lengthChecked = .ok response.body.size) :
      Verdict url r total response acceptWhole (.ok (.part response.body))
  | whole (status : response.status = 200) (welcome : acceptWhole = true)
      (length : response.body.size = total) :
      Verdict url r total response acceptWhole (.ok (.whole response.body))
  | empty (status : response.status = 206) (empty : response.body.size = 0) :
      Verdict url r total response acceptWhole (.error (.failed (.protocol url (.emptyBody r))))
  | foreign {c : ContentRange} (status : response.status = 206)
      (named : response.contentRange = some c) (foreign : c.range ≠ r) :
      Verdict url r total response acceptWhole
        (.error (.failed (.protocol url (.rangeMismatch r c.range))))
  | wrongLength {length : Nat} (status : response.status = 206) (fits : r.lengthChecked = .ok length)
      (wrong : response.body.size ≠ length) :
      Verdict url r total response acceptWhole
        (.error (.failed (.protocol url (.lengthMismatch r response.body.size))))
  /-- The length of the range does not fit 64 bits. -/
  | tooLong {abort : Abort} (status : response.status = 206)
      (long : r.lengthChecked = .error abort) :
      Verdict url r total response acceptWhole (.error (.aborted abort))
  | ignored (status : response.status = 200)
      (refused : ¬ (acceptWhole = true ∧ response.body.size = total)) :
      Verdict url r total response acceptWhole
        (.error (.failed (.protocol url (.rangeIgnored response.body.size total))))
  | unexpected (part : response.status ≠ 206) (whole : response.status ≠ 200) :
      Verdict url r total response acceptWhole
        (.error (.failed (.protocol url (.unexpectedStatus response.status))))

variable {url : String} {r : ByteRange} {total : Nat} {response : Response} {acceptWhole : Bool}

theorem verdict_sized (status : response.status = 206) (nonempty : response.body.size ≠ 0)
    (named : ∀ c, response.contentRange = some c → c.range = r) :
    Verdict url r total response acceptWhole (classify.sized url r response) := by
  unfold classify.sized
  split
  · rename_i hlong
    exact .tooLong status hlong
  · rename_i length hlength
    split
    · rename_i hsize
      exact .part status nonempty named (hsize ▸ hlength)
    · rename_i hsize
      exact .wrongLength status hlength hsize

theorem verdict_classify (url : String) (r : ByteRange) (total : Nat) (response : Response)
    (acceptWhole : Bool) :
    Verdict url r total response acceptWhole (classify url r total response acceptWhole) := by
  simp only [classify]
  split
  · rename_i hstatus
    split
    · rename_i hempty
      exact .empty hstatus hempty
    · rename_i hsize
      cases hheader : response.contentRange with
      | none => exact verdict_sized hstatus hsize (by simp [hheader])
      | some c =>
        simp only [Option.map_some]
        split
        · rename_i hforeign
          exact .foreign hstatus hheader hforeign
        · rename_i hnamed
          refine verdict_sized hstatus hsize fun c' hc' => ?_
          obtain rfl : c = c' := Option.some.inj (hheader.symm.trans hc')
          exact Classical.not_not.mp hnamed
  · rename_i hpart
    split
    · rename_i hstatus
      split
      · rename_i haccept
        simp only [Bool.and_eq_true, decide_eq_true_eq] at haccept
        exact .whole hstatus haccept.1 haccept.2
      · rename_i hrefused
        simp only [Bool.and_eq_true, decide_eq_true_eq] at hrefused
        exact .ignored hstatus hrefused
    · rename_i hwhole
      exact .unexpected hpart hwhole

theorem classify_part {body : ByteArray}
    (h : classify url r total response acceptWhole = .ok (.part body)) :
    body = response.body ∧ response.status = 206 ∧ r.lengthChecked = .ok body.size := by
  have hverdict := verdict_classify url r total response acceptWhole
  rw [h] at hverdict
  cases hverdict with
  | part status _ _ length => exact ⟨rfl, status, length⟩

theorem classify_whole {body : ByteArray}
    (h : classify url r total response acceptWhole = .ok (.whole body)) :
    body = response.body ∧ response.status = 200 ∧ acceptWhole = true ∧ body.size = total := by
  have hverdict := verdict_classify url r total response acceptWhole
  rw [h] at hverdict
  cases hverdict with
  | whole status welcome length => exact ⟨rfl, status, welcome, length⟩

theorem first_add_size_of_part {body : ByteArray}
    (h : classify url r total response acceptWhole = .ok (.part body)) :
    r.first + body.size = r.pastEnd := by
  obtain ⟨-, -, hlength⟩ := classify_part h
  have hle := r.first_le_last
  simp only [ByteRange.lengthChecked, Offset.add] at hlength
  split at hlength
  · have hsize := Except.ok.inj hlength
    simp only [ByteRange.pastEnd]
    omega
  · cases hlength

/-! ## Responses to requests for planned ranges -/

namespace Response

/-- The response is a part of the object with as many bytes as `r` has, and says so if it says which
bytes it holds. -/
structure IsPart (response : Response) (r : ByteRange) : Prop where
  status : response.status = 206
  nonempty : response.body.size ≠ 0
  length : response.body.size = r.length
  named : ∀ c, response.contentRange = some c → c.range = r

/-- The response is the whole object of `total` bytes, and this is welcome. -/
structure IsWhole (response : Response) (total : Nat) (acceptWhole : Bool) : Prop where
  status : response.status = 200
  welcome : acceptWhole = true
  length : response.body.size = total

end Response

theorem Response.IsPart.not_isWhole (h : response.IsPart r) : ¬ response.IsWhole total acceptWhole := by
  intro hwhole
  have := h.status.symm.trans hwhole.status
  omega

/-- The response is judged to be an error with its status, which leaves the range to be asked for
again exactly if the status is that of a part or of a server error. -/
def Response.Refused (response : Response) (url : String) (verdict : Except Halt Accepted) : Prop :=
  ∃ fault, let e := TransferError.protocol url fault
    verdict = .error (.failed e) ∧ e.status = some response.status ∧
    (e.retryable = true ↔ response.status = 206 ∨ 500 ≤ response.status ∧ response.status ≤ 599)

namespace Verdict

variable {verdict : Except Halt Accepted}

theorem cases_of_fits (hlength : r.lengthChecked = .ok r.length)
    (h : Verdict url r total response acceptWhole verdict) :
    (response.IsPart r ∧ verdict = .ok (.part response.body)) ∨
    (response.IsWhole total acceptWhole ∧ verdict = .ok (.whole response.body)) ∨
    (¬ response.IsPart r ∧ ¬ response.IsWhole total acceptWhole ∧ response.Refused url verdict) := by
  have hfits : ∀ {n : Nat}, r.lengthChecked = .ok n → n = r.length := fun hn =>
    Except.ok.inj (hn.symm.trans hlength)
  -- a part that is refused is no whole object, and asked for again
  have hagain : ∀ {fault : ProtocolFault}, response.status = 206 → ¬ response.IsPart r →
      fault.status = some 206 → fault.retryable = true →
      verdict = .error (.failed (.protocol url fault)) →
      ¬ response.IsPart r ∧ ¬ response.IsWhole total acceptWhole ∧
        response.Refused url verdict := by
    intro fault hstatus hpart hfault hretry hverdict
    refine ⟨hpart, fun hwhole => ?_, fault, hverdict, hstatus ▸ hfault, ?_⟩
    · have := hstatus.symm.trans hwhole.status
      omega
    · exact iff_of_true hretry (Or.inl hstatus)
  cases h with
  | part status nonempty named length =>
    exact Or.inl ⟨⟨status, nonempty, hfits length, named⟩, rfl⟩
  | whole status welcome length => exact Or.inr (Or.inl ⟨⟨status, welcome, length⟩, rfl⟩)
  | empty status empty =>
    exact Or.inr (Or.inr (hagain status (fun hpart => hpart.nonempty empty) rfl rfl rfl))
  | foreign status named foreign =>
    exact Or.inr (Or.inr (hagain status (fun hpart => foreign (hpart.named _ named)) rfl rfl rfl))
  | wrongLength status fits wrong =>
    rw [hfits fits] at wrong
    exact Or.inr (Or.inr (hagain status (fun hpart => wrong hpart.length) rfl rfl rfl))
  | tooLong status long => cases long.symm.trans hlength
  | ignored status refused =>
    refine Or.inr (Or.inr ⟨fun hpart => ?_, fun hwhole => refused ⟨hwhole.welcome, hwhole.length⟩,
      _, rfl, status ▸ rfl, iff_of_false Bool.noConfusion ?_⟩)
    · have := hpart.status.symm.trans status
      omega
    · omega
  | unexpected part whole =>
    refine Or.inr (Or.inr ⟨fun hpart => part hpart.status, fun hwhole => whole hwhole.status, _,
      rfl, rfl, ?_⟩)
    simp only [TransferError.retryable, ProtocolFault.retryable, Bool.and_eq_true,
      decide_eq_true_eq]
    omega

end Verdict

theorem Plan.lengthChecked_of_mem {resume size chunk : Nat}
    (hr : r ∈ (Plan.new resume size chunk).ranges) (hfit : size < Offset.limit) :
    r.lengthChecked = .ok r.length := by
  have hle : resume ≤ size := Nat.le_of_not_lt fun hlt => by
    rw [Plan.ranges_of_le (p := .new resume size chunk) (Nat.le_of_lt hlt)] at hr
    cases hr
  have hbounds := (Plan.consecutive_new chunk hle hfit).bounds hr
  exact ByteRange.lengthChecked_eq (Nat.lt_of_le_of_lt hbounds.2 hfit)

/-- A response to a request for a planned range is let through as a part exactly if it holds just
this range, and as the whole object exactly if it is that and this is welcome. Any other one is an
error with its status. Judging it never aborts. -/
theorem classify_decides {resume size chunk : Nat}
    (hplanned : r ∈ (Plan.new resume size chunk).ranges) (hfit : size < Offset.limit) (url : String)
    (total : Nat) (response : Response) (acceptWhole : Bool) :
    let verdict := classify url r total response acceptWhole
    (∀ body, verdict = .ok (.part body) ↔ response.IsPart r ∧ body = response.body) ∧
    (∀ body, verdict = .ok (.whole body) ↔
      response.IsWhole total acceptWhole ∧ body = response.body) ∧
    (¬ response.IsPart r → ¬ response.IsWhole total acceptWhole → response.Refused url verdict) ∧
    ∀ abort, verdict ≠ .error (.aborted abort) := by
  intro verdict
  have hverdict : Verdict url r total response acceptWhole verdict :=
    verdict_classify url r total response acceptWhole
  obtain ⟨hpart, heq⟩ | ⟨hwhole, heq⟩ | ⟨hpart, hwhole, hrefused⟩ :=
    hverdict.cases_of_fits (Plan.lengthChecked_of_mem hplanned hfit)
  · have hnot : ¬ response.IsWhole total acceptWhole := hpart.not_isWhole
    rw [heq]
    refine ⟨fun body => ?_, fun body => ?_, fun h => absurd hpart h, nofun⟩
    · simp only [Except.ok.injEq, Accepted.part.injEq, hpart, true_and]
      exact eq_comm
    · simp [hnot]
  · have hnot : ¬ response.IsPart r := fun hpart => hpart.not_isWhole hwhole
    rw [heq]
    refine ⟨fun body => ?_, fun body => ?_, fun _ h => absurd hwhole h, nofun⟩
    · simp [hnot]
    · simp only [Except.ok.injEq, Accepted.whole.injEq, hwhole, true_and]
      exact eq_comm
  · have herror : ∃ e, verdict = .error (.failed e) := by
      obtain ⟨fault, heq, -⟩ := hrefused
      exact ⟨_, heq⟩
    obtain ⟨e, heq⟩ := herror
    rw [heq] at hrefused ⊢
    exact ⟨fun body => by simp [hpart], fun body => by simp [hwhole], fun _ _ => hrefused, by simp⟩

/-- The last ten bytes that an object can have. -/
def lastTen : ByteRange := ⟨Offset.limit - 11, Offset.limit - 2, by decide⟩

/-- Ten bytes that say to be those, ten that say to be others, and a server error. -/
theorem classify_decides_lastTen :
    let size := Offset.limit - 1
    let tens : ByteArray := ⟨Array.replicate 10 0⟩
    let first : ByteRange := ⟨0, 9, by decide⟩
    lastTen ∈ (Plan.new (size - 10) size 10).ranges ∧ size < Offset.limit ∧
    classify "u" lastTen size ⟨206, tens, some ⟨lastTen, some size⟩⟩ false = .ok (.part tens) ∧
    (⟨206, tens, some ⟨first, some size⟩⟩ : Response).Refused "u"
      (classify "u" lastTen size ⟨206, tens, some ⟨first, some size⟩⟩ false) ∧
    (⟨503, .empty, none⟩ : Response).Refused "u" (classify "u" lastTen size ⟨503, .empty, none⟩ true) := by
  intro size tens first
  have hplanned : lastTen ∈ (Plan.new (size - 10) size 10).ranges := by decide
  have hfit : size < Offset.limit := by decide
  have hforeign : first ≠ lastTen := by decide
  obtain ⟨hpart, -⟩ :=
    classify_decides hplanned hfit "u" size ⟨206, tens, some ⟨lastTen, some size⟩⟩ false
  obtain ⟨-, -, hrefused, -⟩ :=
    classify_decides hplanned hfit "u" size ⟨206, tens, some ⟨first, some size⟩⟩ false
  obtain ⟨-, -, hserver, -⟩ := classify_decides hplanned hfit "u" size ⟨503, .empty, none⟩ true
  refine ⟨hplanned, hfit, (hpart tens).mpr ⟨⟨rfl, by decide, by decide, fun c hc => ?_⟩, rfl⟩,
    hrefused (fun h => hforeign (h.named _ rfl)) (fun h => nomatch h.status),
    hserver (fun h => nomatch h.status) (fun h => nomatch h.status)⟩
  cases hc
  rfl

end RangeTransfer
