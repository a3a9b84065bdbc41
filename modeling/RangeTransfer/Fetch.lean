import RangeTransfer.Remote.Basic
/-!
# Fetching

What to make of an answer: a partial response is good if it holds exactly the bytes asked for, a
whole-object response only if it is welcome and complete. `probe` asks for one byte to learn whether
ranges are honoured, `fetchWhole` for everything at once.
-/

namespace RangeTransfer

/-- A body that can be stored. -/
inductive Accepted where
  /-- The bytes of the range that was asked for. -/
  | part (body : ByteArray)
  /-- The whole object. -/
  | whole (body : ByteArray)

/-- Judges a response to a request for `range` of an object of `total` bytes. A whole object is
welcome only if `acceptWhole` holds. -/
def classify (url : String) (range : ByteRange) (total : Nat) (response : Response)
    (acceptWhole : Bool) : Except Halt Accepted :=
  let refuse (fault : ProtocolFault) : Except Halt Accepted :=
    .error (.failed (.protocol url fault))
  let size := response.body.size
  if response.status = 206 then
    if size = 0 then refuse (.emptyBody range)
    else match response.contentRange.map (·.range) with
      | some returned => if returned ≠ range then refuse (.rangeMismatch range returned) else sized
      | none => sized
  else if response.status = 200 then
    if acceptWhole && size = total then .ok (.whole response.body)
    else refuse (.rangeIgnored size total)
  else refuse (.unexpectedStatus response.status)
where
  /-- The body, if it has the length of the range. -/
  sized : Except Halt Accepted :=
    match range.lengthChecked with
    | .error abort => .error (.aborted abort)
    | .ok length =>
      if response.body.size = length then .ok (.part response.body)
      else .error (.failed (.protocol url (.lengthMismatch range response.body.size)))

namespace Session

variable {ρ : Type} [Remote ρ]

/-- Asks for the first byte; ranges are honoured if the answer is a partial response. -/
def probe (x : Session ρ) (url : String) : Except Abort Bool × Session ρ :=
  let first : ByteRange := ⟨0, 0, Nat.le_refl 0⟩
  match x.ask ⟨0, url, some first⟩ with
  | (.response r, x) => (.ok (r.status = 206), x)
  | (.failed _, x) => (.ok false, x)
  | (.crashed reason, x) => (.error (.crash reason), x)

/-- The whole object, by one request without a range. -/
def fetchWhole (x : Session ρ) (url : String) : Except Halt ByteArray × Session ρ :=
  match x.ask ⟨0, url, none⟩ with
  | (.response r, x) =>
    if r.isSuccess then (.ok r.body, x)
    else (.error (.failed (.protocol url (.unexpectedStatus r.status))), x)
  | (.failed e, x) => (.error (.failed e), x)
  | (.crashed reason, x) => (.error (.aborted (.crash reason)), x)

end Session

end RangeTransfer
