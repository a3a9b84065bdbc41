import RangeTransfer.Proofs.Attempt.Faithful
import RangeTransfer.Transfer.Attempt
/-!
# Archives

An archive serves the ranges of one object as they are, but for those that it withholds. It is
truthful (`Archive.truthful`), whatever it withholds.
-/

namespace RangeTransfer

/-- Results of the same kind are compared by what they hold. -/
instance decidableEqExcept {ε α : Type} [DecidableEq ε] [DecidableEq α] :
    DecidableEq (Except ε α)
  | .error e, .error e' => decidable_of_iff (e = e') (Except.error.injEq e e').symm.to_iff
  | .ok a, .ok a' => decidable_of_iff (a = a') (Except.ok.injEq a a').symm.to_iff
  | .error _, .ok _ => isFalse nofun
  | .ok _, .error _ => isFalse nofun

structure Archive (object : ByteArray) where
  withholds : ByteRange → Bool

namespace Archive

variable {object : ByteArray}

def answer (m : Archive object) : Option ByteRange → Answer
  | none => .response ⟨200, object, none⟩
  | some r =>
    if m.withholds r then .failed (.transport "archive" "withheld")
    else .response ⟨206, object.extract r.first r.pastEnd, none⟩

instance : Remote (Archive object) where
  objectSize m _ := (some object.size, m)
  connect m := (.ok (), m)
  get m q := (⟨m.answer q.range, false⟩, m)

theorem truthful (object : ByteArray) (url : String) : Truthful (Archive object) url object := by
  intro m q r response acceptWhole _ hrange _ hanswer
  have hanswer : m.answer q.range = .response response := hanswer
  simp only [hrange, answer] at hanswer
  split at hanswer
  · cases hanswer
  · cases hanswer
    refine ⟨fun body hbody => (classify_part hbody).1, fun body hbody => ?_⟩
    have := (classify_whole hbody).2.1
    simp at this

/-- A transfer from an archive that has not started yet. -/
def transfer (m : Archive object) (s : Store) : Transfer (Archive object) := ⟨⟨m, .fresh, []⟩, s⟩

/-- The archive without the ranges that start at `first` or later. -/
def upTo (first : Nat) : Archive object := ⟨fun r => first ≤ r.first⟩

end Archive

/-- A small object. -/
def sample : ByteArray := ⟨#[0, 1, 2, 3]⟩

/-- A request for the sample, which is tried once. -/
def sampleJob (layout : LayoutHint) (partSize chunk workers : Nat) : Job :=
  ⟨⟨"http://h/f", ⟨[97]⟩, sample.size, chunk, workers, layout⟩,
    { TransferSettings.standard with retry := .single, partSize }⟩

end RangeTransfer
