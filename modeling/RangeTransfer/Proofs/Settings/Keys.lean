import RangeTransfer.Proofs.Text.Decimal
import RangeTransfer.Proofs.Text.Trimming
import RangeTransfer.Settings.File
/-!
# Keys of a settings file

A key of the file is absent or blank (`IsBlank`), or it holds a text (`Holds`). What it gives is nothing
in the first case, else what its text denotes, if anything (`Key.Gives`): a number below a limit, one of
the words for a flag, or the text as it is. A setting that is made of what one key gives changes only with
the text of that key (`Values.Sets.congr`).
-/

namespace RangeTransfer.FileSettings
open Text

variable {α β : Type} {values values' : Values} {raw : Option String} {text : String}

/-! ## The text of a key -/

/-- The value `raw` is `text` with blanks around it. -/
def Holds (raw : Option String) (text : String) : Prop :=
  ∃ whole, raw = some whole ∧ (∃ c ∈ whole.toList, isBlank c = false) ∧
    text = String.ofList (trim whole.toList)

/-- The value `raw` is absent or blank. -/
def IsBlank (raw : Option String) : Prop :=
  ∀ whole, raw = some whole → ∀ c ∈ whole.toList, isBlank c = true

theorem Holds.inj {text' : String} (h : Holds raw text) (h' : Holds raw text') : text = text' := by
  obtain ⟨whole, hraw, -, rfl⟩ := h
  obtain ⟨whole', hraw', -, rfl⟩ := h'
  cases hraw.symm.trans hraw'
  rfl

theorem Holds.not_isBlank (h : Holds raw text) : ¬ IsBlank raw := by
  obtain ⟨whole, hraw, ⟨c, hc, hclear⟩, -⟩ := h
  intro hblank
  rw [hblank whole hraw c hc] at hclear
  cases hclear

/-- Both hold the same text, or neither holds one. -/
def SameText (raw raw' : Option String) : Prop := ∀ text, Holds raw text ↔ Holds raw' text

theorem sameText_none (h : IsBlank raw) : SameText raw none := fun _ =>
  iff_of_false (fun hholds => hholds.not_isBlank h) nofun

theorem ofList_trim_eq_empty_iff (whole : String) :
    String.ofList (trim whole.toList) = "" ↔ ∀ c ∈ whole.toList, isBlank c = true := by
  rw [← trimWhile_eq_nil_iff]
  exact String.ofList_eq_empty_iff

theorem text_eq_some_iff {group key : String} :
    values.text group key = some text ↔ Holds (values group key) text := by
  simp only [Values.text, Option.filter_eq_some_iff, Option.map_eq_some_iff, decide_eq_true_eq, Holds]
  constructor
  · rintro ⟨⟨whole, hraw, rfl⟩, hne⟩
    rw [ne_eq, ofList_trim_eq_empty_iff] at hne
    obtain ⟨c, himp⟩ := not_forall.mp hne
    obtain ⟨hc, hclear⟩ := Classical.not_imp.mp himp
    exact ⟨whole, hraw, ⟨c, hc, Bool.eq_false_iff.mpr hclear⟩, rfl⟩
  · rintro ⟨whole, hraw, ⟨c, hc, hclear⟩, rfl⟩
    refine ⟨⟨whole, hraw, rfl⟩, fun hempty => ?_⟩
    rw [(ofList_trim_eq_empty_iff whole).mp hempty c hc] at hclear
    cases hclear

theorem text_eq_none_iff {group key : String} :
    values.text group key = none ↔ IsBlank (values group key) := by
  cases hraw : values group key with
  | none => exact iff_of_true (by rw [Values.text, hraw]; rfl) nofun
  | some whole =>
    simp only [Values.text, hraw, Option.map_some, Option.filter_eq_none_iff, Option.some.injEq,
      forall_eq', decide_eq_true_eq, not_not, ofList_trim_eq_empty_iff, IsBlank]

/-! ## Keys -/

/-- A key of the file, and what a text denotes there. -/
structure Key (α : Type) where
  group : String
  name : String
  Denotes : String → α → Prop
  inj : ∀ {text a b}, Denotes text a → Denotes text b → a = b

/-- A number below `limit` in decimal digits, which may have a plus sign. -/
def NumberBelow (limit : Nat) (text : String) (n : Nat) : Prop := Count text.toList n ∧ n < limit

def flagWords : Bool → List String
  | true => ["1", "true", "yes", "on"]
  | false => ["0", "false", "no", "off"]

/-- A word for `b`, with letters of either case. -/
def FlagWord (text : String) (b : Bool) : Prop := text.map Char.toLower ∈ flagWords b

theorem readFlag_eq_some_iff {b : Bool} : readFlag text = some b ↔ FlagWord text b := by
  have hapart : ∀ word ∈ flagWords true, word ∉ flagWords false := by decide
  simp only [readFlag, List.contains_iff_mem]
  split
  · rename_i htrue
    cases b with
    | true => exact iff_of_true rfl htrue
    | false => exact iff_of_false nofun (hapart _ htrue)
  · rename_i htrue
    cases b with
    | true => exact iff_of_false (by split <;> nofun) htrue
    | false =>
      split
      · rename_i hfalse
        exact iff_of_true rfl hfalse
      · rename_i hfalse
        exact iff_of_false nofun hfalse

namespace Key

def plain (group name : String) : Key String := ⟨group, name, Eq, fun h h' => h.symm.trans h'⟩

def number (limit : Nat) (group name : String) : Key Nat :=
  ⟨group, name, NumberBelow limit, fun h h' =>
    Option.some.inj ((readCount_eq_some_iff.mpr h).symm.trans (readCount_eq_some_iff.mpr h'))⟩

def flag (group name : String) : Key Bool :=
  ⟨group, name, FlagWord, fun h h' =>
    Option.some.inj ((readFlag_eq_some_iff.mpr h).symm.trans (readFlag_eq_some_iff.mpr h'))⟩

def username : Key String := plain "webdav" "username"
def password : Key String := plain "webdav" "password"
def timeout : Key Nat := number Offset.limit "webdav" "timeout_secs"
def chunk : Key Nat := number Offset.limit "transfer" "chunk_size_mb"
def connections : Key Nat := number Offset.limit "transfer" "parallel_connections"
def forceSplit : Key Bool := flag "transfer" "force_fat32"
def window : Key Nat := number Offset.limit "transfer" "max_window_mb"
def rangeAttempts : Key Nat := number (1 <<< 32) "transfer" "range_attempts"
def backoff : Key Nat := number Offset.limit "transfer" "range_backoff_secs"
def transferAttempts : Key Nat := number (1 <<< 32) "transfer" "auto_retry_attempts"
def waitBudget : Key Nat := number Offset.limit "transfer" "auto_retry_wait_secs"
def fallbackDirectory : Key String := plain "transfer" "fallback_dir"
def logLevel : Key String := plain "logging" "level"
def logFile : Key String := plain "logging" "file"

/-- The value of the key. -/
def value (k : Key α) (values : Values) : Option String := values k.group k.name

/-- What the key gives if its value is `raw`. -/
inductive Gives (k : Key α) (raw : Option String) : Option α → Prop
  | nothing (blank : IsBlank raw) : Gives k raw none
  | denoted {text : String} {a : α} (holds : Holds raw text) (denotes : k.Denotes text a) :
    Gives k raw (some a)

theorem Gives.unique {k : Key α} {raw raw' : Option String} {given given' : Option α}
    (h : k.Gives raw given) (h' : k.Gives raw' given') (hsame : SameText raw raw') : given = given' := by
  cases h with
  | nothing blank =>
    cases h' with
    | nothing => rfl
    | denoted holds => exact absurd blank ((hsame _).mpr holds).not_isBlank
  | denoted holds denotes =>
    cases h' with
    | nothing blank => exact absurd blank ((hsame _).mp holds).not_isBlank
    | denoted holds' denotes' =>
      rw [((hsame _).mp holds).inj holds'] at denotes
      rw [k.inj denotes denotes']

end Key

/-- The setting `s` is made by `use` of what the key `k` gives, and is `standard` if it gives nothing. -/
def Values.Sets (values : Values) (k : Key α) (use : α → β) (standard s : β) : Prop :=
  ∃ given, k.Gives (k.value values) given ∧ s = (given.map use).getD standard

section Sets

variable {k : Key α} {use : α → β} {standard s s' : β}

theorem Values.Sets.congr (h : values.Sets k use standard s) (h' : values'.Sets k use standard s')
    (hsame : SameText (k.value values) (k.value values')) : s = s' := by
  obtain ⟨given, hgiven, rfl⟩ := h
  obtain ⟨given', hgiven', rfl⟩ := h'
  rw [hgiven.unique hgiven' hsame]

theorem Values.Sets.all {P : β → Prop} (h : values.Sets k use standard s) (hstandard : P standard)
    (huse : ∀ a, P (use a)) : P s := by
  obtain ⟨given, -, rfl⟩ := h
  cases given with
  | none => exact hstandard
  | some a => exact huse a

end Sets

end RangeTransfer.FileSettings
