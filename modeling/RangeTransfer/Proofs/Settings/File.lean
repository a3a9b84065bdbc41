import RangeTransfer.Proofs.Settings.Keys
/-!
# What a settings file gives

The settings are read off the keys of the file, each off its own (`Given`). Reading them checks the keys
for numbers and flags in a fixed order, and so ends with the first text that denotes nothing
(`FirstFault`) or else gives settings within their bounds. `reading_spec` says this of all values that a
document can have, and of every text, whatever document a reader takes it for.
-/

namespace RangeTransfer.FileSettings
open Text

variable {α β : Type} {values values' : Values}

/-! ## Settings -/

/-- The password counts only with a username, and is empty if it is not given then. -/
structure TransportGiven (values : Values) (s : TransportSettings) : Prop where
  username : values.Sets .username some none (s.credentials.map (·.username))
  password : ∀ c, s.credentials = some c → values.Sets .password id "" c.password
  timeout : values.Sets .timeout (fun n => .ofSeconds (max n 1)) TransportSettings.standard.timeout s.timeout
  userAgent : s.userAgent = TransportSettings.standard.userAgent

structure RetryGiven (values : Values) (p : RetryPolicy) : Prop where
  rangeAttempts : values.Sets .rangeAttempts (max · 1) RetryPolicy.standard.rangeAttempts p.rangeAttempts
  backoff : values.Sets .backoff .ofSeconds RetryPolicy.standard.backoff p.backoff
  transferAttempts :
    values.Sets .transferAttempts (max · 1) RetryPolicy.standard.transferAttempts p.transferAttempts
  waitBudget : values.Sets .waitBudget .ofSeconds RetryPolicy.standard.waitBudget p.waitBudget

structure TransferGiven (values : Values) (s : TransferSettings) : Prop where
  chunk : values.Sets .chunk (fun n => max 1 (min n 32)) TransferSettings.standard.chunkMebibytes
    s.chunkMebibytes
  connections : values.Sets .connections (fun n => max 1 (min n 32)) TransferSettings.standard.connections
    s.connections
  forceSplit : values.Sets .forceSplit id TransferSettings.standard.forceSplit s.forceSplit
  window : values.Sets .window (fun n => min (max n 1 * mebibyte) Offset.last)
    TransferSettings.standard.windowBytes s.windowBytes
  retry : RetryGiven values s.retry
  fallbackDirectory :
    values.Sets .fallbackDirectory (fun path => some (Path.ofString path)) none s.fallbackDirectory
  partSize : s.partSize = TransferSettings.standard.partSize
  singleFileLimit : s.singleFileLimit = TransferSettings.standard.singleFileLimit
  spawn : s.spawn = TransferSettings.standard.spawn

structure LoggingGiven (values : Values) (s : LoggingSettings) : Prop where
  level : values.Sets .logLevel id LoggingSettings.standard.level s.level
  file : values.Sets .logFile (fun path => some (Path.ofString path)) none s.file

/-- Each of the settings `c` comes from its own key, and those without a key are the standard ones. -/
structure Given (values : Values) (c : FileSettings) : Prop where
  transfer : TransferGiven values c.transfer
  transport : TransportGiven values c.transport
  logging : LoggingGiven values c.logging

/-! ## Faults -/

/-- A key whose text must denote something, and the texts that do. -/
structure Check where
  group : String
  name : String
  Accepts : String → Prop

def Key.check (k : Key α) : Check := ⟨k.group, k.name, fun text => ∃ a, k.Denotes text a⟩

def Values.Faulty (values : Values) (k : Check) (text : String) : Prop :=
  Holds (values k.group k.name) text ∧ ¬ k.Accepts text

/-- The error names the first of the keys that is faulty, and its text. -/
inductive FirstFault (values : Values) : List Check → SettingsError → Prop
  | here {k : Check} {keys : List Check} {text : String} (fault : values.Faulty k text) :
    FirstFault values (k :: keys) (.invalidValue k.group k.name text)
  | later {k : Check} {keys : List Check} {e : SettingsError} (sound : ∀ text, ¬ values.Faulty k text)
    (rest : FirstFault values keys e) : FirstFault values (k :: keys) e

def retryKeys : List Check :=
  [Key.rangeAttempts.check, Key.backoff.check, Key.transferAttempts.check, Key.waitBudget.check]

/-- The keys whose texts are checked, in the order in which they are. -/
def checkedKeys : List Check :=
  [Key.timeout.check, Key.chunk.check, Key.connections.check, Key.forceSplit.check, Key.window.check] ++
    retryKeys

variable {keys keys' : List Check} {e : SettingsError}

theorem FirstFault.append (h : FirstFault values keys e) : FirstFault values (keys ++ keys') e := by
  induction h with
  | here fault => exact .here fault
  | later sound _ ih => exact .later sound ih

theorem FirstFault.after (h : FirstFault values keys' e)
    (hsound : ∀ k ∈ keys, ∀ text, ¬ values.Faulty k text) : FirstFault values (keys ++ keys') e := by
  induction keys with
  | nil => exact h
  | cons k keys ih =>
    exact .later (hsound k List.mem_cons_self) (ih fun k' hk' => hsound k' (List.mem_cons_of_mem _ hk'))

theorem FirstFault.faulty (h : FirstFault values keys e) : ∃ k ∈ keys, ∃ text, values.Faulty k text := by
  induction h with
  | here fault => exact ⟨_, List.mem_cons_self, _, fault⟩
  | later _ _ ih =>
    obtain ⟨k, hk, hfault⟩ := ih
    exact ⟨k, List.mem_cons_of_mem _ hk, hfault⟩

theorem FirstFault.unique {e' : SettingsError} (h : FirstFault values keys e)
    (h' : FirstFault values keys e') : e = e' := by
  induction h with
  | here fault =>
    cases h' with
    | here fault' => rw [fault.1.inj fault'.1]
    | later sound => exact absurd fault (sound _)
  | later sound _ ih =>
    cases h' with
    | here fault' => exact absurd fault' (sound _)
    | later _ rest => exact ih rest

/-! ## Reading -/

/-- Reading checks `keys` in order, and gives something with the property `P` unless it meets a fault. -/
inductive Checks (values : Values) (keys : List Check) (P : α → Prop) : Except SettingsError α → Prop
  | ok {a : α} (sound : ∀ k ∈ keys, ∀ text, ¬ values.Faulty k text) (result : P a) :
    Checks values keys P (.ok a)
  | error {e : SettingsError} (fault : FirstFault values keys e) : Checks values keys P (.error e)

namespace Checks

variable {P : α → Prop} {Q : β → Prop} {x : Except SettingsError α} {f : α → Except SettingsError β}

theorem pure {a : α} (h : P a) : Checks values [] P (Pure.pure a : Except SettingsError α) :=
  .ok nofun h

theorem bind (hx : Checks values keys P x) (hf : ∀ a, P a → Checks values keys' Q (f a)) :
    Checks values (keys ++ keys') Q (x >>= f) := by
  cases hx with
  | error fault => exact .error fault.append
  | @ok a sound result =>
    have hrest := hf a result
    change Checks values _ Q (f a)
    revert hrest
    generalize f a = y
    rintro (⟨sound', result'⟩ | ⟨fault⟩)
    · refine .ok (fun k hk => ?_) result'
      exact (List.mem_append.mp hk).elim (sound k) (sound' k)
    · exact .error (fault.after sound)

theorem read (k : Key α) {read : String → Option α}
    (hread : ∀ text a, read text = some a ↔ k.Denotes text a) :
    Checks values [k.check] (k.Gives (k.value values)) (values.read read k.group k.name) := by
  have hkeys {p : Check → Prop} (h : p k.check) : ∀ k' ∈ [k.check], p k' := by
    rwa [List.forall_mem_singleton]
  unfold Values.read
  split
  · rename_i hnone
    have hblank := text_eq_none_iff.mp hnone
    exact .ok (hkeys fun text hfault => hfault.1.not_isBlank hblank) (.nothing hblank)
  · rename_i text hsome
    have hholds := text_eq_some_iff.mp hsome
    split
    · rename_i a ha
      have hdenotes := (hread text a).mp ha
      refine .ok (hkeys fun text' hfault => hfault.2 ⟨a, ?_⟩) (.denoted hholds hdenotes)
      rwa [hfault.1.inj hholds]
    · rename_i hnone
      refine .error (.here ⟨hholds, fun ⟨a, ha⟩ => ?_⟩)
      rw [(hread text a).mpr ha] at hnone
      cases hnone

theorem number {limit : Nat} (group name : String) :
    Checks values [(Key.number limit group name).check]
      ((Key.number limit group name).Gives (values group name))
      (values.read (readCount limit) group name) :=
  read (Key.number limit group name) fun _ _ => readCount_eq_some_iff

theorem flag (group name : String) :
    Checks values [(Key.flag group name).check] ((Key.flag group name).Gives (values group name))
      (values.flag group name) :=
  read (Key.flag group name) fun _ _ => readFlag_eq_some_iff

end Checks

theorem gives_plain (group name : String) :
    (Key.plain group name).Gives (values group name) (values.text group name) := by
  cases h : values.text group name with
  | none => exact .nothing (text_eq_none_iff.mp h)
  | some text => exact .denoted (text_eq_some_iff.mp h) rfl

theorem transportGiven_read {timeout : Option Nat} (h : Key.timeout.Gives (Key.timeout.value values) timeout) :
    TransportGiven values { TransportSettings.standard with
      credentials := (values.text "webdav" "username").map fun username =>
        ⟨username, (values.text "webdav" "password").getD ""⟩
      timeout := (timeout.map fun n => .ofSeconds (max n 1)).getD TransportSettings.standard.timeout } where
  username := by
    refine ⟨_, gives_plain _ _, ?_⟩
    cases values.text "webdav" "username" <;> rfl
  password c hc := by
    obtain ⟨_, -, rfl⟩ := Option.map_eq_some_iff.mp hc
    refine ⟨_, gives_plain _ _, ?_⟩
    rw [Option.map_id_fun, id]
  timeout := ⟨timeout, h, rfl⟩
  userAgent := rfl

theorem checks_transport : Checks values [Key.timeout.check] (TransportGiven values) (readTransport values) :=
  (Checks.number _ _).bind fun _ h => .pure (transportGiven_read h)

/-- A pair of settings of which one is given comes out as if both were, because the standard number of
attempts is not zero. -/
theorem checks_retry : Checks values retryKeys (RetryGiven values) (readRetry values .standard) := by
  refine (Checks.number _ _).bind fun rangeAttempts hrangeAttempts =>
    (Checks.number _ _).bind fun backoff hbackoff =>
    (Checks.number _ _).bind fun attempts hattempts =>
    (Checks.number _ _).bind fun budget hbudget => .pure
      ⟨⟨_, hrangeAttempts, ?_⟩, ⟨_, hbackoff, ?_⟩, ⟨_, hattempts, ?_⟩, ⟨_, hbudget, ?_⟩⟩ <;>
  cases rangeAttempts <;> cases backoff <;> cases attempts <;> cases budget <;> rfl

theorem checks_transfer : Checks values
    ([Key.chunk.check, Key.connections.check, Key.forceSplit.check, Key.window.check] ++ retryKeys)
    (TransferGiven values) (readTransfer values) := by
  refine (Checks.number _ _).bind fun chunk hchunk =>
    (Checks.number _ _).bind fun connections hconnections =>
    (Checks.flag _ _).bind fun forceSplit hforceSplit =>
    (Checks.number _ _).bind fun window hwindow =>
    checks_retry.bind fun retry hretry => .pure ?_
  exact
    { chunk := ⟨chunk, hchunk, rfl⟩
      connections := ⟨connections, hconnections, rfl⟩
      forceSplit := ⟨forceSplit, hforceSplit, by rw [Option.map_id_fun, id]⟩
      window := ⟨window, hwindow, rfl⟩
      retry := hretry
      fallbackDirectory := by
        refine ⟨_, gives_plain _ _, ?_⟩
        cases values.text "transfer" "fallback_dir" <;> rfl
      partSize := rfl
      singleFileLimit := rfl
      spawn := rfl }

theorem loggingGiven_read (values : Values) : LoggingGiven values (readLogging values) where
  level := ⟨_, gives_plain _ _, by rw [Option.map_id_fun]; rfl⟩
  file := by
    refine ⟨_, gives_plain _ _, ?_⟩
    simp only [readLogging]
    cases values.text "logging" "file" <;> rfl

theorem checks_ofValues : Checks values checkedKeys (Given values) (ofValues values) :=
  checks_transport.bind fun _ htransport => checks_transfer.bind fun _ htransfer =>
    .pure ⟨htransfer, htransport, loggingGiven_read values⟩

/-! ## Bounds -/

structure InBounds (c : FileSettings) : Prop where
  chunk : 1 ≤ c.transfer.chunkMebibytes ∧ c.transfer.chunkMebibytes ≤ 32
  connections : 1 ≤ c.transfer.connections ∧ c.transfer.connections ≤ 32
  window : mebibyte ≤ c.transfer.windowBytes
  rangeAttempts : 1 ≤ c.transfer.retry.rangeAttempts
  transferAttempts : 1 ≤ c.transfer.retry.transferAttempts
  timeout : 1 ≤ c.transport.timeout.seconds

theorem Given.inBounds {c : FileSettings} (h : Given values c) : InBounds c where
  chunk := h.transfer.chunk.all (P := fun n => 1 ≤ n ∧ n ≤ 32) (by decide) fun n => by omega
  connections := h.transfer.connections.all (P := fun n => 1 ≤ n ∧ n ≤ 32) (by decide) fun n => by omega
  window := h.transfer.window.all (by decide) fun n =>
    Nat.le_min.mpr ⟨Nat.le_mul_of_pos_left _ (Offset.pos_max_one n), by decide⟩
  rangeAttempts := h.transfer.retry.rangeAttempts.all (by decide) Offset.pos_max_one
  transferAttempts := h.transfer.retry.transferAttempts.all (by decide) Offset.pos_max_one
  timeout := h.transport.timeout.all (P := fun d => 1 ≤ d.seconds) (by decide) fun n => by
    rw [Duration.seconds, Duration.ofSeconds, Nat.mul_div_cancel _ (by decide)]
    exact Offset.pos_max_one n

/-! ## Independence -/

inductive Setting where
  | username
  | password
  | timeout
  | chunk
  | connections
  | forceSplit
  | window
  | rangeAttempts
  | backoff
  | transferAttempts
  | waitBudget
  | fallbackDirectory
  | logLevel
  | logFile

namespace Setting

/-- The value of the key that the setting comes from. -/
def own (values : Values) : Setting → Option String
  | username => Key.username.value values
  | password => Key.password.value values
  | timeout => Key.timeout.value values
  | chunk => Key.chunk.value values
  | connections => Key.connections.value values
  | forceSplit => Key.forceSplit.value values
  | window => Key.window.value values
  | rangeAttempts => Key.rangeAttempts.value values
  | backoff => Key.backoff.value values
  | transferAttempts => Key.transferAttempts.value values
  | waitBudget => Key.waitBudget.value values
  | fallbackDirectory => Key.fallbackDirectory.value values
  | logLevel => Key.logLevel.value values
  | logFile => Key.logFile.value values

theorem own_none (s : Setting) : s.own (fun _ _ => none) = none := by
  cases s <;> rfl

/-- Both have the same setting; passwords are compared only if there are two. -/
def Same (c c' : FileSettings) : Setting → Prop
  | username => c.transport.credentials.map (·.username) = c'.transport.credentials.map (·.username)
  | password => ∀ r r', c.transport.credentials = some r → c'.transport.credentials = some r' →
      r.password = r'.password
  | timeout => c.transport.timeout = c'.transport.timeout
  | chunk => c.transfer.chunkMebibytes = c'.transfer.chunkMebibytes
  | connections => c.transfer.connections = c'.transfer.connections
  | forceSplit => c.transfer.forceSplit = c'.transfer.forceSplit
  | window => c.transfer.windowBytes = c'.transfer.windowBytes
  | rangeAttempts => c.transfer.retry.rangeAttempts = c'.transfer.retry.rangeAttempts
  | backoff => c.transfer.retry.backoff = c'.transfer.retry.backoff
  | transferAttempts => c.transfer.retry.transferAttempts = c'.transfer.retry.transferAttempts
  | waitBudget => c.transfer.retry.waitBudget = c'.transfer.retry.waitBudget
  | fallbackDirectory => c.transfer.fallbackDirectory = c'.transfer.fallbackDirectory
  | logLevel => c.logging.level = c'.logging.level
  | logFile => c.logging.file = c'.logging.file

end Setting

theorem Given.same {c c' : FileSettings} (h : Given values c) (h' : Given values' c') (s : Setting)
    (hown : SameText (s.own values) (s.own values')) : s.Same c c' := by
  cases s with
  | username => exact h.transport.username.congr h'.transport.username hown
  | password =>
    exact fun r r' hr hr' => (h.transport.password r hr).congr (h'.transport.password r' hr') hown
  | timeout => exact h.transport.timeout.congr h'.transport.timeout hown
  | chunk => exact h.transfer.chunk.congr h'.transfer.chunk hown
  | connections => exact h.transfer.connections.congr h'.transfer.connections hown
  | forceSplit => exact h.transfer.forceSplit.congr h'.transfer.forceSplit hown
  | window => exact h.transfer.window.congr h'.transfer.window hown
  | rangeAttempts => exact h.transfer.retry.rangeAttempts.congr h'.transfer.retry.rangeAttempts hown
  | backoff => exact h.transfer.retry.backoff.congr h'.transfer.retry.backoff hown
  | transferAttempts => exact h.transfer.retry.transferAttempts.congr h'.transfer.retry.transferAttempts hown
  | waitBudget => exact h.transfer.retry.waitBudget.congr h'.transfer.retry.waitBudget hown
  | fallbackDirectory => exact h.transfer.fallbackDirectory.congr h'.transfer.fallbackDirectory hown
  | logLevel => exact h.logging.level.congr h'.logging.level hown
  | logFile => exact h.logging.file.congr h'.logging.file hown

/-! ## Documents -/

/-- What comes of reading `values`: the first fault, or settings off their own keys and within bounds. -/
structure Reading (values : Values) (outcome : Except SettingsError FileSettings) : Prop where
  error_iff : ∀ e, outcome = .error e ↔ FirstFault values checkedKeys e
  fails_iff : (∃ e, outcome = .error e) ↔ ∃ k ∈ checkedKeys, ∃ text, values.Faulty k text
  given : ∀ c, outcome = .ok c → Given values c
  inBounds : ∀ c, outcome = .ok c → InBounds c
  standard : ∀ c, outcome = .ok c → ∀ s : Setting, IsBlank (s.own values) → s.Same c standard

theorem given_standard : Given (fun _ _ => none) standard := by
  have h : Checks (fun _ _ => none) checkedKeys (Given _) (.ok standard) := checks_ofValues
  cases h
  assumption

theorem Checks.reading {outcome : Except SettingsError FileSettings}
    (h : Checks values checkedKeys (Given values) outcome) : Reading values outcome := by
  cases h with
  | @ok c sound given =>
    have hnone {e : SettingsError} : ¬ FirstFault values checkedKeys e := fun hfault => by
      obtain ⟨k, hk, text, hfaulty⟩ := hfault.faulty
      exact sound k hk text hfaulty
    refine ⟨fun e => iff_of_false nofun hnone, iff_of_false nofun ?_, ?_, ?_, ?_⟩
    · rintro ⟨k, hk, text, hfaulty⟩
      exact sound k hk text hfaulty
    · rintro _ ⟨⟩
      exact given
    · rintro _ ⟨⟩
      exact given.inBounds
    · rintro _ ⟨⟩ s hblank
      refine given.same given_standard s ?_
      rw [s.own_none]
      exact sameText_none hblank
  | @error e fault =>
    refine ⟨fun e' => ⟨?_, fun h => by rw [fault.unique h]⟩, iff_of_true ⟨e, rfl⟩ fault.faulty, nofun,
      nofun, nofun⟩
    rintro ⟨⟩
    exact fault

/-- Reading a document ends with the first fault of the keys that are checked, or gives settings
within bounds, each off its own key and the standard one if that is absent or blank. A text is read
as the document that the reader of texts makes of it. -/
theorem reading_spec :
    (∀ values, Reading values (ofValues values)) ∧
    (∀ values values' c c', ofValues values = .ok c → ofValues values' = .ok c' →
      ∀ s : Setting, SameText (s.own values) (s.own values') → s.Same c c') ∧
    ∀ (read : String → Except Ini.ParseError Ini.Document) text, match read text with
      | .ok document => Reading document.get? (parseWith read text)
      | .error e => parseWith read text = .error (.malformed e) := by
  have hreading (values : Values) : Reading values (ofValues values) := checks_ofValues.reading
  refine ⟨hreading, fun values values' c c' hc hc' s => ?_, fun read text => ?_⟩
  · exact ((hreading values).given c hc).same ((hreading values').given c' hc') s
  · cases hread : read text with
    | ok document =>
      simp only [parseWith, hread]
      exact hreading document.get?
    | error e => simp only [parseWith, hread]

theorem reading_spec_rangeAttempts :
    FirstFault (fun _ key => if key = "range_attempts" then some " many " else none) checkedKeys
        (.invalidValue "transfer" "range_attempts" "many") ∧
      InBounds standard ∧ Setting.chunk.Same standard standard := by
  have hreading := reading_spec.1 fun _ key => if key = "range_attempts" then some " many " else none
  have hstandard := reading_spec.1 fun _ _ => none
  exact ⟨(hreading.error_iff _).mp (by decide), hstandard.inBounds _ (by decide),
    reading_spec.2.1 (fun _ _ => none) (fun _ _ => none) _ _ (by decide) (by decide) _ fun _ => Iff.rfl⟩

end RangeTransfer.FileSettings
