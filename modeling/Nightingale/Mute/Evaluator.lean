import Nightingale.Models.TagFilter

/-!
# Mute/Evaluator — the operator's mutes

`Evaluator.Evaluate` (`internal/custom/mute/evaluator.go`) asks the emergency mute first and then
the cron mutes in order; the first that matches the event mutes it:

    event ──▸ emergency: enabled, not expired, in scope ──▸ cron: in scope, filters, window open

A cron mute is open from each firing of its schedule on, for `duration_sec`.  Instants are
nanoseconds here, as `time.Time` compares them; what the cron library makes of an expression and
of a time zone is left open (`CronLibrary`).
-/

namespace Nightingale.Mute

open List

/-! ## Cron windows -/

/-- What is taken from the cron library and the time zone database: a schedule gives, in a location,
the first firing after an instant. -/
structure CronLibrary where
  loadLocation : String → Except String String
  parse : String → Except String (String → ℤ → Option ℤ)

/-- `CompiledCron`. -/
structure CompiledCron where
  schedule : String → ℤ → Option ℤ
  location : String
  durationSec : ℤ

/-- `CompileCron`; without a time zone the location is `time.Local`. -/
def compileCron (lib : CronLibrary) (expr timezone : String) (durationSec : ℤ) :
    Except String CompiledCron :=
  if expr = "" then .error "cron expression is empty"
  else if durationSec ≤ 0 then .error "duration_sec must be > 0"
  else do
    let location ← if timezone = "" then .ok "Local"
      else (lib.loadLocation timezone).mapError fun err =>
        "invalid timezone " ++ timezone.quote ++ ": " ++ err
    let schedule ← (lib.parse expr).mapError fun err =>
      "invalid cron " ++ expr.quote ++ ": " ++ err
    return ⟨schedule, location, durationSec⟩

/-- `IsActive`; the duration in nanoseconds is an `int64`. -/
def CompiledCron.isActive (c : CompiledCron) (now : ℤ) : Bool :=
  match c.schedule c.location (now + (-c.durationSec * 10 ^ 9).bmod (2 ^ 64)) with
  | none => false
  | some fire => fire ≤ now

/-! ## Cron rules -/

/-- `CustomMuteCron`, with the fields its loading, its compilation and its matching read. -/
structure CustomMuteCron where
  id : ℤ
  groupId : ℤ := 0
  note : String := ""
  cronExpr : String
  durationSec : ℤ := 3600
  timezone : String := ""
  datasourceIds : String := ""
  datasourceIdsJson : List ℤ := []
  severities : String := ""
  severitiesJson : List ℤ := []
  tags : String := ""
  disabled : ℤ := 0

/-- `CompiledCronRule`. -/
structure CompiledCronRule where
  rule : CustomMuteCron
  cron : CompiledCron
  tagFilters : List TagFilter := []
  datasourceIds : List ℤ := []
  severities : List ℤ := []

/-- `decodeTagFilters`, the mute's copy. -/
def decodeTagFilters (ext : Externals) (raw : String) : Except String (List TagFilter) :=
  if raw = "" then .ok []
  else (ext.unmarshalFilters raw).bind (parseTagFilter ext)

/-- `matchAllTagFilters`, the mute's copy. -/
def matchAllTagFilters : GoMap String String → List TagFilter → Bool := Custom.matchAllTagFilters

/-- `CompileCronRule`. -/
def compileCronRule (ext : Externals) (lib : CronLibrary) :
    Option CustomMuteCron → Except String CompiledCronRule
  | none => .error "nil rule"
  | some raw => do
    let cron ← (compileCron lib raw.cronExpr raw.timezone raw.durationSec).mapError fun err =>
      "rule " ++ toString raw.id ++ ": " ++ err
    let tagFilters ← (decodeTagFilters ext raw.tags).mapError fun err =>
      "rule " ++ toString raw.id ++ " tags: " ++ err
    return ⟨raw, cron, tagFilters, raw.datasourceIdsJson, raw.severitiesJson⟩

/-- `CompiledCronRule.Match`. -/
def CompiledCronRule.matches (c : CompiledCronRule) (event : AlertCurEvent) (now : ℤ) : Bool :=
  if c.rule.disabled = 1 then false
  else if !Custom.inGroup c.rule.groupId event.groupId then false
  else if !Custom.inDatasources c.datasourceIds event.datasourceId then false
  else if c.severities ≠ [] ∧ event.severity ∉ c.severities then false
  else if c.tagFilters ≠ [] ∧ !matchAllTagFilters event.tagsMap c.tagFilters then false
  else c.cron.isActive now

/-! ## The emergency mute -/

/-- `EmergencyState`; by default it is off. -/
structure EmergencyState where
  enabled : Bool := false
  reason : String := ""
  expireAt : ℤ := 0
  datasourceIds : List ℤ := []
  groupIds : List ℤ := []
  deriving DecidableEq

/-- `EmergencyHolder.Match`: the reason, if the event is muted.  The scopes of datasources and of
groups have one form. -/
def EmergencyState.matches (s : EmergencyState) (event : AlertCurEvent) (now : ℤ) :
    Option String :=
  if !s.enabled then none
  else if s.expireAt > 0 ∧ s.expireAt < now / 10 ^ 9 then none
  else if !Custom.inDatasources s.datasourceIds event.datasourceId then none
  else if !Custom.inDatasources s.groupIds event.groupId then none
  else some s.reason

/-! ## The evaluator -/

/-- `MuteVerdict`. -/
structure MuteVerdict where
  muted : Bool := false
  reason : String := ""
  ruleId : ℤ := 0
  deriving DecidableEq

/-- The state `Evaluate` reads. -/
structure Evaluator where
  emergency : EmergencyState := {}
  cron : List CompiledCronRule := []

namespace Evaluator

variable (e : Evaluator) (now : ℤ)

/-- `Evaluate`. -/
def evaluate : Option AlertCurEvent → MuteVerdict
  | none => {}
  | some event =>
    match e.emergency.matches event now with
    | some reason => { muted := true, reason := "emergency mute: " ++ reason }
    | none =>
      match e.cron.find? fun rule => rule.matches event now with
      | some rule =>
        { muted := true, reason := "cron mute rule " ++ rule.rule.note, ruleId := rule.rule.id }
      | none => {}

/-- The event is muted by an operator: the emergency mute or some cron mute matches it. -/
def Mutes (event : AlertCurEvent) : Prop :=
  (e.emergency.matches event now).isSome ∨ ∃ rule ∈ e.cron, rule.matches event now

instance (event : AlertCurEvent) : Decidable (e.Mutes now event) :=
  inferInstanceAs (Decidable (_ ∨ _))

/-- **The verdict** says whether some mute matches. -/
theorem muted_evaluate_iff (event : AlertCurEvent) :
    (e.evaluate now (some event)).muted = true ↔ e.Mutes now event := by
  unfold evaluate Mutes
  cases hem : e.emergency.matches event now with
  | some reason => simp [hem]
  | none =>
    cases hfind : e.cron.find? fun rule => rule.matches event now with
    | some rule =>
      have hmem := mem_of_find?_eq_some hfind
      have hmatch := find?_some hfind
      simpa [hem, hfind] using ⟨rule, hmem, hmatch⟩
    | none => simpa [hem, hfind] using find?_eq_none.mp hfind

end Evaluator

end Nightingale.Mute
