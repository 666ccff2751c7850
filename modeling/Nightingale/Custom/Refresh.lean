import Nightingale.Denoise.Rule
import Nightingale.Lib.Run
import Nightingale.Mute.Evaluator
import Nightingale.Suppress.Inhibitor

/-!
# Custom/Refresh — reloading the configuration

The rules of aggregation, of inhibition and of the cron mutes are reloaded by one `Refresher`
(`internal/custom/refresher/refresher.go`), the emergency mute by a loop of its own
(`internal/custom/bootstrap/refreshing_providers.go`):

    rules       rows ──▸ stored        error ──▸ (kept)
    emergency   row  ──▸ stored        no row ──▸ off        error ──▸ off

`loadEmergencyMute` returns nil for a row that is missing and for a query that failed, and `Set`
takes nil for off.  So `reloads_kept_iff`: a failed load leaves the configuration as it was loaded
last, unless it is one of the emergency mute and the mute is on.
-/

namespace Nightingale.Custom

open Denoise Mute Suppress

/-! ## Columns -/

/-- `strconv.ParseInt(p, 10, 64)`. -/
def parseInt (p : String) : Option ℤ :=
  let digits (cs : List Char) : Option ℤ :=
    if cs ≠ [] ∧ cs.all Char.isDigit then
      some (cs.foldl (fun n c => 10 * n + (c.toNat - '0'.toNat : ℕ)) 0)
    else none
  let value : Option ℤ :=
    match p.toList with
    | '-' :: cs => (digits cs).map fun n => -n
    | '+' :: cs => digits cs
    | cs => digits cs
  value.filter fun n => -2 ^ 63 ≤ n ∧ n < 2 ^ 63

/-- `parseInt64CSV`: a JSON array, or numbers set apart by commas and spaces; what is no number is
left out. -/
def parseInt64CSV (unmarshalInts : String → Option (List ℤ)) (s : String) : List ℤ :=
  let s := trimSpace s
  if s = "" ∨ s = "null" then []
  else if s.toList.head? = some '[' then (unmarshalInts s).getD []
  else
    (Text.fields (fun c => c = ',' ∨ c = ' ') s.toList).filterMap fun cs =>
      parseInt (String.ofList cs)

/-- `parseIntCSV`; an `int` has 64 bits. -/
def parseIntCSV : (String → Option (List ℤ)) → String → List ℤ := parseInt64CSV

/-! ## Loads -/

/-- A row of the table of aggregation rules. -/
structure AggregateRow extends CustomAggregateRule where
  datasourceIds : String := ""
  severities : String := ""

/-- `CustomEmergencyMute`. -/
structure CustomEmergencyMute where
  enabled : ℤ := 0
  reason : String := ""
  expireAt : ℤ := 0
  datasourceIds : String := ""
  groupIds : String := ""

/-- What the query for the row of the emergency mute returns. -/
inductive RowQuery where
  | found (row : CustomEmergencyMute)
  | notFound
  | failed (err : String)

/-- What the loaders need of the libraries. -/
structure Loaders where
  ext : Externals
  cron : CronLibrary
  unmarshalInts : String → Option (List ℤ)

namespace Loaders

variable (l : Loaders)

/-- The loader of the aggregation rules. -/
def aggregateRules (rows : List AggregateRow) : List CustomAggregateRule :=
  rows.map fun row =>
    { row.toCustomAggregateRule with
      datasourceIdsJson := parseInt64CSV l.unmarshalInts row.datasourceIds
      severitiesJson := parseIntCSV l.unmarshalInts row.severities }

/-- The loader of the inhibit rules; a rule that does not compile is skipped. -/
def inhibitRules (rows : List InhibitRow) : List CompiledRule :=
  rows.filterMap fun row =>
    (compileRule l.ext (some { row with
      datasourceIdsJson := parseInt64CSV l.unmarshalInts row.datasourceIds })).toOption

/-- The loader of the cron mutes; a rule that does not compile is skipped. -/
def muteCronRules (rows : List CustomMuteCron) : List CompiledCronRule :=
  rows.filterMap fun row =>
    (compileCronRule l.ext l.cron (some { row with
      datasourceIdsJson := parseInt64CSV l.unmarshalInts row.datasourceIds
      severitiesJson := parseIntCSV l.unmarshalInts row.severities })).toOption

/-- `FromModel`, on the row with its columns parsed. -/
def fromModel (row : CustomEmergencyMute) : EmergencyState where
  enabled := row.enabled = 1
  reason := row.reason
  expireAt := row.expireAt
  datasourceIds := parseInt64CSV l.unmarshalInts row.datasourceIds
  groupIds := parseInt64CSV l.unmarshalInts row.groupIds

/-- `loadEmergencyMute`: nil for every error. -/
def loadEmergencyMute : RowQuery → Option EmergencyState
  | .found row => some (l.fromModel row)
  | .notFound | .failed _ => none

end Loaders

/-- `Refresher.tick`. -/
def Refresher.tick {α : Type} (current : List α) : Except String (List α) → List α
  | .error _ => current
  | .ok rows => rows

/-- `EmergencyHolder.Set`. -/
def EmergencyHolder.set (s : Option EmergencyState) : EmergencyState := s.getD {}

/-! ## Runs of loads -/

/-- The configuration; before the first load there are no rules, and the emergency mute is off. -/
structure Config where
  aggregate : List CustomAggregateRule := []
  inhibit : List CompiledRule := []
  cron : List CompiledCronRule := []
  emergency : EmergencyState := {}

/-- The configuration the hooks and the aggregator see, and the one loaded last: of each part, what
its last successful load has brought. -/
structure Providers where
  seen : Config := {}
  good : Config := {}

/-- A load of one part, with what the query returns. -/
inductive Reload where
  | aggregate (rows : Except String (List AggregateRow))
  | inhibit (rows : Except String (List InhibitRow))
  | cron (rows : Except String (List CustomMuteCron))
  | emergency (row : RowQuery)

/-- The query fails; a row that is missing is no failure. -/
def Reload.failed : Reload → Bool
  | .aggregate (.error _) | .inhibit (.error _) | .cron (.error _) | .emergency (.failed _) => true
  | _ => false

namespace Providers

variable (l : Loaders)

/-- What is seen after a load. -/
def reload (seen : Config) : Reload → Config
  | .aggregate rows =>
    { seen with aggregate := Refresher.tick seen.aggregate (rows.map l.aggregateRules) }
  | .inhibit rows => { seen with inhibit := Refresher.tick seen.inhibit (rows.map l.inhibitRules) }
  | .cron rows => { seen with cron := Refresher.tick seen.cron (rows.map l.muteCronRules) }
  | .emergency row => { seen with emergency := EmergencyHolder.set (l.loadEmergencyMute row) }

/-- What has been loaded last. -/
def record (good : Config) : Reload → Config
  | .aggregate (.ok rows) => { good with aggregate := l.aggregateRules rows }
  | .inhibit (.ok rows) => { good with inhibit := l.inhibitRules rows }
  | .cron (.ok rows) => { good with cron := l.muteCronRules rows }
  | .emergency (.found row) => { good with emergency := l.fromModel row }
  | .emergency .notFound => { good with emergency := {} }
  | .aggregate (.error _) | .inhibit (.error _) | .cron (.error _) | .emergency (.failed _) => good

/-- One load. -/
def step (s : Providers) (op : Reload) : Providers where
  seen := reload l s.seen op
  good := record l s.good op

/-- Of the part an operation loads, what is seen is what was loaded last; of the emergency mute,
which events it mutes. -/
def Shows (s : Providers) : Reload → Prop
  | .aggregate _ => s.seen.aggregate = s.good.aggregate
  | .inhibit _ => s.seen.inhibit = s.good.inhibit
  | .cron _ => s.seen.cron = s.good.cron
  | .emergency _ => ∀ event now,
      s.seen.emergency.matches event now = s.good.emergency.matches event now

/-- **A failed load keeps what was loaded last.** -/
def Keeps (s : Providers) (op : Reload) : Prop := op.failed = true → (s.step l op).Shows op

/-- The load is not one of the emergency mute that fails while the mute is on. -/
def OffOnError (s : Providers) : Reload → Prop
  | .emergency (.failed _) => s.good.emergency.enabled = false
  | _ => True

/-! ## When a failed load keeps what was there -/

/-- A mute that is off mutes nothing, and one that is on mutes something. -/
theorem matches_eq_off_iff (s : EmergencyState) :
    (∀ event now, ({} : EmergencyState).matches event now = s.matches event now) ↔
      s.enabled = false := by
  constructor
  · intro h
    by_contra hon
    have hscope : ∀ ids : List ℤ, Custom.inDatasources ids 0 = true := fun ids => by
      cases ids <;> simp [Custom.inDatasources]
    have hmatch : s.matches {} (s.expireAt * 10 ^ 9) = some s.reason := by
      simp [EmergencyState.matches, hscope, Bool.eq_true_of_not_eq_false hon]
    exact absurd ((h {} (s.expireAt * 10 ^ 9)).trans hmatch) (by simp [EmergencyState.matches])
  · intro hoff event now
    simp [EmergencyState.matches, hoff]

variable {l} {s : Providers}

/-- The rules seen are those loaded last. -/
structure Synced (s : Providers) : Prop where
  aggregate : s.seen.aggregate = s.good.aggregate
  inhibit : s.seen.inhibit = s.good.inhibit
  cron : s.seen.cron = s.good.cron

/-- **The three refreshers** keep what they see and what was loaded last together. -/
theorem Synced.step (hs : s.Synced) (op : Reload) : (s.step l op).Synced := by
  rcases op with rows | rows | rows | row
  · cases rows
    · exact ⟨hs.aggregate, hs.inhibit, hs.cron⟩
    · exact ⟨rfl, hs.inhibit, hs.cron⟩
  · cases rows
    · exact ⟨hs.aggregate, hs.inhibit, hs.cron⟩
    · exact ⟨hs.aggregate, rfl, hs.cron⟩
  · cases rows
    · exact ⟨hs.aggregate, hs.inhibit, hs.cron⟩
    · exact ⟨hs.aggregate, hs.inhibit, rfl⟩
  · cases row <;> exact ⟨hs.aggregate, hs.inhibit, hs.cron⟩

/-- **One load.** -/
theorem keeps_iff (hs : s.Synced) (op : Reload) : s.Keeps l op ↔ s.OffOnError op := by
  have hsynced : (s.step l op).Synced := hs.step op
  cases op with
  | aggregate rows => exact iff_of_true (fun _ => hsynced.aggregate) trivial
  | inhibit rows => exact iff_of_true (fun _ => hsynced.inhibit) trivial
  | cron rows => exact iff_of_true (fun _ => hsynced.cron) trivial
  | emergency row =>
    cases row with
    | found row | notFound => exact iff_of_true (fun h => by cases h) trivial
    | failed err => exact (forall_prop_of_true rfl).trans (matches_eq_off_iff s.good.emergency)

end Providers

/-- **When failed loads keep the configuration.**  At every load of every run: if it fails, it
leaves what the last successful load of its part has brought, unless it is a load of the emergency
mute and the last successful one has found the mute on. -/
theorem reloads_kept_iff (l : Loaders) (ops : List Reload) :
    Along (Providers.step l) (fun s op => s.Keeps l op ↔ s.OffOnError op) {} ops :=
  Along.of_invariant (I := Providers.Synced) (fun _ op hs => hs.step op)
    (fun _ op hs => Providers.keeps_iff hs op) ⟨rfl, rfl, rfl⟩ ops

namespace Example

/-- Libraries that know nothing. -/
def loaders : Loaders where
  ext :=
    { unmarshalStrings := fun _ => .ok []
      unmarshalFilters := fun _ => .ok []
      marshalMap := fun _ => ""
      compile := fun _ => .ok fun _ => false }
  cron :=
    { loadLocation := .ok
      parse := fun _ => .ok fun _ _ => none }
  unmarshalInts := fun _ => none

/-- The emergency mute is switched on, and then the database is away for a moment. -/
def hiccup : List Reload :=
  [.emergency (.found { enabled := 1, reason := "maintenance" }),
    .emergency (.failed "connection refused")]

end Example

open Custom.Example

/-- **A failed query switches the emergency mute off.**  The last row that was read has it on; after
the failure no event is muted. -/
theorem emergency_lost_on_error : (hiccup.map Reload.failed).getLast? = some true ∧
      (hiccup.foldl (Providers.step loaders) {}).good.emergency.matches {} 0
        = some "maintenance" ∧
      (hiccup.foldl (Providers.step loaders) {}).seen.emergency.matches {} 0
        = none := by
  decide

end Nightingale.Custom
