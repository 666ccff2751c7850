import Nightingale.Lib.Table
import Nightingale.Denoise.Rule

/-!
# Denoise/Aggregator — events merged into incidents

`Aggregator.Handle` (`internal/custom/denoise/aggregator.go`) merges an event into the open incident
of its rule and key, or opens one.  It looks into an in-memory index first and into the table only
on a miss:

    rule, key ──index.Get──hit──────────────────────▸ merge
                   └──miss──▸ FindActiveIncident ──▸ Put, merge
                                     └──none──▸ CreateIncident, Put

The clock stands still within a call: the source reads it anew for the row, the entry and the
search, here these are one `now`.  Every statement may fail (`Faults`).  As a processor of a
pipeline (`processor/aggregate.go`) it drops the events that were merged, and passes every other.
-/

namespace Nightingale.Denoise

/-! ## The tables -/

/-- The status constants of `CustomIncident`. -/
inductive IncidentStatus where
  | open
  | resolved
  | closed
  deriving DecidableEq, Repr

/-- `CustomIncident`; the table holds the id. -/
structure CustomIncident where
  ruleId : ℤ
  incidentKey : String
  groupId : ℤ := 0
  datasourceId : ℤ := 0
  groupName : String := ""
  severity : ℤ := 0
  title : String := ""
  summary : String := ""
  dimensionValues : String := ""
  status : IncidentStatus := .open
  eventCount : ℤ := 0
  firstEventAt : ℤ := 0
  lastEventAt : ℤ := 0
  resolvedAt : ℤ := 0
  closedAt : ℤ := 0
  stormFired : Bool := false

/-- `CustomIncidentEvent`, the join between incidents and events. -/
structure CustomIncidentEvent where
  incidentId : ℕ
  eventHash : Hash
  eventId : ℤ
  isRecovered : Bool := false
  mergedAt : ℤ

/-- The two tables of the aggregation. -/
structure Database where
  incidents : Table CustomIncident := .empty
  links : Table CustomIncidentEvent := .empty

namespace Database

variable (db : Database)

/-- What `FindActiveIncident` asks of a row. -/
def Active (ruleId : ℤ) (incidentKey : String) (windowSec now : ℤ) (inc : CustomIncident) : Bool :=
  inc.ruleId = ruleId ∧ inc.incidentKey = incidentKey ∧ inc.status = .open ∧
    now - windowSec ≤ inc.lastEventAt

/-- `Repo.FindActiveIncident`. -/
def findActiveIncident (ruleId : ℤ) (incidentKey : String) (windowSec now : ℤ) :
    Option (ℕ × CustomIncident) :=
  (db.incidents.newest (Active ruleId incidentKey windowSec now)).filter fun inc => inc.1 ≠ 0

/-- The defaults `Repo.CreateIncident` fills in. -/
def stamp (now : ℤ) (inc : CustomIncident) : CustomIncident :=
  let first := if inc.firstEventAt = 0 then now else inc.firstEventAt
  { inc with
    firstEventAt := first
    lastEventAt := if inc.lastEventAt = 0 then first else inc.lastEventAt
    eventCount := if inc.eventCount = 0 then 1 else inc.eventCount
    status := .open }

/-- `Repo.CreateIncident`; the new row's id is `db.incidents.next`. -/
def createIncident (now : ℤ) (inc : CustomIncident) : Database :=
  { db with incidents := db.incidents.insert (stamp now inc) }

/-- The insertion of a join row. -/
def link (incidentId : ℕ) (event : AlertCurEvent) (now : ℤ) : Database :=
  { db with
    links := db.links.insert
      { incidentId := incidentId, eventHash := event.hash, eventId := event.id, mergedAt := now } }

/-- The update of `Repo.AppendEvent`. -/
def absorb (event : AlertCurEvent) (upgradeSeverity : Bool) (now : ℤ) (inc : CustomIncident) :
    CustomIncident :=
  { inc with
    lastEventAt := now
    eventCount := inc.eventCount + 1
    severity := if upgradeSeverity ∧ inc.severity > event.severity then event.severity
      else inc.severity }

/-- `Repo.AppendEvent`: one transaction, whatever the status of the incident. -/
def appendEvent (incidentId : ℕ) (event : AlertCurEvent) (upgradeSeverity : Bool) (now : ℤ) :
    Database :=
  link
    { db with
      incidents := db.incidents.update (fun id _ => id == incidentId)
        (absorb event upgradeSeverity now) }
    incidentId event now

/-- `Repo.MarkEventRecovered`. -/
def markEventRecovered (incidentId : ℕ) (eventHash : Hash) (now : ℤ) : Database :=
  let links := db.links.update
    (fun _ row => row.incidentId == incidentId && row.eventHash == eventHash)
    fun row => { row with isRecovered := true }
  if links.rows.any fun row => row.2.incidentId == incidentId && !row.2.isRecovered then
    { db with links := links }
  else
    { links := links
      incidents := db.incidents.update (fun id inc => id == incidentId && inc.status == .open)
        fun inc => { inc with status := .resolved, resolvedAt := now } }

/-- `Repo.MarkStormFired`, with the number of rows it changed compared to zero. -/
def markStormFired (incidentId : ℕ) : Bool × Database :=
  (db.incidents.rows.any fun row => row.1 == incidentId && !row.2.stormFired,
    { db with
      incidents := db.incidents.update (fun id inc => id == incidentId && !inc.stormFired)
        fun inc => { inc with stormFired := true } })

/-- `Router.incidentClose`: a resolved incident is closed as well. -/
def incidentClose (id : ℕ) (now : ℤ) : Database :=
  match db.incidents.get? id with
  | none => db
  | some existing =>
    if existing.status = .closed then db
    else
      { db with
        incidents := db.incidents.update (fun id' _ => id' == id)
          fun inc => { inc with status := .closed, closedAt := now } }

end Database

/-! ## The index -/

/-- `activeIncidentEntry`. -/
structure ActiveIncidentEntry where
  incidentId : ℕ
  lastEventAt : ℤ
  deriving DecidableEq

/-- `ActiveIncidentIndex`: rule id and key to the incident last seen open. -/
abbrev ActiveIncidentIndex := GoMap (ℤ × String) ActiveIncidentEntry

namespace ActiveIncidentIndex

/-- `Get`: an entry older than the window is a miss. -/
def get (idx : ActiveIncidentIndex) (now ruleId : ℤ) (key : String) (windowSec : ℤ) : Option ℕ :=
  match idx.lookup (ruleId, key) with
  | none => none
  | some e => if now - e.lastEventAt > windowSec then none else some e.incidentId

/-- `Put`. -/
def put (idx : ActiveIncidentIndex) (now ruleId : ℤ) (key : String) (incidentId : ℕ) :
    ActiveIncidentIndex :=
  idx.insert (ruleId, key) ⟨incidentId, now⟩

/-- `Forget`. -/
def forget (idx : ActiveIncidentIndex) (ruleId : ℤ) (key : String) : ActiveIncidentIndex :=
  idx.erase (ruleId, key)

/-- `Sweep`, with the number of entries evicted. -/
def sweep (idx : ActiveIncidentIndex) (order : MapOrder (ℤ × String)) (now maxAgeSec : ℤ) :
    ℕ × ActiveIncidentIndex :=
  let stale := fun _ (e : ActiveIncidentEntry) => decide (e.lastEventAt < now - maxAgeSec)
  ((order.doomed stale idx).length, order.deleteWhere stale idx)

end ActiveIncidentIndex

/-! ## Storms -/

/-- `StormDetector`: the times retained per incident. -/
abbrev StormDetector := GoMap ℕ (List ℤ)

/-- `StormDetector.Observe`: whether this event makes a storm, and what is retained. -/
def StormDetector.observe (s : StormDetector) (now : ℤ) (incidentId : ℕ) (threshold windowSec : ℤ) :
    Bool × StormDetector :=
  if threshold ≤ 0 then (false, s)
  else
    let kept := (((s.lookup incidentId).getD []).dropWhile fun t => t < now - windowSec) ++ [now]
    if (kept.length : ℤ) = threshold then (true, s.insert incidentId [])
    else (false, s.insert incidentId kept)

/-! ## The aggregator -/

/-- The verdict on one event. -/
inductive Decision where
  | passThrough
  | fireFirst
  | merged
  | storm
  deriving DecidableEq, Repr

/-- `Result`. -/
structure Result where
  decision : Decision := .passThrough
  incidentId : ℕ := 0
  ruleId : ℤ := 0
  reason : String := ""
  deriving DecidableEq

/-- The statements of one `Handle` call that fail, with their errors. -/
structure Faults where
  find : Option String := none
  append : Option String := none
  create : Option String := none
  link : Option String := none
  storm : Option String := none

/-- `Aggregator`, with the tables it works on. -/
structure Aggregator where
  rules : List CustomAggregateRule := []
  upgradeOn : Bool := true
  db : Database := {}
  index : ActiveIncidentIndex := ∅
  storm : StormDetector := ∅

namespace Aggregator

variable (ext : Externals) (a : Aggregator) (now : ℤ) (faults : Faults)

/-- The end of `Aggregator.merge`: count the event, and claim the storm if it makes one. -/
def observeStorm (rule : CustomAggregateRule) (incidentId : ℕ) : Result × Aggregator :=
  let merged : Result :=
    { decision := .merged, incidentId := incidentId, ruleId := rule.id
      reason := s!"merged into incident {incidentId}" }
  let (storm, detector) := a.storm.observe now incidentId rule.stormThreshold rule.stormWindowSec
  let a := { a with storm := detector }
  if storm ∧ faults.storm = none then
    let (fired, db) := a.db.markStormFired incidentId
    let a := { a with db := db }
    if fired then
      ({ merged with
          decision := .storm, reason := s!"storm threshold crossed on incident {incidentId}" }, a)
    else (merged, a)
  else (merged, a)

/-- `Aggregator.merge`.  The refresh after the append goes under the empty key. -/
def merge (event : AlertCurEvent) (rule : CustomAggregateRule) (incidentId : ℕ) :
    Except String Result × Aggregator :=
  match faults.append with
  | some err => (.error s!"append event to incident {incidentId}: {err}", a)
  | none =>
    let a := { a with
      db := a.db.appendEvent incidentId event a.upgradeOn now
      index := a.index.put now rule.id "" incidentId }
    let (result, a) := a.observeStorm now faults rule incidentId
    (.ok result, a)

/-- `Aggregator.createNew`.  Without its join row the incident is not entered in the index. -/
def createNew (event : AlertCurEvent) (rule : CustomAggregateRule) (dims : List String)
    (key : String) : Except String Result × Aggregator :=
  let dimVals := dimensionValuesMap event dims
  let inc : CustomIncident :=
    { ruleId := rule.id
      incidentKey := key
      groupId := event.groupId
      groupName := event.groupName
      datasourceId := event.datasourceId
      severity := event.severity
      title := buildTitle event dimVals
      summary := event.ruleNote
      dimensionValues := ext.marshalMap dimVals
      firstEventAt := now
      lastEventAt := now
      eventCount := 1 }
  match faults.create with
  | some err => (.error s!"create incident: {err}", a)
  | none =>
    let id := a.db.incidents.next
    let a := { a with db := a.db.createIncident now inc }
    let fireFirst : Result :=
      { decision := .fireFirst, incidentId := id, ruleId := rule.id
        reason := s!"created incident {id}" }
    match faults.link with
    | some err =>
      (.ok { fireFirst with reason := s!"created incident {id} (seed link failed: {err})" }, a)
    | none =>
      (.ok fireFirst,
        { a with
          db := a.db.link id event now
          index := a.index.put now rule.id key id })

/-- What an event that gets past the first checks of `Handle` is looked up by. -/
structure Slot where
  event : AlertCurEvent
  rule : CustomAggregateRule
  dims : List String
  key : String

/-- The first checks of `Aggregator.Handle`, which pass an event through. -/
def findSlot (rules : List CustomAggregateRule) (event : Option AlertCurEvent) :
    Except Result Slot :=
  match event with
  | none => .error { reason := "nil event" }
  | some event =>
    match selectBestRule ext event rules with
    | none => .error { reason := "no aggregate rule matched" }
    | some rule =>
      let id := rule.id
      match decodeStringSlice ext rule.dimensions with
      | .error err =>
        .error { ruleId := id, reason := s!"rule {id} has invalid dimensions: {err}" }
      | .ok [] => .error { ruleId := id, reason := s!"rule {id} has invalid dimensions: <nil>" }
      | .ok dims =>
        let key := buildIncidentKey event dims
        if key = "" then .error { ruleId := id, reason := "empty incident key" }
        else .ok { event := event, rule := rule, dims := dims, key := key }

/-- The index lookup of `Aggregator.Handle`. -/
def lookup (slot : Slot) : Option ℕ := a.index.get now slot.rule.id slot.key slot.rule.windowSec

/-- `Aggregator.Handle`, from the lookup on. -/
def resolve (slot : Slot) : Except String Result × Aggregator :=
  match a.lookup now slot with
  | some incidentId => a.merge now faults slot.event slot.rule incidentId
  | none =>
    match faults.find with
    | some err => (.error s!"find active incident: {err}", a)
    | none =>
      match a.db.findActiveIncident slot.rule.id slot.key slot.rule.windowSec now with
      | some existing =>
        { a with index := a.index.put now slot.rule.id slot.key existing.1 }.merge now faults
          slot.event slot.rule existing.1
      | none => a.createNew ext now faults slot.event slot.rule slot.dims slot.key

/-- `Aggregator.Handle`. -/
def handle (event : Option AlertCurEvent) : Except String Result × Aggregator :=
  match findSlot ext a.rules event with
  | .error result => (.ok result, a)
  | .ok slot => a.resolve ext now faults slot

/-- **What the first checks answer**: they pass the event through, or give its slot, with a key. -/
theorem findSlot_spec (rules : List CustomAggregateRule) (event : Option AlertCurEvent) :
    match findSlot ext rules event with
    | .error result => result.decision = .passThrough
    | .ok slot => event = some slot.event ∧ slot.key ≠ "" := by
  unfold findSlot
  cases event with
  | none => rfl
  | some event =>
    dsimp only
    cases selectBestRule ext event rules with
    | none => rfl
    | some rule =>
      dsimp only
      rcases decodeStringSlice ext rule.dimensions with err | _ | ⟨dim, dims⟩
      · rfl
      · rfl
      · dsimp only
        split_ifs with hkey
        · rfl
        · exact ⟨rfl, hkey⟩

variable {rules : List CustomAggregateRule} {event : Option AlertCurEvent}

variable {ext} in
theorem of_findSlot_ok {slot : Slot} (h : findSlot ext rules event = .ok slot) :
    event = some slot.event ∧ slot.key ≠ "" := by
  simpa only [h] using findSlot_spec ext rules event

variable {ext} in
theorem decision_of_findSlot {result : Result} (h : findSlot ext rules event = .error result) :
    result.decision = .passThrough := by
  simpa only [h] using findSlot_spec ext rules event

end Aggregator

/-! ## The pipeline processor -/

/-- `AggregateConfig`; any mode but `annotate` drops merged events. -/
structure AggregateConfig where
  mode : String := ""

namespace AggregateConfig

/-- What `AggregateConfig.Process` makes of the answer of `Handle`: the event it leaves in the
context, and its message. -/
def conclude (c : AggregateConfig) (event : AlertCurEvent) :
    Except String Result → Option AlertCurEvent × String
  | .error err => (some event, s!"aggregation error: {err} (passed through)")
  | .ok res =>
    match res.decision with
    | .passThrough | .fireFirst => (some event, res.reason)
    | .merged | .storm =>
      if c.mode = "annotate" then
        (some { event with tagsMap := event.tagsMap.insert "incident_id" s!"{res.incidentId}" },
          res.reason)
      else (none, res.reason)

/-- `AggregateConfig.Process`, with the aggregator that has been wired, if one has. -/
def process (ext : Externals) (c : AggregateConfig) (now : ℤ) (faults : Faults)
    (agg : Option Aggregator) (event : Option AlertCurEvent) :
    (Option AlertCurEvent × String) × Option Aggregator :=
  match agg with
  | none => ((event, "aggregator not initialized; pass-through"), none)
  | some agg =>
    match event with
    | none => ((none, "no event to aggregate"), some agg)
    | some event =>
      let (answer, agg) := agg.handle ext now faults (some event)
      (c.conclude event answer, some agg)

end AggregateConfig

/-! ## A small aggregator -/

namespace Example

/-- Every rule groups by `host`, and no rule has filters. -/
def ext : Externals where
  unmarshalStrings _ := .ok ["host"]
  unmarshalFilters _ := .ok []
  marshalMap _ := ""
  compile _ := .ok fun _ => false

end Example

end Nightingale.Denoise
