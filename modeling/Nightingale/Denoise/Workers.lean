import Nightingale.Lib.Run
import Nightingale.Denoise.Aggregator

/-!
# Denoise/Workers — `Aggregator.Handle` one step at a time

Workers of several centers call `Handle` at once.  They share the tables; a center's workers share
its index and its storm detector.  A call is a sequence of **turns**, one per access to anything
shared, and the turns of different calls interleave at will:

    lookup ─hit──────────────────────▸ append ▸ refresh ▸ observe ─▸ merged
       └miss▸ find ─found─▸ adopt ───────▴                  └▸ markStorm ─▸ storm, merged
                └none▸ create ▸ link ▸ enter ─▸ fireFirst

Beside them operators close incidents, in two statements, and events are marked recovered.
`turn` is the next turn of a call; run alone, the turns of a call are `Aggregator.Handle`
(`turnsAlone_eq`).  `Turns` lists what a turn can do, and every invariant of the later modules is
read off it.
-/

namespace Nightingale.Denoise

open Aggregator Table

/-! ## Calls -/

/-- What the workers of one center share, besides the tables. -/
structure Center where
  upgradeOn : Bool := true
  index : ActiveIncidentIndex := ∅
  storm : StormDetector := ∅

/-- Where a call of `Handle` stands: what it does next, with what it has learned. -/
inductive Pc where
  | lookup (slot : Slot)
  | find (slot : Slot)
  | adopt (slot : Slot) (incidentId : ℕ)
  | append (slot : Slot) (incidentId : ℕ)
  | refresh (slot : Slot) (incidentId : ℕ)
  | observe (slot : Slot) (incidentId : ℕ)
  | markStorm (slot : Slot) (incidentId : ℕ)
  | create (slot : Slot)
  | link (slot : Slot) (incidentId : ℕ) (now : ℤ)
  | enter (slot : Slot) (incidentId : ℕ)
  | returned (result : Except String Result)

/-- A call: the center it runs on, the event it was given, and where it stands. -/
structure Call where
  center : ℕ
  event : Option AlertCurEvent
  pc : Pc

/-- An entry of the history. -/
inductive Entry where
  | delivered (event : Option AlertCurEvent)
  | missed (call : ℕ)
  | created (call incidentId : ℕ) (slot : Slot)
  | linked (incidentId : ℕ) (slot : Slot)
  | unlinked (incidentId : ℕ)
  | appended (call incidentId : ℕ) (slot : Slot)
  | returned (call : ℕ) (result : Except String Result)

/-- The incident `createNew` builds. -/
def Aggregator.Slot.incident (ext : Externals) (slot : Slot) (now : ℤ) : CustomIncident :=
  let dimVals := dimensionValuesMap slot.event slot.dims
  { ruleId := slot.rule.id
    incidentKey := slot.key
    groupId := slot.event.groupId
    groupName := slot.event.groupName
    datasourceId := slot.event.datasourceId
    severity := slot.event.severity
    title := buildTitle slot.event dimVals
    summary := slot.event.ruleNote
    dimensionValues := ext.marshalMap dimVals
    firstEventAt := now
    lastEventAt := now
    eventCount := 1 }

namespace Result

/-- The answer to an event that was merged. -/
def mergedInto (slot : Slot) (incidentId : ℕ) : Result where
  decision := .merged
  incidentId := incidentId
  ruleId := slot.rule.id
  reason := s!"merged into incident {incidentId}"

/-- The answer to an event that made a storm. -/
def stormOn (slot : Slot) (incidentId : ℕ) : Result where
  decision := .storm
  incidentId := incidentId
  ruleId := slot.rule.id
  reason := s!"storm threshold crossed on incident {incidentId}"

/-- The answer to an event that opened an incident. -/
def firstOf (slot : Slot) (incidentId : ℕ) (reason : String) : Result where
  decision := .fireFirst
  incidentId := incidentId
  ruleId := slot.rule.id
  reason := reason

end Result

/-- What a turn leaves: the tables, the center, where the call stands, and what is recorded. -/
structure Turn where
  db : Database
  center : Center
  pc : Pc
  entries : List Entry := []

/-- A call returns. -/
def Turn.finish (db : Database) (center : Center) (call : ℕ) (result : Except String Result)
    (entries : List Entry := []) : Turn where
  db := db
  center := center
  pc := .returned result
  entries := entries ++ [.returned call result]

/-- The next turn of a call, taken at `now`; its statement fails if there is a `fault`. -/
def turn (ext : Externals) (db : Database) (center : Center) (call : ℕ) (now : ℤ)
    (fault : Option String) : Pc → Turn
  | .lookup slot =>
    match center.index.get now slot.rule.id slot.key slot.rule.windowSec with
    | some incidentId => { db := db, center := center, pc := .append slot incidentId }
    | none => { db := db, center := center, pc := .find slot }
  | .find slot =>
    match fault with
    | some err => .finish db center call (.error s!"find active incident: {err}")
    | none =>
      match db.findActiveIncident slot.rule.id slot.key slot.rule.windowSec now with
      | some existing => { db := db, center := center, pc := .adopt slot existing.1 }
      | none => { db := db, center := center, pc := .create slot, entries := [.missed call] }
  | .adopt slot incidentId =>
    { db := db
      center := { center with index := center.index.put now slot.rule.id slot.key incidentId }
      pc := .append slot incidentId }
  | .append slot incidentId =>
    match fault with
    | some err => .finish db center call (.error s!"append event to incident {incidentId}: {err}")
    | none =>
      { db := db.appendEvent incidentId slot.event center.upgradeOn now
        center := center
        pc := .refresh slot incidentId
        entries := [.appended call incidentId slot] }
  | .refresh slot incidentId =>
    { db := db
      center := { center with index := center.index.put now slot.rule.id "" incidentId }
      pc := .observe slot incidentId }
  | .observe slot incidentId =>
    let (storm, detector) :=
      center.storm.observe now incidentId slot.rule.stormThreshold slot.rule.stormWindowSec
    let center := { center with storm := detector }
    if storm then { db := db, center := center, pc := .markStorm slot incidentId }
    else .finish db center call (.ok (.mergedInto slot incidentId))
  | .markStorm slot incidentId =>
    match fault with
    | some _ => .finish db center call (.ok (.mergedInto slot incidentId))
    | none =>
      let (fired, db) := db.markStormFired incidentId
      if fired then .finish db center call (.ok (.stormOn slot incidentId))
      else .finish db center call (.ok (.mergedInto slot incidentId))
  | .create slot =>
    match fault with
    | some err => .finish db center call (.error s!"create incident: {err}")
    | none =>
      { db := db.createIncident now (slot.incident ext now)
        center := center
        pc := .link slot db.incidents.next now
        entries := [.created call db.incidents.next slot] }
  | .link slot incidentId created =>
    match fault with
    | some err =>
      .finish db center call
        (.ok (.firstOf slot incidentId
          s!"created incident {incidentId} (seed link failed: {err})"))
        [.unlinked incidentId]
    | none =>
      { db := db.link incidentId slot.event created
        center := center
        pc := .enter slot incidentId
        entries := [.linked incidentId slot] }
  | .enter slot incidentId =>
    .finish db { center with index := center.index.put now slot.rule.id slot.key incidentId } call
      (.ok (.firstOf slot incidentId s!"created incident {incidentId}"))
  | .returned result => { db := db, center := center, pc := .returned result }

/-! ## Run alone -/

/-- The fault of the statement a call executes next. -/
@[simp] def Faults.at (faults : Faults) : Pc → Option String
  | .find _ => faults.find
  | .append .. => faults.append
  | .markStorm .. => faults.storm
  | .create _ => faults.create
  | .link .. => faults.link
  | _ => none

/-- `n` turns in a row of one call. -/
@[simp] def turnsAlone (ext : Externals) (call : ℕ) (now : ℤ) (faults : Faults) :
    ℕ → Database × Center × Pc → Database × Center × Pc
  | 0, s => s
  | n + 1, s =>
    let t := turn ext s.1 s.2.1 call now (faults.at s.2.2) s.2.2
    turnsAlone ext call now faults n (t.db, t.center, t.pc)

/-- The aggregator of a center. -/
@[simp] def Center.aggregator (center : Center) (rules : List CustomAggregateRule) (db : Database) :
    Aggregator where
  rules := rules
  upgradeOn := center.upgradeOn
  db := db
  index := center.index
  storm := center.storm

/-- What is left of an aggregator when it returns. -/
@[simp] def outcome (r : Except String Result × Aggregator) : Database × Center × Pc :=
  (r.2.db, { upgradeOn := r.2.upgradeOn, index := r.2.index, storm := r.2.storm }, .returned r.1)

section Alone

variable (ext : Externals) (call : ℕ) (now : ℤ) (faults : Faults)

@[simp] theorem turnsAlone_returned (n : ℕ) (db : Database) (center : Center)
    (result : Except String Result) :
    turnsAlone ext call now faults n (db, center, .returned result)
      = (db, center, .returned result) := by
  induction n with
  | zero => rfl
  | succ n ih => exact ih

variable (rules : List CustomAggregateRule) (slot : Slot) (db : Database) (center : Center)

/-- From its append on, a call alone is `Aggregator.merge`. -/
theorem turnsAlone_append (incidentId n : ℕ) :
    turnsAlone ext call now faults (n + 4) (db, center, .append slot incidentId)
      = outcome
          ((center.aggregator rules db).merge now faults slot.event slot.rule incidentId) := by
  cases happ : faults.append with
  | some err => simp [turn, happ, Turn.finish, merge]
  | none =>
    cases hobs : center.storm.observe now incidentId slot.rule.stormThreshold
        slot.rule.stormWindowSec with
    | mk storm detector =>
      cases storm with
      | false => simp [turn, happ, hobs, Turn.finish, merge, observeStorm, Result.mergedInto]
      | true =>
        cases hstorm : faults.storm with
        | some err =>
          simp [turn, happ, hobs, hstorm, Turn.finish, merge, observeStorm, Result.mergedInto]
        | none =>
          cases hfired : ((db.appendEvent incidentId slot.event center.upgradeOn
              now).markStormFired incidentId).1 <;>
            simp [turn, happ, hobs, hstorm, hfired, Turn.finish, merge, observeStorm,
              Result.mergedInto, Result.stormOn]

/-- From its creation on, a call alone is `Aggregator.createNew`. -/
theorem turnsAlone_create (n : ℕ) :
    turnsAlone ext call now faults (n + 3) (db, center, .create slot)
      = outcome ((center.aggregator rules db).createNew ext now faults slot.event slot.rule
          slot.dims slot.key) := by
  cases hcreate : faults.create with
  | some err => simp [turn, hcreate, Turn.finish, createNew]
  | none =>
    cases hlink : faults.link <;>
      simp [turn, hcreate, hlink, Turn.finish, createNew, Slot.incident, Result.firstOf]

/-- **Run alone, the turns of a call are `Aggregator.Handle`.** -/
theorem turnsAlone_eq : turnsAlone ext call now faults 7 (db, center, .lookup slot)
      = outcome ((center.aggregator rules db).resolve ext now faults slot) := by
  rw [turnsAlone]
  cases hget : center.index.get now slot.rule.id slot.key slot.rule.windowSec with
  | some incidentId =>
    simp only [turn, hget]
    rw [turnsAlone_append ext call now faults rules]
    simp [resolve, lookup, hget]
  | none =>
    simp only [turn, hget]
    rw [turnsAlone]
    cases hfault : faults.find with
    | some err => simp [turn, hfault, Turn.finish, resolve, lookup, hget]
    | none =>
      cases hfind : db.findActiveIncident slot.rule.id slot.key slot.rule.windowSec now with
      | some existing =>
        simp only [turn, Faults.at, hfault, hfind]
        rw [turnsAlone]
        simp only [turn]
        rw [turnsAlone_append ext call now faults rules]
        simp [resolve, lookup, hget, hfault, hfind]
      | none =>
        simp only [turn, Faults.at, hfault, hfind]
        rw [turnsAlone_create ext call now faults rules]
        simp [resolve, lookup, hget, hfault, hfind]

end Alone

/-! ## What a turn can do -/

/-- **Every way a turn can go**: from where the call stood to the tables, the center, where it
stands then and what was recorded. -/
inductive Turns (ext : Externals) (db : Database) (center : Center) (call : ℕ) (now : ℤ) :
    Pc → Turn → Prop
  | hit {slot : Slot} {incidentId : ℕ}
      (h : center.index.get now slot.rule.id slot.key slot.rule.windowSec = some incidentId) :
      Turns ext db center call now (.lookup slot) ⟨db, center, .append slot incidentId, []⟩
  | miss {slot : Slot} :
      Turns ext db center call now (.lookup slot) ⟨db, center, .find slot, []⟩
  | found {slot : Slot} {existing : ℕ × CustomIncident}
      (h : db.findActiveIncident slot.rule.id slot.key slot.rule.windowSec now = some existing) :
      Turns ext db center call now (.find slot) ⟨db, center, .adopt slot existing.1, []⟩
  | absent {slot : Slot}
      (h : db.findActiveIncident slot.rule.id slot.key slot.rule.windowSec now = none) :
      Turns ext db center call now (.find slot) ⟨db, center, .create slot, [.missed call]⟩
  | adopt {slot : Slot} {incidentId : ℕ} :
      Turns ext db center call now (.adopt slot incidentId)
        ⟨db, { center with index := center.index.put now slot.rule.id slot.key incidentId },
          .append slot incidentId, []⟩
  | append {slot : Slot} {incidentId : ℕ} :
      Turns ext db center call now (.append slot incidentId)
        ⟨db.appendEvent incidentId slot.event center.upgradeOn now, center,
          .refresh slot incidentId, [.appended call incidentId slot]⟩
  | refresh {slot : Slot} {incidentId : ℕ} :
      Turns ext db center call now (.refresh slot incidentId)
        ⟨db, { center with index := center.index.put now slot.rule.id "" incidentId },
          .observe slot incidentId, []⟩
  | storm {slot : Slot} {incidentId : ℕ} {detector : StormDetector} :
      Turns ext db center call now (.observe slot incidentId)
        ⟨db, { center with storm := detector }, .markStorm slot incidentId, []⟩
  | quiet {slot : Slot} {incidentId : ℕ} {detector : StormDetector} :
      Turns ext db center call now (.observe slot incidentId)
        (.finish db { center with storm := detector } call (.ok (.mergedInto slot incidentId)))
  | claimed {slot : Slot} {incidentId : ℕ} (h : (db.markStormFired incidentId).1 = true) :
      Turns ext db center call now (.markStorm slot incidentId)
        (.finish (db.markStormFired incidentId).2 center call (.ok (.stormOn slot incidentId)))
  | lost {slot : Slot} {incidentId : ℕ} (h : (db.markStormFired incidentId).1 = false) :
      Turns ext db center call now (.markStorm slot incidentId)
        (.finish (db.markStormFired incidentId).2 center call (.ok (.mergedInto slot incidentId)))
  | unmarked {slot : Slot} {incidentId : ℕ} :
      Turns ext db center call now (.markStorm slot incidentId)
        (.finish db center call (.ok (.mergedInto slot incidentId)))
  | create {slot : Slot} :
      Turns ext db center call now (.create slot)
        ⟨db.createIncident now (slot.incident ext now), center, .link slot db.incidents.next now,
          [.created call db.incidents.next slot]⟩
  | link {slot : Slot} {incidentId : ℕ} {created : ℤ} :
      Turns ext db center call now (.link slot incidentId created)
        ⟨db.link incidentId slot.event created, center, .enter slot incidentId,
          [.linked incidentId slot]⟩
  | unlinked {slot : Slot} {incidentId : ℕ} {created : ℤ} {reason : String} :
      Turns ext db center call now (.link slot incidentId created)
        (.finish db center call (.ok (.firstOf slot incidentId reason)) [.unlinked incidentId])
  | enter {slot : Slot} {incidentId : ℕ} {reason : String} :
      Turns ext db center call now (.enter slot incidentId)
        (.finish db { center with index := center.index.put now slot.rule.id slot.key incidentId }
          call (.ok (.firstOf slot incidentId reason)))
  | findFails {slot : Slot} {err : String} :
      Turns ext db center call now (.find slot) (.finish db center call (.error err))
  | appendFails {slot : Slot} {incidentId : ℕ} {err : String} :
      Turns ext db center call now (.append slot incidentId)
        (.finish db center call (.error err))
  | createFails {slot : Slot} {err : String} :
      Turns ext db center call now (.create slot) (.finish db center call (.error err))
  | done {result : Except String Result} :
      Turns ext db center call now (.returned result) ⟨db, center, .returned result, []⟩

open Turns

theorem turns_turn (ext : Externals) (db : Database) (center : Center) (call : ℕ) (now : ℤ)
    (fault : Option String) (pc : Pc) :
    Turns ext db center call now pc (turn ext db center call now fault pc) := by
  cases pc with
  | lookup slot =>
    cases h : center.index.get now slot.rule.id slot.key slot.rule.windowSec with
    | some incidentId => simpa only [turn, h] using hit h
    | none => simpa only [turn, h] using miss
  | find slot =>
    cases fault with
    | some err => exact findFails
    | none =>
      cases h : db.findActiveIncident slot.rule.id slot.key slot.rule.windowSec now with
      | some existing => simpa only [turn, h] using found h
      | none => simpa only [turn, h] using absent h
  | adopt slot incidentId => exact adopt
  | append slot incidentId =>
    cases fault with
    | some err => exact appendFails
    | none => exact append
  | refresh slot incidentId => exact refresh
  | observe slot incidentId =>
    cases h : center.storm.observe now incidentId slot.rule.stormThreshold
        slot.rule.stormWindowSec with
    | mk storm detector =>
      cases storm with
      | true => simpa only [turn, h, if_true] using Turns.storm
      | false => simpa only [turn, h, Bool.false_eq_true, if_false] using quiet
  | markStorm slot incidentId =>
    cases fault with
    | some err => exact unmarked
    | none =>
      cases h : (db.markStormFired incidentId).1 with
      | true => simpa only [turn, h, if_true] using claimed h
      | false => simpa only [turn, h, Bool.false_eq_true, if_false] using lost h
  | create slot =>
    cases fault with
    | some err => exact createFails
    | none => exact create
  | link slot incidentId created =>
    cases fault with
    | some err => exact unlinked
    | none => exact link
  | enter slot incidentId => exact enter
  | returned result => exact done

/-! ## The statements, incident by incident -/

namespace Database

variable (db : Database) (i : ℕ)

theorem get?_createIncident (now : ℤ) (inc : CustomIncident) :
    (db.createIncident now inc).incidents.get? i
      = if i = db.incidents.next then some (stamp now inc) else db.incidents.get? i :=
  get?_insert _ i

theorem get?_appendEvent (id : ℕ) (event : AlertCurEvent) (up : Bool) (now : ℤ) :
    (db.appendEvent id event up now).incidents.get? i
      = (db.incidents.get? i).map fun inc => if i = id then absorb event up now inc else inc := by
  have h := get?_update (t := db.incidents) (fun id' _ => id' == id) (absorb event up now) i
  simp only [beq_iff_eq] at h
  exact h

theorem get?_markStormFired (id : ℕ) : (db.markStormFired id).2.incidents.get? i
      = (db.incidents.get? i).map fun inc =>
          if i = id then { inc with stormFired := true } else inc := by
  have h := get?_update (t := db.incidents) (fun id' inc => id' == id && !inc.stormFired)
    (fun inc => { inc with stormFired := true }) i
  refine h.trans (Option.map_congr fun inc _ => ?_)
  by_cases hi : i = id
  · cases hf : inc.stormFired with
    | true => rw [← hf]; simp [hi]
    | false => simp [hi]
  · simp [hi]

end Database

/-! ## The cluster -/

/-- Everything at once: the tables, the centers, the calls started so far, the closes that have read
their incident and not yet updated it, and the time. -/
structure Cluster where
  db : Database := {}
  centers : ℕ → Center := fun _ => {}
  calls : List Call := []
  closing : List ℕ := []
  clock : ℤ := 0
  history : List Entry := []

/-- The update of `Router.incidentClose`. -/
def Database.setClosed (db : Database) (id : ℕ) (now : ℤ) : Database :=
  { db with
    incidents := db.incidents.update (fun id' _ => id' == id)
      fun inc => { inc with status := .closed, closedAt := now } }

/-- What `Router.incidentClose` reads before it decides to update. -/
def Database.closable (db : Database) (id : ℕ) : Bool :=
  (db.incidents.get? id).any fun existing => decide (existing.status ≠ .closed)

/-- Run alone, the two statements are `Router.incidentClose`. -/
theorem Database.incidentClose_eq (db : Database) (id : ℕ) (now : ℤ) :
    db.incidentClose id now = if db.closable id then db.setClosed id now else db := by
  unfold incidentClose closable
  cases db.incidents.get? id with
  | none => rfl
  | some existing => by_cases h : existing.status = .closed <;> simp [h, setClosed]

/-- What can happen next.  A turn says what its call reads off the clock. -/
inductive Action where
  | start (center : ℕ) (rules : List CustomAggregateRule) (event : Option AlertCurEvent)
  | turn (call : ℕ) (now : ℤ) (fault : Option String)
  | close (id : ℕ)
  | closeUpdate (close : ℕ) (now : ℤ)
  | markEventRecovered (id : ℕ) (hash : Hash) (now : ℤ)
  | sweep (center : ℕ) (order : MapOrder (ℤ × String)) (now maxAgeSec : ℤ)
  | tick (seconds : ℕ)

namespace Cluster

variable (ext : Externals)

/-- The cluster after a turn of a call. -/
def after (s : Cluster) (i : ℕ) (call : Call) (t : Turn) : Cluster :=
  { s with
    db := t.db
    centers := Function.update s.centers call.center t.center
    calls := s.calls.set i { call with pc := t.pc }
    history := s.history ++ t.entries }

/-- One action. -/
def step (s : Cluster) : Action → Cluster
  | .start center rules event =>
    match findSlot ext rules event with
    | .error result =>
      { s with
        calls := s.calls ++ [⟨center, event, .returned (.ok result)⟩]
        history := s.history ++ [.delivered event, .returned s.calls.length (.ok result)] }
    | .ok slot =>
      { s with
        calls := s.calls ++ [⟨center, event, .lookup slot⟩]
        history := s.history ++ [.delivered event] }
  | .turn i now fault =>
    match s.calls[i]? with
    | none => s
    | some call => s.after i call (turn ext s.db (s.centers call.center) i now fault call.pc)
  | .close id => if s.db.closable id then { s with closing := s.closing ++ [id] } else s
  | .closeUpdate close now =>
    match s.closing[close]? with
    | none => s
    | some id => { s with db := s.db.setClosed id now, closing := s.closing.eraseIdx close }
  | .markEventRecovered id hash now => { s with db := s.db.markEventRecovered id hash now }
  | .sweep center order now maxAgeSec =>
    { s with
      centers := Function.update s.centers center
        { s.centers center with
          index := ((s.centers center).index.sweep order now maxAgeSec).2 } }
  | .tick seconds => { s with clock := s.clock + seconds }

/-- A run: actions one after another. -/
def run (s : Cluster) (actions : List Action) : Cluster := actions.foldl (step ext) s

@[simp] theorem run_nil (s : Cluster) : s.run ext [] = s := rfl

@[simp] theorem run_concat (s : Cluster) (actions : List Action) (a : Action) :
    s.run ext (actions ++ [a]) = (s.run ext actions).step ext a := by simp [run]

end Cluster

/-! ## A small cluster -/

namespace Example

/-- One rule, grouping by host. -/
def rules : List CustomAggregateRule := [{ id := 7, dimensions := "[\"host\"]" }]

/-- An event of one host. -/
def alert (hash : Hash) (severity : ℤ) : AlertCurEvent :=
  { hash := hash, severity := severity, tagsMap := Finmap.singleton "host" "db" }

/-- A worker of a center starts on an event. -/
def begins (center : ℕ) (hash : Hash) (severity : ℤ) : Action :=
  .start center rules (some (alert hash severity))

/-- `n` turns of a call, in a row and without a fault. -/
def takes (n call : ℕ) (now : ℤ) : List Action := List.replicate n (.turn call now none)

end Example

end Nightingale.Denoise
