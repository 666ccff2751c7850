import Nightingale.Lib.Heap
import Nightingale.Models.Persist

/-!
# Process/Processor — the alert processor, its queue and its consumer

`alert/process/process.go` as explicit state passing.  A `World` is one `Processor` together with
what it shares with the rest of the process:

    Processor ──PushFront──▸ EventQueue ──PopBackBy──▸ Consumer ──EventPersist──▸ alert_cur_event
        └───────────────AlertCurEventDelByHash──────────────────────────────────────────▴

Events are heap cells, because the source shares them by pointer: one event can sit in `fires`,
`pendings`, `pendingsUseByRecover` and the queue at once, and a write through any of them is seen
through all.  The consumer runs beside the processor: wherever the processor touches the queue or
the table, `World.yield` first lets it take as many steps as the schedule `sched` says.

`log` is the history the theorems speak about; no function reads it.
-/

namespace Nightingale

/-- The `from` argument of `Handle`: the rule's own evaluation, or the HTTP interface. -/
inductive Source where
  | inner
  | http
  deriving DecidableEq, Repr

/-- What surrounds a processor and does not change: its datasource, and the functions it calls
that are not its own.  `fillTags` is the tag map and the joined tag text of a point, after the
rule's relabelling. -/
structure Env where
  datasourceId : ℤ
  engineName : String
  isCenter : Bool
  promEvalInterval : ℤ
  md5 : String → String
  metricString : Metric → String
  groupName : ℤ → String
  fillTags : AlertRule → AnomalyPoint → GoMap String String × String

/-- What happens around the processor at a yield point: consumer steps taken, and whether the
bounded queue has room. -/
structure Choice where
  drains : ℕ := 0
  room : Bool := true

/-- An entry of the history; of a push it says whether the queue took the event. -/
inductive Effect where
  | deliver (hash : Hash) (now : ℤ)
  | push (event : AlertCurEvent) (taken : Bool)
  | remove (hash : Hash) (now : ℤ) (seen : Option ℤ) (byRecover : Bool)

/-- `AlertCurEventMap`: events by hash, shared by reference. -/
abbrev EventMap := GoMap Hash Ref

/-- A processor, the event queue, the consumer and the tables.  `queue` has the newest event in
front, `batch` is what the consumer has popped and not yet persisted, oldest first. -/
structure World where
  heap : Heap AlertCurEvent := .empty
  rule : AlertRule
  inhibit : Bool := false
  fires : EventMap := ∅
  pendings : EventMap := ∅
  pendingsUseByRecover : EventMap := ∅
  queue : List Ref := []
  batch : List Ref := []
  tables : Tables := {}
  sched : ℕ → Choice := fun _ => {}
  tick : ℕ := 0
  log : List Effect := []

/-! ## The consumer -/

/-- `Consumer.persist` on the event a reference holds. -/
def Tables.persist (t : Tables) (event : AlertCurEvent) : Tables :=
  if event.status ≠ 0 then t else (eventPersist t event).1

namespace World

/-- A write to the event behind a reference. -/
def modify (w : World) (r : Ref) (f : AlertCurEvent → AlertCurEvent) : World :=
  { w with heap := w.heap.modify r f }

/-- One step of the consumer: persist the next event of its batch, or pop the next hundred. -/
def consumeStep (w : World) : World :=
  match w.batch with
  | r :: rest => { w with batch := rest, tables := w.tables.persist (w.heap.get r) }
  | [] =>
    { w with
      queue := w.queue.take (w.queue.length - 100)
      batch := (w.queue.drop (w.queue.length - 100)).reverse }

/-- `n` steps of the consumer. -/
def consume : ℕ → World → World
  | 0, w => w
  | n + 1, w => consume n w.consumeStep

/-- A point of the processor's code at which the consumer may run. -/
def yield (w : World) : World := consume (w.sched w.tick).drains { w with tick := w.tick + 1 }

/-- `AlertCurEventMap.UpdateLastEvalTime` on one of the three maps. -/
def updateLastEvalTime (w : World) (m : EventMap) (key : Hash) (lastEvalTime : ℤ) : World :=
  match m.lookup key with
  | none => w
  | some r => w.modify r fun e => { e with lastEvalTime := lastEvalTime }

/-- `queue.EventQueue.PushFront`; a full queue refuses the event. -/
def pushFront (w : World) (r : Ref) : World :=
  let room := (w.sched w.tick).room
  let w := w.yield
  if room then { w with queue := r :: w.queue } else w

/-- The event as it is sent: its sending time is its evaluation time. -/
def sent (e : AlertCurEvent) : AlertCurEvent := { e with lastSentTime := e.lastEvalTime }

/-- `Processor.pushEventToQueue`. -/
def pushEventToQueue (w : World) (r : Ref) : World :=
  let w :=
    if (w.heap.get r).isRecovered then w
    else { w.modify r sent with fires := w.fires.insert (w.heap.get r).hash r }
  pushFront { w with log := w.log ++ [Effect.push (w.heap.get r) (w.sched w.tick).room] } r

/-! ## Firing -/

/-- `Processor.fireEvent`. -/
def fireEvent (w : World) (r : Ref) : World :=
  let event := w.heap.get r
  match w.fires.lookup event.hash with
  | some f =>
    let w := w.updateLastEvalTime w.fires event.hash event.lastEvalTime
    let fired := w.heap.get f
    let w := w.modify r fun e => { e with firstTriggerTime := fired.firstTriggerTime }
    let again := w.modify r fun e => { e with notifyCurNumber := fired.notifyCurNumber + 1 }
    if w.rule.notifyRepeatStep = 0 then w
    else if (w.heap.get r).lastEvalTime ≥ fired.lastSentTime + w.rule.notifyRepeatStep * 60 then
      if w.rule.notifyMaxNumber = 0 then again.pushEventToQueue r
      else if fired.notifyCurNumber ≥ w.rule.notifyMaxNumber then w
      else again.pushEventToQueue r
    else w
  | none =>
    (w.modify r fun e =>
      { e with notifyCurNumber := 1, firstTriggerTime := e.triggerTime }).pushEventToQueue r

/-- `Processor.inhibitEvent`. -/
def inhibitEvent (w : World) (events : List Ref) (highSeverity : ℤ) : World :=
  events.foldl (fun w r =>
    if w.inhibit && decide ((w.heap.get r).severity > highSeverity) then w else w.fireEvent r) w

/-- The event a hash was last seen with, in `pendingsUseByRecover`. -/
def remember (w : World) (r : Ref) : World :=
  let event := w.heap.get r
  match w.pendingsUseByRecover.lookup event.hash with
  | some _ => w.updateLastEvalTime w.pendingsUseByRecover event.hash event.lastEvalTime
  | none => { w with pendingsUseByRecover := w.pendingsUseByRecover.insert event.hash r }

/-- The head of the loop of `handleEvent`: the event is remembered and takes the evaluation
interval. -/
def observe (env : Env) (w : World) (r : Ref) : World :=
  (w.remember r).modify r fun e => { e with promEvalInterval := env.promEvalInterval }

/-- The `pendings` part of the loop of `handleEvent`, with the evaluation time the pending spell
began at. -/
def pend (w : World) (r : Ref) : World × ℤ :=
  let event := w.heap.get r
  match w.pendings.lookup event.hash with
  | some p =>
    (w.updateLastEvalTime w.pendings event.hash event.lastEvalTime, (w.heap.get p).firstEvalTime)
  | none =>
    let w := w.modify r fun e => { e with firstEvalTime := e.lastEvalTime }
    ({ w with pendings := w.pendings.insert event.hash r }, event.lastEvalTime)

/-- What the loop of `handleEvent` accumulates: the events to fire and the highest priority among
them. -/
structure FireList where
  events : List Ref := []
  severity : ℤ := severityLowest

/-- An event added to the ones to fire. -/
def FireList.add (l : FireList) (r : Ref) (severity : ℤ) : FireList where
  events := l.events ++ [r]
  severity := if l.severity > severity then severity else l.severity

/-- What one iteration of the loop of `handleEvent` does with an event, and whether the event goes
on the list of those to fire. -/
def look (env : Env) (w : World) (r : Ref) : World × Bool :=
  let w := w.observe env r
  if w.rule.promForDuration = 0 then (w, true)
  else
    let p := w.pend r
    let event := p.1.heap.get r
    (p.1, decide (event.lastEvalTime - p.2 + event.promEvalInterval ≥ p.1.rule.promForDuration))

/-- One iteration of the loop of `handleEvent`. -/
def handleEventOne (env : Env) (acc : World × FireList) (r : Ref) : World × FireList :=
  let (w, due) := acc.1.look env r
  (w, if due then acc.2.add r (w.heap.get r).severity else acc.2)

/-- `Processor.handleEvent`. -/
def handleEvent (env : Env) (w : World) (events : List Ref) : World :=
  let acc := events.foldl (handleEventOne env) (w, {})
  acc.1.inhibitEvent acc.2.events acc.2.severity

/-! ## Recovering -/

/-- The evaluation time `pendingsUseByRecover` remembers of a hash. -/
def seen (w : World) (hash : Hash) : Option ℤ :=
  (w.pendingsUseByRecover.lookup hash).map fun r => (w.heap.get r).lastEvalTime

/-- The observation-window test of `RecoverSingle`: the alert is kept. -/
def held (w : World) (hash : Hash) (now : ℤ) : Bool :=
  decide (0 < w.rule.recoverDuration) &&
    match w.seen hash with
    | none => true
    | some t => decide (now - t < w.rule.recoverDuration)

/-- A firing event as `RecoverSingle` sends it: the recover point's values if it brought any, the
rule's fields as they are now, and the recovery's time. -/
def recovery (rule : AlertRule) (now : ℤ) (value : Option String) (values : List String)
    (event : AlertCurEvent) : AlertCurEvent :=
  let event := match value with
    | none => event
    | some v => { event with triggerValue := v, triggerValues := values.headD event.triggerValues }
  { rule.updateEvent event with isRecovered := true, lastEvalTime := now }

/-- `Processor.DeleteProcessEvent`. -/
def deleteProcessEvent (w : World) (hash : Hash) : World :=
  { w with
    fires := w.fires.erase hash
    pendings := w.pendings.erase hash
    pendingsUseByRecover := w.pendingsUseByRecover.erase hash }

/-- `Processor.RecoverSingle`. -/
def recoverSingle (w : World) (byRecover : Bool) (hash : Hash) (now : ℤ)
    (value : Option String) (values : List String) : World :=
  match w.fires.lookup hash with
  | none => w
  | some r =>
    if w.held hash now then w
    else if decide ((w.heap.get r).recoverConfig.judgeType ≠ .origin) && !byRecover then w
    else
      let w := { w.yield with log := w.log ++ [Effect.remove hash now (w.seen hash) byRecover] }
      let w := w.deleteProcessEvent hash
      (w.modify r (recovery w.rule now value values)).pushEventToQueue r

/-- The inhibited branch of `HandleRecoverEvent`: an alert outranked by another of the same tags
is dropped, row included, without a recovery. -/
def dropInhibited (w : World) (hash : Hash) (now : ℤ) : World :=
  let w := { w with
    log := w.log ++ [Effect.remove hash now (w.seen hash) false]
    fires := w.fires.erase hash
    pendings := w.pendings.erase hash }
  let w := w.yield
  { w with tables := w.tables.alertCurEventDelByHash hash }

/-- One iteration of the grouping loop of `HandleRecoverEvent`; `eventMap` holds copies of the
events. -/
def groupRecover (now : ℤ) (acc : World × GoMap String AlertCurEvent) (hash : Hash) :
    World × GoMap String AlertCurEvent :=
  match acc.1.fires.lookup hash with
  | none => acc
  | some r =>
    let event := acc.1.heap.get r
    match acc.2.lookup event.tags with
    | none => (acc.1, acc.2.insert event.tags event)
    | some e =>
      if e.severity > event.severity then
        (acc.1.dropInhibited e.hash now, acc.2.insert event.tags event)
      else acc

/-- `Processor.HandleRecoverEvent`. -/
def handleRecoverEvent (tagOrder : MapOrder String) (w : World) (hashArr : List Hash) (now : ℤ)
    (inhibit : Bool) : World :=
  if !inhibit then hashArr.foldl (fun w hash => w.recoverSingle false hash now none []) w
  else
    let acc := hashArr.foldl (groupRecover now) (w, ∅)
    (tagOrder.list acc.2.keys).foldl (fun w tags =>
      match acc.2.lookup tags with
      | none => w
      | some event => w.recoverSingle false event.hash now none []) acc.1

/-- The first loop of `HandleRecover`: a spell nobody delivered a point for ends. -/
def forget (order : MapOrder String) (w : World) (alertingKeys : List Hash) : World :=
  { w with
    pendings := (order.list w.pendings.keys).foldl
      (fun m hash => if hash ∈ alertingKeys then m else m.erase hash) w.pendings }

/-- `Processor.HandleRecover`. -/
def handleRecover (fireOrder tagOrder : MapOrder String) (w : World) (alertingKeys : List Hash)
    (now : ℤ) (inhibit : Bool) : World :=
  let w := w.forget fireOrder alertingKeys
  let hashArr := (fireOrder.list w.fires.keys).filter fun hash => hash ∉ alertingKeys
  w.handleRecoverEvent tagOrder hashArr now inhibit

end World

/-! ## Points -/

/-- `process.Hash`. -/
def pointHash (env : Env) (ruleId : ℤ) (point : AnomalyPoint) : Hash :=
  env.md5 (toString ruleId ++ "_" ++ env.metricString point.labels ++ "_"
    ++ toString env.datasourceId ++ "_" ++ toString point.severity ++ "_" ++ point.query)

/-- `process.TagHash`. -/
def tagHash (env : Env) (point : AnomalyPoint) : String := env.md5 (env.metricString point.labels)

/-- The trigger value `BuildEvent` shows: the values when several variables are listed, else
`nodata` or the rendered value. -/
def AnomalyPoint.triggerValue (point : AnomalyPoint) : String :=
  if 1 < point.values.toList.count '$' then point.values
  else if point.triggerType = .nodata then "nodata" else point.readableValue

/-- `Processor.BuildEvent`. -/
def buildEvent (env : Env) (rule : AlertRule) (point : AnomalyPoint) (src : Source) (now : ℤ) :
    AlertCurEvent :=
  let tags := env.fillTags rule point
  { rule.generateNewEvent with
    groupName := env.groupName rule.groupId
    triggerTime := point.timestamp
    tagsMap := tags.1
    datasourceId := env.datasourceId
    hash := pointHash env rule.id point
    triggerValue := point.triggerValue
    triggerValues := point.values
    tags := tags.2
    isRecovered := false
    severity := point.severity
    promQl := point.query
    recoverConfig := point.recoverConfig
    lastEvalTime := if src = .inner then now else point.timestamp
    targetIdent := (tags.1.lookup "ident").getD ""
    notifyRuleIds := rule.notifyRuleIds }

/-- A call of `Handle`.  `pipeline` is `HandleEventPipeline` on the event built from the `i`-th
point, `isMuted` and `eventMuteHook` the two mute tests on what it returns; the three orders are
the iteration orders of the maps the call ranges over. -/
structure HandleCall where
  cachedRule : Option AlertRule
  points : List AnomalyPoint
  src : Source
  inhibit : Bool
  now : ℤ
  pipeline : ℕ → AlertCurEvent → Option AlertCurEvent
  isMuted : ℕ → AlertCurEvent → Bool
  eventMuteHook : ℕ → AlertCurEvent → Bool
  groupOrder : MapOrder String
  fireOrder : MapOrder String
  tagOrder : MapOrder String

/-- What becomes of the `i`-th point of a call: the event that reaches `handleEvent`, unless the
pipeline drops it or a mute holds it back. -/
def HandleCall.screen (env : Env) (c : HandleCall) (rule : AlertRule) (i : ℕ)
    (point : AnomalyPoint) : Option AlertCurEvent :=
  match c.pipeline i (buildEvent env rule point c.src c.now) with
  | none => none
  | some event =>
    if c.isMuted i event then none
    else if c.eventMuteHook i event then none
    else some event

/-- What the point loop of `Handle` accumulates. -/
structure Collected where
  heap : Heap AlertCurEvent
  alertingKeys : List Hash := []
  eventsMap : GoMap String (List Ref) := ∅

/-- One iteration of the point loop of `Handle`. -/
def HandleCall.collectOne (env : Env) (c : HandleCall) (rule : AlertRule) (acc : Collected)
    (point : AnomalyPoint × ℕ) : Collected :=
  let alertingKeys := acc.alertingKeys ++ [pointHash env rule.id point.1]
  match c.screen env rule point.2 point.1 with
  | none => { acc with alertingKeys }
  | some event =>
    let key := tagHash env point.1
    let group := (acc.eventsMap.lookup key).getD []
    { heap := acc.heap.alloc event
      alertingKeys
      eventsMap := acc.eventsMap.insert key (group ++ [acc.heap.next]) }

/-- The point loop of `Handle`. -/
def HandleCall.collect (env : Env) (c : HandleCall) (rule : AlertRule) (heap : Heap AlertCurEvent) :
    Collected :=
  c.points.zipIdx.foldl (c.collectOne env rule) { heap }

/-- What the history records of the points of a call. -/
def HandleCall.delivered (env : Env) (c : HandleCall) (rule : AlertRule) : List Effect :=
  c.points.map fun point => Effect.deliver (pointHash env rule.id point) c.now

namespace World

/-- The state in which `Handle` has looked at every point and handled none. -/
def handleStart (env : Env) (w : World) (c : HandleCall) (rule : AlertRule) : World :=
  { w with
    inhibit := c.inhibit
    rule := rule
    heap := (c.collect env rule w.heap).heap
    log := w.log ++ c.delivered env rule }

/-- The loop of `Handle` over the groups of events. -/
def handleGroups (env : Env) (w : World) (c : HandleCall) (rule : AlertRule) : World :=
  let eventsMap := (c.collect env rule w.heap).eventsMap
  (c.groupOrder.list eventsMap.keys).foldl
    (fun w key => w.handleEvent env ((eventsMap.lookup key).getD [])) (w.handleStart env c rule)

/-- `Processor.Handle`. -/
def handle (env : Env) (w : World) (c : HandleCall) : World :=
  match c.cachedRule with
  | none => { w with inhibit := c.inhibit, log := w.log ++ c.delivered env w.rule }
  | some rule =>
    let alertingKeys := (c.collect env rule w.heap).alertingKeys
    let w := w.handleGroups env c rule
    if c.src = .inner then w.handleRecover c.fireOrder c.tagOrder alertingKeys c.now c.inhibit
    else w

end World

/-! ## Recover points -/

/-- The recover points an evaluation hands over before it calls `Handle`. -/
structure RecoverCall where
  points : List AnomalyPoint
  inhibit : Bool
  now : ℤ
  tagOrder : MapOrder String

namespace World

/-- The inhibited branch of `Eval`: a recover point outranked by another of the same labels drops
its alert, row included.  It is a removal if there was an alert or a row. -/
def deleteInhibited (w : World) (hash : Hash) (now : ℤ) : World :=
  let w' := (w.deleteProcessEvent hash).yield
  { w' with
    tables := w'.tables.alertCurEventDelByHash hash
    log :=
      if decide (hash ∈ w.fires) || w'.tables.alertCurEventExists hash then
        w.log ++ [Effect.remove hash now (w.seen hash) true]
      else w.log }

/-- One iteration of the merging loop over recover points in `Eval`. -/
def mergeRecover (env : Env) (now : ℤ) (acc : World × GoMap String AnomalyPoint)
    (point : AnomalyPoint) : World × GoMap String AnomalyPoint :=
  let key := tagHash env point
  match acc.2.lookup key with
  | none => (acc.1, acc.2.insert key point)
  | some p =>
    if p.severity > point.severity then
      (acc.1.deleteInhibited (pointHash env acc.1.rule.id p) now, acc.2.insert key point)
    else acc

/-- The part of `AlertRuleWorker.Eval` that hands the recover points to the processor. -/
def recoverPoints (env : Env) (w : World) (c : RecoverCall) : World :=
  if c.inhibit then
    let acc := c.points.foldl (mergeRecover env c.now) (w, ∅)
    (c.tagOrder.list acc.2.keys).foldl (fun w key =>
      match acc.2.lookup key with
      | none => w
      | some point =>
        w.recoverSingle true (pointHash env w.rule.id point) c.now (some point.value) []) acc.1
  else
    c.points.foldl (fun w point =>
      w.recoverSingle true (pointHash env w.rule.id point) c.now (some point.value) []) w

end World

/-! ## Restart -/

/-- A call of `RecoverAlertCurEventFromDb`: when it happens, whether the query fails, and the
caches it consults. -/
structure RestartCall where
  now : ℤ
  dbFails : Bool
  ruleCache : ℤ → Option AlertRule
  targetEngine : String → Option String

/-- The rows `RecoverAlertCurEventFromDb` skips: the rule is gone, or the host is another
engine's. -/
def RestartCall.skips (env : Env) (c : RestartCall) (row : AlertCurEvent) : Bool :=
  (c.ruleCache row.ruleId).isNone ||
    (decide (row.cate = HOST) &&
      match c.targetEngine row.targetIdent with
      | none => false
      | some engine =>
        decide (engine ≠ env.engineName) && !(env.isCenter && decide (engine = "")))

/-- The event a row becomes in memory: what the columns keep, through `DB2Mem`. -/
def RestartCall.reload (c : RestartCall) (row : AlertCurEvent) : AlertCurEvent :=
  { row.columns.db2Mem with
    notifyRuleIds := ((c.ruleCache row.ruleId).map (·.notifyRuleIds)).getD [] }

namespace World

/-- The rows of this rule and datasource, `AlertCurEventGetByRuleIdAndDsId`. -/
def curEvents (env : Env) (w : World) : List AlertCurEvent :=
  w.tables.cur.filter fun row => row.ruleId = w.rule.id ∧ row.datasourceId = env.datasourceId

/-- One iteration of the loop of `RecoverAlertCurEventFromDb`; the observation map gets a copy. -/
def reloadOne (env : Env) (c : RestartCall) (w : World) (row : AlertCurEvent) : World :=
  if c.skips env row then w
  else
    let event := c.reload row
    { w with
      heap := (w.heap.alloc event).alloc event
      fires := w.fires.insert event.hash w.heap.next
      pendingsUseByRecover := w.pendingsUseByRecover.insert event.hash (w.heap.next + 1) }

/-- `Processor.RecoverAlertCurEventFromDb`. -/
def recoverAlertCurEventFromDb (env : Env) (w : World) (c : RestartCall) : World :=
  let cleared := { w with pendings := ∅, pendingsUseByRecover := ∅, fires := ∅ }
  if c.dbFails then cleared else (w.curEvents env).foldl (reloadOne env c) cleared

end World

/-! ## Runs -/

/-- What can happen to a processor. -/
inductive Op where
  | handle (c : HandleCall)
  | recoverPoints (c : RecoverCall)
  | recoverSingle (byRecover : Bool) (hash : Hash) (now : ℤ) (value : Option String)
  | restart (c : RestartCall)
  | consume (steps : ℕ)

/-- When an operation happens; the consumer's steps have no time of their own. -/
def Op.time : Op → Option ℤ
  | .handle c => some c.now
  | .recoverPoints c => some c.now
  | .recoverSingle _ _ now _ => some now
  | .restart c => some c.now
  | .consume _ => none

namespace World

/-- One operation. -/
def step (env : Env) (w : World) : Op → World
  | .handle c => w.handle env c
  | .recoverPoints c => w.recoverPoints env c
  | .recoverSingle byRecover hash now value => w.recoverSingle byRecover hash now value []
  | .restart c => w.recoverAlertCurEventFromDb env c
  | .consume steps => consume steps w

/-- A run: operations one after another. -/
def run (env : Env) (w : World) (ops : List Op) : World := ops.foldl (step env) w

@[simp] theorem run_nil (env : Env) (w : World) : w.run env [] = w := rfl

@[simp] theorem run_concat (env : Env) (w : World) (ops : List Op) (op : Op) :
    w.run env (ops ++ [op]) = (w.run env ops).step env op := by simp [run]

end World

end Nightingale
