import Nightingale.Models.Event

/-!
# Models/Persist — `EventPersist` and the two event tables

`EventPersist` (`models/alert_his_event.go`) keeps `alert_cur_event` — one row per firing hash —
in step with the stream of events, and appends every event to `alert_his_event`.  It is four
separate statements, none inside a transaction:

    exists-by-hash ──▸ insert history ──▸ delete current by hash ──▸ insert current

`eventPersist` is the function as one caller sees it when nobody else writes; `PersistPc` and
`persistStep` are the same code one statement at a time, for callers that interleave.  Run alone
the second is the first (`persistStep_alone`).
-/

namespace Nightingale

open AlertCurEvent

/-- `models.AlertHisEvent`, as `ToHis` fills it. -/
structure AlertHisEvent where
  id : ℤ
  isRecovered : Bool
  cate : String
  datasourceId : ℤ
  groupId : ℤ
  groupName : String
  hash : Hash
  ruleId : ℤ
  ruleName : String
  ruleNote : String
  severity : ℤ
  promForDuration : ℤ
  promQl : String
  promEvalInterval : ℤ
  targetIdent : String
  triggerTime : ℤ
  triggerValue : String
  tags : String
  recoverTime : ℤ
  lastEvalTime : ℤ
  notifyCurNumber : ℤ
  firstTriggerTime : ℤ
  notifyRuleIds : List ℤ

/-- `AlertCurEvent.ToHis`, with the id the insert assigns. -/
def AlertCurEvent.toHis (event : AlertCurEvent) (id : ℤ) : AlertHisEvent where
  id := id
  isRecovered := event.isRecovered
  cate := event.cate
  datasourceId := event.datasourceId
  groupId := event.groupId
  groupName := event.groupName
  hash := event.hash
  ruleId := event.ruleId
  ruleName := event.ruleName
  ruleNote := event.ruleNote
  severity := event.severity
  promForDuration := event.promForDuration
  promQl := event.promQl
  promEvalInterval := event.promEvalInterval
  targetIdent := event.targetIdent
  triggerTime := event.triggerTime
  triggerValue := event.triggerValue
  tags := event.tags
  recoverTime := if event.isRecovered then event.lastEvalTime else 0
  lastEvalTime := event.lastEvalTime
  notifyCurNumber := event.notifyCurNumber
  firstTriggerTime := event.firstTriggerTime
  notifyRuleIds := event.notifyRuleIds

/-- The tables `alert_cur_event` and `alert_his_event`, rows in insertion order.  Neither has a
unique index on `hash`. -/
structure Tables where
  cur : List AlertCurEvent := []
  his : List AlertHisEvent := []

namespace Tables

/-- `AlertCurEventExists(ctx, "hash=?", hash)`. -/
def alertCurEventExists (t : Tables) (hash : Hash) : Bool := t.cur.any fun row => row.hash = hash

/-- The id the next insert into `alert_his_event` is given. -/
def nextHisId (t : Tables) : ℤ := t.his.length + 1

/-- `his.Add`. -/
def addHis (t : Tables) (event : AlertCurEvent) : Tables :=
  { t with his := t.his ++ [event.toHis t.nextHisId] }

/-- `AlertCurEventDelByHash`. -/
def alertCurEventDelByHash (t : Tables) (hash : Hash) : Tables :=
  { t with cur := t.cur.filter fun row => row.hash ≠ hash }

/-- `event.Add`: the columns of an event, under the id it carries. -/
def addCur (t : Tables) (event : AlertCurEvent) : Tables :=
  { t with cur := t.cur ++ [event.columns] }

/-- The rows `alert_cur_event` holds under a hash. -/
def rowsOf (t : Tables) (hash : Hash) : List AlertCurEvent :=
  t.cur.filter fun row => row.hash = hash

@[simp] theorem rowsOf_addHis (t : Tables) (event : AlertCurEvent) (hash : Hash) :
    (t.addHis event).rowsOf hash = t.rowsOf hash := rfl

@[simp] theorem rowsOf_alertCurEventDelByHash_self (t : Tables) (hash : Hash) :
    (t.alertCurEventDelByHash hash).rowsOf hash = [] := by
  simp [rowsOf, alertCurEventDelByHash]

theorem rowsOf_alertCurEventDelByHash_of_ne (t : Tables) {hash hash' : Hash} (hne : hash' ≠ hash) :
    (t.alertCurEventDelByHash hash).rowsOf hash' = t.rowsOf hash' := by
  simp only [rowsOf, alertCurEventDelByHash, List.filter_filter]
  refine List.filter_congr fun row _ => ?_
  by_cases hrow : row.hash = hash'
  · simp [hrow, hne]
  · simp [hrow]

theorem rowsOf_addCur (t : Tables) (event : AlertCurEvent) (hash : Hash) :
    (t.addCur event).rowsOf hash
      = t.rowsOf hash ++ if event.hash = hash then [event.columns] else [] := by
  by_cases h : event.hash = hash
  · simp [rowsOf, addCur, columns, h]
  · simp [rowsOf, addCur, columns, h]

theorem alertCurEventExists_eq_false_iff (t : Tables) (hash : Hash) :
    t.alertCurEventExists hash = false ↔ t.rowsOf hash = [] := by
  simp [alertCurEventExists, rowsOf, List.filter_eq_nil_iff]

end Tables

/-! ## The function -/

/-- `EventPersist`, every statement succeeding: the tables afterwards and the event, which takes
the history row's id. -/
def eventPersist (t : Tables) (event : AlertCurEvent) : Tables × AlertCurEvent :=
  let has := t.alertCurEventExists event.hash
  let hisId := t.nextHisId
  let t := t.addHis event
  let event' := { event with id := hisId }
  if has then
    let t := t.alertCurEventDelByHash event.hash
    if !event.isRecovered && decide (0 < hisId) then (t.addCur event', event') else (t, event')
  else if event.isRecovered then (t, event')
  else if 0 < hisId then (t.addCur event', event') else (t, event')

theorem nextHisId_pos (t : Tables) : 0 < t.nextHisId := by
  unfold Tables.nextHisId; omega

/-- **What one `EventPersist` leaves under each hash**: nothing under its own when it is a recovery,
its own columns when it is not, and every other hash as it was. -/
theorem rowsOf_eventPersist (t : Tables) (event : AlertCurEvent) (hash : Hash) :
    (eventPersist t event).1.rowsOf hash
      = if event.hash = hash then
          if event.isRecovered then [] else [{ event.columns with id := t.nextHisId }]
        else t.rowsOf hash := by
  have hpos := nextHisId_pos t
  by_cases hh : event.hash = hash
  · subst hh
    cases hhas : t.alertCurEventExists event.hash with
    | true =>
      cases hrec : event.isRecovered <;>
        simp [eventPersist, hhas, hrec, hpos, Tables.rowsOf_addCur, columns]
    | false =>
      have hnone := (Tables.alertCurEventExists_eq_false_iff t event.hash).mp hhas
      cases hrec : event.isRecovered <;>
        simp [eventPersist, hhas, hrec, hpos, Tables.rowsOf_addCur, columns, hnone]
  · have hne : hash ≠ event.hash := fun h => hh h.symm
    cases hhas : t.alertCurEventExists event.hash <;> cases hrec : event.isRecovered <;>
      simp [eventPersist, hhas, hrec, hpos, Tables.rowsOf_addCur, hh,
        Tables.rowsOf_alertCurEventDelByHash_of_ne _ hne]

/-! ## One statement at a time -/

/-- Where a running `EventPersist` stands: the statement it executes next, with what it has
learned. -/
inductive PersistPc where
  | exists
  | addHis (has : Bool)
  | delCur (hisId : ℤ)
  | addCur (hisId : ℤ)
  | done
  deriving DecidableEq, Repr

/-- The next statement of a running `EventPersist`.  The event is read where it stands now: its
fields are shared with the processor. -/
def persistStep (t : Tables) (event : AlertCurEvent) : PersistPc → Tables × PersistPc
  | .exists => (t, .addHis (t.alertCurEventExists event.hash))
  | .addHis has =>
    let hisId := t.nextHisId
    let t := t.addHis event
    if has then (t, .delCur hisId)
    else if event.isRecovered then (t, .done)
    else if 0 < hisId then (t, .addCur hisId) else (t, .done)
  | .delCur hisId =>
    let t := t.alertCurEventDelByHash event.hash
    if !event.isRecovered && decide (0 < hisId) then (t, .addCur hisId) else (t, .done)
  | .addCur hisId => (t.addCur { event with id := hisId }, .done)
  | .done => (t, .done)

/-- `n` statements in a row of one call. -/
def persistRun (event : AlertCurEvent) : ℕ → Tables × PersistPc → Tables × PersistPc
  | 0, s => s
  | n + 1, s => persistRun event n (persistStep s.1 event s.2)

/-- **Run alone, the four statements are `EventPersist`.** -/
theorem persistStep_alone (t : Tables) (event : AlertCurEvent) :
    persistRun event 4 (t, .exists) = ((eventPersist t event).1, .done) := by
  have hpos := nextHisId_pos t
  cases hhas : t.alertCurEventExists event.hash <;> cases hrec : event.isRecovered <;>
    simp [persistRun, persistStep, eventPersist, hhas, hrec, hpos]

/-! ## A statement that fails

Nothing rolls the earlier statements back: where a statement fails, `EventPersist` returns and
leaves the tables as they are. -/

/-- The four statements of `EventPersist`. -/
inductive Statement where
  | alertCurEventExists
  | hisAdd
  | alertCurEventDelByHash
  | eventAdd
  deriving DecidableEq, Repr

open Statement

/-- `EventPersist`, any of its statements failing with the error `fails` gives it: the tables, the
event and what is returned. -/
def eventPersistFailing (fails : Statement → Option String) (t : Tables) (event : AlertCurEvent) :
    Tables × AlertCurEvent × Except String Unit :=
  let ruleId := event.ruleId
  let hash := event.hash
  match fails .alertCurEventExists with
  | some err =>
    (t, event, .error s!"event_persist_check_exists_fail: {err} rule_id={ruleId} hash={hash}")
  | none =>
    let has := t.alertCurEventExists event.hash
    let hisId := t.nextHisId
    match fails .hisAdd with
    | some err => (t, event, .error s!"add his event error:{err}")
    | none =>
      let t := t.addHis event
      let event' := { event with id := hisId }
      if has then
        match fails .alertCurEventDelByHash with
        | some err => (t, event, .error s!"event_del_cur_fail: {err} hash={hash}")
        | none =>
          let t := t.alertCurEventDelByHash event.hash
          if !event.isRecovered && decide (0 < hisId) then
            match fails .eventAdd with
            | some err => (t, event', .error s!"add cur event err:{err}")
            | none => (t.addCur event', event', .ok ())
          else (t, event', .ok ())
      else if event.isRecovered then (t, event', .ok ())
      else if 0 < hisId then
        match fails .eventAdd with
        | some err => (t, event', .error s!"add cur event error:{err}")
        | none => (t.addCur event', event', .ok ())
      else (t, event', .ok ())

/-- Where no statement fails this is `EventPersist`, and it returns no error. -/
theorem eventPersistFailing_none (t : Tables) (event : AlertCurEvent) :
    eventPersistFailing (fun _ => none) t event
      = ((eventPersist t event).1, (eventPersist t event).2, .ok ()) := by
  simp only [eventPersistFailing, eventPersist]
  split_ifs <;> rfl

/-- The one statement `s` fails, with the error `err`. -/
def Statement.only (s : Statement) (err : String) : Statement → Option String :=
  fun s' => if s' = s then some err else none

/-- The hashes of `alert_cur_event`. -/
def Tables.hashes (t : Tables) : Finset Hash := (t.cur.map (·.hash)).toFinset

namespace Tables

variable (t : Tables) (event : AlertCurEvent)

theorem mem_hashes {hash : Hash} : hash ∈ t.hashes ↔ t.alertCurEventExists hash = true := by
  simp [hashes, alertCurEventExists]

@[simp] theorem hashes_addHis : (t.addHis event).hashes = t.hashes := rfl

theorem hash_notMem_hashes_alertCurEventDelByHash (hash : Hash) :
    hash ∉ (t.alertCurEventDelByHash hash).hashes := by
  simp [mem_hashes, alertCurEventExists, alertCurEventDelByHash]

end Tables

/-- **A failing statement loses no hash, unless** it is the insertion that was to put back the row
just deleted. -/
theorem hashes_kept_on_error_iff (t : Tables) (event : AlertCurEvent) (s : Statement)
    (err : String) : ((∃ e, (eventPersistFailing (s.only err) t event).2.2 = .error e) →
      (eventPersistFailing (s.only err) t event).1.hashes = t.hashes)
    ↔ ¬ (s = .eventAdd ∧ t.alertCurEventExists event.hash ∧ event.isRecovered = false) := by
  have hpos := nextHisId_pos t
  cases s with
  | alertCurEventExists | hisAdd => simp [eventPersistFailing, only]
  | alertCurEventDelByHash =>
    cases hhas : t.alertCurEventExists event.hash with
    | true => simp [eventPersistFailing, only, hhas]
    | false =>
      cases hrec : event.isRecovered <;>
        simp [eventPersistFailing, only, hhas, hrec, hpos]
  | eventAdd =>
    cases hrec : event.isRecovered with
    | true =>
      cases hhas : t.alertCurEventExists event.hash <;>
        simp [eventPersistFailing, only, hhas, hrec]
    | false =>
      cases hhas : t.alertCurEventExists event.hash with
      | false => simp [eventPersistFailing, only, hhas, hrec, hpos]
      | true =>
        have hin : event.hash ∈ t.hashes := t.mem_hashes.mpr hhas
        have hout := (t.addHis event).hash_notMem_hashes_alertCurEventDelByHash event.hash
        have hne : ((t.addHis event).alertCurEventDelByHash event.hash).hashes ≠ t.hashes :=
          fun heq => hout (heq ▸ hin)
        simpa [eventPersistFailing, only, hhas, hrec, hpos] using hne

/-- **The insertion fails after the deletion**: a repeated notification of a firing alert leaves
`alert_cur_event` without its row. -/
theorem firing_row_lost : ¬ ∀ (t : Tables) (event : AlertCurEvent) (s : Statement) (err : String),
      (∃ e, (eventPersistFailing (s.only err) t event).2.2 = .error e) →
        (eventPersistFailing (s.only err) t event).1.hashes = t.hashes := by
  intro h
  have hlost := h { cur := [{ hash := "a" }] } { hash := "a" } .eventAdd "timeout"
    ⟨"add cur event err:timeout", by rfl⟩
  exact absurd hlost (by decide)

end Nightingale
