import Nightingale.Lib.HashJoin
import Nightingale.Models.Event

/-!
# Eval/Series — series, joins, triggers and missing data

`GetAnomalyPoint` of `alert/eval/eval.go`, the evaluation of every rule that is not a Prometheus or
a host rule.

    QueryData ─▸ seriesStore, seriesTagIndexes ─ProcessJoins▸ groups ─▸ points, recoverPoints
                     └──────────────── LastSeriesStore ────────────────▸ no-data points

A series is known by a hash of its labels and its query, and a group is a list of such hashes.  The
loop over the groups sorts each in place, and a group may be the very slice an index holds; a later
trigger then finds it sorted.  So a `Group` knows which slice it is, if it is one.

Hashes are natural numbers, as are the numbers `flatten` counts groups with; floating-point numbers
are rational.  What is not of this repository is a field of `Tools`.
-/

namespace Nightingale

/-! ## Series -/

/-- Names in alphabetical order, as `sort.Strings` has them. -/
def alphabetical : MapOrder String := MapOrder.sortBy fun a b : String => a ≤ b

/-- The labels in alphabetical order. -/
def Metric.pairs (m : Metric) : List (String × String) :=
  (alphabetical.list m.keys).map fun k => (k, m.get k)

/-- The labels but the metric's name. -/
def Metric.tags (m : Metric) : List (String × String) := m.pairs.filter fun p => p.1 ≠ "__name__"

namespace Eval

open Text GoMap

/-- `models.DataResp`. -/
structure DataResp where
  ref : String := ""
  metric : Metric := ∅
  values : List (List ℚ) := []
  query : String := ""
  deriving DecidableEq

namespace DataResp

/-- `DataResp.Last`: the last time and value, if they are a time and a value. -/
def last (d : DataResp) : Option (ℚ × ℚ) :=
  match d.values.getLast? with
  | some [t, v] => some (t, v)
  | _ => none

/-- `DataResp.MetricName`. -/
def metricName (d : DataResp) : String := d.metric.get "__name__"

end DataResp

/-- `int64` of a floating-point number. -/
def toInt64 (x : ℚ) : ℤ := if 0 ≤ x then ⌊x⌋ else ⌈x⌉

/-! ## Hashes -/

/-- The text a list of labels is hashed as. -/
def labelText (pairs : List (String × String)) : String :=
  String.join (pairs.map fun p => "/" ++ p.1 ++ "/" ++ p.2)

section Hashes

variable (sum64 : String → ℕ)

/-- `hash.GetHash`. -/
def getHash (m : Metric) (ref : String) : ℕ := sum64 (labelText m.pairs ++ "/" ++ ref)

/-- `hash.GetTagHash`. -/
def getTagHash (m : Metric) : ℕ := sum64 (labelText m.tags)

/-- `hash.GetTargetTagHash`. -/
def getTargetTagHash (m : Metric) (target : List String) : ℕ :=
  sum64 (labelText (target.map fun k => (k, m.get k)))

end Hashes

/-! ## Rules -/

/-- `Join.JoinType`. -/
inductive JoinType where
  | original
  | none
  | cartesian
  | innerJoin
  | leftJoin
  | rightJoin
  | leftExclude
  | rightExclude
  | other (name : String)
  deriving DecidableEq, Repr

/-- `models.Join`. -/
structure Join where
  joinType : JoinType
  ref : String
  on : List String := []
  deriving DecidableEq, Repr

/-- `models.Trigger`. -/
structure Trigger where
  exp : String := ""
  severity : ℤ := 0
  joins : List Join := []
  joinRef : String := ""
  recoverConfig : RecoverConfig := {}
  deriving DecidableEq, Repr

/-- `models.NodataTrigger`. -/
structure NodataTrigger where
  enable : Bool := false
  severity : ℤ := 0
  resolveAfterEnable : Bool := false
  resolveAfter : ℤ := 0
  deriving DecidableEq, Repr

/-- A query of a rule: the name `GetQueryRef` finds in it, if any, and its unit. -/
structure Query where
  ref : Option String
  unit : String := ""
  deriving DecidableEq, Repr

/-- `models.RuleQuery`. -/
structure RuleQuery where
  inhibit : Bool := false
  queries : List Query := []
  expTriggerDisable : Bool := false
  triggers : List Trigger := []
  nodataTrigger : NodataTrigger := {}
  deriving DecidableEq, Repr

/-- A value the expression engine is given: a number or a text. -/
inductive Datum where
  | number (x : ℚ)
  | text (s : String)
  deriving DecidableEq

/-- What is not of this repository: the hash function, the expression engine, and what is rendered
as text. -/
structure Tools where
  sum64 : String → ℕ
  mathCalc : String → GoMap String Datum → Except String ℚ
  valueFormatter : String → ℚ → String
  fixed3 : ℚ → String
  sprint : ℚ → String
  readable : ℚ → String
  sprintQuery : Option String → Trigger → String
  metricString : Metric → String
  formatTime : ℤ → String

/-! ## The store and the indexes -/

/-- `seriesStore`. -/
abbrev Store := GoMap ℕ DataResp

/-- A list of series, and the slice of an index it shares its memory with. -/
structure Group where
  members : List ℕ
  slice : Option (String × ℕ) := none
  deriving DecidableEq

/-- `seriesTagIndex`: groups of one query, by the hash of their tags. -/
abbrev TagIndex := GoMap ℕ Group

/-- `seriesTagIndexes`, by query. -/
abbrev Indexes := GoMap String TagIndex

/-- One series entered in the store and the index of its query. -/
def addSeries (sum64 : String → ℕ) (ref : Option String) (acc : Store × TagIndex)
    (series : DataResp) : Store × TagIndex :=
  let seriesHash := getHash sum64 series.metric series.ref
  let tagHash := getTagHash sum64 series.metric
  let members := ((acc.2.lookup tagHash).map (·.members)).getD []
  (acc.1.insert seriesHash series,
    acc.2.insert tagHash ⟨members ++ [seriesHash], ref.map fun r => (r, tagHash)⟩)

/-- The series of one query entered; a query without a name leaves no index. -/
def addQuery (sum64 : String → ℕ) (acc : Store × Indexes) (answer : Query × List DataResp) :
    Store × Indexes :=
  let added := answer.2.foldl (addSeries sum64 answer.1.ref) (acc.1, ∅)
  (added.1, answer.1.ref.elim acc.2 fun ref => acc.2.insert ref added.2)

/-- The store and the indexes of an evaluation. -/
def collect (sum64 : String → ℕ) (answers : List (Query × List DataResp)) : Store × Indexes :=
  answers.foldl (addQuery sum64) (∅, ∅)

/-! ## Joins -/

/-- `mergeNewArray`. -/
def mergeNewArray (arg : List Group) : Group := ⟨(arg.map (·.members)).flatten, none⟩

/-- The groups of a query, regrouped: lists of groups by hash. -/
abbrev Rehashed := GoMap ℕ (List Group)

/-- The first series of a group. -/
def firstSeries (store : Store) (members : List ℕ) : Option DataResp :=
  members.head?.bind fun h => store.lookup h

/-- `rehashSet`. -/
def rehashSet (sum64 : String → ℕ) (order : MapOrder ℕ) (seriesTagIndex : TagIndex)
    (store : Store) (on : List String) : Rehashed :=
  HashJoin.fileUnder (fun g : Group =>
    (firstSeries store g.members).map fun series => getTargetTagHash sum64 series.metric on)
    (order.values seriesTagIndex)

/-- `flatten`. -/
def flatten (order : MapOrder ℕ) (rehashed : Rehashed) : TagIndex :=
  number ((order.list rehashed.keys).flatMap fun k => (rehashed.lookup k).getD [])

/-- Every pair of two lists of groups, in `onJoin`. -/
def mergePairs (l l' : List Group) : List Group :=
  HashJoin.pairs (fun g g' => mergeNewArray [g, g']) l l'

/-- `onJoin`; `inner` drops what has no partner. -/
def onJoin (order : MapOrder ℕ) (rehashed₁ rehashed₂ : Rehashed) (inner : Bool) : Rehashed :=
  build order rehashed₁.keys fun rehash =>
    match rehashed₁.lookup rehash, rehashed₂.lookup rehash with
    | some l, some l' => if mergePairs l l' = [] then none else some (mergePairs l l')
    | some l, none => if inner then none else some l
    | none, _ => none

/-- `exclude`. -/
def exclude (order : MapOrder ℕ) (rehashed₁ rehashed₂ : Rehashed) : Rehashed :=
  build order rehashed₁.keys fun rehash =>
    if rehash ∈ rehashed₂ then none else rehashed₁.lookup rehash

/-- `cartesianJoin`; the inner loop may go another way every time. -/
def cartesianJoin (order : MapOrder ℕ) (inner : ℕ → MapOrder ℕ) (index₁ index₂ : TagIndex) :
    TagIndex :=
  number ((order.values index₁).zipIdx.flatMap fun g =>
    ((inner g.2).values index₂).map fun g' => mergeNewArray [g.1, g'])

/-- `noneJoin`. -/
def noneJoin (order₁ order₂ : MapOrder ℕ) (index₁ index₂ : TagIndex) : TagIndex :=
  number (order₁.values index₁ ++ order₂.values index₂)

/-- `originalJoin`. -/
def originalJoin (order : MapOrder ℕ) (index₁ index₂ : TagIndex) : TagIndex :=
  build order (index₁.keys ∪ index₂.keys) fun tagHash =>
    match index₁.lookup tagHash, index₂.lookup tagHash with
    | some g, some g' => some (mergeNewArray [g, g'])
    | some g, none => some (mergeNewArray [g])
    | none, some g' => some (mergeNewArray [g'])
    | none, none => none

/-- The orders in which the loops of one trigger visit their maps: `join i j` is loop `j` of the
`i`-th join. -/
structure Orders where
  refs : MapOrder String
  rehash : MapOrder ℕ
  join : ℕ → ℕ → MapOrder ℕ
  groups : MapOrder ℕ
  vars : MapOrder String

/-- The running result of `ProcessJoins`, flat and regrouped. -/
structure Joined where
  last : TagIndex
  lastRehashed : Rehashed

/-- One join of `ProcessJoins`. -/
def processJoin (sum64 : String → ℕ) (order : ℕ → MapOrder ℕ) (indexes : Indexes) (store : Store)
    (acc : Joined) (join : Join) : Joined :=
  let cur := (indexes.lookup join.ref).getD ∅
  let curRehashed := rehashSet sum64 (order 0) cur store join.on
  let regroup (rehashed : Rehashed) : Joined := ⟨flatten (order 1) rehashed, rehashed⟩
  match join.joinType with
  | .original => { acc with last := originalJoin (order 0) acc.last cur }
  | .none => { acc with last := noneJoin (order 0) (order 1) acc.last cur }
  | .cartesian => { acc with last := cartesianJoin (order 0) (fun i => order (i + 1)) acc.last cur }
  | .innerJoin => regroup (onJoin (order 2) acc.lastRehashed curRehashed true)
  | .leftJoin => regroup (onJoin (order 2) acc.lastRehashed curRehashed false)
  | .rightJoin => regroup (onJoin (order 2) curRehashed acc.lastRehashed false)
  | .leftExclude => regroup (exclude (order 2) acc.lastRehashed curRehashed)
  | .rightExclude => regroup (exclude (order 2) curRehashed acc.lastRehashed)
  | .other _ => acc

/-- `ProcessJoins`. -/
def processJoins (sum64 : String → ℕ) (o : Orders) (trigger : Trigger) (indexes : Indexes)
    (store : Store) : TagIndex :=
  match trigger.joins with
  | [] =>
    match o.refs.values indexes with
    | [] => ∅
    | index :: rest => rest.foldl (originalJoin o.rehash) index
  | first :: rest =>
    if indexes.keys.card < (first :: rest).length + 1 then ∅
    else
      let last := (indexes.lookup trigger.joinRef).getD ∅
      ((first :: rest).zipIdx.foldl (fun acc join =>
        processJoin sum64 (o.join join.2) indexes store acc join.1)
        ⟨last, rehashSet sum64 o.rehash last store first.on⟩).last

/-! ## Triggers -/

/-- What the loop over the members of a group gathers. -/
structure Reading where
  m : GoMap String Datum := ∅
  valuesUnit : GoMap String String := ∅
  ts : ℤ := 0
  sample : DataResp := {}
  value : ℚ := 0

/-- The labels of a series that an expression names. -/
def addLabels (exp : String) (series : DataResp) (m : GoMap String Datum) : GoMap String Datum :=
  series.metric.tags.foldl (fun m p =>
    let name := "$" ++ series.ref ++ "." ++ p.1
    if containsText exp name then m.insert name (.text p.2) else m) m

/-- One member of a group: skipped if the store does not have it, if it has no last value, or if
the expression does not name its query. -/
def Reading.add (tools : Tools) (store : Store) (unitMap : GoMap String String) (exp : String)
    (acc : Reading) (seriesHash : ℕ) : Reading :=
  match store.lookup seriesHash with
  | none => acc
  | some series =>
    match series.last with
    | none => acc
    | some (t, v) =>
      if !containsText exp ("$" ++ series.ref) then acc
      else
        let name := "$" ++ series.ref ++ "." ++ series.metricName
        { m := addLabels exp series
            ((acc.m.insert ("$" ++ series.ref) (.number v)).insert name (.number v))
          valuesUnit := (unitMap.lookup series.ref).elim acc.valuesUnit fun u =>
            acc.valuesUnit.insert name (tools.valueFormatter u v)
          ts := toInt64 t
          sample := series
          value := v }

/-- The members of a group as the loop visits them: sorted. -/
def Group.sorted (g : Group) : List ℕ := g.members.insertionSort (· ≤ ·)

/-- The loop over the members of a group. -/
def reading (tools : Tools) (store : Store) (unitMap : GoMap String String) (exp : String)
    (g : Group) : Reading :=
  g.sorted.foldl (Reading.add tools store unitMap exp) {}

/-- `parser.CalcWithRid`: an expression that cannot be evaluated does not hold. -/
def calcWithRid (tools : Tools) (exp : String) (m : GoMap String Datum) : Bool :=
  match tools.mathCalc exp m with
  | .error _ => false
  | .ok v => decide (0 < v)

/-- The values a point shows. -/
def valuesText (tools : Tools) (vars : MapOrder String) (r : Reading) : String :=
  String.join ((vars.list r.m.keys).map fun k =>
    if !containsText k "." then ""
    else
      match r.valuesUnit.lookup k, r.m.lookup k with
      | some text, _ => k ++ ":" ++ text ++ " "
      | none, some (.number v) => k ++ ":" ++ tools.fixed3 v ++ " "
      | none, some (.text s) => k ++ ":" ++ s ++ " "
      | none, none => "")

/-- The point of a group. -/
def Reading.point (tools : Tools) (vars : MapOrder String) (trigger : Trigger) (r : Reading) :
    AnomalyPoint where
  labels := r.sample.metric
  timestamp := r.ts
  value := tools.sprint r.value
  readableValue := ((vars.values r.valuesUnit).head?).getD (tools.readable r.value)
  severity := trigger.severity
  query := tools.sprintQuery (if r.sample.query = "" then none else some r.sample.query) trigger
  values := valuesText tools vars r
  recoverConfig := trigger.recoverConfig

/-- What a group comes to. -/
inductive Outcome where
  | point (p : AnomalyPoint)
  | recoverPoint (p : AnomalyPoint)
  | neither
  deriving DecidableEq

namespace Outcome

/-- The anomaly point, if it is one. -/
def point? : Outcome → Option AnomalyPoint
  | .point p => some p
  | _ => none

/-- The recover point, if it is one. -/
def recoverPoint? : Outcome → Option AnomalyPoint
  | .recoverPoint p => some p
  | _ => none

end Outcome

/-- A turn of the loop over the groups of a trigger. -/
structure Turn where
  trigger : Trigger
  order : MapOrder String
  group : Group

/-- What a turn appends, and to which list. -/
def Turn.outcome (tools : Tools) (store : Store) (unitMap : GoMap String String) (turn : Turn) :
    Outcome :=
  let r := reading tools store unitMap turn.trigger.exp turn.group
  let p := r.point tools turn.order turn.trigger
  if calcWithRid tools turn.trigger.exp r.m then .point p
  else
    match turn.trigger.recoverConfig.judgeType with
    | .recoverOnCondition =>
      if calcWithRid tools turn.trigger.recoverConfig.recoverExp r.m then .recoverPoint p
      else .neither
    | _ => .recoverPoint p

/-- `sort.Slice` on a group, as the index sees it that holds the slice. -/
def sortSlice (indexes : Indexes) (g : Group) : Indexes :=
  match g.slice with
  | none => indexes
  | some (ref, tagHash) =>
    (indexes.lookup ref).elim indexes fun index =>
      (index.lookup tagHash).elim indexes fun held =>
        indexes.insert ref (index.insert tagHash { held with members := held.sorted })

/-- The turns of the loop over the triggers, from the `i`-th on. -/
def turnsFrom (tools : Tools) (orders : ℕ → Orders) (store : Store) :
    ℕ → Indexes → List Trigger → List Turn
  | _, _, [] => []
  | i, indexes, trigger :: triggers =>
    let groups := (orders i).groups.values
      (processJoins tools.sum64 (orders i) trigger indexes store)
    groups.map (⟨trigger, (orders i).vars, ·⟩) ++
      turnsFrom tools orders store (i + 1) (groups.foldl sortSlice indexes) triggers

/-- `unitMap`. -/
def unitMap (queries : List Query) : GoMap String String :=
  queries.foldl (fun m q => m.insert (q.ref.getD "") q.unit) ∅

/-! ## Missing data -/

/-- The last time of a series is too long ago to tell that it is missing. -/
def NodataTrigger.expired (trigger : NodataTrigger) (now : ℤ) (d : DataResp) : Bool :=
  trigger.resolveAfterEnable &&
    match d.last with
    | none => false
    | some (t, _) => decide (now - toInt64 t > trigger.resolveAfter)

/-- A series of the last evaluations for which a point is made: it is not there any more. -/
def NodataTrigger.missing (trigger : NodataTrigger) (now : ℤ) (store : Store) (hash : ℕ)
    (d : DataResp) : Bool :=
  !(trigger.resolveAfterEnable && d.last.isNone) && !trigger.expired now d && decide (hash ∉ store)

/-- The series the loop over `LastSeriesStore` makes a point for. -/
def nodataSeries (order : MapOrder ℕ) (trigger : NodataTrigger) (now : ℤ)
    (lastStore store : Store) : List DataResp :=
  (order.list lastStore.keys).filterMap fun hash =>
    (lastStore.lookup hash).filter (trigger.missing now store hash)

/-- The point of a series that is missing. -/
def nodataPoint (tools : Tools) (trigger : NodataTrigger) (now : ℤ) (d : DataResp) :
    AnomalyPoint where
  labels := d.metric
  timestamp := now
  value := tools.sprint 0
  readableValue := tools.readable 0
  severity := trigger.severity
  query := "nodata check for " ++ tools.metricString d.metric
  values := "nodata since " ++ tools.formatTime now
  triggerType := .nodata

/-- `LastSeriesStore` after an evaluation: what expired is deleted, and the series of this one are
entered. -/
def updateLastStore (order : MapOrder ℕ) (trigger : NodataTrigger) (now : ℤ)
    (lastStore store : Store) : Store :=
  store ∪ order.deleteWhere (fun _ d => trigger.expired now d) lastStore

/-! ## The evaluation -/

/-- `AlertRuleWorker`, with the fields an evaluation writes. -/
structure AlertRuleWorker where
  lastSeriesStore : Store := ∅
  inhibit : Bool := false

/-- An evaluation: when it is, what the data source answers to each query, and how the loops visit
their maps. -/
structure Evaluation where
  now : ℤ
  queryData : ℕ → Except String (List DataResp)
  orders : ℕ → Orders
  lastOrder : MapOrder ℕ

/-- The answers to the queries of a rule, or the first error. -/
def Evaluation.answers (e : Evaluation) (queries : List Query) :
    Except String (List (Query × List DataResp)) :=
  queries.zipIdx.mapM fun q => (e.queryData q.2).map fun series => (q.1, series)

/-- The turns of an evaluation. -/
def Evaluation.turns (tools : Tools) (rule : RuleQuery) (e : Evaluation)
    (collected : Store × Indexes) : List Turn :=
  if rule.expTriggerDisable then []
  else turnsFrom tools e.orders collected.1 0 collected.2 rule.triggers

/-- `GetAnomalyPoint`, of a rule whose configuration is read, or not. -/
def getAnomalyPoint (tools : Tools) (config : Except String RuleQuery) (w : AlertRuleWorker)
    (e : Evaluation) :
    AlertRuleWorker × Except String (List AnomalyPoint × List AnomalyPoint) :=
  match config with
  | .error err => (w, .error err)
  | .ok rule =>
    let w := { w with inhibit := rule.inhibit }
    if rule.queries = [] then (w, .ok ([], []))
    else
      match e.answers rule.queries with
      | .error err => (w, .error err)
      | .ok answers =>
        let collected := collect tools.sum64 answers
        let outcomes := (e.turns tools rule collected).map
          (Turn.outcome tools collected.1 (unitMap rule.queries))
        let nodata := rule.nodataTrigger
        let missing := if nodata.enable then
            nodataSeries e.lastOrder nodata e.now w.lastSeriesStore collected.1 else []
        let w := if nodata.enable then
            { w with lastSeriesStore :=
                updateLastStore e.lastOrder nodata e.now w.lastSeriesStore collected.1 }
          else w
        (w, .ok (outcomes.filterMap Outcome.point? ++ missing.map (nodataPoint tools nodata e.now),
          outcomes.filterMap Outcome.recoverPoint?))

end Nightingale.Eval
