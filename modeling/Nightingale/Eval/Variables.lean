import Nightingale.Lib.Overlay
import Nightingale.Lib.Weave
import Nightingale.Models.Event

/-!
# Eval/Variables — queries with variables

`VarFillingAfterQuery` and `VarFillingBeforeQuery` of `alert/eval/eval.go`.  A Prometheus query may
name variables, `mem{host="$host"} > $val`: a *threshold* stands for a number, every other parameter
for a list of label values.  The configuration is a chain of layers, each an entry or several, and
an entry decides for the combinations of its parameters.

    after    one query without the parameters, then pick the samples by their labels
    before   one query for each combination, all at once, then file the points by their labels

The text functions — `removeVal`, `ExtractVarMapping`, `fillVar` — work on characters here and on
bytes in the source, which is the same for text in ASCII.  What the worker asks others is a
`Reader`; a function that panics is `none`.
-/

namespace Nightingale.Eval

open Text

/-! ## Results of a query -/

/-- `model.SampleValue`, as the two texts rendered of it. -/
structure SampleValue where
  text : String
  readable : String := text
  isNaN : Bool := false
  deriving DecidableEq, Repr

/-- `sample`, and an item of a `model.Vector`. -/
structure Sample where
  metric : Metric
  value : SampleValue
  timestamp : ℤ := 0
  deriving DecidableEq

/-- An item of a `model.Matrix`. -/
structure SampleStream where
  metric : Metric
  values : List (SampleValue × ℤ)
  deriving DecidableEq

/-- `model.Value`. -/
inductive Value where
  | vector (items : List Sample)
  | matrix (items : List SampleStream)
  | scalar (value : SampleValue) (timestamp : ℤ)
  | other
  deriving DecidableEq

/-- `getSamples`; the last value of a series without values is not there to be taken. -/
def getSamples : Value → Option (List Sample)
  | .vector items => some items
  | .matrix items => items.mapM fun s =>
    s.values.getLast?.map fun v => { metric := s.metric, value := v.1, timestamp := v.2 }
  | .scalar _ _ | .other => some []

/-- The point of a sample, before it is given a severity and a query. -/
def Sample.point (s : Sample) : AnomalyPoint where
  labels := s.metric
  timestamp := s.timestamp
  value := s.value.text
  readableValue := s.value.readable

/-- The matrix case of `ConvertAnomalyPoints`: it ends at the first series without values. -/
def convertStreams : List SampleStream → List AnomalyPoint
  | [] => []
  | s :: items =>
    match s.values.getLast? with
    | none => []
    | some v =>
      if v.1.isNaN then convertStreams items
      else (Sample.mk s.metric v.1 v.2).point :: convertStreams items

/-- `ConvertAnomalyPoints`. -/
def convertAnomalyPoints : Value → List AnomalyPoint
  | .vector items => (items.filter fun s => !s.value.isNaN).map Sample.point
  | .matrix items => convertStreams items
  | .scalar value timestamp => if value.isNaN then [] else [(Sample.mk ∅ value timestamp).point]
  | .other => []

/-! ## Text -/

/-- `JoinMark`. -/
def joinMark : String := "@@"

/-- `strings.Trim` of one character. -/
def trimChar (c : Char) (s : String) : String :=
  String.ofList (((s.toList.dropWhile (· = c)).reverse.dropWhile (· = c)).reverse)

/-- The two sides of a label matcher, at the first operator of the list it holds. -/
def splitMatcher (pair : String) : List String :=
  if containsText pair "!=" then splitText "!=" pair
  else if containsText pair "=~" then splitText "=~" pair
  else if containsText pair "!~" then splitText "!~" pair
  else splitText "=" pair

/-- One matcher of `ExtractVarMapping`: `label="$name"` maps the variable to the label. -/
def extractPair (m : GoMap String String) (pair : String) : GoMap String String :=
  match splitMatcher pair with
  | [label, value] =>
    match (trimChar '\'' (trimChar '"' (trimSpace value))).toList with
    | '$' :: name => m.insert (String.ofList name) (trimSpace label)
    | _ => m
  | _ => m

/-- The loop of `ExtractVarMapping` over the pairs of braces; a closing brace that comes first is a
slice out of bounds.  The text gets shorter with each turn. -/
def extractFrom : ℕ → List Char → GoMap String String → Option (GoMap String String)
  | 0, _, m => some m
  | fuel + 1, s, m =>
    match s.findIdx? (· = '\x7b'), s.findIdx? (· = '\x7d') with
    | some start, some stop =>
      if stop < start + 1 then none
      else
        let labels := String.ofList ((s.take stop).drop (start + 1))
        extractFrom fuel (s.drop (stop + 1)) ((splitText "," labels).foldl extractPair m)
    | _, _ => some m

/-- `ExtractVarMapping`: the label each variable of a query stands at. -/
def extractVarMapping (promql : String) : Option (GoMap String String) :=
  extractFrom (promql.length + 1) promql.toList ∅

/-- What `removeVal` remembers: what is written, whether it is between braces, the matcher read so
far with the character before it, and whether that holds a variable. -/
structure Scan where
  out : List Char := []
  inside : Bool := false
  held : List Char := []
  isVar : Bool := false

/-- One character of `removeVal`. -/
def Scan.read (s : Scan) (c : Char) : Scan :=
  if !s.inside then
    if c = '\x7b' then { s with out := s.out ++ [c], inside := true, held := [c] }
    else { s with out := s.out ++ [c] }
  else if c = ',' ∨ c = '\x7d' then
    let kept := if s.out.getLast? = some '\x7b' then s.held.drop 1 else s.held
    let out := if s.isVar then s.out else s.out ++ kept
    { out := if c = '\x7d' then out ++ [c] else out, inside := decide (c ≠ '\x7d'), held := [c] }
  else { s with held := s.held ++ [c], isVar := s.isVar || decide (c = '$') }

/-- `removeVal`: the query without the matchers that hold a variable. -/
def removeVal (promql : String) : String :=
  String.ofList (promql.toList.foldl Scan.read {}).out

/-- `fillVar`. -/
def fillVar (query paramKey val : String) : String :=
  replaceText ("\"$" ++ paramKey ++ "\"") ("\"" ++ val ++ "\"")
    (replaceText ("'$" ++ paramKey ++ "'") ("'" ++ val ++ "'") query)

/-! ## The configuration -/

/-- `ParamQuery.ParamType`. -/
inductive ParamType where
  | threshold
  | host
  | device
  | enum
  | other (name : String)
  deriving DecidableEq, Repr

/-- The text of a parameter type. -/
def ParamType.text : ParamType → String
  | .threshold => "threshold"
  | .host => "host"
  | .device => "device"
  | .enum => "enum"
  | .other name => name

/-- `ParamQuery.Query`: a text, a number (as `FormatFloat` writes it), a list of texts, or anything
else a client may send. -/
inductive ParamValue where
  | text (s : String)
  | number (s : String)
  | texts (l : List String)
  | other
  deriving DecidableEq, Repr

/-- `getString`. -/
def ParamValue.getString : ParamValue → String
  | .text s | .number s => s
  | .texts _ | .other => ""

/-- `models.ParamQuery`. -/
structure ParamQuery where
  paramType : ParamType
  query : ParamValue
  deriving DecidableEq, Repr

/-- An entry of a layer: its parameters by name. -/
abbrev ParamVal := GoMap String ParamQuery

/-- `models.PromQuery`, with its `VarConfig`: the parameters of the first layer, and the entries of
each layer below it. -/
structure PromQuery where
  promQl : String
  severity : ℤ := 0
  paramVal : List (String × ParamQuery)
  childVarConfigs : List (List ParamVal) := []

/-- What the worker asks others while it fills variables.  The number is the entry's, since one
query may be answered differently at two times. -/
structure Reader where
  query : ℕ → String → Except String Value
  getHostIdents : ParamQuery → Except String (List String)
  getDeviceIdents : ParamQuery → Except String (List String)
  getParamKeyAllLabel : ℕ → String → String → Except String (List String)

namespace PromQuery

variable (q : PromQuery)

/-- The first layer, as the map of its parameters. -/
def firstParamVal : ParamVal := q.paramVal.foldl (fun m p => m.insert p.1 p.2) ∅

/-- The entries of all layers, from the first layer down. -/
def entries : List ParamVal := q.firstParamVal :: q.childVarConfigs.flatten

/-- `ParamKeys`: the parameters that are not thresholds, in alphabetical order. -/
def paramKeys : List String :=
  (MapOrder.sortBy fun a b : String => a ≤ b).list
    (q.firstParamVal.keys.filter fun key =>
      (q.firstParamVal.lookup key).all fun p => p.paramType ≠ .threshold)

end PromQuery

/-- The names of an entry's thresholds. -/
def thresholdKeys (param : ParamVal) : Finset String :=
  param.keys.filter fun key => (param.lookup key).any fun p => p.paramType = .threshold

/-- The thresholds of an entry put in, in the order its map is visited. -/
def fillThresholds (valOrder : MapOrder String) (param : ParamVal) (query : String) : String :=
  (valOrder.list (thresholdKeys param)).foldl (fun query key =>
    replaceText ("$" ++ key) (((param.lookup key).map (·.query.getString)).getD "") query) query

/-! ## Combinations -/

/-- The values of one parameter, in `getParamPermutation`. -/
def getParams (reader : Reader) (i : ℕ) (paramVal : ParamVal) (varToLabel : GoMap String String)
    (originPromql paramKey : String) : Except String (List String) :=
  match paramVal.lookup paramKey with
  | none => .error ("param key not found: " ++ paramKey)
  | some paramQuery =>
    let params : Except String (List String) :=
      match paramQuery.paramType with
      | .host => .ok ((reader.getHostIdents paramQuery).toOption.getD [])
      | .device => .ok ((reader.getDeviceIdents paramQuery).toOption.getD [])
      | .enum =>
        match paramQuery.query with
        | .texts (v :: vs) => .ok (v :: vs)
        | _ => .ok ((reader.getParamKeyAllLabel i ((varToLabel.lookup paramKey).getD "")
            originPromql).toOption.getD [])
      | .threshold | .other _ => .error ("unknown param type: " ++ paramQuery.paramType.text)
    match params with
    | .error e => .error e
    | .ok [] => .error ("param key: " ++ paramKey ++ ", params is empty")
    | .ok (v :: vs) => .ok (v :: vs)

/-- `combine`: one value of each parameter, in every way. -/
def combine : List (List String) → List (List String)
  | [] => [[]]
  | values :: rest => values.flatMap fun v => (combine rest).map (v :: ·)

/-- The combinations of an entry's parameters. -/
def combinations (reader : Reader) (i : ℕ) (q : PromQuery) (paramVal : ParamVal)
    (varToLabel : GoMap String String) : Except String (List (List String)) :=
  (q.paramKeys.mapM (getParams reader i paramVal varToLabel q.promQl)).map combine

/-- `getParamPermutation`: the combinations, each joined to one text. -/
def getParamPermutation (reader : Reader) (i : ℕ) (q : PromQuery) (paramVal : ParamVal)
    (varToLabel : GoMap String String) : Except String (Finset String) :=
  (combinations reader i q paramVal varToLabel).map fun l =>
    (l.map joinMark.intercalate).toFinset

/-- The combination a series belongs to, read from its labels. -/
def combinationOf (q : PromQuery) (varToLabel : GoMap String String) (metric : Metric) :
    List String :=
  q.paramKeys.map fun paramKey => metric.get ((varToLabel.lookup paramKey).getD "")

/-! ## After the query -/

/-- The point of a sample of an entry. -/
def samplePoint (valOrder : MapOrder String) (q : PromQuery) (varToLabel : GoMap String String)
    (param : ParamVal) (s : Sample) : AnomalyPoint :=
  let query := (q.paramKeys.zip (combinationOf q varToLabel s.metric)).foldl
    (fun query p => fillVar query p.1 p.2) (fillThresholds valOrder param q.promQl)
  { s.point with severity := q.severity, query := query }

/-- One entry of `VarFillingAfterQuery`: the samples of its combinations are entered, and what is
left of these is deleted. -/
def afterEntry (valOrder order : MapOrder String) (reader : Reader) (q : PromQuery)
    (varToLabel : GoMap String String) (m : GoMap String AnomalyPoint) (entry : ParamVal × ℕ) :
    Option (GoMap String AnomalyPoint) :=
  match reader.query entry.2 (fillThresholds valOrder entry.1 (removeVal q.promQl)) with
  | .error _ => some m
  | .ok value => (getSamples value).map fun seqVals =>
    match getParamPermutation reader entry.2 q entry.1 varToLabel with
    | .error _ => m
    | .ok paramPermutation => Overlay.overlay order m {
        items := seqVals.map fun s => (joinMark.intercalate (combinationOf q varToLabel s.metric),
          samplePoint valOrder q varToLabel entry.1 s)
        keys := paramPermutation }

/-- `VarFillingAfterQuery`. -/
def varFillingAfterQuery (valOrder order : MapOrder String) (reader : Reader) (q : PromQuery) :
    Option (List AnomalyPoint) := do
  let varToLabel ← extractVarMapping q.promQl
  let m ← q.entries.zipIdx.foldlM (afterEntry valOrder order reader q varToLabel) ∅
  some (order.values m)

/-! ## Before the query -/

/-- The query of a combination, from the text the combination was joined to. -/
def fillKey (q : PromQuery) (curPromql key : String) : String :=
  (q.paramKeys.zip (splitText joinMark key)).foldl (fun query p => fillVar query p.1 p.2) curPromql

/-- The points a filled query returned. -/
def queryPoints (reader : Reader) (i : ℕ) (q : PromQuery) (promql : String) : List AnomalyPoint :=
  match reader.query i promql with
  | .error _ => []
  | .ok value => (convertAnomalyPoints value).map fun p =>
    { p with severity := q.severity, query := promql }

/-- The text a point is filed under. -/
def pointKey (q : PromQuery) (varToLabel : GoMap String String) (p : AnomalyPoint) : String :=
  joinMark.intercalate (combinationOf q varToLabel p.labels)

/-- What the goroutine of a combination does to the shared map. -/
def queryWrites (reader : Reader) (i : ℕ) (q : PromQuery) (varToLabel : GoMap String String)
    (curPromql key : String) : List (Weave.Write String AnomalyPoint) :=
  match reader.query i (fillKey q curPromql key) with
  | .error _ => []
  | .ok _ =>
    let points := queryPoints reader i q (fillKey q curPromql key)
    if points = [] then [⟨key, none⟩]
    else points.map fun p => ⟨pointKey q varToLabel p, some p⟩

/-- One entry of `VarFillingBeforeQuery`: the queries of its combinations, run together. -/
def beforeEntry (valOrder order : MapOrder String) (sched : ℕ → List ℕ) (reader : Reader)
    (q : PromQuery) (varToLabel : GoMap String String) (m : GoMap String AnomalyPoint)
    (entry : ParamVal × ℕ) : GoMap String AnomalyPoint :=
  match getParamPermutation reader entry.2 q entry.1 varToLabel with
  | .error _ => m
  | .ok paramPermutation =>
    Weave.run m (Weave.weave (sched entry.2) ((order.list paramPermutation).map
      (queryWrites reader entry.2 q varToLabel (fillThresholds valOrder entry.1 q.promQl))))

/-- `VarFillingBeforeQuery`. -/
def varFillingBeforeQuery (valOrder order : MapOrder String) (sched : ℕ → List ℕ)
    (reader : Reader) (q : PromQuery) : Option (List AnomalyPoint) :=
  (extractVarMapping q.promQl).map fun varToLabel =>
    order.values (q.entries.zipIdx.foldl (beforeEntry valOrder order sched reader q varToLabel) ∅)

/-! ## Which of the two -/

/-- The aggregations after which a series may have lost its labels. -/
def noLabelAggregators : List String :=
  ["sum", "min", "max", "avg", "stddev", "stdvar", "count", "quantile", "group"]

/-- `unicode.ToLower`. -/
abbrev Lower := CaseMap Char.toLower

/-- `hasLabelLossAggregator`. -/
def hasLabelLossAggregator (lower : Lower) (q : PromQuery) : Bool :=
  noLabelAggregators.any fun fn => containsText (lower.text q.promQl) (fn ++ "(")

/-- `notExactMatch`. -/
def notExactMatch (lower : Lower) (q : PromQuery) : Bool :=
  ["!=", "=~", "!~"].any fun op => containsText (lower.text q.promQl) op

/-- The points of a query with variables, in `GetPromAnomalyPoint`. -/
def varFilling (lower : Lower) (valOrder order : MapOrder String) (sched : ℕ → List ℕ)
    (reader : Reader) (q : PromQuery) : Option (List AnomalyPoint) :=
  if hasLabelLossAggregator lower q || notExactMatch lower q then
    varFillingBeforeQuery valOrder order sched reader q
  else varFillingAfterQuery valOrder order reader q

end Nightingale.Eval
