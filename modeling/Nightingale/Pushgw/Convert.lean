import Nightingale.Lib.MapOrder
import Nightingale.Lib.Text

/-!
# Pushgw/Convert — from a pushed metric to a series

Three protocols push metrics, and each has its own way from the tags of a metric to the labels of a
series and to the host the metric is counted for:

    OpenTSDB   Tags (a map)          `host` renamed `ident` if there is none      Tags["ident"]
    Falcon     Tags "k=v,k=v"        collected in a map, `Endpoint` added          tag or endpoint
    Datadog    Tags ["k:v", …]       appended one by one, `Host` added             last tag or host

Dots and dashes of a name become underscores, and a name that is then no Prometheus name is an
error.  `AppendLabels` adds the tags of the host's target and the label of its business group.
-/

namespace Nightingale.Pushgw

open Text

/-- `prompb.Label`. -/
structure Label where
  name : String
  value : String
  deriving DecidableEq

/-- `prompb.TimeSeries`: samples with their time in milliseconds, and labels. -/
structure Series (φ : Type) where
  samples : List (ℤ × φ)
  labels : List Label

/-- What is used of `float64`: `strconv.ParseFloat`, and the conversion to `int64`. -/
structure Floats (φ : Type) where
  parseFloat : String → Option φ
  toInt64 : φ → ℤ

/-- A value as it came out of the JSON text; of one that is neither a string nor a number only its
printed form matters. -/
inductive Untyped (φ : Type) where
  | string (text : String)
  | number (v : φ)
  | other (text : String)

/-! ## Names -/

/-- The two replacements every metric name and tag key goes through. -/
def normalise (name : String) : String :=
  let name := if '.' ∈ name.toList then replaceText "." "_" name else name
  if '-' ∈ name.toList then replaceText "-" "_" name else name

/-- `[a-zA-Z_]`. -/
def isNameStart (c : Char) : Bool := c.isAlpha || c == '_'

/-- `model.LabelNameRE`, `^[a-zA-Z_][a-zA-Z0-9_]*$`. -/
def labelNameRE (name : String) : Bool :=
  match name.toList with
  | [] => false
  | c :: cs => isNameStart c && cs.all fun c => isNameStart c || c.isDigit

/-- `model.MetricNameRE`, `^[a-zA-Z_:][a-zA-Z0-9_:]*$`. -/
def metricNameRE (name : String) : Bool :=
  match name.toList with
  | [] => false
  | c :: cs => (isNameStart c || c == ':') && cs.all fun c => isNameStart c || c == ':' || c.isDigit

/-- `model.MetricNameLabel`. -/
def metricNameLabel : String := "__name__"

/-- The first label of a series, its metric name. -/
def nameLabel (metric : String) : Except String (List Label) :=
  if metricNameRE (normalise metric) then .ok [⟨metricNameLabel, normalise metric⟩]
  else .error ("invalid metric name: " ++ normalise metric)

/-- The label of a tag. -/
def tagLabel (key value : String) : Except String Label :=
  if labelNameRE (normalise key) then .ok ⟨normalise key, value⟩
  else .error ("invalid tag name: " ++ normalise key)

/-- The loop over a map of tags. -/
def appendTags (order : MapOrder String) (tags : GoMap String String) (labels : List Label) :
    Except String (List Label) :=
  (order.list tags.keys).foldlM (fun labels key => do
    let label ← tagLabel key ((tags.lookup key).getD "")
    return labels ++ [label]) labels

/-! ## The checks before the conversion -/

section Clean

variable {φ : Type} (fl : Floats φ)

/-- What `Clean` of an OpenTSDB or Falcon metric reads as its value. -/
def cleanValue (metric : String) (v : Untyped φ) : Except String φ :=
  if metric = "" then .error "metric is blank"
  else
    match v with
    | .string text =>
      match fl.parseFloat text with
      | some f => .ok f
      | none => .error ("unparsable value " ++ text)
    | .number f => .ok f
    | .other text => .error ("unparsable value " ++ text)

/-- …and as its time: a time of more than 32 bits is in milliseconds, and one more than five minutes
ahead is now. -/
def cleanTimestamp (ts timestamp : ℤ) : ℤ :=
  let timestamp := if timestamp > 0xffffffff then timestamp / 1000 else timestamp
  if timestamp - ts > 300 then ts else timestamp

end Clean

/-! ## OpenTSDB -/

/-- `HTTPMetric`. -/
structure HTTPMetric (φ : Type) where
  metric : String
  timestamp : ℤ
  valueUnTyped : Untyped φ
  value : φ
  tags : GoMap String String

namespace HTTPMetric

variable {φ : Type}

/-- `HTTPMetric.Clean`. -/
def clean (fl : Floats φ) (ts : ℤ) (m : HTTPMetric φ) : Except String (HTTPMetric φ) := do
  let value ← cleanValue fl m.metric m.valueUnTyped
  return { m with value, timestamp := cleanTimestamp ts m.timestamp }

/-- The tag `host` takes the name `ident` when no tag has it. -/
def renameHost (tags : GoMap String String) : GoMap String String :=
  if "ident" ∈ tags then tags
  else (tags.lookup "host").elim tags fun host => (tags.erase "host").insert "ident" host

/-- `HTTPMetric.ToProm`, which also changes the metric. -/
def toProm (order : MapOrder String) (m : HTTPMetric φ) :
    Except String (HTTPMetric φ × Series φ) := do
  let labels ← nameLabel m.metric
  let tags := renameHost m.tags
  let labels ← appendTags order tags labels
  return ({ m with metric := normalise m.metric, tags },
    { samples := [(m.timestamp * 1000, m.value)], labels })

end HTTPMetric

/-! ## Open-Falcon -/

/-- `FalconMetric`. -/
structure FalconMetric (φ : Type) where
  metric : String
  endpoint : String
  timestamp : ℤ
  valueUnTyped : Untyped φ
  value : φ
  tags : String

namespace FalconMetric

variable {φ : Type}

/-- `FalconMetric.Clean`. -/
def clean (fl : Floats φ) (ts : ℤ) (m : FalconMetric φ) : Except String (FalconMetric φ) := do
  let value ← cleanValue fl m.metric m.valueUnTyped
  return { m with value, timestamp := cleanTimestamp ts m.timestamp }

/-- The map of the tags in the text. -/
def tagmap (tags : String) : GoMap String String :=
  ((splitText "," tags).filterMap (splitN '=')).foldl (fun m kv => m.insert kv.1 kv.2) ∅

/-- The map with the endpoint in it, and the ident. -/
def addEndpoint (endpoint : String) (tagmap : GoMap String String) : GoMap String String × String :=
  if endpoint = "" then (tagmap, "")
  else
    match tagmap.lookup "ident" with
    | some id => (tagmap.insert "endpoint" endpoint, id)
    | none => (tagmap.insert "ident" endpoint, endpoint)

/-- `FalconMetric.ToProm`. -/
def toProm (order : MapOrder String) (m : FalconMetric φ) : Except String (Series φ × String) := do
  let labels ← nameLabel m.metric
  let tags := addEndpoint m.endpoint (tagmap m.tags)
  let labels ← appendTags order tags.1 labels
  return ({ samples := [(m.timestamp * 1000, m.value)], labels }, tags.2)

end FalconMetric

/-! ## Datadog -/

/-- `DatadogMetric`. -/
structure DatadogMetric (φ : Type) where
  metric : String
  points : List (φ × φ)
  host : String
  tags : List String

namespace DatadogMetric

variable {φ : Type}

/-- `DatadogMetric.Clean`. -/
def clean (m : DatadogMetric φ) : Except String (DatadogMetric φ) :=
  if m.metric = "" then .error "metric is blank" else .ok m

/-- The variables of the loop over the tags. -/
structure Loop where
  labels : List Label
  identInTag : String := ""
  hostInTag : String := ""

/-- The body of the loop over the tags. -/
def addTag (st : Loop) (tag : String) : Except String Loop :=
  match splitN ':' tag with
  | none => .ok st
  | some (key, value) =>
    if key = "ident" then
      .ok { st with identInTag := value, labels := st.labels ++ [⟨key, value⟩] }
    else if key = "host" then .ok { st with hostInTag := value }
    else do
      let label ← tagLabel key value
      return { st with labels := st.labels ++ [label] }

/-- What is done after the loop: the host of the metric outranks that of the tags, and is the ident
unless a tag is. -/
def addHost (host : String) (st : Loop) : List Label × String :=
  let host := if host ≠ "" then host else st.hostInTag
  (if host = "" then st.labels
    else st.labels ++ [⟨if st.identInTag ≠ "" then "host" else "ident", host⟩],
    if st.identInTag ≠ "" then st.identInTag else host)

/-- `DatadogMetric.ToProm`. -/
def toProm (fl : Floats φ) (m : DatadogMetric φ) : Except String (Series φ × String) := do
  let labels ← nameLabel m.metric
  let st ← m.tags.foldlM addTag { labels }
  let labels := addHost m.host st
  return ({ samples := m.points.map fun p => (fl.toInt64 p.1 * 1000, p.2), labels := labels.1 },
    labels.2)

end DatadogMetric

/-! ## The handlers -/

/-- A metric of one of the three protocols. -/
inductive Metric (φ : Type) where
  | openTSDB (m : HTTPMetric φ)
  | falcon (m : FalconMetric φ)
  | datadog (m : DatadogMetric φ)

/-- What `openTSDBPut`, `falconPush` and `datadogSeries` make of a metric before they look its
target up: the series, and the host it is registered and looked up under, if any. -/
def Metric.convert {φ : Type} (fl : Floats φ) (order : MapOrder String) (ts : ℤ) :
    Metric φ → Except String (Series φ × Option String)
  | openTSDB m => do
    let m ← m.clean fl ts
    let pt ← m.toProm order
    return (pt.2, pt.1.tags.lookup "ident")
  | falcon m => do
    let m ← m.clean fl ts
    let pt ← m.toProm order
    return (pt.1, if pt.2 ≠ "" then some pt.2 else none)
  | datadog m => do
    let m ← m.clean
    let pt ← m.toProm fl
    return (pt.1, if pt.2 ≠ "" then some pt.2 else none)

/-! ## The labels of the target -/

/-- `pconf.Pushgw`, with the settings `AppendLabels` reads. -/
structure Config where
  busiGroupLabelKey : String := "busigroup"
  labelRewrite : Bool := false

/-- `models.BusiGroup`, with the fields `AppendLabels` reads. -/
structure BusiGroup where
  labelEnable : ℤ
  labelValue : String

/-- `models.Target`, with the fields `AppendLabels` reads. -/
structure Target where
  groupId : ℤ
  tagsMap : GoMap String String

/-- The index `AppendLabels` takes: where each name stands last. -/
def labelKeys (labels : List Label) : GoMap String ℕ :=
  labels.zipIdx.foldl (fun keys l => keys.insert l.1.name l.2) ∅

/-- The body of the loop over the tags of the target. -/
def appendTag (cfg : Config) (keys : GoMap String ℕ) (tags : GoMap String String)
    (labels : List Label) (key : String) : List Label :=
  let value := (tags.lookup key).getD ""
  match keys.lookup key with
  | some index =>
    if cfg.busiGroupLabelKey ∈ keys then labels
    else if cfg.labelRewrite then labels.modify index fun l => { l with value }
    else labels
  | none => labels ++ [⟨key, value⟩]

/-- The label of the business group. -/
def appendBusiGroup (cfg : Config) (keys : GoMap String ℕ) (bgCache : ℤ → Option BusiGroup)
    (target : Target) (labels : List Label) : List Label :=
  if cfg.busiGroupLabelKey ∈ keys then labels
  else if target.groupId > 0 ∧ cfg.busiGroupLabelKey ≠ "" then
    match bgCache target.groupId with
    | none => labels
    | some bg =>
      if bg.labelEnable = 0 then labels
      else
        match keys.lookup cfg.busiGroupLabelKey with
        | some index =>
          if cfg.labelRewrite then labels.modify index fun l => { l with value := bg.labelValue }
          else labels
        | none => labels ++ [⟨cfg.busiGroupLabelKey, bg.labelValue⟩]
  else labels

/-- `Router.AppendLabels`. -/
def appendLabels (cfg : Config) (order : MapOrder String) (bgCache : ℤ → Option BusiGroup)
    (target : Option Target) (labels : List Label) : List Label :=
  match target with
  | none => labels
  | some target =>
    let keys := labelKeys labels
    appendBusiGroup cfg keys bgCache target
      ((order.list target.tagsMap.keys).foldl (appendTag cfg keys target.tagsMap) labels)

end Nightingale.Pushgw
