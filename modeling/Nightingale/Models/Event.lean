import Nightingale.Lib.MapOrder
import Nightingale.Lib.Text

/-!
# Models/Event — alert rules, anomaly points and alert events

The records `models/alert_rule.go`, `models/anomaly_point.go` and `models/alert_cur_event.go`
declare, with the fields the alert path reads or writes.  Times are Unix seconds and the counters
are 32-bit columns, so both are plain integers here: no sum of them leaves `int64`.

`AlertCurEvent.columns` is what a row keeps of an event; the evaluation and sending times, the
recover configuration and the recovered flag (`gorm:"-"`) are not among them.
-/

namespace Nightingale

open String List

/-- An event's identity: the MD5 text `Hash` computes. -/
abbrev Hash := String

/-- `models.RecoverJudge`: the constants of the source, and whatever other integer a client
sends. -/
inductive RecoverJudge where
  | origin
  | notRecoverWhenNoData
  | recoverOnCondition
  | other (code : ℤ)
  deriving DecidableEq, Repr, Inhabited

/-- `models.RecoverConfig`: how the trigger that fired an alert lets it recover. -/
structure RecoverConfig where
  judgeType : RecoverJudge := .origin
  recoverExp : String := ""
  deriving DecidableEq, Repr, Inhabited

/-- `models.TriggerType` of an anomaly point. -/
inductive TriggerType where
  | normal
  | nodata
  deriving DecidableEq, Repr, Inhabited

/-- `models.HOST`, the category of host rules. -/
def HOST : String := "host"

/-- `models.SeverityLowest`: below every severity an event can carry. -/
def severityLowest : ℤ := 4

/-- `models.AlertRule`, with the fields the processor reads. -/
structure AlertRule where
  id : ℤ := 0
  groupId : ℤ := 0
  cate : String := ""
  name : String := ""
  note : String := ""
  prod : String := ""
  notifyRecovered : ℤ := 0
  promForDuration : ℤ := 0
  notifyRepeatStep : ℤ := 0
  notifyMaxNumber : ℤ := 0
  recoverDuration : ℤ := 0
  notifyRuleIds : List ℤ := []
  deriving DecidableEq, Repr, Inhabited

/-- `model.Metric`: the labels of a series, as the map they are. -/
abbrev Metric := GoMap String String

/-- The value of a label; a label that is missing reads as empty. -/
def Metric.get (m : Metric) (label : String) : String := (m.lookup label).getD ""

/-- `models.AnomalyPoint`.  The floating-point value appears only as the two texts rendered of it:
`value` under `%v`, and `readableValue` by `ReadableValue()`. -/
structure AnomalyPoint where
  labels : Metric := ∅
  timestamp : ℤ := 0
  value : String := ""
  readableValue : String := ""
  severity : ℤ := 0
  query : String := ""
  values : String := ""
  recoverConfig : RecoverConfig := {}
  triggerType : TriggerType := .normal
  deriving DecidableEq, Inhabited

/-- `models.AlertCurEvent`. -/
structure AlertCurEvent where
  id : ℤ := 0
  cate : String := ""
  datasourceId : ℤ := 0
  groupId : ℤ := 0
  groupName : String := ""
  hash : Hash := ""
  ruleId : ℤ := 0
  ruleName : String := ""
  ruleNote : String := ""
  ruleProd : String := ""
  notifyRecovered : ℤ := 0
  severity : ℤ := 0
  promForDuration : ℤ := 0
  promQl : String := ""
  promEvalInterval : ℤ := 0
  targetIdent : String := ""
  triggerTime : ℤ := 0
  triggerValue : String := ""
  triggerValues : String := ""
  tags : String := ""
  tagsMap : GoMap String String := ∅
  isRecovered : Bool := false
  lastEvalTime : ℤ := 0
  lastSentTime : ℤ := 0
  firstEvalTime : ℤ := 0
  notifyCurNumber : ℤ := 0
  firstTriggerTime : ℤ := 0
  status : ℤ := 0
  recoverConfig : RecoverConfig := {}
  notifyRuleIds : List ℤ := []
  deriving DecidableEq, Inhabited

/-- `AlertRule.UpdateEvent`: the rule's own fields, copied into an event. -/
def AlertRule.updateEvent (rule : AlertRule) (event : AlertCurEvent) : AlertCurEvent :=
  { event with
    groupId := rule.groupId
    cate := rule.cate
    ruleId := rule.id
    ruleName := rule.name
    ruleNote := rule.note
    ruleProd := rule.prod
    notifyRecovered := rule.notifyRecovered
    promForDuration := rule.promForDuration }

/-- `AlertRule.GenerateNewEvent`. -/
def AlertRule.generateNewEvent (rule : AlertRule) : AlertCurEvent := rule.updateEvent {}

/-- `encoding/json` for the values of one Go type: the value a field has before any, reading a text
into a value that is there already — what is left there, and whether the text could be read — and
writing.  Reading a text again changes nothing. -/
structure Codec (α : Type*) where
  nil : α
  unmarshal : String → α → α × Bool
  marshal : α → Except String String
  unmarshal_unmarshal : ∀ s a, (unmarshal s (unmarshal s a).1).1 = (unmarshal s a).1

/-! ## Tags

`event.Tags` is the list of `name=value` texts joined by `,,`; the map read by matchers is parsed
back from it. -/

/-- `unicode.IsSpace`. -/
def isSpace (c : Char) : Bool :=
  c ∈ ['\t', '\n', '\x0b', '\x0c', '\r', ' ', '\u0085', '\u00a0', '\u1680', '\u2028', '\u2029',
    '\u202f', '\u205f', '\u3000'] || (0x2000 ≤ c.toNat && c.toNat ≤ 0x200a)

/-- `strings.TrimSpace`. -/
def trimSpace (s : String) : String :=
  String.ofList (((s.toList.dropWhile isSpace).reverse.dropWhile isSpace).reverse)

/-- `strings.Fields`. -/
def fieldsText (s : String) : List String := (Text.fields isSpace s.toList).map String.ofList

/-- A text that is a field: it is not empty and holds no white space. -/
def IsWord (s : String) : Prop := s.toList ≠ [] ∧ ∀ c ∈ s.toList, isSpace c = false

theorem isWord_of_mem_fieldsText {s x : String} (h : x ∈ fieldsText s) : IsWord x := by
  obtain ⟨l, hl, rfl⟩ := mem_map.mp h
  rw [IsWord, toList_ofList]
  exact Text.mem_fields hl

theorem fieldsText_intercalate {xs : List String} (h : ∀ x ∈ xs, IsWord x) :
    fieldsText (" ".intercalate xs) = xs := by
  have hfields : Text.fields isSpace ([' '].intercalate (xs.map toList))
      = xs.map toList := Text.fields_intercalate (by decide) (forall_mem_map.mpr h)
  rw [fieldsText, toList_intercalate]
  exact (congrArg (map ofList) hfields).trans (by simp)

/-- `strings.SplitN(pair, "=", 2)`. -/
def splitTag : String → Option (String × String) := Text.splitN '='

/-- `AlertCurEvent.FillTagsMap`, on the list of tags. -/
def fillTagsMap (tagsJSON : List String) : GoMap String String :=
  tagsJSON.foldl (fun m tag =>
    match splitTag (trimSpace tag) with
    | none => m
    | some (k, v) => m.insert k v) ∅

namespace AlertCurEvent

/-- What `alert_cur_event` stores of an event: every field tagged `gorm:"-"` is lost. -/
def columns (event : AlertCurEvent) : AlertCurEvent :=
  { event with
    triggerValues := ""
    tagsMap := ∅
    isRecovered := false
    lastEvalTime := 0
    lastSentTime := 0
    firstEvalTime := 0
    status := 0
    recoverConfig := {} }

/-- `AlertCurEvent.DB2Mem`, on the fields kept here: a reloaded row is a firing alert, and a row
without a first trigger time takes its own. -/
def db2Mem (event : AlertCurEvent) : AlertCurEvent :=
  { event with
    isRecovered := false
    tagsMap := fillTagsMap (Text.splitText ",," event.tags)
    firstTriggerTime :=
      if event.firstTriggerTime = 0 then event.triggerTime else event.firstTriggerTime }

end AlertCurEvent

end Nightingale
