import Nightingale.Models.TagFilter
import Mathlib.Data.List.Sort

/-!
# Denoise/Rule — which rule an event falls under, and with which key

`SelectBestRule` (`internal/custom/denoise/match.go`) picks one aggregation rule for an event, and
`BuildIncidentKey` (`key.go`) joins the values of that rule's dimensions into the key of the
incident the event belongs to:

    event ──MatchRule──▸ rules in scope ──priority, id──▸ rule
                        rule ──dimensions──▸ "cluster=prod|host=<absent>"
-/

namespace Nightingale.Denoise

/-- `CustomAggregateRule`, with the fields the aggregator reads; `dimensions` and `filters` hold
JSON texts. -/
structure CustomAggregateRule where
  id : ℤ
  groupId : ℤ := 0
  dimensions : String
  windowSec : ℤ := 300
  filters : String := ""
  datasourceIdsJson : List ℤ := []
  stormThreshold : ℤ := 0
  stormWindowSec : ℤ := 60
  severitiesJson : List ℤ := []
  disabled : ℤ := 0
  priority : ℤ := 0

/-! ## Matching -/

/-- `parseTagFilters`. -/
def parseTagFilters (ext : Externals) (raw : String) : Except String (List TagFilter) :=
  if raw = "" then .ok []
  else (ext.unmarshalFilters raw).bind (parseTagFilter ext)

/-- `matchAllTagFilters`, the aggregation's copy. -/
def matchAllTagFilters : GoMap String String → List TagFilter → Bool := Custom.matchAllTagFilters

/-- `MatchRule`: a malformed filter text rejects the rule, an empty filter list accepts every
event. -/
def matchRule (ext : Externals) (event : AlertCurEvent) (rule : CustomAggregateRule) : Bool :=
  if rule.disabled = 1 then false
  else if !Custom.inGroup rule.groupId event.groupId then false
  else if !Custom.inDatasources rule.datasourceIdsJson event.datasourceId then false
  else if rule.severitiesJson ≠ [] ∧ event.severity ∉ rule.severitiesJson then false
  else if rule.filters ≠ "" then
    match parseTagFilters ext rule.filters with
    | .error _ => false
    | .ok filters => filters.isEmpty || matchAllTagFilters event.tagsMap filters
  else true

/-- The preference of `SelectBestRule`: the higher priority, then the smaller id. -/
def CustomAggregateRule.beats (r best : CustomAggregateRule) : Bool :=
  r.priority > best.priority || (r.priority == best.priority && r.id < best.id)

/-- `SelectBestRule`. -/
def selectBestRule (ext : Externals) (event : AlertCurEvent) (rules : List CustomAggregateRule) :
    Option CustomAggregateRule :=
  rules.foldl (fun best r =>
    if !matchRule ext event r then best
    else match best with
      | none => some r
      | some b => if r.beats b then some r else some b) none

/-! ## Keys -/

/-- `keyMissingValue`. -/
def keyMissingValue : String := "<absent>"

/-- The value of a dimension in an incident key. -/
def keyValue (event : AlertCurEvent) (dim : String) : String :=
  match event.tagsMap.lookup dim with
  | some v => if v ≠ "" then v else keyMissingValue
  | none => keyMissingValue

/-- `BuildIncidentKey`: `dim=value` pairs, sorted by dimension and joined by `|`. -/
def buildIncidentKey (event : AlertCurEvent) (dimensions : List String) : String :=
  String.intercalate "|"
    ((dimensions.insertionSort (· ≤ ·)).map fun dim => dim ++ "=" ++ keyValue event dim)

/-- `DimensionValuesMap`: an empty value is kept here. -/
def dimensionValuesMap (event : AlertCurEvent) (dimensions : List String) : GoMap String String :=
  dimensions.foldl (fun out dim =>
    out.insert dim ((event.tagsMap.lookup dim).getD keyMissingValue)) ∅

/-- `buildTitle`, over the sorted keys. -/
def buildTitle (event : AlertCurEvent) (dimVals : GoMap String String) : String :=
  let keys := (MapOrder.sortBy (α := String) (· ≤ ·)).list dimVals.keys
  let pairs := String.intercalate ", " (keys.map fun k => k ++ "=" ++ (dimVals.lookup k).getD "")
  if event.ruleName ≠ "" then "[" ++ event.ruleName ++ "] " ++ pairs else pairs

/-- `decodeStringSlice`. -/
def decodeStringSlice (ext : Externals) (raw : String) : Except String (List String) :=
  if raw = "" then .ok [] else ext.unmarshalStrings raw

end Nightingale.Denoise
