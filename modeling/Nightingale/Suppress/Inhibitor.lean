import Nightingale.Models.TagFilter

/-!
# Suppress/Inhibitor — root causes and the events they silence

`Inhibitor.Decide` (`internal/custom/suppress/inhibitor.go`) walks the inhibit rules once.  Under
each rule in scope it enters the event in the index if the event can be a source, and, until a
verdict is found, asks the index for a source of this event:

    rule ──scope──▸ source side: RegisterFull ──▸ target side: MatchAnyFull ──▸ not the event itself

`MatchAnyFull` (`index.go`) returns the first live match it meets while it ranges over a map, so the
order of that range is an argument of everything here.
-/

namespace Nightingale.Suppress

/-! ## Rules -/

/-- `CustomInhibitRule`, with the fields `Decide` reads. -/
structure CustomInhibitRule where
  id : ℤ
  groupId : ℤ := 0
  name : String := ""
  datasourceIdsJson : List ℤ := []

/-- `CompiledRule`. -/
structure CompiledRule where
  rule : CustomInhibitRule
  sourceMatch : List TagFilter
  targetMatch : List TagFilter
  equalLabels : List String

/-- A row of the table of inhibit rules: a rule, with its columns as texts. -/
structure InhibitRow extends CustomInhibitRule where
  datasourceIds : String := ""
  sourceMatch : String
  targetMatch : String
  equalLabels : String := ""

/-- `decodeTagFilters`, the inhibitor's copy. -/
def decodeTagFilters (ext : Externals) (raw : String) : Except String (List TagFilter) :=
  if raw = "" then .ok []
  else (ext.unmarshalFilters raw).bind (parseTagFilter ext)

/-- `CompileRule`: a rule without filters on either side is refused. -/
def compileRule (ext : Externals) : Option InhibitRow → Except String CompiledRule
  | none => .error "nil rule"
  | some raw => do
    let src ← (decodeTagFilters ext raw.sourceMatch).mapError fun err => "source_match: " ++ err
    if src.isEmpty then throw "source_match must contain at least one filter"
    let tgt ← (decodeTagFilters ext raw.targetMatch).mapError fun err => "target_match: " ++ err
    if tgt.isEmpty then throw "target_match must contain at least one filter"
    let equalLabels ← if raw.equalLabels = "" then pure []
      else (ext.unmarshalStrings raw.equalLabels).mapError fun err => "equal_labels: " ++ err
    return ⟨raw.toCustomInhibitRule, src, tgt, equalLabels⟩

/-- `matchAllTagFilters`, the inhibitor's copy. -/
def matchAllTagFilters : GoMap String String → List TagFilter → Bool := Custom.matchAllTagFilters

/-- `extractEqualValues`: a label the tags lack is left out. -/
def extractEqualValues (tags : GoMap String String) (keys : List String) : GoMap String String :=
  keys.foldl (fun out k =>
    match tags.lookup k with
    | some v => out.insert k v
    | none => out) ∅

namespace CompiledRule

variable (r : CompiledRule) (event : AlertCurEvent)

/-- The datasource and group scope of a rule. -/
def inScope : Bool :=
  Custom.inDatasources r.rule.datasourceIdsJson event.datasourceId &&
    Custom.inGroup r.rule.groupId event.groupId

/-- The values an event is matched by. -/
def targetValues : GoMap String String := extractEqualValues event.tagsMap r.equalLabels

end CompiledRule

/-! ## The index -/

/-- `rootCauseEntry`. -/
structure RootCauseEntry where
  equalLabelValues : GoMap String String
  expireAt : ℤ
  ruleName : String := ""
  tagsCSV : String := ""
  severity : ℤ := 0
  groupId : ℤ := 0
  datasourceId : ℤ := 0

/-- `SourceSnapshot`. -/
structure SourceSnapshot where
  eventHash : Hash := ""
  ruleName : String := ""
  tagsCSV : String := ""
  severity : ℤ := 0
  groupId : ℤ := 0
  datasourceId : ℤ := 0
  deriving DecidableEq

/-- `equalValuesMatch`: every label of the source has the same value in the target. -/
def equalValuesMatch (source target : GoMap String String) : Bool :=
  decide (∀ k ∈ source.keys, target.lookup k = source.lookup k)

/-- An entry that has not expired. -/
def RootCauseEntry.live (e : RootCauseEntry) (now : ℤ) : Bool :=
  !(e.expireAt > 0 && e.expireAt < now)

/-- `RootCauseIndex`: sources by rule and hash; `NewRootCauseIndex` makes the time to live
positive. -/
structure RootCauseIndex where
  entries : GoMap (ℤ × Hash) RootCauseEntry := ∅
  defaultTTL : ℤ
  ttl_pos : 0 < defaultTTL

namespace RootCauseIndex

variable (idx : RootCauseIndex) (now : ℤ)

/-- `RegisterFull`, with the fields of the event it is given. -/
def registerFull (ruleId : ℤ) (event : AlertCurEvent) (equalValues : GoMap String String) :
    RootCauseIndex :=
  { idx with
    entries := idx.entries.insert (ruleId, event.hash)
      { equalLabelValues := equalValues
        expireAt := now + idx.defaultTTL
        ruleName := event.ruleName
        tagsCSV := event.tags
        severity := event.severity
        groupId := event.groupId
        datasourceId := event.datasourceId } }

/-- The body of the loop of `MatchAnyFull`. -/
def probe (ruleId : ℤ) (targetValues : GoMap String String) (k : ℤ × Hash) :
    Option SourceSnapshot :=
  match idx.entries.lookup k with
  | none => none
  | some e =>
    if k.1 ≠ ruleId then none
    else if !e.live now then none
    else if equalValuesMatch e.equalLabelValues targetValues then
      some
        { eventHash := k.2
          ruleName := e.ruleName
          tagsCSV := e.tagsCSV
          severity := e.severity
          groupId := e.groupId
          datasourceId := e.datasourceId }
    else none

/-- `MatchAnyFull`. -/
def matchAnyFull (order : MapOrder (ℤ × Hash)) (ruleId : ℤ) (targetValues : GoMap String String) :
    Option SourceSnapshot :=
  (order.list idx.entries.keys).findSome? (idx.probe now ruleId targetValues)

end RootCauseIndex

/-! ## The verdict -/

/-- `Decision`; a registration is a rule id and a hash. -/
structure Decision where
  suppressed : Bool := false
  bySourceHash : Hash := ""
  byRuleId : ℤ := 0
  byRuleName : String := ""
  bySource : SourceSnapshot := {}
  newRegistrations : List (ℤ × Hash) := []

section Decide

variable (now : ℤ) (event : AlertCurEvent)

/-- The source side of `Decide` under a rule. -/
def enroll (idx : RootCauseIndex) (r : CompiledRule) : RootCauseIndex :=
  if r.inScope event ∧ matchAllTagFilters event.tagsMap r.sourceMatch then
    idx.registerFull now r.rule.id event (extractEqualValues event.tagsMap r.equalLabels)
  else idx

/-- The target side of `Decide` under a rule: the first match, unless it is the event itself. -/
def judge (order : MapOrder (ℤ × Hash)) (idx : RootCauseIndex) (out : Decision)
    (r : CompiledRule) : Decision :=
  if out.suppressed then out
  else if !matchAllTagFilters event.tagsMap r.targetMatch then out
  else
    match idx.matchAnyFull now order r.rule.id (r.targetValues event) with
    | none => out
    | some snap =>
      if snap.eventHash = event.hash then out
      else
        { out with
          suppressed := true
          bySourceHash := snap.eventHash
          byRuleId := r.rule.id
          byRuleName := r.rule.name
          bySource := snap }

/-- One round of the loop of `Decide`. -/
def visit (order : MapOrder (ℤ × Hash)) (s : RootCauseIndex × Decision) (r : CompiledRule) :
    RootCauseIndex × Decision :=
  if !r.inScope event then s
  else
    let idx := enroll now event s.1 r
    let out : Decision :=
      if matchAllTagFilters event.tagsMap r.sourceMatch then
        { s.2 with newRegistrations := s.2.newRegistrations ++ [(r.rule.id, event.hash)] }
      else s.2
    (idx, judge now event order idx out r)

/-- The loop of `Decide`; every round ranges over the index in an order of its own. -/
def decideLoop : (ℕ → MapOrder (ℤ × Hash)) → List CompiledRule →
    RootCauseIndex × Decision → RootCauseIndex × Decision
  | _, [], s => s
  | orders, r :: rules, s =>
    decideLoop (fun n => orders (n + 1)) rules (visit now event (orders 0) s r)

end Decide

/-- `Inhibitor.Decide`, with the index it leaves. -/
def Inhibitor.decide (now : ℤ) (orders : ℕ → MapOrder (ℤ × Hash)) (idx : RootCauseIndex)
    (rules : List CompiledRule) (event : Option AlertCurEvent) : RootCauseIndex × Decision :=
  match event with
  | none => (idx, {})
  | some event => decideLoop now event orders rules (idx, {})

end Nightingale.Suppress
