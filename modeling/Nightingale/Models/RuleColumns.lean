import Nightingale.Models.Event

/-!
# Models/RuleColumns — an alert rule's columns and its front-end fields

An alert rule has every list twice: as a column of `alert_rule`, one text, and as a field the front
end reads and writes.  `FE2DB` fills the columns from the fields before a rule is saved, `DB2FE` the
fields from the columns after it is loaded; both work on the rule they are called on.

    fields ──FE2DB──▸ columns            days:  FE2DB appends to the column if there are several
       ▴                 │                      DB2FE appends to the field, always
       └────── DB2FE ────┘

`saving_laws` says what each does a second time, and which rules keep their columns.
-/

namespace Nightingale.RuleColumns

open Text List Option

/-! ## The record -/

/-- `models.DatasourceQuery`. -/
structure DatasourceQuery (J : Type*) where
  matchType : ℤ
  op : String
  values : List J

/-- `encoding/json` as the conversions use it, for interface values `J`, annotations `A` and relabel
configurations `R`. -/
structure Library (J A R : Type*) where
  json : Codec J
  annotations : Codec A
  /-- An integer as an interface value. -/
  ofInt : ℤ → J
  /-- `PromRuleConfig` with one query, as an interface value. -/
  promRuleConfig : String → ℤ → J
  promRuleConfig_ne_nil : ∀ promQl severity, promRuleConfig promQl severity ≠ json.nil
  /-- The field `event_relabel_config` of a rule configuration. -/
  eventRelabelConfig : String → List R
  /-- A text read as `[]int`. -/
  ints : String → List ℤ
  /-- A text read as `RuleQuery`: its version, and the severities of its triggers. -/
  ruleQuery : String → Option (String × List ℤ)
  /-- A text read as `PromRuleConfig`: its severity, and those of its queries. -/
  promRule : String → Option (ℤ × List ℤ)

/-- The fields of `models.AlertRule` the conversions read or write. -/
structure Rule (J A R : Type*) where
  cate : String
  severity : ℤ
  promQl : String
  enableStime : String
  enableStimeJSON : String
  enableStimesJSON : List String
  enableEtime : String
  enableEtimeJSON : String
  enableEtimesJSON : List String
  enableDaysOfWeek : String
  enableDaysOfWeekJSON : List String
  enableDaysOfWeeksJSON : List (List String)
  notifyChannels : String
  notifyChannelsJSON : List String
  notifyGroups : String
  notifyGroupsJSON : List String
  callbacks : String
  callbacksJSON : List String
  appendTags : String
  appendTagsJSON : List String
  algoParams : String
  algoParamsJson : J
  ruleConfig : String
  ruleConfigJson : J
  annotations : String
  annotationsJSON : A
  extraConfig : String
  extraConfigJSON : J
  notifyRuleIds : Option (List ℤ)
  eventRelabelConfig : List R
  promEvalInterval : ℤ
  cronPattern : String
  datasourceIds : String
  datasourceQueries : List (DatasourceQuery J)
  severities : List ℤ

variable {J A R : Type*}

/-! ## Saving -/

/-- `strings.Join(words, " ")`. -/
def joined (words : List String) : String := " ".intercalate words

/-- The loop of `FE2DB` over several groups of days. -/
def appendDays (days : String) : List (List String) → String
  | [] => days
  | [group] => days ++ joined group
  | group :: groups => appendDays (days ++ (joined group ++ ";")) groups

/-- The column of the days of the week. -/
def daysColumn (r : Rule J A R) : String :=
  match r.enableDaysOfWeeksJSON with
  | [] => joined r.enableDaysOfWeekJSON
  | [group] => joined group
  | groups => appendDays r.enableDaysOfWeek groups

/-- `FE2DB` up to the fields that are JSON. -/
def saveTexts (r : Rule J A R) : Rule J A R :=
  let appendTagsJSON := r.appendTagsJSON.map (replaceText " " "")
  { r with
    enableStime :=
      if r.enableStimesJSON ≠ [] then joined r.enableStimesJSON else r.enableStimeJSON
    enableEtime :=
      if r.enableStimesJSON ≠ [] then joined r.enableEtimesJSON else r.enableEtimeJSON
    enableDaysOfWeek := daysColumn r
    notifyChannels := joined r.notifyChannelsJSON
    notifyGroups := joined r.notifyGroupsJSON
    callbacks := joined r.callbacksJSON
    appendTagsJSON := appendTagsJSON
    appendTags := if appendTagsJSON ≠ [] then joined appendTagsJSON else r.appendTags }

section Save

variable [DecidableEq J] [DecidableEq A] (lib : Library J A R)

/-- The rule configuration `FE2DB` writes: an old rule's is made from its query. -/
def configToWrite (r : Rule J A R) : J :=
  if r.ruleConfigJson = lib.json.nil ∨ r.promQl ≠ "" then lib.promRuleConfig r.promQl r.severity
  else r.ruleConfigJson

/-- `FE2DB` from the extra configuration on. -/
def saveExtraConfig (r : Rule J A R) : Rule J A R × Option String :=
  if r.extraConfigJSON ≠ lib.json.nil then
    match lib.json.marshal r.extraConfigJSON with
    | .error err => (r, some ("marshal extra_config err:" ++ err))
    | .ok extraConfig => ({ r with extraConfig }, none)
  else (r, none)

/-- `FE2DB` from the annotations on. -/
def saveAnnotations (r : Rule J A R) : Rule J A R × Option String :=
  if r.annotationsJSON ≠ lib.annotations.nil then
    match lib.annotations.marshal r.annotationsJSON with
    | .error err => (r, some ("marshal annotations err:" ++ err))
    | .ok annotations => saveExtraConfig lib { r with annotations }
  else saveExtraConfig lib r

/-- `FE2DB` from the rule configuration on. -/
def saveRuleConfig (r : Rule J A R) : Rule J A R × Option String :=
  let r := { r with ruleConfigJson := configToWrite lib r }
  if r.ruleConfigJson ≠ lib.json.nil then
    match lib.json.marshal r.ruleConfigJson with
    | .error err => (r, some ("marshal rule_config err:" ++ err))
    | .ok ruleConfig => saveAnnotations lib { r with ruleConfig, promQl := "" }
  else saveAnnotations lib r

/-- `FE2DB` from the first field that is JSON on. -/
def saveJson (r : Rule J A R) : Rule J A R × Option String :=
  match lib.json.marshal r.algoParamsJson with
  | .error err => (r, some ("marshal algo_params err:" ++ err))
  | .ok algoParams => saveRuleConfig lib { r with algoParams }

/-- `AlertRule.FE2DB`: the rule it leaves, and its error. -/
def fe2DB (r : Rule J A R) : Rule J A R × Option String := saveJson lib (saveTexts r)

end Save

/-! ## Loading -/

/-- `models.PROMETHEUS`. -/
def PROMETHEUS : String := "prometheus"

/-- `models.LOKI`. -/
def LOKI : String := "loki"

/-- The groups of days in the column. -/
def dayGroups (days : String) : List (List String) := (splitText ";" days).map fieldsText

/-- The single times: the first of each list, which may not be there. -/
def singleTimes (r : Rule J A R) : Option (String × String) :=
  match fieldsText r.enableEtime with
  | [] => some (r.enableStimeJSON, r.enableEtimeJSON)
  | etime :: _ => (fieldsText r.enableStime).head?.map fun stime => (stime, etime)

section Load

variable (lib : Library J A R)

/-- `AlertRule.FillDatasourceQueries`. -/
def fillDatasourceQueries (r : Rule J A R) : List (DatasourceQuery J) :=
  if r.datasourceQueries.isEmpty ∧ r.datasourceIds ≠ "" then
    let values := lib.ints r.datasourceIds
    [{ matchType := if 0 ∈ values then 2 else 0
       op := "in"
       values := (values.takeWhile (· ≠ 0)).map lib.ofInt }]
  else r.datasourceQueries

/-- What `AlertRule.FillSeverities` appends. -/
def newSeverities (o : MapOrder ℤ) (cate ruleConfig : String) : List ℤ :=
  if ruleConfig = "" then []
  else
    match lib.ruleQuery ruleConfig with
    | none => []
    | some (version, triggers) =>
      if (cate = PROMETHEUS ∨ cate = LOKI) ∧ version ≠ "v2" then
        match lib.promRule ruleConfig with
        | none => []
        | some (severity, queries) =>
          if queries = [] then [severity] else o.list queries.toFinset
      else o.list triggers.toFinset

/-- The schedule of a rule that has only an interval. -/
def fillCronPattern (r : Rule J A R) : String :=
  if r.cronPattern = "" ∧ r.promEvalInterval ≠ 0 then
    "@every " ++ toString r.promEvalInterval ++ "s"
  else r.cronPattern

/-- What `DB2FE` fills, with the single times. -/
def loaded (o : MapOrder ℤ) (r : Rule J A R) (times : String × String) : Rule J A R :=
  { r with
    enableStimesJSON := fieldsText r.enableStime
    enableEtimesJSON := fieldsText r.enableEtime
    enableStimeJSON := times.1
    enableEtimeJSON := times.2
    enableDaysOfWeeksJSON := r.enableDaysOfWeeksJSON ++ dayGroups r.enableDaysOfWeek
    enableDaysOfWeekJSON := (r.enableDaysOfWeeksJSON ++ dayGroups r.enableDaysOfWeek).head?.getD
      r.enableDaysOfWeekJSON
    notifyRuleIds := some (r.notifyRuleIds.getD [])
    notifyChannelsJSON := fieldsText r.notifyChannels
    notifyGroupsJSON := fieldsText r.notifyGroups
    callbacksJSON := fieldsText r.callbacks
    appendTagsJSON := fieldsText r.appendTags
    algoParamsJson := (lib.json.unmarshal r.algoParams r.algoParamsJson).1
    ruleConfigJson := (lib.json.unmarshal r.ruleConfig r.ruleConfigJson).1
    annotationsJSON := (lib.annotations.unmarshal r.annotations r.annotationsJSON).1
    extraConfigJSON := (lib.json.unmarshal r.extraConfig r.extraConfigJSON).1
    eventRelabelConfig := lib.eventRelabelConfig r.ruleConfig
    cronPattern := fillCronPattern r
    datasourceQueries := fillDatasourceQueries lib r
    severities := r.severities ++ newSeverities lib o r.cate r.ruleConfig }

/-- `AlertRule.DB2FE`; it panics if there is an end but no start. -/
def db2FE (o : MapOrder ℤ) (r : Rule J A R) : Option (Rule J A R) :=
  (singleTimes r).map (loaded lib o r)

end Load

/-! ## Columns -/

/-- The columns that are lists. -/
structure Texts where
  enableStime : String
  enableEtime : String
  enableDaysOfWeek : String
  notifyChannels : String
  notifyGroups : String
  callbacks : String
  appendTags : String
  deriving DecidableEq

/-- The columns that are JSON, and the query that goes into one. -/
structure JsonTexts where
  algoParams : String
  promQl : String
  ruleConfig : String
  annotations : String
  extraConfig : String
  deriving DecidableEq

namespace Rule

variable (r : Rule J A R)

/-- The columns that are lists. -/
def texts : Texts :=
  ⟨r.enableStime, r.enableEtime, r.enableDaysOfWeek, r.notifyChannels, r.notifyGroups, r.callbacks,
    r.appendTags⟩

/-- The columns that are JSON. -/
def jsonTexts : JsonTexts := ⟨r.algoParams, r.promQl, r.ruleConfig, r.annotations, r.extraConfig⟩

end Rule

/-! ## Rules that keep their columns -/

/-- The text is words with one space between two. -/
def Spaced (s : String) : Prop := ∃ words, (∀ x ∈ words, IsWord x) ∧ joined words = s

/-- The text is white space. -/
def Blank (s : String) : Prop := ∀ c ∈ s.toList, isSpace c = true

section Kept

variable [DecidableEq J] [DecidableEq A] (lib : Library J A R)

/-- **Loading and saving a rule leaves its lists, rule configuration and annotations.** -/
def Kept (o : MapOrder ℤ) (r : Rule J A R) : Prop :=
  ∃ r', db2FE lib o r = some r' ∧ (fe2DB lib r').1.texts = r.texts ∧
    (fe2DB lib r').1.ruleConfig = r.ruleConfig ∧ (fe2DB lib r').1.annotations = r.annotations

/-- The times are spaced, or there are none and the single times are what the columns have. -/
def TimesSettled (r : Rule J A R) : Prop :=
  ¬ Blank r.enableStime ∧ Spaced r.enableStime ∧ Spaced r.enableEtime ∨
    Blank r.enableStime ∧ Blank r.enableEtime ∧
      r.enableStimeJSON = r.enableStime ∧ r.enableEtimeJSON = r.enableEtime

/-- The rule has no groups of days yet, and its days are one spaced group. -/
def DaysSettled (r : Rule J A R) : Prop :=
  r.enableDaysOfWeeksJSON = [] ∧ ';' ∉ r.enableDaysOfWeek.toList ∧ Spaced r.enableDaysOfWeek

/-- The rule configuration read from its column. -/
def readConfig (r : Rule J A R) : J := (lib.json.unmarshal r.ruleConfig r.ruleConfigJson).1

/-- The annotations read from their column. -/
def readAnnotations (r : Rule J A R) : A :=
  (lib.annotations.unmarshal r.annotations r.annotationsJSON).1

/-- The JSON columns are as the library writes what it reads from them, as far as it writes: the
parameters of the algorithm come first, then the configuration, then the annotations. -/
def JsonSettled (r : Rule J A R) : Prop :=
  ∀ algoParams ruleConfig,
    lib.json.marshal (lib.json.unmarshal r.algoParams r.algoParamsJson).1 = .ok algoParams →
    lib.json.marshal (configToWrite lib { r with ruleConfigJson := readConfig lib r })
      = .ok ruleConfig →
    ruleConfig = r.ruleConfig ∧ (readAnnotations lib r ≠ lib.annotations.nil →
      ∀ annotations, lib.annotations.marshal (readAnnotations lib r) = .ok annotations →
        annotations = r.annotations)

/-- **What a rule needs to keep its columns.** -/
structure Settled (r : Rule J A R) : Prop where
  times : TimesSettled r
  days : DaysSettled r
  notifyChannels : Spaced r.notifyChannels
  notifyGroups : Spaced r.notifyGroups
  callbacks : Spaced r.callbacks
  appendTags : Blank r.appendTags ∨ Spaced r.appendTags
  json : JsonSettled lib r

end Kept

/-! ## Words and days -/

theorem joined_fieldsText_iff (s : String) : joined (fieldsText s) = s ↔ Spaced s := by
  constructor
  · intro h
    exact ⟨fieldsText s, fun x => isWord_of_mem_fieldsText, h⟩
  · rintro ⟨words, hwords, rfl⟩
    exact congrArg joined (fieldsText_intercalate hwords)

theorem fieldsText_eq_nil_iff (s : String) : fieldsText s = [] ↔ Blank s := by
  rw [fieldsText, map_eq_nil_iff, fields_eq_nil_iff, Blank]

theorem appendDays_eq (days : String) {groups : List (List String)} (hne : groups ≠ []) :
    appendDays days groups = days ++ ";".intercalate (groups.map joined) := by
  induction groups generalizing days with
  | nil => exact absurd rfl hne
  | cons group groups ih =>
    cases groups with
    | nil => simp [appendDays]
    | cons group' groups =>
      rw [appendDays, ih _ (by simp), map_cons, map_cons, map_cons]
      · rw [← String.toList_inj]
        simp [String.toList_intercalate]
      · simp

theorem daysColumn_eq_append {r : Rule J A R} (h : 2 ≤ r.enableDaysOfWeeksJSON.length) :
    daysColumn r
      = r.enableDaysOfWeek ++ ";".intercalate (r.enableDaysOfWeeksJSON.map joined) := by
  rcases hw : r.enableDaysOfWeeksJSON with _ | ⟨g, _ | ⟨g', gs⟩⟩
  · simp [hw] at h
  · simp [hw] at h
  · rw [daysColumn, hw]
    exact appendDays_eq _ (by simp)

theorem append_groups_ne {days : String} {groups : List (List String)} (h : 2 ≤ groups.length) :
    days ++ ";".intercalate (groups.map joined) ≠ days := by
  intro heq
  have hnil : ";".intercalate (groups.map joined) = "" := by
    rw [← String.toList_inj, String.toList_append] at heq
    rw [← String.toList_inj]
    simpa using heq
  rcases groups with _ | ⟨g, _ | ⟨g', gs⟩⟩
  · simp at h
  · simp at h
  · rw [← String.toList_inj, String.toList_intercalate] at hnil
    simp at hnil

theorem dayGroups_ne_nil (days : String) : dayGroups days ≠ [] := by
  rw [dayGroups, ne_eq, map_eq_nil_iff, splitText, map_eq_nil_iff]
  exact split_ne_nil (by decide) days.toList

/-! ## Saving twice

Saving the JSON fields is idempotent whichever of them cannot be written: what was written is
written again, and the query that went into the configuration is gone. -/

section SaveTwice

variable [DecidableEq J] (lib : Library J A R) (r : Rule J A R)

theorem configToWrite_ne_nil : configToWrite lib r ≠ lib.json.nil := by
  rw [configToWrite]
  split_ifs with h
  · exact lib.promRuleConfig_ne_nil _ _
  · exact fun hnil => h (.inl hnil)

theorem configToWrite_written :
    configToWrite lib { r with ruleConfigJson := configToWrite lib r } = configToWrite lib r := by
  have hne := configToWrite_ne_nil lib r
  by_cases hpromQl : r.promQl = ""
  · rw [configToWrite, if_neg (by simpa [hpromQl] using hne)]
  · simp [configToWrite, hpromQl]

theorem saveExtraConfig_eq :
    ∃ extraConfig, (saveExtraConfig lib r).1 = { r with extraConfig := extraConfig } := by
  rw [saveExtraConfig]
  split
  · split <;> exact ⟨_, rfl⟩
  · exact ⟨_, rfl⟩

theorem saveExtraConfig_saveExtraConfig :
    (saveExtraConfig lib (saveExtraConfig lib r).1).1 = (saveExtraConfig lib r).1 := by
  by_cases hnil : r.extraConfigJSON = lib.json.nil
  · simp [saveExtraConfig, hnil]
  · cases hm : lib.json.marshal r.extraConfigJSON <;> simp [saveExtraConfig, hnil, hm]

variable [DecidableEq A]

theorem saveAnnotations_eq : ∃ annotations extraConfig, (saveAnnotations lib r).1
    = { r with annotations := annotations, extraConfig := extraConfig } := by
  rw [saveAnnotations]
  split
  · split
    · exact ⟨_, _, rfl⟩
    · next annotations _ =>
      obtain ⟨extraConfig, h⟩ := saveExtraConfig_eq lib { r with annotations }
      exact ⟨_, extraConfig, h⟩
  · obtain ⟨extraConfig, h⟩ := saveExtraConfig_eq lib r
    exact ⟨_, extraConfig, h⟩

theorem saveAnnotations_saveAnnotations :
    (saveAnnotations lib (saveAnnotations lib r).1).1 = (saveAnnotations lib r).1 := by
  by_cases hnil : r.annotationsJSON = lib.annotations.nil
  · have htwice := saveExtraConfig_saveExtraConfig lib r
    obtain ⟨extraConfig, h⟩ := saveExtraConfig_eq lib r
    rw [h] at htwice
    simpa [saveAnnotations, hnil, h] using htwice
  · cases hm : lib.annotations.marshal r.annotationsJSON with
    | error err => simp [saveAnnotations, hnil, hm]
    | ok annotations =>
      have htwice := saveExtraConfig_saveExtraConfig lib { r with annotations }
      obtain ⟨extraConfig, h⟩ := saveExtraConfig_eq lib { r with annotations }
      rw [h] at htwice
      simpa [saveAnnotations, hnil, hm, h] using htwice

theorem saveRuleConfig_saveRuleConfig :
    (saveRuleConfig lib (saveRuleConfig lib r).1).1 = (saveRuleConfig lib r).1 := by
  have hne := configToWrite_ne_nil lib r
  cases hm : lib.json.marshal (configToWrite lib r) with
  | error err => simp [saveRuleConfig, hne, hm, configToWrite_written]
  | ok ruleConfig =>
    have hkeep : ∀ annotations extraConfig, configToWrite lib { r with
        ruleConfigJson := configToWrite lib r
        ruleConfig := ruleConfig
        promQl := ""
        annotations := annotations
        extraConfig := extraConfig } = configToWrite lib r := by
      intro annotations extraConfig
      rw [configToWrite, if_neg (by simpa using hne)]
    have htwice := saveAnnotations_saveAnnotations lib
      { r with ruleConfigJson := configToWrite lib r, ruleConfig, promQl := "" }
    obtain ⟨annotations, extraConfig, h⟩ := saveAnnotations_eq lib
      { r with ruleConfigJson := configToWrite lib r, ruleConfig, promQl := "" }
    rw [h] at htwice
    simpa [saveRuleConfig, hne, hm, h, hkeep] using htwice

theorem saveRuleConfig_eq : ∃ config ruleConfig promQl annotations extraConfig,
    (saveRuleConfig lib r).1 = { r with
        ruleConfigJson := config
        ruleConfig := ruleConfig
        promQl := promQl
        annotations := annotations
        extraConfig := extraConfig } := by
  rw [saveRuleConfig]
  split
  · split
    · exact ⟨_, _, _, _, _, rfl⟩
    · next ruleConfig _ =>
      obtain ⟨annotations, extraConfig, h⟩ := saveAnnotations_eq lib
        { r with ruleConfigJson := configToWrite lib r, ruleConfig, promQl := "" }
      exact ⟨_, _, _, annotations, extraConfig, h⟩
  · obtain ⟨annotations, extraConfig, h⟩ := saveAnnotations_eq lib
      { r with ruleConfigJson := configToWrite lib r }
    exact ⟨_, _, _, annotations, extraConfig, h⟩

/-- **What saving the JSON fields can change.** -/
theorem saveJson_eq : ∃ algoParams config ruleConfig promQl annotations extraConfig,
    (saveJson lib r).1 = { r with
        algoParams := algoParams
        ruleConfigJson := config
        ruleConfig := ruleConfig
        promQl := promQl
        annotations := annotations
        extraConfig := extraConfig } := by
  rw [saveJson]
  split
  · exact ⟨_, _, _, _, _, _, rfl⟩
  · next algoParams _ =>
    obtain ⟨config, ruleConfig, promQl, annotations, extraConfig, h⟩ :=
      saveRuleConfig_eq lib { r with algoParams }
    exact ⟨_, config, ruleConfig, promQl, annotations, extraConfig, h⟩

/-- **Saving the JSON fields is idempotent.** -/
theorem saveJson_saveJson : (saveJson lib (saveJson lib r).1).1 = (saveJson lib r).1 := by
  cases hm : lib.json.marshal r.algoParamsJson with
  | error err => simp [saveJson, hm]
  | ok algoParams =>
    have htwice := saveRuleConfig_saveRuleConfig lib { r with algoParams }
    obtain ⟨config, ruleConfig, promQl, annotations, extraConfig, h⟩ :=
      saveRuleConfig_eq lib { r with algoParams }
    rw [h] at htwice
    simpa [saveJson, hm, h] using htwice

end SaveTwice

theorem replaceText_space_of_notMem {x : String} (h : ' ' ∉ x.toList) :
    replaceText " " "" x = x :=
  replaceText_of_not_infix fun hin => h ((singleton_infix_iff _ _).mp hin)

theorem space_notMem_replaceText (x : String) : ' ' ∉ (replaceText " " "" x).toList := by
  have hclean : Clean [' '] (split [' '] x.toList) := clean_split (by decide) x.toList
  rw [clean_singleton_iff] at hclean
  rw [replaceText, String.toList_ofList, replaceAll, mem_intercalate_iff (by simp)]
  rintro ⟨y, hy, hmem⟩
  exact hclean.2 y hy hmem

/-- Saving the lists of a rule with at most one group of days is idempotent. -/
theorem saveTexts_saveTexts {r : Rule J A R} (h : r.enableDaysOfWeeksJSON.length ≤ 1) :
    saveTexts (saveTexts r) = saveTexts r := by
  have htags : (r.appendTagsJSON.map (replaceText " " "")).map (replaceText " " "")
      = r.appendTagsJSON.map (replaceText " " "") := by
    rw [List.map_map]
    refine map_congr_left fun x _ => ?_
    exact replaceText_space_of_notMem (space_notMem_replaceText x)
  have hdays : daysColumn (saveTexts r) = daysColumn r := by
    rcases hw : r.enableDaysOfWeeksJSON with _ | ⟨g, _ | ⟨g', gs⟩⟩
    · simp [daysColumn, saveTexts, hw]
    · simp [daysColumn, saveTexts, hw]
    · simp [hw] at h
  rw [saveTexts, hdays]
  by_cases hnil : r.appendTagsJSON = []
  · simp [saveTexts, hnil]
  · simp [saveTexts, htags, hnil]

section Laws

variable [DecidableEq J] [DecidableEq A] (lib : Library J A R) {r r' : Rule J A R}

/-- Saving the JSON fields leaves the lists to be saved again. -/
theorem saveTexts_saveJson (h : saveTexts r = r) :
    saveTexts (saveJson lib r).1 = (saveJson lib r).1 := by
  obtain ⟨algoParams, config, ruleConfig, promQl, annotations, extraConfig, hjson⟩ :=
    saveJson_eq lib r
  rw [hjson]
  exact congrArg (fun r : Rule J A R => { r with
    algoParams := algoParams
    ruleConfigJson := config
    ruleConfig := ruleConfig
    promQl := promQl
    annotations := annotations
    extraConfig := extraConfig }) h

theorem texts_saveJson : (saveJson lib r).1.texts = r.texts := by
  obtain ⟨_, _, _, _, _, _, hjson⟩ := saveJson_eq lib r
  rw [hjson]
  rfl

/-- **Saving twice gives the columns of saving once** exactly if there is at most one group of
days. -/
theorem columns_fe2DB_fe2DB_iff : ((fe2DB lib (fe2DB lib r).1).1.texts = (fe2DB lib r).1.texts ∧
      (fe2DB lib (fe2DB lib r).1).1.jsonTexts = (fe2DB lib r).1.jsonTexts) ↔
      r.enableDaysOfWeeksJSON.length ≤ 1 := by
  constructor
  · rintro ⟨htexts, -⟩
    by_contra hlong
    have hgroups : (fe2DB lib r).1.enableDaysOfWeeksJSON = r.enableDaysOfWeeksJSON := by
      obtain ⟨_, _, _, _, _, _, hjson⟩ := saveJson_eq lib (saveTexts r)
      rw [fe2DB, hjson]
      rfl
    have hlong' : 2 ≤ (fe2DB lib r).1.enableDaysOfWeeksJSON.length := by
      rw [hgroups]
      omega
    rw [fe2DB, texts_saveJson] at htexts
    have hdays : daysColumn (fe2DB lib r).1 = (fe2DB lib r).1.enableDaysOfWeek :=
      congrArg Texts.enableDaysOfWeek htexts
    rw [daysColumn_eq_append hlong'] at hdays
    exact append_groups_ne hlong' hdays
  · intro h
    have hsame : (fe2DB lib (fe2DB lib r).1).1 = (fe2DB lib r).1 := by
      rw [fe2DB, fe2DB, saveTexts_saveJson lib (saveTexts_saveTexts h), saveJson_saveJson]
    rw [hsame]
    exact ⟨rfl, rfl⟩

end Laws

/-! ## Loading twice -/

section LoadTwice

variable (lib : Library J A R) {r r' : Rule J A R} {o : MapOrder ℤ} {times : String × String}

theorem singleTimes_loaded (h : singleTimes r = some times) :
    singleTimes (loaded lib o r times) = some times := by
  rw [singleTimes] at h ⊢
  dsimp only [loaded]
  split at h
  · rfl
  · exact h

theorem fillCronPattern_loaded : fillCronPattern (loaded lib o r times) = fillCronPattern r := by
  by_cases h : r.cronPattern = "" ∧ r.promEvalInterval ≠ 0
  · simp [fillCronPattern, loaded, h]
  · simp [fillCronPattern, loaded, h]

theorem fillDatasourceQueries_loaded :
    fillDatasourceQueries lib (loaded lib o r times) = fillDatasourceQueries lib r := by
  by_cases h : r.datasourceQueries.isEmpty ∧ r.datasourceIds ≠ ""
  · simp [fillDatasourceQueries, loaded, h]
  · have hfill : fillDatasourceQueries lib r = r.datasourceQueries := if_neg h
    have hloaded : (loaded lib o r times).datasourceQueries = r.datasourceQueries := hfill
    rw [hfill, fillDatasourceQueries, hloaded]
    exact if_neg h

/-- **Loading again appends the days again, and the severities, and changes nothing else.** -/
theorem db2FE_db2FE (o' : MapOrder ℤ) (h : db2FE lib o r = some r') :
    db2FE lib o' r' = some { r' with
      enableDaysOfWeeksJSON := r'.enableDaysOfWeeksJSON ++ dayGroups r.enableDaysOfWeek
      severities := r'.severities ++ newSeverities lib o' r.cate r.ruleConfig } := by
  obtain ⟨times, htimes, rfl⟩ := map_eq_some_iff.mp h
  have hweeks : r.enableDaysOfWeeksJSON ++ dayGroups r.enableDaysOfWeek ≠ [] := by
    simp [dayGroups_ne_nil]
  obtain ⟨group, groups, hgroups⟩ := exists_cons_of_ne_nil hweeks
  rw [db2FE, singleTimes_loaded lib htimes, map_some, loaded, fillCronPattern_loaded,
    fillDatasourceQueries_loaded]
  simp only [loaded, lib.json.unmarshal_unmarshal, lib.annotations.unmarshal_unmarshal, hgroups,
    cons_append, head?_cons, getD_some]

end LoadTwice

/-! ## Loading, then saving -/

section LoadSave

variable (lib : Library J A R) (o : MapOrder ℤ) (r : Rule J A R) (times : String × String)

theorem dayGroups_of_notMem {days : String} (h : ';' ∉ days.toList) :
    dayGroups days = [fieldsText days] := by
  have hin : ¬ ";".toList <:+: days.toList := fun hin => h ((singleton_infix_iff _ _).mp hin)
  rw [dayGroups, splitText, split_of_not_infix hin]
  simp

theorem notMem_of_dayGroups {days : String} {group : List String} (h : dayGroups days = [group]) :
    ';' ∉ days.toList := by
  rw [dayGroups, splitText, List.map_map, List.map_eq_singleton_iff] at h
  obtain ⟨l, hl, -⟩ := h
  have hclean : Clean [';'] (split [';'] days.toList) := clean_split (by decide) _
  have hjoin : [';'].intercalate (split [';'] days.toList) = days.toList :=
    intercalate_split (by decide) _
  have hl' : split [';'] days.toList = [l] := hl
  rw [hl', clean_singleton_iff] at hclean
  rw [hl', List.intercalate_singleton] at hjoin
  rw [← hjoin]
  exact hclean.2 l List.mem_cons_self

/-- **The column of the days is kept** exactly if there is one spaced group, and none before. -/
theorem daysColumn_loaded_iff :
    daysColumn (loaded lib o r times) = r.enableDaysOfWeek ↔ DaysSettled r := by
  have hone : ∀ group, (loaded lib o r times).enableDaysOfWeeksJSON = [group] →
      daysColumn (loaded lib o r times) = joined group := by
    intro group h
    rw [daysColumn, h]
  constructor
  · intro h
    have hshort : ¬ 2 ≤ (loaded lib o r times).enableDaysOfWeeksJSON.length := by
      intro hlong
      rw [daysColumn_eq_append hlong] at h
      exact append_groups_ne hlong h
    have hgroups := dayGroups_ne_nil r.enableDaysOfWeek
    rcases hw : r.enableDaysOfWeeksJSON with _ | ⟨week, weeks⟩
    · obtain ⟨group, groups, hg⟩ := exists_cons_of_ne_nil hgroups
      rcases groups with _ | ⟨group', groups⟩
      · have hno := notMem_of_dayGroups hg
        rw [hone group (by simp [loaded, hw, hg])] at h
        rw [dayGroups_of_notMem hno, singleton_inj] at hg
        exact ⟨hw, hno, (joined_fieldsText_iff _).mp (hg ▸ h)⟩
      · simp [loaded, hw, hg] at hshort
    · have := length_pos_of_ne_nil hgroups
      simp only [loaded, hw, length_append, length_cons] at hshort
      omega
  · rintro ⟨hw, hno, hspaced⟩
    rw [hone (fieldsText r.enableDaysOfWeek) (by simp [loaded, hw, dayGroups_of_notMem hno])]
    exact (joined_fieldsText_iff _).mpr hspaced

/-- **The columns of the times are kept**, and loading does not panic, exactly if they are
settled. -/
theorem times_loaded_iff : (∃ times, singleTimes r = some times ∧
      (saveTexts (loaded lib o r times)).enableStime = r.enableStime ∧
      (saveTexts (loaded lib o r times)).enableEtime = r.enableEtime) ↔ TimesSettled r := by
  rw [TimesSettled, ← joined_fieldsText_iff, ← joined_fieldsText_iff, ← fieldsText_eq_nil_iff,
    ← fieldsText_eq_nil_iff]
  rcases hs : fieldsText r.enableStime with _ | ⟨stime, stimes⟩
  · rcases he : fieldsText r.enableEtime with _ | ⟨etime, etimes⟩
    · simp [singleTimes, saveTexts, loaded, hs, he]
    · simp [singleTimes, hs, he]
  · rcases he : fieldsText r.enableEtime with _ | ⟨etime, etimes⟩
    · simp [singleTimes, saveTexts, loaded, hs, he]
    · simp [singleTimes, saveTexts, loaded, hs, he]

/-- The tags are kept exactly if they are blank or spaced. -/
theorem appendTags_loaded_iff : (saveTexts (loaded lib o r times)).appendTags = r.appendTags ↔
      Blank r.appendTags ∨ Spaced r.appendTags := by
  have htags : (fieldsText r.appendTags).map (replaceText " " "") = fieldsText r.appendTags := by
    refine (map_congr_left fun x hx => ?_).trans (map_id _)
    refine replaceText_space_of_notMem fun hmem => ?_
    have hspace := (isWord_of_mem_fieldsText hx).2 ' ' hmem
    revert hspace
    decide
  rw [← joined_fieldsText_iff, ← fieldsText_eq_nil_iff]
  by_cases hnil : fieldsText r.appendTags = []
  · simp [saveTexts, loaded, hnil]
  · simp [saveTexts, loaded, hnil, htags]

/-- The lists that are saved are the columns exactly if the times are kept and the others are
settled. -/
theorem texts_loaded_iff : (saveTexts (loaded lib o r times)).texts = r.texts ↔
    ((saveTexts (loaded lib o r times)).enableStime = r.enableStime ∧
      (saveTexts (loaded lib o r times)).enableEtime = r.enableEtime) ∧
    DaysSettled r ∧ Spaced r.notifyChannels ∧ Spaced r.notifyGroups ∧ Spaced r.callbacks ∧
      (Blank r.appendTags ∨ Spaced r.appendTags) := by
  rw [← daysColumn_loaded_iff lib o r times, ← appendTags_loaded_iff lib o r times,
    ← joined_fieldsText_iff, ← joined_fieldsText_iff, ← joined_fieldsText_iff, Rule.texts,
    Rule.texts, Texts.mk.injEq, and_assoc]
  rfl

variable [DecidableEq J] [DecidableEq A]

theorem saveAnnotations_kept_iff : (saveAnnotations lib r).1.annotations = r.annotations ↔
    (r.annotationsJSON ≠ lib.annotations.nil →
      ∀ annotations, lib.annotations.marshal r.annotationsJSON = .ok annotations →
        annotations = r.annotations) := by
  have hextra : ∀ x : Rule J A R, (saveExtraConfig lib x).1.annotations = x.annotations := by
    intro x
    obtain ⟨extraConfig, h⟩ := saveExtraConfig_eq lib x
    rw [h]
  by_cases hnil : r.annotationsJSON = lib.annotations.nil
  · simp [saveAnnotations, hnil, hextra]
  · cases hm : lib.annotations.marshal r.annotationsJSON <;>
      simp [saveAnnotations, hnil, hm, hextra]

/-- **The JSON columns that are written are what they were.** -/
theorem saveJson_kept_iff : (saveJson lib r).1.ruleConfig = r.ruleConfig ∧
    (saveJson lib r).1.annotations = r.annotations ↔
      ∀ algoParams ruleConfig, lib.json.marshal r.algoParamsJson = .ok algoParams →
        lib.json.marshal (configToWrite lib r) = .ok ruleConfig →
        ruleConfig = r.ruleConfig ∧ (r.annotationsJSON ≠ lib.annotations.nil →
          ∀ annotations, lib.annotations.marshal r.annotationsJSON = .ok annotations →
            annotations = r.annotations) := by
  cases ha : lib.json.marshal r.algoParamsJson with
  | error err => simp [saveJson, ha]
  | ok algoParams =>
    have hsame : configToWrite lib { r with algoParams } = configToWrite lib r := rfl
    have hne := configToWrite_ne_nil lib r
    cases hc : lib.json.marshal (configToWrite lib r) with
    | error err => simp [saveJson, ha, saveRuleConfig, hsame, hne, hc]
    | ok ruleConfig =>
      have hkept := saveAnnotations_kept_iff lib { r with
        algoParams, ruleConfigJson := configToWrite lib r, ruleConfig, promQl := "" }
      obtain ⟨annotations, extraConfig, h⟩ := saveAnnotations_eq lib
        { r with algoParams, ruleConfigJson := configToWrite lib r, ruleConfig, promQl := "" }
      rw [h] at hkept
      have hsaved : (saveJson lib r).1 = { r with
          algoParams, ruleConfigJson := configToWrite lib r, ruleConfig, promQl := "",
          annotations, extraConfig } := by
        simp [saveJson, ha, saveRuleConfig, hsame, hne, hc, h]
      rw [hsaved]
      constructor
      · rintro ⟨hconfig, hann⟩ _ _ ⟨⟩ ⟨⟩
        exact ⟨hconfig, hkept.mp hann⟩
      · intro hall
        obtain ⟨hconfig, hann⟩ := hall algoParams ruleConfig rfl rfl
        exact ⟨hconfig, hkept.mpr hann⟩

/-- **A rule keeps its columns exactly if it is settled.** -/
theorem kept_iff : Kept lib o r ↔ Settled lib r := by
  have hload : ∀ times, (fe2DB lib (loaded lib o r times)).1.texts = r.texts ∧
      (fe2DB lib (loaded lib o r times)).1.ruleConfig = r.ruleConfig ∧
      (fe2DB lib (loaded lib o r times)).1.annotations = r.annotations ↔
      (saveTexts (loaded lib o r times)).texts = r.texts ∧ JsonSettled lib r := by
    intro times
    rw [fe2DB, texts_saveJson]
    exact and_congr_right fun _ => saveJson_kept_iff lib (saveTexts (loaded lib o r times))
  have htimes := times_loaded_iff lib o r
  constructor
  · rintro ⟨_, hr', hkept⟩
    obtain ⟨times, hsome, rfl⟩ := map_eq_some_iff.mp hr'
    obtain ⟨htexts, hjson⟩ := (hload times).mp hkept
    obtain ⟨ht, hdays, hchannels, hgroups, hcallbacks, htags⟩ :=
      (texts_loaded_iff lib o r times).mp htexts
    exact ⟨htimes.mp ⟨times, hsome, ht⟩, hdays, hchannels, hgroups, hcallbacks, htags, hjson⟩
  · rintro ⟨ht, hdays, hchannels, hgroups, hcallbacks, htags, hjson⟩
    obtain ⟨times, hsome, ht⟩ := htimes.mpr ht
    refine ⟨loaded lib o r times, map_eq_some_iff.mpr ⟨times, hsome, rfl⟩, ?_⟩
    rw [hload, texts_loaded_iff]
    exact ⟨⟨ht, hdays, hchannels, hgroups, hcallbacks, htags⟩, hjson⟩

/-- **What saving and loading do to a rule.**  Saving twice gives the columns of saving once exactly
if there is at most one group of days.  Loading twice never gives the fields of loading once: the
groups of days are appended again, and the severities, and nothing else changes.  Loading and then
saving keeps the columns exactly if the rule is settled. -/
theorem saving_laws (o' : MapOrder ℤ) :
    (((fe2DB lib (fe2DB lib r).1).1.texts = (fe2DB lib r).1.texts ∧
      (fe2DB lib (fe2DB lib r).1).1.jsonTexts = (fe2DB lib r).1.jsonTexts) ↔
      r.enableDaysOfWeeksJSON.length ≤ 1) ∧
    (∀ r', db2FE lib o r = some r' → db2FE lib o' r' ≠ some r' ∧ db2FE lib o' r' = some { r' with
        enableDaysOfWeeksJSON := r'.enableDaysOfWeeksJSON ++ dayGroups r.enableDaysOfWeek
        severities := r'.severities ++ newSeverities lib o' r.cate r.ruleConfig }) ∧
    (Kept lib o r ↔ Settled lib r) := by
  refine ⟨columns_fe2DB_fe2DB_iff lib, fun r' h => ?_, kept_iff lib o r⟩
  have htwice := db2FE_db2FE lib o' h
  refine ⟨fun hsame => ?_, htwice⟩
  rw [hsame, some.injEq] at htwice
  have hgroups := congrArg Rule.enableDaysOfWeeksJSON htwice
  exact dayGroups_ne_nil r.enableDaysOfWeek (by simpa using hgroups)

end LoadSave

namespace Example

/-- JSON texts that stand for themselves; the empty text cannot be read. -/
def codec : Codec (Option String) where
  nil := none
  unmarshal s a := if s = "" then (a, false) else (if s = "null" then none else some s, true)
  marshal a := .ok (a.getD "null")
  unmarshal_unmarshal s a := by split <;> rfl

/-- A library over such texts. -/
def lib : Library (Option String) (Option String) Unit where
  json := codec
  annotations := codec
  ofInt n := some (toString n)
  promRuleConfig promQl _ := some promQl
  promRuleConfig_ne_nil _ _ := by simp [codec]
  eventRelabelConfig _ := []
  ints _ := []
  ruleQuery _ := none
  promRule _ := none

/-- Severities in their order. -/
def ascending : MapOrder ℤ := MapOrder.sortBy (· ≤ ·)

/-- A stored rule in effect on the given days from eight to nine. -/
def stored (days : String) : Rule (Option String) (Option String) Unit where
  cate := PROMETHEUS
  severity := 2
  promQl := ""
  enableStime := "08:00 08:00"
  enableStimeJSON := ""
  enableStimesJSON := []
  enableEtime := "09:00 09:00"
  enableEtimeJSON := ""
  enableEtimesJSON := []
  enableDaysOfWeek := days
  enableDaysOfWeekJSON := []
  enableDaysOfWeeksJSON := []
  notifyChannels := "email sms"
  notifyChannelsJSON := []
  notifyGroups := ""
  notifyGroupsJSON := []
  callbacks := ""
  callbacksJSON := []
  appendTags := ""
  appendTagsJSON := []
  algoParams := ""
  algoParamsJson := none
  ruleConfig := "[up]"
  ruleConfigJson := none
  annotations := ""
  annotationsJSON := none
  extraConfig := ""
  extraConfigJSON := none
  notifyRuleIds := none
  eventRelabelConfig := []
  promEvalInterval := 15
  cronPattern := ""
  datasourceIds := ""
  datasourceQueries := []
  severities := []

/-- With one group of days the columns are kept. -/
example : (db2FE lib ascending (stored "1 2")).map (fun r => ((fe2DB lib r).1.texts,
    (fe2DB lib r).1.ruleConfig)) = some ((stored "1 2").texts, "[up]") := by
  decide +kernel

/-- Saving again what was loaded appends the groups of days to the column, once more each time;
loading again appends them to the field.  A rule that still has a query gets its configuration from
it. -/
theorem not_idempotent_twoGroups :
    (db2FE lib ascending (stored "1;6")).map (·.enableDaysOfWeeksJSON) = some [["1"], ["6"]] ∧
    ((db2FE lib ascending (stored "1;6")).bind (db2FE lib ascending)).map
      (·.enableDaysOfWeeksJSON) = some [["1"], ["6"], ["1"], ["6"]] ∧
    (db2FE lib ascending (stored "1;6")).map (fun r => (fe2DB lib r).1.enableDaysOfWeek)
      = some "1;61;6" ∧
    (db2FE lib ascending (stored "1;6")).map
      (fun r => (fe2DB lib (fe2DB lib r).1).1.enableDaysOfWeek) = some "1;61;61;6" ∧
    (db2FE lib ascending { stored "1" with promQl := "down" }).map
      (fun r => (fe2DB lib r).1.ruleConfig) = some "down" := by
  decide +kernel

end Example

end Nightingale.RuleColumns
