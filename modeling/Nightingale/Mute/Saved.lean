import Nightingale.Models.RuleColumns
import Nightingale.Mute.Windows

/-!
# Mute/Saved — the effective times of a rule that was saved

A client sends starts, ends and groups of days as three lists.  `FE2DB` joins each into a column,
`Verify` looks at none of the three, and `TimeSpanMuteStrategy` splits the columns again and takes
the start and the end that stand where the group stands.

    starts   ["08:00"]           "08:00"    ──Fields──▸  "08:00"
    ends     ["20:00"]           "20:00"    ──Fields──▸  "20:00"
    days     [["1"], ["2"]]      "1;2"      ──Split───▸  "1"        "2"  ──▸ index out of range

`effectiveTime_defined_iff` says at which times this is not met.
-/

namespace Nightingale.Mute

open RuleColumns Text List

/-! ## Saving -/

/-- `models.AlertRule`, with what `Verify` reads besides. -/
structure SentRule (J A R : Type*) extends RuleColumns.Rule J A R where
  groupId : ℤ
  name : String
  prod : String
  notifyVersion : ℤ

/-- What `Verify` asks of libraries. -/
structure Checks where
  /-- `str.Dangerous`. -/
  dangerous : String → Bool
  /-- `strconv.ParseInt` succeeds. -/
  parsesInt : String → Bool
  /-- The error of the cron parser. -/
  cron : String → Option String

variable {J A R : Type*} [DecidableEq J] [DecidableEq A] (lib : Library J A R) (checks : Checks)

/-- `AlertRule.validateCronPattern`. -/
def validateCronPattern (cronPattern : String) : Option String :=
  if cronPattern = "" then none
  else (checks.cron cronPattern).map fun err =>
    s!"invalid cron pattern: {cronPattern}, error: {err}"

/-- What `Verify` changes. -/
def verified (ar : SentRule J A R) : SentRule J A R :=
  let old := ar.notifyVersion ≤ 0
  { ar with
    name := trimSpace ar.name
    prod := if ar.prod = "" then "metric" else ar.prod
    cate := if ar.cate = "" then PROMETHEUS else ar.cate
    promEvalInterval := if ar.promEvalInterval ≤ 0 then 15 else ar.promEvalInterval
    appendTags := trimSpace ar.appendTags
    notifyRuleIds := if ar.notifyVersion = 0 then some [] else ar.notifyRuleIds
    notifyChannelsJSON := if old then ar.notifyChannelsJSON else []
    notifyGroupsJSON := if old then ar.notifyGroupsJSON else []
    notifyChannels := if old then ar.notifyChannels else ""
    notifyGroups := if old then ar.notifyGroups else ""
    callbacks := if old then ar.callbacks else ""
    callbacksJSON := if old then ar.callbacksJSON else [] }

/-- `AlertRule.Verify`: its error. -/
def verify (ar : SentRule J A R) : Option String :=
  let groupId := ar.groupId
  let notifyGroups := ar.notifyGroups
  if groupId < 0 then some s!"GroupId({groupId}) invalid"
  else if trimSpace ar.name = "" then some "name is blank"
  else if checks.dangerous (trimSpace ar.name) then some "Name has invalid characters"
  else if ar.ruleConfig = "" then some "rule_config is blank"
  else
    match (fieldsText (trimSpace ar.appendTags)).find? fun tag => !containsText tag "=" with
    | some tag => some s!"AppendTags({tag}) invalid"
    | none =>
      if (fieldsText notifyGroups).all checks.parsesInt then
        validateCronPattern checks ar.cronPattern
      else some s!"NotifyGroups({notifyGroups}) invalid"

/-- `FE2DB` and `Verify`, as a rule passes them to be saved. -/
def save (ar : SentRule J A R) : Except String (SentRule J A R) :=
  match fe2DB lib ar.toRule with
  | (_, some err) => .error err
  | (r, none) =>
    match verify checks { ar with toRule := r } with
    | some err => .error err
    | none => .ok (verified { ar with toRule := r })

/-- The columns of a rule that its effective times are read from. -/
def SentRule.effectiveTime (ar : SentRule J A R) : EffectiveTime :=
  ⟨ar.enableStime, ar.enableEtime, ar.enableDaysOfWeek⟩

/-- The columns are joined from the lists, and nothing else touches them. -/
theorem effectiveTime_of_save {ar ar' : SentRule J A R} (h : save lib checks ar = .ok ar') :
    ar'.effectiveTime = ⟨(saveTexts ar.toRule).enableStime, (saveTexts ar.toRule).enableEtime,
      daysColumn ar.toRule⟩ := by
  rw [save] at h
  split at h
  · cases h
  · next r hr =>
    split at h
    · cases h
    · cases h
      have htexts : r.texts = (saveTexts ar.toRule).texts := by
        rw [← texts_saveJson lib (r := saveTexts ar.toRule), ← fe2DB, hr]
      exact congrArg (fun c : Texts => EffectiveTime.mk c.enableStime c.enableEtime
        c.enableDaysOfWeek) htexts

/-! ## Reading -/

/-- The group of days holds the day. -/
def Applies (t : Instant) (days : String) : Prop :=
  containsText (String.ofList (replaceFirst '7' '0' days.toList)) (dayText t.day) = true

/-- The `i`-th window is there and in effect. -/
def InWindow (t : Instant) (days stimes etimes : List String) (i : ℕ) : Prop :=
  ∃ d s e, days[i]? = some d ∧ stimes[i]? = some s ∧ etimes[i]? = some e ∧ Applies t d ∧
    inEffect s e t.triggerTime = true

/-- Every group that holds the day has its start and its end, or a window before it is in effect. -/
def Provided (t : Instant) (days stimes etimes : List String) : Prop :=
  ∀ i d, days[i]? = some d → Applies t d →
    (i < stimes.length ∧ i < etimes.length) ∨ ∃ j < i, InWindow t days stimes etimes j

section Loop

variable {t : Instant} {d : String} {days stimes etimes : List String}

theorem inWindow_succ {i : ℕ} :
    InWindow t (d :: days) stimes etimes (i + 1) ↔ InWindow t days stimes.tail etimes.tail i := by
  simp [InWindow, getElem?_tail]

theorem provided_cons : Provided t (d :: days) stimes etimes ↔
    (Applies t d → 0 < stimes.length ∧ 0 < etimes.length) ∧
      (InWindow t (d :: days) stimes etimes 0 ∨ Provided t days stimes.tail etimes.tail) := by
  constructor
  · intro h
    refine ⟨fun hd => (h 0 d rfl hd).resolve_right (by simp), or_iff_not_imp_left.mpr ?_⟩
    intro hno i d' hi hd
    rcases h (i + 1) d' hi hd with ⟨hs, he⟩ | ⟨j, hj, hw⟩
    · exact .inl (by rw [length_tail, length_tail]; omega)
    · cases j with
      | zero => exact absurd hw hno
      | succ j => exact .inr ⟨j, by omega, inWindow_succ.mp hw⟩
  · rintro ⟨hfirst, hrest⟩ i d' hi hd
    cases i with
    | zero => exact .inl (hfirst (Option.some.inj hi ▸ hd))
    | succ i =>
      rcases hrest with hw | hrest
      · exact .inr ⟨0, by omega, hw⟩
      · rcases hrest i d' hi hd with ⟨hs, he⟩ | ⟨j, hj, hw⟩
        · rw [length_tail] at hs he
          exact .inl (by omega)
        · exact .inr ⟨j + 1, by omega, inWindow_succ.mpr hw⟩

theorem timeSpanLoop_isSome_iff :
    (timeSpanLoop t days stimes etimes).isSome ↔ Provided t days stimes etimes := by
  induction days generalizing stimes etimes with
  | nil => simp [Provided]
  | cons d days ih =>
    rw [provided_cons, ← ih]
    by_cases hd : Applies t d
    · have hmem : (!containsText (String.ofList (replaceFirst '7' '0' d.toList)) (dayText t.day))
          = false := by rw [Bool.not_eq_false', hd]
      cases stimes with
      | nil => simp [timeSpanLoop, hmem, hd]
      | cons s stimes =>
        cases etimes with
        | nil => simp [timeSpanLoop, hmem, hd]
        | cons e etimes =>
          by_cases heff : inEffect s e t.triggerTime
          · simp [timeSpanLoop, hmem, heff, InWindow, hd]
          · simp [timeSpanLoop, hmem, heff, InWindow]
    · have hnot : (!containsText (String.ofList (replaceFirst '7' '0' d.toList)) (dayText t.day))
          = true := by rw [Bool.not_eq_true', Bool.eq_false_iff]; exact hd
      simp [timeSpanLoop, hnot, hd, InWindow]

end Loop

/-- **The effective times of a saved rule can be read at a time exactly if** the rule has no days,
or every group that holds the day has its start and its end or comes behind a window in effect. -/
theorem effectiveTime_defined_iff {ar ar' : SentRule J A R} (h : save lib checks ar = .ok ar')
    (t : Instant) : (timeSpanMuteStrategy ar'.effectiveTime t).isSome ↔
      daysColumn ar.toRule = "" ∨ Provided t (splitText ";" (daysColumn ar.toRule))
        (fieldsText (saveTexts ar.toRule).enableStime)
        (fieldsText (saveTexts ar.toRule).enableEtime) := by
  rw [effectiveTime_of_save lib checks h, timeSpanMuteStrategy, ← timeSpanLoop_isSome_iff]
  dsimp only
  split_ifs with hdays <;> simp [hdays]

namespace Example

/-- A rule as a client sends it, in effect on Mondays from eight on. -/
def sent (days : List (List String)) : SentRule (Option String) (Option String) Unit where
  toRule := { RuleColumns.Example.stored "" with
    promQl := "up"
    enableStimesJSON := ["08:00"]
    enableEtimesJSON := ["20:00"]
    enableDaysOfWeeksJSON := days }
  groupId := 1
  name := "cpu"
  prod := ""
  notifyVersion := 1

/-- Every text passes. -/
def lenient : Checks := ⟨fun _ => false, fun _ => true, fun _ => none⟩

/-- The rule with one group of days is saved, and can be read on a Tuesday. -/
theorem tuesday_read : ∃ ar', save RuleColumns.Example.lib lenient (sent [["1", "2"]]) = .ok ar' ∧
    (timeSpanMuteStrategy ar'.effectiveTime ⟨2, 9, 0⟩).isSome := by
  have hsaved : (save RuleColumns.Example.lib lenient (sent [["1", "2"]])).toOption.isSome := by
    decide +kernel
  cases h : save RuleColumns.Example.lib lenient (sent [["1", "2"]]) with
  | error err => rw [h] at hsaved; cases hsaved
  | ok ar' =>
    refine ⟨ar', rfl, (effectiveTime_defined_iff _ _ h ⟨2, 9, 0⟩).mpr (.inr ?_)⟩
    exact timeSpanLoop_isSome_iff.mp (by decide +kernel)

/-- So is the rule with a second group of days, and on a Tuesday its start is looked for in vain. -/
theorem tuesday_out_of_range :
    (save RuleColumns.Example.lib lenient (sent [["1"], ["2"]])).toOption.map
      (fun ar' => timeSpanMuteStrategy ar'.effectiveTime ⟨2, 9, 0⟩) = some none := by
  decide +kernel

end Example

end Nightingale.Mute
