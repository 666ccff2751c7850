import Nightingale.Custom.Filters
import Nightingale.Mute.Windows

/-!
# Custom/Scopes — lists of ids as scopes

Five matchers have lists of ids in their rules: datasources, groups or severities.  An empty list
means all.  What else means all is not the same everywhere:

    datasources, groups                        a list that *begins* with 0, and an event with id 0
    severities of a mute (`MatchMute`)         a list with 0 in it
    severities of the other rules              nothing

So a list of severities is a set.  A list of datasources or groups is one as long as 0 does not come
to its head or leave it (`scope_lists`).
-/

namespace Nightingale

open List

/-! ## The native mute -/

namespace Mute

/-- `AlertMute`, with the fields `MatchMute` reads; `muteTimeType` is 0 for a range and 1 for
periods. -/
structure AlertMute where
  disabled : ℤ := 0
  datasourceIdsJson : List ℤ := []
  muteTimeType : ℤ := 0
  btime : ℤ := 0
  etime : ℤ := 0
  periodicMutesJson : List PeriodicMute := []
  severitiesJson : List ℤ := []
  iTags : List TagFilter := []

/-- `AlertMute.IsWithinTimeRange`. -/
def AlertMute.isWithinTimeRange (mute : AlertMute) (checkTime : ℤ) : Bool :=
  !(checkTime < mute.btime || checkTime > mute.etime)

/-- The severity check of `MatchMute`: 0 anywhere in the list stands for all. -/
def AlertMute.matchSeverity (mute : AlertMute) (severity : ℤ) : Bool :=
  mute.severitiesJson.isEmpty || mute.severitiesJson.any fun s => severity == s || s == 0

/-- `MatchMute`: an error is the reason why the event is not muted, and `none` is a panic in
`MatchTags`.  `localTime` is the clock of the process, `clock` the time that is used in the place of
the event's. -/
def matchMute (decode : String → Option (GoMap String Json)) (localTime : ℤ → Instant)
    (event : AlertCurEvent) (mute : AlertMute) (clock : Option ℤ) : Option (Except String Unit) :=
  if mute.disabled = 1 then some (.error "mute is disabled")
  else if !Custom.inDatasources mute.datasourceIdsJson event.datasourceId then
    some (.error "datasource id not match")
  else if mute.muteTimeType = 0 ∧ !mute.isWithinTimeRange event.triggerTime then
    some (.error "event trigger time not within mute time range")
  else if mute.muteTimeType = 1 ∧
      !isWithinPeriodicMute mute.periodicMutesJson (localTime (clock.getD event.triggerTime)) then
    some (.error "event trigger time not within periodic mute range")
  else if mute.muteTimeType ≠ 0 ∧ mute.muteTimeType ≠ 1 then
    some (.error "mute time type invalid")
  else if !mute.matchSeverity event.severity then
    some (.error "event severity not match mute severity")
  else if mute.iTags.isEmpty then some (.ok ())
  else
    (Common.matchTags decode event.tagsMap mute.iTags).map fun matched =>
      if matched then .ok () else .error "event tags not match mute tags"

section Severity

variable (mute : AlertMute) {severity : ℤ} {ids ids' : List ℤ}

theorem matchSeverity_iff : mute.matchSeverity severity = true ↔
    mute.severitiesJson = [] ∨ severity ∈ mute.severitiesJson ∨ 0 ∈ mute.severitiesJson := by
  have hany : (∃ s ∈ mute.severitiesJson, severity = s ∨ s = 0) ↔
      severity ∈ mute.severitiesJson ∨ 0 ∈ mute.severitiesJson := by
    constructor
    · rintro ⟨s, hs, rfl | rfl⟩
      · exact .inl hs
      · exact .inr hs
    · rintro (hs | hs)
      · exact ⟨severity, hs, .inl rfl⟩
      · exact ⟨0, hs, .inr rfl⟩
  simpa [AlertMute.matchSeverity] using or_congr_right hany

variable (severity) in
theorem matchSeverity_of_zero_mem (hzero : 0 ∈ ids) :
    { mute with severitiesJson := ids }.matchSeverity severity
      = { mute with severitiesJson := [] }.matchSeverity severity := by
  rw [Bool.eq_iff_iff, matchSeverity_iff, matchSeverity_iff]
  exact iff_of_true (.inr (.inr hzero)) (.inl rfl)

end Severity

end Mute

/-! ## Lists as sets -/

namespace Custom

/-- Lists with the same ids, in any order and any number, that both begin with 0 or both do not. -/
structure SameScope (ids ids' : List ℤ) : Prop where
  mem_iff : ∀ id, id ∈ ids ↔ id ∈ ids'
  head_iff : ids.head? = some 0 ↔ ids'.head? = some 0

/-- **A scope**: a verdict that depends on the ids of a list and on whether it begins with 0, and is
that without a list if it does. -/
structure IsScope {β : Type} (verdict : List ℤ → β) : Prop where
  congr : ∀ ids ids', SameScope ids ids' → verdict ids = verdict ids'
  zero : ∀ ids, ids.head? = some 0 → verdict ids = verdict []

/-- A verdict that depends on the ids of a list only. -/
def IsSet {β : Type} (verdict : List ℤ → β) : Prop :=
  ∀ ids ids' : List ℤ, (∀ id, id ∈ ids ↔ id ∈ ids') → verdict ids = verdict ids'

/-- A verdict that is the one without a list if 0 is one of the ids. -/
def ZeroIsAll {β : Type} (verdict : List ℤ → β) : Prop :=
  ∀ ids : List ℤ, 0 ∈ ids → verdict ids = verdict []

theorem eq_nil_iff_of_mem_iff {ids ids' : List ℤ} (h : ∀ id, id ∈ ids ↔ id ∈ ids') :
    ids = [] ↔ ids' = [] := by
  rw [eq_nil_iff_forall_not_mem, eq_nil_iff_forall_not_mem]
  exact forall_congr' fun id => not_congr (h id)

theorem inDatasources_iff {ids : List ℤ} {id : ℤ} :
    inDatasources ids id = true ↔ ids = [] ∨ ids.head? = some 0 ∨ id = 0 ∨ id ∈ ids := by
  cases ids with
  | nil => simp [inDatasources]
  | cons first ids => simp [inDatasources, or_assoc]

/-- **The check of a scope.** -/
theorem isScope_inDatasources (id : ℤ) : IsScope fun ids => inDatasources ids id where
  congr ids ids' h := by
    rw [Bool.eq_iff_iff, inDatasources_iff, inDatasources_iff, eq_nil_iff_of_mem_iff h.mem_iff,
      h.head_iff, h.mem_iff]
  zero ids h := by
    rw [Bool.eq_iff_iff]
    exact iff_of_true (inDatasources_iff.mpr (.inr (.inl h))) rfl

/-- A verdict that sees a list only through the check of a scope. -/
theorem IsScope.of_check {β : Type} {verdict : List ℤ → β} (id : ℤ)
    (h : ∀ ids ids', inDatasources ids id = inDatasources ids' id → verdict ids = verdict ids') :
    IsScope verdict where
  congr ids ids' hsame := h ids ids' ((isScope_inDatasources id).congr ids ids' hsame)
  zero ids hhead := h ids [] ((isScope_inDatasources id).zero ids hhead)

/-- A verdict that sees a list only by asking whether it is empty or has a member. -/
theorem IsSet.of_check {β : Type} {verdict : List ℤ → β} (severity : ℤ)
    (h : ∀ ids ids' : List ℤ, (ids = [] ↔ ids' = []) → (severity ∈ ids ↔ severity ∈ ids') →
      (0 ∈ ids ↔ 0 ∈ ids') → verdict ids = verdict ids') : IsSet verdict :=
  fun ids ids' hmem => h ids ids' (eq_nil_iff_of_mem_iff hmem) (hmem severity) (hmem 0)

end Custom

/-! ## The five matchers -/

namespace Suppress

/-- A rule with another list of datasources. -/
def CompiledRule.withDatasources (r : CompiledRule) (ids : List ℤ) : CompiledRule :=
  { r with rule := { r.rule with datasourceIdsJson := ids } }

section Decide

variable (now : ℤ) (event : AlertCurEvent) {ids ids' : List ℤ}

theorem visit_congr (order : MapOrder (ℤ × Hash)) (s : RootCauseIndex × Decision) (r : CompiledRule)
    (h : Custom.inDatasources ids event.datasourceId
      = Custom.inDatasources ids' event.datasourceId) :
    visit now event order s (r.withDatasources ids)
      = visit now event order s (r.withDatasources ids') := by
  have hscope : (r.withDatasources ids).inScope event = (r.withDatasources ids').inScope event := by
    simp only [CompiledRule.inScope, CompiledRule.withDatasources, h]
  unfold visit enroll
  rw [hscope]
  rfl

/-- **A rule acts on the whole walk through its scope only.** -/
theorem decideLoop_congr (orders : ℕ → MapOrder (ℤ × Hash)) (before after : List CompiledRule)
    (r : CompiledRule) (s : RootCauseIndex × Decision)
    (h : Custom.inDatasources ids event.datasourceId
      = Custom.inDatasources ids' event.datasourceId) :
    decideLoop now event orders (before ++ r.withDatasources ids :: after) s
      = decideLoop now event orders (before ++ r.withDatasources ids' :: after) s := by
  induction before generalizing orders s with
  | nil =>
    rw [nil_append, nil_append, decideLoop, decideLoop, visit_congr now event _ s r h]
  | cons b before ih =>
    rw [cons_append, cons_append, decideLoop, decideLoop]
    exact ih _ _

end Decide

end Suppress

namespace Custom

open Denoise Mute Suppress

/-- **Lists of ids as scopes.**  For every event and every rule: a list of datasources or groups
counts by its ids and by whether it begins with 0, in which case it means all, in an aggregation
rule, in an inhibit rule among any others, in a cron mute, in the emergency mute and in a native
mute; a list of severities counts by its ids only, and in a native mute it means all if 0 is one of
them. -/
theorem scope_lists (ext : Externals) (decode : String → Option (GoMap String Json))
    (localTime : ℤ → Instant) (event : AlertCurEvent) (now : ℤ) : (∀ rule : CustomAggregateRule,
      IsScope (fun ids => matchRule ext event { rule with datasourceIdsJson := ids }) ∧
      IsSet fun ids => matchRule ext event { rule with severitiesJson := ids }) ∧
    (∀ (orders : ℕ → MapOrder (ℤ × Hash)) (idx : RootCauseIndex) (before after : List CompiledRule)
        (r : CompiledRule), IsScope fun ids => Inhibitor.decide now orders idx
        (before ++ r.withDatasources ids :: after) (some event)) ∧ (∀ c : CompiledCronRule,
      IsScope (fun ids => { c with datasourceIds := ids }.matches event now) ∧
      IsSet fun ids => { c with severities := ids }.matches event now) ∧ (∀ s : EmergencyState,
      IsScope (fun ids => { s with datasourceIds := ids }.matches event now) ∧
      IsScope fun ids => { s with groupIds := ids }.matches event now) ∧
    ∀ (mute : AlertMute) (clock : Option ℤ),
      IsScope (fun ids => matchMute decode localTime event
        { mute with datasourceIdsJson := ids } clock) ∧
      IsSet (fun ids => matchMute decode localTime event
        { mute with severitiesJson := ids } clock) ∧
      ZeroIsAll (fun ids => matchMute decode localTime event
        { mute with severitiesJson := ids } clock) := by
  refine ⟨fun rule => ⟨?_, ?_⟩, fun orders idx before after r => ?_, fun c => ⟨?_, ?_⟩,
    fun s => ⟨?_, ?_⟩, fun mute clock => ⟨?_, ?_, ?_⟩⟩
  · exact .of_check event.datasourceId fun ids ids' h => by simp only [matchRule, h]
  · exact .of_check event.severity fun ids ids' hnil hmem _ => by
      simp only [matchRule, Ne, hnil, hmem]
  · exact .of_check event.datasourceId fun ids ids' h => decideLoop_congr now event orders _ _ r _ h
  · exact .of_check event.datasourceId fun ids ids' h => by simp only [CompiledCronRule.matches, h]
  · exact .of_check event.severity fun ids ids' hnil hmem _ => by
      simp only [CompiledCronRule.matches, Ne, hnil, hmem]
  · exact .of_check event.datasourceId fun ids ids' h => by simp only [EmergencyState.matches, h]
  · exact .of_check event.groupId fun ids ids' h => by simp only [EmergencyState.matches, h]
  · exact .of_check event.datasourceId fun ids ids' h => by
      unfold matchMute
      rw [h]
      rfl
  · exact .of_check event.severity fun ids ids' hnil hmem hzero => by
      have hsame : { mute with severitiesJson := ids }.matchSeverity event.severity
          = { mute with severitiesJson := ids' }.matchSeverity event.severity := by
        rw [Bool.eq_iff_iff, matchSeverity_iff, matchSeverity_iff]
        exact or_congr hnil (or_congr hmem hzero)
      unfold matchMute
      rw [hsame]
      rfl
  · intro ids hzero
    have hall := matchSeverity_of_zero_mem mute event.severity hzero
    dsimp only
    unfold matchMute
    rw [hall]
    rfl

namespace Example

/-- A serious event of datasource 7 and group 7. -/
def event : AlertCurEvent := { hash := "", datasourceId := 7, groupId := 7, severity := 1 }

/-- Any time is a Sunday night. -/
def sunday : ℤ → Instant := fun _ => Mute.Example.sundayNight

/-- A rule without any scope. -/
def rule : CustomAggregateRule := { id := 1, dimensions := "" }

/-- The verdict of the native mute, with a list of datasources. -/
def muted (ids : List ℤ) : Option Bool :=
  (matchMute (fun _ => none) sunday event { datasourceIdsJson := ids } none).map (·.toBool)

end Example

/-- **The order of a list matters.**  With datasources 0 and 5 an aggregation rule, the emergency
mute and a native mute take an event of datasource 7 if 0 is written first, and not if it is
written last; and a list of severities with 0 alone does not mean all in an aggregation rule. -/
theorem scope_lists_ordered : (matchRule (Example.storing []) Example.event
        { Example.rule with datasourceIdsJson := [0, 5] } = true ∧
      matchRule (Example.storing []) Example.event
        { Example.rule with datasourceIdsJson := [5, 0] } = false) ∧
    (({ enabled := true, groupIds := [0, 5] } : EmergencyState).matches Example.event 0 = some "" ∧
      ({ enabled := true, groupIds := [5, 0] } : EmergencyState).matches Example.event 0 = none) ∧
    (Example.muted [0, 5] = some true ∧ Example.muted [5, 0] = some false) ∧
    matchRule (Example.storing []) Example.event
      { Example.rule with severitiesJson := [0] } = false := by
  decide

end Custom

end Nightingale
