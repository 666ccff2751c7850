import Nightingale.Mute.Evaluator
import Nightingale.Suppress.Labels

/-!
# Suppress/Hook — the hooks an event passes on its way out

`wireMuteAndSuppressWithProviders` (`internal/custom/bootstrap/hooks.go`) stacks two adapters on
`dispatch.EventMuteHook`.  The mute is the outer one, and a muted event goes no further:

    event ──▸ mute: Evaluate ──not muted──▸ suppress: Decide, register ──not suppressed──▸ no-op

The inner adapter registers every source, suppressed or not; but it is not reached by an event an
operator has muted (`sources_registered_iff`).
-/

namespace Nightingale.Suppress

open List

/-! ## Hooks -/

/-- `SuppressionRecord`, without the time the sink puts in. -/
structure SuppressionRecord where
  ruleId : ℤ
  ruleName : String
  sourceEventHash : Hash
  targetEventHash : Hash
  sourceRuleName : String
  targetRuleName : String
  sourceTags : String
  targetTags : String
  sourceSeverity : ℤ
  targetSeverity : ℤ
  groupId : ℤ
  datasourceId : ℤ
  deriving DecidableEq

/-- What a hook leaves: the index, the records it has pushed, and whether the event is muted. -/
structure HookOutcome where
  index : RootCauseIndex
  records : List SuppressionRecord := []
  muted : Bool

/-- `dispatch.EventMuteHookFunc`, over the index. -/
abbrev EventMuteHookFunc : Type := RootCauseIndex → Option AlertCurEvent → HookOutcome

/-- The hook that mutes nothing. -/
def noopHook : EventMuteHookFunc := fun idx _ => { index := idx, muted := false }

/-- The record of a suppression. -/
def suppressionRecord (decision : Decision) (event : AlertCurEvent) : SuppressionRecord where
  ruleId := decision.byRuleId
  ruleName := decision.byRuleName
  sourceEventHash := decision.bySourceHash
  targetEventHash := event.hash
  sourceRuleName := decision.bySource.ruleName
  targetRuleName := event.ruleName
  sourceTags := decision.bySource.tagsCSV
  targetTags := event.tags
  sourceSeverity := decision.bySource.severity
  targetSeverity := event.severity
  groupId := event.groupId
  datasourceId := event.datasourceId

/-- `HookAdapter.Hook` of the inhibitor. -/
def suppressHook (now : ℤ) (orders : ℕ → MapOrder (ℤ × Hash)) (rules : List CompiledRule)
    (previous : EventMuteHookFunc) : EventMuteHookFunc
  | idx, none => { index := idx, muted := false }
  | idx, some event =>
    let out := Inhibitor.decide now orders idx rules (some event)
    if out.2.suppressed then
      { index := out.1, records := [suppressionRecord out.2 event], muted := true }
    else previous out.1 (some event)

/-- `HookAdapter.Hook` of the mutes. -/
def muteHook (eval : Mute.Evaluator) (now : ℤ) (previous : EventMuteHookFunc) : EventMuteHookFunc
  | idx, none => { index := idx, muted := false }
  | idx, some event =>
    if (eval.evaluate now (some event)).muted then { index := idx, muted := true }
    else previous idx (some event)

/-- What a call of the installed hook finds: the mutes and the inhibit rules now active, and the
clock as `Evaluate` reads it, in nanoseconds, and `Decide`, in seconds. -/
structure HookEnv where
  mutes : Mute.Evaluator := {}
  muteNow : ℤ
  rules : List CompiledRule
  now : ℤ
  orders : ℕ → MapOrder (ℤ × Hash)

/-- `dispatch.EventMuteHook`, as bootstrap installs it. -/
def HookEnv.eventMuteHook (env : HookEnv) : EventMuteHookFunc :=
  muteHook env.mutes env.muteNow (suppressHook env.now env.orders env.rules noopHook)

/-! ## What the installed hook does to the index -/

section Installed

variable (env : HookEnv) (idx : RootCauseIndex) (event : AlertCurEvent)

/-- The decision made in a call, if `Decide` is reached. -/
def HookEnv.decision : Option Decision :=
  if env.mutes.Mutes env.muteNow event then none
  else some (Inhibitor.decide env.now env.orders idx env.rules (some event)).2

/-- **The index after a call**: untouched by a muted event, and with all registrations of any
other. -/
theorem index_eventMuteHook : (env.eventMuteHook idx (some event)).index =
      if env.mutes.Mutes env.muteNow event then idx
      else env.rules.foldl (enroll env.now event) idx := by
  have hindex : (Inhibitor.decide env.now env.orders idx env.rules (some event)).1
      = env.rules.foldl (enroll env.now event) idx := decideLoop_fst env.orders env.rules (idx, {})
  simp only [HookEnv.eventMuteHook, muteHook, Mute.Evaluator.muted_evaluate_iff]
  split_ifs with hmuted
  · rfl
  · simp only [suppressHook, noopHook]
    split_ifs <;> exact hindex

theorem lookup_eventMuteHook {k : ℤ × Hash} (hk : k.2 ≠ event.hash) :
    (env.eventMuteHook idx (some event)).index.entries.lookup k = idx.entries.lookup k := by
  rw [index_eventMuteHook]
  split_ifs
  · rfl
  · exact lookup_foldl_enroll env.rules idx hk

end Installed

/-! ## Registered sources -/

section Registered

variable {now : ℤ} {event : AlertCurEvent}

/-- The index has an unexpired entry for the event under every rule it is a source of. -/
def Registered (now : ℤ) (event : AlertCurEvent) (rules : List CompiledRule)
    (idx : RootCauseIndex) : Prop :=
  ∀ r ∈ rules, r.enrolls event →
    ∃ e, idx.entries.lookup (r.rule.id, event.hash) = some e ∧ e.live now

theorem live_registerFull (idx : RootCauseIndex) (ruleId : ℤ) (values : GoMap String String) :
    ∃ e, (idx.registerFull now ruleId event values).entries.lookup (ruleId, event.hash) = some e ∧
      e.live now := by
  refine ⟨_, Finmap.lookup_insert _, ?_⟩
  have := idx.ttl_pos
  simp only [RootCauseEntry.live, Bool.not_eq_true', Bool.and_eq_false_iff, decide_eq_false_iff_not]
  omega

/-- A live entry stays live through a registration at the same time. -/
theorem live_enroll {idx : RootCauseIndex} {k : ℤ × Hash} (r : CompiledRule)
    (h : ∃ e, idx.entries.lookup k = some e ∧ e.live now) :
    ∃ e, (enroll now event idx r).entries.lookup k = some e ∧ e.live now := by
  rw [enroll_eq]
  split_ifs
  · by_cases hk : k = (r.rule.id, event.hash)
    · subst hk
      exact live_registerFull idx r.rule.id _
    · rw [RootCauseIndex.registerFull, Finmap.lookup_insert_of_ne _ hk]
      exact h
  · exact h

/-- **After the registrations of an event it is registered.** -/
theorem registered_foldl_enroll (rules : List CompiledRule) (idx : RootCauseIndex) :
    Registered now event rules (rules.foldl (enroll now event) idx) := by
  induction rules using reverseRecOn with
  | nil => exact fun r hr => absurd hr not_mem_nil
  | append_singleton rules r ih =>
    rw [foldl_concat]
    intro r' hr' henrolls
    rcases mem_append.mp hr' with hr' | hr'
    · exact live_enroll r (ih r' hr' henrolls)
    · obtain rfl := mem_singleton.mp hr'
      rw [enroll_eq, if_pos henrolls]
      exact live_registerFull _ r'.rule.id _

end Registered

/-- **Which events are registered.**  After a call of the installed hook the index has an unexpired
entry for the event under every rule it is a source of if and only if no operator's mute matches
the event, or all these entries were there before. -/
theorem sources_registered_iff (env : HookEnv) (idx : RootCauseIndex) (event : AlertCurEvent) :
    Registered env.now event env.rules (env.eventMuteHook idx (some event)).index ↔
      ¬ env.mutes.Mutes env.muteNow event ∨ Registered env.now event env.rules idx := by
  rw [index_eventMuteHook]
  split_ifs with hmuted
  · exact ⟨.inr, fun h => h.resolve_left (not_not_intro hmuted)⟩
  · exact iff_of_true (registered_foldl_enroll env.rules idx) (.inl hmuted)

namespace Example

/-- The emergency mute is on, and switches silence hosts. -/
def emergency : HookEnv where
  mutes := { emergency := { enabled := true, reason := "maintenance" } }
  muteNow := 1000 * 10 ^ 9
  rules := oneWay
  now := 1000
  orders := fun _ => startingWith ""

end Example

open Suppress.Example

/-- **A muted switch is no root cause.**  It is a source of the rule, the emergency mute matches it,
and the index stays empty. -/
theorem muted_source_unregistered :
    (emergency.eventMuteHook emptyIndex (some (kindEvent "switch"))).muted
        = true ∧
      ¬ Registered emergency.now (kindEvent "switch") emergency.rules
        (emergency.eventMuteHook emptyIndex
          (some (kindEvent "switch"))).index := by
  refine ⟨by decide, fun h => ?_⟩
  obtain ⟨e, he, -⟩ := h (kindRule 1 "switch" "host") (mem_singleton.mpr rfl)
    (by decide)
  rw [index_eventMuteHook, if_pos (by decide)] at he
  simp [emptyIndex] at he

end Nightingale.Suppress
