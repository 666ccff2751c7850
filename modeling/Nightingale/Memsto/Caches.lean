import Nightingale.Lib.Fingerprint
import Nightingale.Models.Event

/-!
# Memsto/Caches — configuration tables and their caches

The caches of alert subscriptions, of mutes and of alert rules (`memsto/`) follow one pattern.  A
sync step queries `count(*)` and `max(update_at)`; if both are what they were, it ends; otherwise
the table is read and the cache replaced:

    alert_subscribe   counts all rows        reads all rows             by rule, the enabled ones
    alert_mute        counts all rows        reads the enabled rows     by group
                                             of this moment
    alert_rule        counts enabled rows    reads the enabled rows     by id

`update_at` is a second, so two updates within one second have one stamp, and a row deleted takes
its stamp with it; and which mutes are read depends on the clock, which the two numbers do not know.
`caches_converge` holds for histories without such coincidences.
-/

namespace Nightingale.Memsto

open List

/-! ## Tables -/

/-- A table with its cache: the rows have an id, every write sets `update_at`, and rows are enabled
and disabled. -/
structure Table (ρ γ : Type) extends Mirror ρ γ where
  id : ρ → ℤ
  touch : ℤ → ρ → ρ
  setDisabled : ℤ → ρ → ρ
  empty : γ
  stamp_touch : ∀ now r, stamp (touch now r) = now

/-- What is done to the rows of a table. -/
inductive Change (ρ : Type) where
  | insert (row : ρ)
  | update (ids : List ℤ) (edit : ρ → ρ)
  | setDisabled (ids : List ℤ) (disabled : ℤ)
  | delete (ids : List ℤ)

/-- A write at a second; or the statistics query of a sync step, and its full read. -/
inductive SyncOp (ρ : Type) where
  | write (now : ℤ) (c : Change ρ)
  | statistics (now : ℤ)
  | getsAll (now : ℤ)

namespace Table

variable {ρ γ : Type} (t : Table ρ γ)

/-- Rows are rewritten. -/
def rewrite (now : ℤ) (ids : List ℤ) (edit : ρ → ρ) : Edit ρ where
  edit r := some (if t.id r ∈ ids then t.touch now (edit r) else r)
  added := []

/-- What a write does to the table. -/
def edit (now : ℤ) : Change ρ → Edit ρ
  | .insert row => { edit := some, added := [t.touch now row] }
  | .update ids edit => t.rewrite now ids edit
  | .setDisabled ids disabled => t.rewrite now ids (t.setDisabled disabled)
  | .delete ids => { edit := fun r => if t.id r ∈ ids then none else some r, added := [] }

/-- What an operation is to the cache. -/
def action : SyncOp ρ → Mirror.Action ρ
  | .write now c => .change (t.edit now c)
  | .statistics now => .ask now
  | .getsAll now => .read now

/-- One operation. -/
def step (s : Mirror.State ρ γ) (op : SyncOp ρ) : Mirror.State ρ γ :=
  t.toMirror.step s (t.action op)

/-- Before the first sync: `statTotal` and `statLastUpdated` are −1. -/
def start (table : List ρ) : Mirror.State ρ γ := { table := table, content := t.empty }

/-- **The cache has converged** when a sync step ends: it is what a full read returns. -/
def Converged (s : Mirror.State ρ γ) (op : SyncOp ρ) : Prop := t.toMirror.Fresh s (t.action op)

instance [DecidableEq γ] (s : Mirror.State ρ γ) (op : SyncOp ρ) : Decidable (t.Converged s op) :=
  inferInstanceAs (Decidable (t.toMirror.Fresh s (t.action op)))

/-- A row written at `now`, if it counts, is written in a second after the newest update seen. -/
def Later (s : Mirror.State ρ γ) (now : ℤ) (row : ρ) : Prop :=
  t.counts (t.touch now row) = true → s.seen.2 < now

instance (s : Mirror.State ρ γ) (now : ℤ) (row : ρ) : Decidable (t.Later s now row) :=
  inferInstanceAs (Decidable (_ → _))

/-- All rows a write puts in or changes are written later. -/
def InTime (s : Mirror.State ρ γ) (now : ℤ) : Change ρ → Prop
  | .insert row => t.Later s now row
  | .update ids edit => ∀ r ∈ s.table, t.id r ∈ ids → t.Later s now (edit r)
  | .setDisabled ids disabled =>
    ∀ r ∈ s.table, t.id r ∈ ids → t.Later s now (t.setDisabled disabled r)
  | .delete _ => True

instance (s : Mirror.State ρ γ) (now : ℤ) : (c : Change ρ) → Decidable (t.InTime s now c)
  | .insert _ => inferInstanceAs (Decidable (t.Later ..))
  | .update .. | .setDisabled .. => inferInstanceAs (Decidable (∀ _ ∈ _, _ → _))
  | .delete _ => inferInstanceAs (Decidable True)

/-- Rows that were written after the newest update seen are not deleted, nor do they cease to
count. -/
def Lasting (s : Mirror.State ρ γ) (now : ℤ) : Change ρ → Prop
  | .insert _ => True
  | .update ids edit => ∀ r ∈ s.table, t.id r ∈ ids → t.newer s.seen.2 r = true →
      t.counts (t.touch now (edit r)) = true
  | .setDisabled ids disabled => ∀ r ∈ s.table, t.id r ∈ ids → t.newer s.seen.2 r = true →
      t.counts (t.touch now (t.setDisabled disabled r)) = true
  | .delete ids => ∀ r ∈ s.table, t.id r ∈ ids → t.newer s.seen.2 r = false

instance (s : Mirror.State ρ γ) (now : ℤ) : (c : Change ρ) → Decidable (t.Lasting s now c)
  | .insert _ => inferInstanceAs (Decidable True)
  | .update .. | .setDisabled .. | .delete _ => inferInstanceAs (Decidable (∀ _ ∈ _, _ → _))

/-- **No coincidences.**  Once there are statistics, rows are inserted and updated in a second after
the newest update they saw.  If a row was written between the statistics query and the full read,
the rows written since that query last until the next sync step.  And when the statistics are found
unchanged, the rows a full read returns are those of the last one. -/
def Spaced (s : Mirror.State ρ γ) : SyncOp ρ → Prop
  | .write now c => 0 ≤ s.seen.1 →
      t.InTime s now c ∧ (s.pending = none → s.mixed = true → t.Lasting s now c)
  | .statistics now => t.toMirror.Ends s (.ask now) →
      ∀ r ∈ s.table, t.shows s.readAt r = t.shows now r
  | .getsAll _ => True

instance (s : Mirror.State ρ γ) : (op : SyncOp ρ) → Decidable (t.Spaced s op)
  | .write .. | .statistics _ => inferInstanceAs (Decidable (_ → _))
  | .getsAll _ => inferInstanceAs (Decidable True)

variable {t} {s : Mirror.State ρ γ} {now : ℤ}

section Rewrite

variable {ids : List ℤ} {edit : ρ → ρ}

theorem edit_rewrite (r : ρ) : (t.rewrite now ids edit).edit r
    = some (if t.id r ∈ ids then t.touch now (edit r) else r) := rfl

theorem orderly_rewrite (h : ∀ r ∈ s.table, t.id r ∈ ids → t.Later s now (edit r)) :
    t.toMirror.Orderly s.seen.2 s.table (t.rewrite now ids edit) := by
  refine ⟨fun r hr => absurd hr not_mem_nil, fun r hr => ?_⟩
  rw [edit_rewrite]
  split_ifs with hid
  · refine .inr fun r' hr' hc => ?_
    cases hr'
    rw [t.stamp_touch]
    exact h r hr hid hc
  · exact .inl rfl

/-- Rewriting rows so that the newer ones go on counting spares them. -/
theorem spares_rewrite (h : ∀ r ∈ s.table, t.id r ∈ ids → t.newer s.seen.2 r = true →
      t.counts (t.touch now (edit r)) = true) :
    t.toMirror.Spares s.seen.2 s.table (t.rewrite now ids edit) := by
  intro r hr hnew
  rw [edit_rewrite]
  refine ⟨_, rfl, ?_⟩
  split_ifs with hid
  · exact h r hr hid hnew
  · exact (Bool.and_eq_true_iff.mp hnew).1

end Rewrite

theorem orderly_edit {c : Change ρ} (h : t.InTime s now c) :
    t.toMirror.Orderly s.seen.2 s.table (t.edit now c) := by
  cases c with
  | insert row =>
    refine ⟨fun r hr hc => ?_, fun r _ => .inl rfl⟩
    obtain rfl := mem_singleton.mp hr
    rw [t.stamp_touch]
    exact h hc
  | update ids edit | setDisabled ids disabled => exact orderly_rewrite h
  | delete ids =>
    refine ⟨fun r hr => absurd hr not_mem_nil, fun r _ => ?_⟩
    by_cases hid : t.id r ∈ ids
    · exact .inr (by simp [edit, hid])
    · exact .inl (by simp [edit, hid])

theorem spares_edit {c : Change ρ} (h : t.Lasting s now c) :
    t.toMirror.Spares s.seen.2 s.table (t.edit now c) := by
  cases c with
  | insert row => exact fun r _ hnew => ⟨r, rfl, (Bool.and_eq_true_iff.mp hnew).1⟩
  | update ids edit | setDisabled ids disabled => exact spares_rewrite h
  | delete ids =>
    intro r hr hnew
    have hid : t.id r ∉ ids := fun hid => absurd hnew (by simp [h r hr hid])
    exact ⟨r, by simp [edit, hid], (Bool.and_eq_true_iff.mp hnew).1⟩

theorem heeds_of_spaced {op : SyncOp ρ} (h : t.Spaced s op) : t.toMirror.Heeds s (t.action op) := by
  cases op with
  | write now c =>
    exact fun hseen => ⟨orderly_edit (h hseen).1,
      fun hpending hmixed => spares_edit ((h hseen).2 hpending hmixed)⟩
  | statistics now => exact h
  | getsAll now => trivial

end Table

/-! ## The three caches -/

/-- `AlertSubscribe`; the columns its cache does not look at are one text. -/
structure AlertSubscribe where
  id : ℤ
  disabled : ℤ := 0
  ruleId : ℤ := 0
  ruleIds : List ℤ := []
  updateAt : ℤ := 0
  columns : String := ""
  deriving DecidableEq

/-- `AlertMute`. -/
structure AlertMute where
  id : ℤ
  groupId : ℤ := 0
  disabled : ℤ := 0
  muteTimeType : ℤ := 0
  btime : ℤ := 0
  etime : ℤ := 0
  updateAt : ℤ := 0
  columns : String := ""
  deriving DecidableEq

/-- `AlertRule`. -/
structure AlertRule where
  id : ℤ
  disabled : ℤ := 0
  updateAt : ℤ := 0
  columns : String := ""
  deriving DecidableEq

/-- Which rows can be decoded: `Parse`, and for subscriptions `DB2FE`. -/
structure Decoders where
  subscribe : AlertSubscribe → Bool
  mute : AlertMute → Bool

/-- The rules a subscription is cached under: `CompatibleWithOldRuleId`, and 0 if there is none. -/
def AlertSubscribe.fillRuleIds (sub : AlertSubscribe) : AlertSubscribe :=
  let sub := if sub.ruleIds = [] ∧ sub.ruleId ≠ 0 then { sub with ruleIds := [sub.ruleId] } else sub
  if sub.ruleIds = [] ∧ sub.ruleId = 0 then { sub with ruleIds := [0] } else sub

/-- A value is appended to the list under a key. -/
def append {β : Type} (m : GoMap ℤ (List β)) (key : ℤ) (b : β) : GoMap ℤ (List β) :=
  m.insert key ((m.lookup key).getD [] ++ [b])

/-- The subscriptions, as `syncAlertSubscribes` puts them in the cache. -/
def subscribesByRule (d : Decoders) (lst : List AlertSubscribe) : GoMap ℤ (List AlertSubscribe) :=
  lst.foldl (fun subs sub =>
    if sub.disabled = 1 then subs
    else if !d.subscribe sub then subs
    else sub.fillRuleIds.ruleIds.foldl (fun subs rid => append subs rid sub.fillRuleIds) subs) ∅

/-- The mutes, as `syncAlertMutes` puts them in the cache. -/
def mutesByGroup (d : Decoders) (lst : List AlertMute) : GoMap ℤ (List AlertMute) :=
  lst.foldl (fun oks mute => if !d.mute mute then oks else append oks mute.groupId mute) ∅

/-- The rules, as `syncAlertRules` puts them in the cache. -/
def rulesById (lst : List AlertRule) : GoMap ℤ AlertRule :=
  lst.foldl (fun m rule => m.insert rule.id rule) ∅

/-- `TimeRange`. -/
def timeRange : ℤ := 0

/-- `Periodic`. -/
def periodic : ℤ := 1

/-- The rows `AlertMuteGetsAll` selects. -/
def AlertMute.selected (now : ℤ) (mute : AlertMute) : Bool :=
  mute.disabled = 0 ∧
    (mute.muteTimeType = timeRange ∧ mute.btime ≤ now + 10 ∧ mute.etime ≥ now ∨
      mute.muteTimeType = periodic)

/-- `AlertSubscribeStatistics`, `AlertSubscribeGetsAll` and the cache. -/
def alertSubscribes (d : Decoders) : Table AlertSubscribe (GoMap ℤ (List AlertSubscribe)) where
  counts _ := true
  stamp sub := sub.updateAt
  shows _ _ := true
  build := subscribesByRule d
  counts_of_shows _ _ _ := rfl
  id sub := sub.id
  touch now sub := { sub with updateAt := now }
  setDisabled disabled sub := { sub with disabled := disabled }
  empty := ∅
  stamp_touch _ _ := rfl

/-- `AlertMuteStatistics`, `AlertMuteGetsAll` and the cache. -/
def alertMutes (d : Decoders) : Table AlertMute (GoMap ℤ (List AlertMute)) where
  counts _ := true
  stamp mute := mute.updateAt
  shows := AlertMute.selected
  build := mutesByGroup d
  counts_of_shows _ _ _ := rfl
  id mute := mute.id
  touch now mute := { mute with updateAt := now }
  setDisabled disabled mute := { mute with disabled := disabled }
  empty := ∅
  stamp_touch _ _ := rfl

/-- `AlertRuleStatistics`, `AlertRuleGetsAll` and the cache. -/
def alertRules : Table AlertRule (GoMap ℤ AlertRule) where
  counts rule := rule.disabled = 0
  stamp rule := rule.updateAt
  shows _ rule := rule.disabled = 0
  build := rulesById
  counts_of_shows _ _ h := h
  id rule := rule.id
  touch now rule := { rule with updateAt := now }
  setDisabled disabled rule := { rule with disabled := disabled }
  empty := ∅
  stamp_touch _ _ := rfl

/-! ## Histories -/

/-- The tables that are cached. -/
inductive Cached where
  | alertSubscribe
  | alertMute
  | alertRule

namespace Cached

/-- The rows of a table. -/
abbrev Row : Cached → Type
  | alertSubscribe => AlertSubscribe
  | alertMute => AlertMute
  | alertRule => AlertRule

/-- What its cache holds. -/
abbrev Content : Cached → Type
  | alertSubscribe => GoMap ℤ (List AlertSubscribe)
  | alertMute => GoMap ℤ (List AlertMute)
  | alertRule => GoMap ℤ AlertRule

/-- The table and its cache. -/
def table (d : Decoders) : (k : Cached) → Table k.Row k.Content
  | alertSubscribe => alertSubscribes d
  | alertMute => alertMutes d
  | alertRule => alertRules

end Cached

/-- **The caches converge.**  For each of the three tables, whatever it holds at the start, and
every history of writes, statistics queries and full reads without coincidences: whenever a sync
step ends, the cache is what a full read of the table then returns. -/
theorem caches_converge (d : Decoders) (k : Cached) (rows : List k.Row) (ops : List (SyncOp k.Row))
    (h : Along (k.table d).step (k.table d).Spaced ((k.table d).start rows) ops) :
    Along (k.table d).step (k.table d).Converged ((k.table d).start rows) ops :=
  h.imp (I := (k.table d).toMirror.Guarded) (fun _ _ h hs => hs.step (Table.heeds_of_spaced h))
    (fun _ _ h hs => hs.fresh (Table.heeds_of_spaced h)) (.inl neg_one_lt_zero)

namespace Example

/-- Every row can be decoded. -/
def decoders : Decoders := ⟨fun _ => true, fun _ => true⟩

/-- A rule that was updated at 100. -/
def rule : AlertRule := { id := 1, updateAt := 100, columns := "a" }

/-- The rule is read at 100, updated at `now`, and looked for and read at 109. -/
def updatedAt (now : ℤ) : List (SyncOp AlertRule) :=
  [.statistics 100, .getsAll 100, .write now (.update [1] fun r => { r with columns := "b" }),
    .statistics 109, .getsAll 109]

/-- A mute for the time from 1000 to 2000. -/
def mute : AlertMute := { id := 1, groupId := 1, btime := 1000, etime := 2000, updateAt := 100 }

/-- The mutes are read at 109, and looked for again when the mute has begun. -/
def lookedForTwice : List (SyncOp AlertMute) := [.statistics 109, .getsAll 109, .statistics 1000]

end Example

open Example

/-- An update in a later second arrives. -/
theorem later_update_arrives : (((updatedAt 101).foldl alertRules.step
        (alertRules.start [rule])).content.lookup 1).map AlertRule.columns = some "b" ∧
      Along alertRules.step alertRules.Converged (alertRules.start [rule])
        (updatedAt 101) := ⟨by decide, caches_converge decoders .alertRule [rule] (updatedAt 101)
    (by decide)⟩

/-- **Updated twice in a second, and muted later.**  A rule updated at 100 is read at 100 and
updated again at 100; at 109 the numbers are the same, and the cache keeps the rule as it was.  A
mute that begins at 1000 is not read at 109; at 1000 the numbers are the same, and it is still
missing. -/
theorem same_second_update_missed : (((updatedAt 100).foldl alertRules.step
        (alertRules.start [rule])).content.lookup 1).map AlertRule.columns = some "a" ∧
      ¬ Along alertRules.step alertRules.Converged (alertRules.start [rule])
        (updatedAt 100) ∧ ¬ Along (alertMutes decoders).step (alertMutes decoders).Converged
        ((alertMutes decoders).start [mute]) lookedForTwice := by
  decide

end Nightingale.Memsto
