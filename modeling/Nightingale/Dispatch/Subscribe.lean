import Nightingale.Memsto.Caches

/-!
# Dispatch/Subscribe — which subscriptions an event is handed to

The cache lists a subscription under every rule id it names, and `handleSubs` reads two of its
lists, that of the event's own rule and that of 0:

    alert_subscribe ──syncAlertSubscribes──▸ subs[rid] ──handleSubs──▸ subs[RuleId] ++ subs[0]

A list of ids is not a set.  An id named twice lists the subscription twice, and one that names both
the rule and 0 is met in both lists; `subscriptions_handled_once_iff` says that this is all that can
go wrong.
-/

namespace Nightingale

open List Nat

namespace Dispatch

/-- `Dispatch.handleSubs`: the subscriptions `handleSub` is called for, in order. -/
def handleSubs {σ : Type} (subs : GoMap ℤ (List σ)) (ruleId : ℤ) : List σ :=
  (subs.lookup ruleId).getD [] ++ (subs.lookup 0).getD []

end Dispatch

namespace Memsto

/-- The subscription names the rule, or is for all rules: by its list of ids, or by the id of old
if the list is empty. -/
def AlertSubscribe.Concerns (ruleId : ℤ) (sub : AlertSubscribe) : Prop :=
  ruleId ∈ sub.ruleIds ∨ 0 ∈ sub.ruleIds ∨
    sub.ruleIds = [] ∧ (sub.ruleId = ruleId ∨ sub.ruleId = 0)

open AlertSubscribe

instance (ruleId : ℤ) (sub : AlertSubscribe) : Decidable (sub.Concerns ruleId) :=
  inferInstanceAs (Decidable (_ ∨ _ ∨ _ ∧ _))

/-- The rows the cache takes up: enabled, and decoded without an error. -/
def enabled (d : Decoders) (lst : List AlertSubscribe) : List AlertSubscribe :=
  lst.filter fun sub => sub.disabled ≠ 1 ∧ d.subscribe sub

/-- How often the two lists `handleSubs` reads mention a subscription. -/
def AlertSubscribe.mentions (ruleId : ℤ) (sub : AlertSubscribe) : ℕ :=
  sub.fillRuleIds.ruleIds.count ruleId + sub.fillRuleIds.ruleIds.count 0

/-! ## What the cache lists under a rule -/

/-- The list under a key. -/
def under {β : Type} (m : GoMap ℤ (List β)) (key : ℤ) : List β := (m.lookup key).getD []

theorem under_append {β : Type} (m : GoMap ℤ (List β)) (key : ℤ) (b : β) (k : ℤ) :
    under (append m key b) k = under m k ++ if k = key then [b] else [] := by
  unfold under append
  split_ifs with hk
  · rw [hk, Finmap.lookup_insert, Option.getD_some]
  · rw [Finmap.lookup_insert_of_ne _ hk, append_nil]

/-- A subscription is listed under a rule as often as its ids name the rule. -/
theorem under_foldl_append {β : Type} (b : β) (k : ℤ) : ∀ (rids : List ℤ) (m : GoMap ℤ (List β)),
      under (rids.foldl (fun m rid => append m rid b) m) k
        = under m k ++ replicate (rids.count k) b
  | [], m => by simp
  | rid :: rids, m => by
    rw [foldl_cons, under_foldl_append b k rids, under_append, append_assoc]
    by_cases hk : k = rid
    · rw [if_pos hk, hk, count_cons_self, replicate_succ, singleton_append]
    · rw [if_neg hk, count_cons_of_ne (Ne.symm hk), nil_append]

/-- **What is listed under a rule**, row by row. -/
theorem under_subscribesByRule (d : Decoders) (lst : List AlertSubscribe) (k : ℤ) :
    under (subscribesByRule d lst) k = (enabled d lst).flatMap fun sub =>
      replicate (sub.fillRuleIds.ruleIds.count k) sub.fillRuleIds := by
  suffices h : ∀ (lst : List AlertSubscribe) (m : GoMap ℤ (List AlertSubscribe)),
      under (lst.foldl (fun subs sub =>
        if sub.disabled = 1 then subs
        else if !d.subscribe sub then subs
        else sub.fillRuleIds.ruleIds.foldl (fun subs rid => append subs rid sub.fillRuleIds) subs)
          m) k
        = under m k ++ (enabled d lst).flatMap fun sub =>
          replicate (sub.fillRuleIds.ruleIds.count k) sub.fillRuleIds from h lst ∅
  intro lst
  induction lst with
  | nil => simp [enabled]
  | cons sub lst ih =>
    intro m
    rw [foldl_cons, ih]
    by_cases hdis : sub.disabled = 1
    · simp [enabled, hdis]
    · by_cases hdec : d.subscribe sub
      · rw [if_neg hdis, if_neg (by simp [hdec]), under_foldl_append]
        simp [enabled, hdis, hdec]
      · simp [enabled, hdis, hdec]

/-! ## Once each -/

/-- The ids a row is cached under are the ones it concerns. -/
theorem mentions_pos_iff (ruleId : ℤ) (sub : AlertSubscribe) :
    0 < sub.mentions ruleId ↔ sub.Concerns ruleId := by
  rw [mentions, add_pos_iff_pos_or_pos, count_pos_iff, count_pos_iff]
  by_cases hids : sub.ruleIds = [] <;> by_cases hid : sub.ruleId = 0 <;>
    simp [fillRuleIds, AlertSubscribe.Concerns, hids, hid, eq_comm]

theorem fillRuleIds_fillRuleIds (sub : AlertSubscribe) :
    sub.fillRuleIds.fillRuleIds = sub.fillRuleIds := by
  by_cases hids : sub.ruleIds = [] <;> by_cases hid : sub.ruleId = 0 <;>
    simp [fillRuleIds, hids, hid]

theorem count_flatMap_replicate {α : Type*} [DecidableEq α] (f : α → ℕ) (x : α) :
    ∀ l : List α, (l.flatMap fun a => replicate (f a) a).count x = l.count x * f x
  | [] => by simp
  | a :: l => by
    rw [flatMap_cons, count_append, count_flatMap_replicate f x l]
    by_cases ha : a = x
    · rw [ha, count_replicate_self, count_cons_self, succ_mul, add_comm]
    · rw [count_replicate, if_neg (by simpa using ha), count_cons_of_ne ha, zero_add]

theorem count_handleSubs (d : Decoders) (lst : List AlertSubscribe) (ruleId : ℤ)
    (x : AlertSubscribe) : (Dispatch.handleSubs (subscribesByRule d lst) ruleId).count x
      = ((enabled d lst).map fillRuleIds).count x
        * (x.ruleIds.count ruleId + x.ruleIds.count 0) := by
  have hunder : ∀ k, under (subscribesByRule d lst) k
      = ((enabled d lst).map fillRuleIds).flatMap fun sub =>
        replicate (sub.ruleIds.count k) sub := fun k => by
    rw [under_subscribesByRule, flatMap_map]
  change (under _ ruleId ++ under _ 0).count x = _
  rw [count_append, hunder, hunder, count_flatMap_replicate, count_flatMap_replicate, mul_add]

theorem concerns_fillRuleIds (ruleId : ℤ) (sub : AlertSubscribe) :
    sub.fillRuleIds.Concerns ruleId ↔ sub.Concerns ruleId := by
  rw [← mentions_pos_iff, ← mentions_pos_iff, mentions, fillRuleIds_fillRuleIds, mentions]

theorem count_filter_concerns (d : Decoders) (lst : List AlertSubscribe) (ruleId : ℤ)
    (x : AlertSubscribe) :
    (((enabled d lst).filter fun sub => sub.Concerns ruleId).map fillRuleIds).count x
      = if x.Concerns ruleId then ((enabled d lst).map fillRuleIds).count x
        else 0 := by
  have hmap : ((enabled d lst).filter fun sub => sub.Concerns ruleId).map fillRuleIds
      = ((enabled d lst).map fillRuleIds).filter fun sub => sub.Concerns ruleId := by
    rw [filter_map]
    simp only [Function.comp_def, concerns_fillRuleIds]
  rw [hmap]
  split_ifs with hx
  · exact count_filter (by simpa using hx)
  · exact count_eq_zero.mpr fun hmem => hx (by simpa using (mem_filter.mp hmem).2)

/-- **When every subscription is handled once.**  `handleSub` is called once for each enabled row
that concerns the event's rule and for no other, if and only if no row is mentioned twice. -/
theorem subscriptions_handled_once_iff (d : Decoders) (lst : List AlertSubscribe) (ruleId : ℤ) :
    (Dispatch.handleSubs (subscribesByRule d lst) ruleId).Perm
        (((enabled d lst).filter fun sub => sub.Concerns ruleId).map fillRuleIds) ↔
      ∀ sub ∈ enabled d lst, sub.mentions ruleId ≤ 1 := by
  rw [perm_iff_count]
  constructor
  · intro h sub hsub
    have hpos : 0 < ((enabled d lst).map fillRuleIds).count sub.fillRuleIds :=
      count_pos_iff.mpr (mem_map_of_mem hsub)
    have hcount := h sub.fillRuleIds
    rw [count_handleSubs, count_filter_concerns] at hcount
    refine le_of_mul_le_mul_left ?_ hpos
    rw [mul_one, mentions, hcount]
    split_ifs <;> omega
  · intro h x
    rw [count_handleSubs, count_filter_concerns]
    by_cases hx : x ∈ (enabled d lst).map fillRuleIds
    · obtain ⟨sub, hsub, rfl⟩ := mem_map.mp hx
      have hle := h sub hsub
      have hpos := (mentions_pos_iff ruleId sub).trans (concerns_fillRuleIds ruleId sub).symm
      rw [mentions] at hle hpos
      split_ifs with hc
      · rw [le_antisymm hle (hpos.mpr hc), mul_one]
      · rw [Nat.eq_zero_of_not_pos (mt hpos.mp hc), Nat.mul_zero]
    · rw [count_eq_zero.mpr hx, zero_mul, ite_self]

namespace Example

/-- A subscription that names rule 7 twice, and one that names it beside 0. -/
def namedTwice : List AlertSubscribe :=
  [{ id := 1, ruleIds := [7, 7] }, { id := 2, ruleIds := [7, 0] }]

end Example

/-- Both are handled twice for one event of rule 7. -/
theorem named_twice_handled_twice :
    (Dispatch.handleSubs (subscribesByRule Example.decoders Example.namedTwice) 7).map
      AlertSubscribe.id = [1, 1, 2, 2] := by decide

end Memsto

end Nightingale
