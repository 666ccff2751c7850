import Mathlib.Data.Int.Order.Basic
import Mathlib.Data.String.Basic
import Nightingale.Suppress.Inhibitor

/-!
# Suppress/Verdict — when the verdict is what the rules say

An event should be suppressed exactly when some rule in scope has a live source for it other than
the event itself (`Claims`).  `Decide` gets there by asking for *one* match and then discarding it
if it is the event itself, so a rule under which the event also matches itself gives a verdict only
if the map happens to show the other source first:

    live matches under r      other sources only   the event only   both
    verdict from r            suppressed           not              by the order of the map

The verdict is right for every order exactly when it is not due, or due to a rule under which the
event does not match itself (`Decisive`).
-/

namespace Nightingale.Suppress

open List Finmap Inhibitor

section Verdict

variable (now : ℤ) (event : AlertCurEvent)

/-! ## What the rules say -/

/-- The source with hash `h` is live under a rule and its labels match the event's. -/
def Serves (idx : RootCauseIndex) (r : CompiledRule) (h : Hash) : Prop :=
  ∃ e, idx.entries.lookup (r.rule.id, h) = some e ∧ e.live now ∧
    equalValuesMatch e.equalLabelValues (r.targetValues event)

/-- The rule wants the event suppressed: the event is its target, and another event is a source. -/
def Claims (idx : RootCauseIndex) (r : CompiledRule) : Prop :=
  r.inScope event ∧ matchAllTagFilters event.tagsMap r.targetMatch ∧
    ∃ h ≠ event.hash, Serves now event idx r h

/-- The specification of the verdict. -/
def ShouldSuppress (idx : RootCauseIndex) (rules : List CompiledRule) : Prop :=
  ∃ r ∈ rules, Claims now event idx r

/-- Some rule claims the event, and when its turn comes, the rules up to it having registered the
event, the event is no source of its own there. -/
def Decisive (idx : RootCauseIndex) (rules : List CompiledRule) : Prop :=
  ∃ pre r post, rules = pre ++ r :: post ∧ Claims now event idx r ∧
    ¬ Serves now event ((pre ++ [r]).foldl (enroll now event) idx) r event.hash

/-- The round of a rule finds a source other than the event. -/
def Hits (order : MapOrder (ℤ × Hash)) (idx : RootCauseIndex) (r : CompiledRule) : Prop :=
  r.inScope event ∧ matchAllTagFilters event.tagsMap r.targetMatch ∧
    ∃ snap, (enroll now event idx r).matchAnyFull now order r.rule.id (r.targetValues event)
      = some snap ∧ snap.eventHash ≠ event.hash

/-! ## One lookup -/

variable {now event}

section

variable {idx : RootCauseIndex} {r : CompiledRule} {snap : SourceSnapshot}

theorem probe_eq_some {k : ℤ × Hash}
    (h : idx.probe now r.rule.id (r.targetValues event) k = some snap) :
    k = (r.rule.id, snap.eventHash) ∧ Serves now event idx r snap.eventHash := by
  unfold RootCauseIndex.probe at h
  split at h
  · cases h
  next e he =>
    split_ifs at h with hid hlive hmatch
    cases h
    obtain ⟨id, hash⟩ := k
    obtain rfl : id = r.rule.id := not_not.mp hid
    exact ⟨rfl, e, he, by simpa using hlive, hmatch⟩

theorem Serves.probe {h : Hash} (hs : Serves now event idx r h) :
    ∃ snap, idx.probe now r.rule.id (r.targetValues event) (r.rule.id, h) = some snap := by
  obtain ⟨e, he, hlive, hmatch⟩ := hs
  simp [RootCauseIndex.probe, he, hlive, hmatch]

theorem Serves.mem_keys {h : Hash} (hs : Serves now event idx r h)
    : (r.rule.id, h) ∈ idx.entries.keys := by
  obtain ⟨e, he, -⟩ := hs
  exact Finmap.mem_keys.mpr (Finmap.mem_iff.mpr ⟨e, he⟩)

/-- Whatever the order, a lookup returns a source that serves. -/
theorem serves_of_matchAnyFull {order : MapOrder (ℤ × Hash)}
    (h : idx.matchAnyFull now order r.rule.id (r.targetValues event) = some snap) :
    Serves now event idx r snap.eventHash := by
  obtain ⟨k, -, hk⟩ := exists_of_findSome?_eq_some h
  exact (probe_eq_some hk).2

theorem Serves.matchAnyFull {h : Hash} (hs : Serves now event idx r h) (order : MapOrder (ℤ × Hash))
    : ∃ snap, idx.matchAnyFull now order r.rule.id (r.targetValues event) = some snap := by
  obtain ⟨snap, hsnap⟩ := hs.probe
  rw [← Option.isSome_iff_exists, RootCauseIndex.matchAnyFull, findSome?_isSome_iff]
  exact ⟨_, (order.mem_list _ _).mpr hs.mem_keys, by rw [hsnap]; rfl⟩

end

/-- An order that shows the event itself first. -/
noncomputable def selfFirst (event : AlertCurEvent) : MapOrder (ℤ × Hash) :=
  (default : MapOrder (ℤ × Hash)).prefer fun k => k.2 == event.hash

theorem Serves.selfFirst {idx : RootCauseIndex} {r : CompiledRule}
    (hs : Serves now event idx r event.hash) {snap : SourceSnapshot}
    (h : idx.matchAnyFull now (selfFirst event) r.rule.id (r.targetValues event) = some snap) :
    snap.eventHash = event.hash := by
  obtain ⟨snap', hsnap'⟩ := hs.probe
  obtain ⟨k, -, hk, hfind, -⟩ := MapOrder.findSome?_prefer (default : MapOrder (ℤ × Hash))
    (p := fun k => k.2 == event.hash) (f := idx.probe now r.rule.id (r.targetValues event))
    ⟨_, hs.mem_keys, by simp, by rw [hsnap']; simp⟩
  have hprobe : idx.probe now r.rule.id (r.targetValues event) k = some snap := by
    rw [← hfind]; exact h
  rw [(probe_eq_some hprobe).1] at hk
  simpa using hk

/-! ## Registrations -/

theorem lookup_enroll (idx : RootCauseIndex) (r : CompiledRule) {k : ℤ × Hash}
    (hk : k.2 ≠ event.hash) : (enroll now event idx r).entries.lookup k = idx.entries.lookup k := by
  unfold enroll
  split_ifs
  · exact lookup_insert_of_ne _ fun heq => hk (congrArg Prod.snd heq)
  · rfl

theorem lookup_foldl_enroll (rules : List CompiledRule) (idx : RootCauseIndex) {k : ℤ × Hash}
    (hk : k.2 ≠ event.hash) :
    (rules.foldl (enroll now event) idx).entries.lookup k = idx.entries.lookup k := by
  induction rules generalizing idx with
  | nil => rfl
  | cons r rules ih => rw [foldl_cons, ih, lookup_enroll idx r hk]

theorem serves_foldl_enroll (rules : List CompiledRule) (idx : RootCauseIndex) (r : CompiledRule)
    {h : Hash} (hh : h ≠ event.hash) :
    Serves now event (rules.foldl (enroll now event) idx) r h ↔ Serves now event idx r h := by
  unfold Serves
  rw [lookup_foldl_enroll rules idx hh]

/-! ## One round, and all of them -/

theorem visit_fst (order : MapOrder (ℤ × Hash)) (s : RootCauseIndex × Decision)
    (r : CompiledRule) : (visit now event order s r).1 = enroll now event s.1 r := by
  unfold visit
  cases hscope : r.inScope event with
  | false => simp [enroll, hscope]
  | true => rfl

theorem suppressed_judge (order : MapOrder (ℤ × Hash)) (idx : RootCauseIndex) (out : Decision)
    (r : CompiledRule) :
    (judge now event order idx out r).suppressed = true ↔ out.suppressed = true ∨
      matchAllTagFilters event.tagsMap r.targetMatch ∧ ∃ snap,
        idx.matchAnyFull now order r.rule.id (r.targetValues event) = some snap ∧
          snap.eventHash ≠ event.hash := by
  unfold judge
  by_cases hout : out.suppressed = true
  · simp [hout]
  · cases htarget : matchAllTagFilters event.tagsMap r.targetMatch with
    | false => simp [hout]
    | true =>
      cases hfind : idx.matchAnyFull now order r.rule.id (r.targetValues event) with
      | none => simp [hout]
      | some snap => by_cases hself : snap.eventHash = event.hash <;> simp [hout, hself]

/-- **A round suppresses if it hits.** -/
theorem suppressed_visit (order : MapOrder (ℤ × Hash)) (s : RootCauseIndex × Decision)
    (r : CompiledRule) : (visit now event order s r).2.suppressed = true ↔
      s.2.suppressed = true ∨ Hits now event order s.1 r := by
  unfold visit Hits
  cases hscope : r.inScope event with
  | false => simp
  | true =>
    simp only [Bool.not_true, Bool.false_eq_true, if_false, suppressed_judge, true_and]
    split_ifs <;> rfl

/-- **The loop suppresses if a round of it hits**, with the rules before it registered. -/
theorem suppressed_loop_iff (orders : ℕ → MapOrder (ℤ × Hash)) (rules : List CompiledRule)
    (s : RootCauseIndex × Decision) : (decideLoop now event orders rules s).2.suppressed = true ↔
      s.2.suppressed = true ∨ ∃ pre r post, rules = pre ++ r :: post ∧
        Hits now event (orders pre.length)
          (pre.foldl (enroll now event) s.1) r := by
  induction rules generalizing orders s with
  | nil => simp [decideLoop]
  | cons r₀ rules ih =>
    rw [decideLoop, ih, suppressed_visit, visit_fst, or_assoc]
    refine or_congr_right ⟨?_, ?_⟩
    · rintro (h | ⟨pre, r, post, rfl, h⟩)
      · exact ⟨[], r₀, rules, rfl, h⟩
      · exact ⟨r₀ :: pre, r, post, rfl, h⟩
    · rintro ⟨pre, r, post, heq, h⟩
      cases pre with
      | nil =>
        obtain ⟨rfl, rfl⟩ := cons.inj heq
        exact .inl h
      | cons r₁ pre =>
        obtain ⟨rfl, rfl⟩ := cons.inj heq
        exact .inr ⟨pre, r, post, rfl, h⟩

/-- **The index after `Decide`** is the one with the event registered. -/
theorem decideLoop_fst (orders : ℕ → MapOrder (ℤ × Hash)) (rules : List CompiledRule)
    (s : RootCauseIndex × Decision) :
    (decideLoop now event orders rules s).1 = rules.foldl (enroll now event) s.1 := by
  induction rules generalizing orders s with
  | nil => rfl
  | cons r rules ih => rw [decideLoop, ih, visit_fst, foldl_cons]

/-- What a round makes of a decision: nothing, or the verdict of the match it found. -/
theorem judge_cases (order : MapOrder (ℤ × Hash)) (idx : RootCauseIndex) (out : Decision)
    (r : CompiledRule) : judge now event order idx out r = out ∨
      matchAllTagFilters event.tagsMap r.targetMatch ∧ ∃ snap,
        idx.matchAnyFull now order r.rule.id (r.targetValues event) = some snap ∧
          snap.eventHash ≠ event.hash ∧ judge now event order idx out r = { out with
            suppressed := true
            bySourceHash := snap.eventHash
            byRuleId := r.rule.id
            byRuleName := r.rule.name
            bySource := snap } := by
  unfold judge
  split_ifs with hout htarget
  · exact .inl rfl
  · exact .inl rfl
  · cases hfind : idx.matchAnyFull now order r.rule.id (r.targetValues event) with
    | none => exact .inl rfl
    | some snap =>
      dsimp only
      split_ifs with hself
      · exact .inl rfl
      · exact .inr ⟨by simpa using htarget, snap, rfl, hself, rfl⟩

variable (now event) in
/-- A decision names a rule that targets the event and a source that serves it there. -/
def Names (idx : RootCauseIndex) (rules : List CompiledRule) (d : Decision) : Prop :=
  ∃ r ∈ rules, r.inScope event ∧ matchAllTagFilters event.tagsMap r.targetMatch ∧
    d.byRuleId = r.rule.id ∧ d.bySourceHash ≠ event.hash ∧ Serves now event idx r d.bySourceHash

section

variable {idx : RootCauseIndex} {rules : List CompiledRule} {r : CompiledRule}

/-- One round keeps the decision named, over the index the loop began with. -/
theorem names_visit (hr : r ∈ rules) (order : MapOrder (ℤ × Hash)) {s : RootCauseIndex × Decision}
    (hidx : ∀ k : ℤ × Hash, k.2 ≠ event.hash → s.1.entries.lookup k = idx.entries.lookup k)
    (hs : s.2.suppressed = true → Names now event idx rules s.2)
    (h : (visit now event order s r).2.suppressed = true) :
    Names now event idx rules (visit now event order s r).2 := by
  cases hscope : r.inScope event with
  | false =>
    simp only [visit, hscope, Bool.not_false, if_true] at h ⊢
    exact hs h
  | true =>
    simp only [visit, hscope, Bool.not_true, Bool.false_eq_true, if_false] at h ⊢
    generalize hout : (if matchAllTagFilters event.tagsMap r.sourceMatch = true then
      { s.2 with newRegistrations := s.2.newRegistrations ++ [(r.rule.id, event.hash)] }
      else s.2) = out at h ⊢
    have hsame : out.suppressed = s.2.suppressed ∧ out.byRuleId = s.2.byRuleId ∧
        out.bySourceHash = s.2.bySourceHash := by
      rw [← hout]
      split_ifs <;> exact ⟨rfl, rfl, rfl⟩
    rcases judge_cases order (enroll now event s.1 r) out r with heq | ⟨htarget, snap, hfind, hne,
      heq⟩
    · rw [heq] at h ⊢
      obtain ⟨r', hr', hscope', htarget', hid, hne, hserves⟩ := hs (hsame.1 ▸ h)
      exact ⟨r', hr', hscope', htarget', hsame.2.1.trans hid, hsame.2.2 ▸ hne, hsame.2.2 ▸ hserves⟩
    · rw [heq]
      obtain ⟨e, he, hlive, hmatch⟩ := serves_of_matchAnyFull hfind
      rw [lookup_enroll s.1 r hne, hidx _ hne] at he
      exact ⟨r, hr, hscope, htarget, rfl, hne, e, he, hlive, hmatch⟩

/-- **The verdict names its reason**: the rule it cites targets the event, and the source it cites
is another event that was live and matched when `Decide` was called. -/
theorem decide_names {orders : ℕ → MapOrder (ℤ × Hash)}
    (h : (decide now orders idx rules (some event)).2.suppressed = true) :
    Names now event idx rules (decide now orders idx rules (some event)).2 := by
  have key : ∀ (todo : List CompiledRule) (orders : ℕ → MapOrder (ℤ × Hash))
      (s : RootCauseIndex × Decision), todo ⊆ rules →
      (∀ k : ℤ × Hash, k.2 ≠ event.hash → s.1.entries.lookup k = idx.entries.lookup k) →
      (s.2.suppressed = true → Names now event idx rules s.2) →
      (decideLoop now event orders todo s).2.suppressed = true →
      Names now event idx rules (decideLoop now event orders todo s).2 := by
    intro todo
    induction todo with
    | nil => exact fun _ s _ _ hs h => hs h
    | cons r todo ih =>
      intro orders s hsub hidx hs h
      refine ih _ _ (fun x hx => hsub (mem_cons_of_mem r hx)) (fun k hk => ?_) ?_ h
      · rw [visit_fst, lookup_enroll s.1 r hk, hidx k hk]
      · exact names_visit (hsub mem_cons_self) (orders 0) hidx hs
  exact key rules orders (idx, {}) (fun _ hx => hx) (fun _ _ => rfl)
    (fun h => absurd h Bool.false_ne_true) h

theorem Hits.claims {order : MapOrder (ℤ × Hash)} {pre : List CompiledRule}
    (h : Hits now event order (pre.foldl (enroll now event) idx) r) : Claims now event idx r := by
  obtain ⟨hscope, htarget, snap, hfind, hne⟩ := h
  have hs : Serves now event ((pre ++ [r]).foldl (enroll now event) idx) r snap.eventHash := by
    rw [foldl_concat]
    exact serves_of_matchAnyFull hfind
  exact ⟨hscope, htarget, _, hne, (serves_foldl_enroll _ _ _ hne).mp hs⟩

end

end Verdict

/-- **When the verdict is right.**  Whatever the index, the rules and the event: every iteration
order suppresses the event exactly when it should be, if and only if it should not be, or a rule
claims it under which it is no source of its own. -/
theorem verdict_right_iff (now : ℤ) (idx : RootCauseIndex) (rules : List CompiledRule)
    (event : AlertCurEvent) :
    (∀ orders, (Inhibitor.decide now orders idx rules (some event)).2.suppressed = true ↔
        ShouldSuppress now event idx rules) ↔
      (ShouldSuppress now event idx rules → Decisive now event idx rules) := by
  have hsup : ∀ orders, (Inhibitor.decide now orders idx rules (some event)).2.suppressed = true ↔
      ∃ pre r post, rules = pre ++ r :: post ∧ Hits now event
        (orders pre.length) (pre.foldl (enroll now event) idx) r := fun orders => by
    rw [Inhibitor.decide, suppressed_loop_iff]
    simp
  constructor
  · intro h hdue
    obtain ⟨pre, r, post, heq, hhit⟩ := (hsup fun _ => selfFirst event).mp ((h _).mpr hdue)
    refine ⟨pre, r, post, heq, hhit.claims, fun hself => ?_⟩
    obtain ⟨-, -, snap, hfind, hne⟩ := hhit
    rw [foldl_concat] at hself
    exact hne (hself.selfFirst hfind)
  · intro h orders
    rw [hsup]
    constructor
    · rintro ⟨pre, r, post, rfl, hhit⟩
      exact ⟨r, by simp, hhit.claims⟩
    · intro hdue
      obtain ⟨pre, r, post, heq, ⟨hscope, htarget, h', hne, hs⟩, hself⟩ := h hdue
      refine ⟨pre, r, post, heq, hscope, htarget, ?_⟩
      have hs' := (serves_foldl_enroll (pre ++ [r]) idx r hne).mpr hs
      rw [foldl_concat] at hs' hself
      obtain ⟨snap, hfind⟩ := hs'.matchAnyFull (orders pre.length)
      refine ⟨snap, hfind, fun heq' => hself ?_⟩
      rw [← heq']
      exact serves_of_matchAnyFull hfind

namespace Example

/-- The sources with a given hash first, the others by hash and rule. -/
def startingWith (hash : Hash) : MapOrder (ℤ × Hash) :=
  (MapOrder.sortOn (fun k : ℤ × Hash => toLex (k.2, k.1)) fun a b h => by
    have h' : (a.2, a.1) = (b.2, b.1) := h
    exact Prod.ext (congrArg Prod.snd h') (congrArg Prod.fst h')).prefer fun k => k.2 == hash

/-- Any event with a host is a source and a target, for events of the same host. -/
def sameHost : CompiledRule where
  rule := { id := 1 }
  sourceMatch := [{ key := "host", func := .ne, value := .str "" }]
  targetMatch := [{ key := "host", func := .ne, value := .str "" }]
  equalLabels := ["host"]

/-- An event of one host. -/
def hostEvent : AlertCurEvent := { hash := "new", tagsMap := singleton "host" "db" }

/-- A live source on that host. -/
def oneSource : RootCauseIndex where
  entries := singleton (1, "old") ⟨singleton "host" "db", 1100, "", "", 0, 0, 0⟩
  defaultTTL := 600
  ttl_pos := by decide

end Example

open Suppress.Example

/-- **An event that hides its own root cause.**  The host has a live source.  An event of the host
registers itself and is then looked up: if the map shows its own entry first it is not suppressed,
although the rule claims it; if it shows the source first it is. -/
theorem own_entry_hides_source :
    (decide 1000 (fun _ => startingWith "new") oneSource [sameHost]
        (some hostEvent)).2.suppressed = false ∧
      (decide 1000 (fun _ => startingWith "old") oneSource
        [sameHost] (some hostEvent)).2.suppressed = true ∧
      ShouldSuppress 1000 hostEvent oneSource [sameHost] := by
  refine ⟨by decide, by decide, sameHost, by simp, by decide, by decide, "old", by decide,
    ?_⟩
  exact ⟨_, by rfl, by decide, by decide⟩

end Nightingale.Suppress
