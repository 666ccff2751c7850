import Nightingale.Suppress.Chains

/-!
# Suppress/Labels — the labels a source and its target share

A source is entered with the values it has, at that moment, for the labels the rule then names; a
label it lacks is left out.  A target is later compared with the labels that were *entered*, not
with those the rule names:

    register   labels named  ∩  labels present      ──▸ values entered
    look up    every value entered is the target's  ──▸ match

So a source with no labels matches any target, and a rule that is given one more label keeps the
sources entered without it.  `suppressed_labels_agree` is the rule one expects, for runs in which
every source that matches was entered with all labels the rule names by now.
-/

namespace Nightingale.Suppress

open List Finmap Suppress.Example

/-! ## The values entered -/

/-- **What is entered** are the values of the labels named, where there are any. -/
theorem lookup_extractEqualValues (tags : GoMap String String) (keys : List String) (l : String) :
    (extractEqualValues tags keys).lookup l = if l ∈ keys then tags.lookup l else none := by
  unfold extractEqualValues
  induction keys using reverseRecOn with
  | nil => simp
  | append_singleton keys k ih =>
    rw [foldl_append, foldl_cons, foldl_nil]
    by_cases hk : l = k
    · subst hk
      cases hv : tags.lookup l with
      | none => simp [ih, hv]
      | some v => simp
    · cases hv : tags.lookup k with
      | none => simp [ih, hk]
      | some v => simp [ih, hk, lookup_insert_of_ne _ hk]

theorem extractEqualValues_sub {tags : GoMap String String} {keys : List String} {l v : String}
    (h : (extractEqualValues tags keys).lookup l = some v) : tags.lookup l = some v := by
  rw [lookup_extractEqualValues] at h
  split_ifs at h
  exact h

/-! ## Registrations -/

section Register

variable {now : ℤ} {event : AlertCurEvent}

/-- The event is a source under a rule. -/
def CompiledRule.enrolls (event : AlertCurEvent) (r : CompiledRule) : Bool :=
  r.inScope event && matchAllTagFilters event.tagsMap r.sourceMatch

theorem enroll_eq (idx : RootCauseIndex) (r : CompiledRule) : enroll now event idx r =
      if r.enrolls event then
        idx.registerFull now r.rule.id event (extractEqualValues event.tagsMap r.equalLabels)
      else idx := by
  simp [enroll, CompiledRule.enrolls]

theorem newRegistrations_visit (order : MapOrder (ℤ × Hash)) (s : RootCauseIndex × Decision)
    (r : CompiledRule) : (visit now event order s r).2.newRegistrations
      = s.2.newRegistrations ++ if r.enrolls event then [(r.rule.id, event.hash)] else [] := by
  have hjudge : ∀ idx out, (judge now event order idx out r).newRegistrations
      = out.newRegistrations := by
    intro idx out
    rcases judge_cases order idx out r with heq | ⟨-, snap, -, -, heq⟩ <;> rw [heq]
  cases hscope : r.inScope event with
  | false => simp [visit, CompiledRule.enrolls, hscope]
  | true =>
    simp only [visit, CompiledRule.enrolls, hscope, Bool.not_true, Bool.false_eq_true, if_false,
      hjudge, Bool.true_and]
    split_ifs <;> simp

/-- **The registrations `Decide` reports** are those it makes. -/
theorem newRegistrations_decide (orders : ℕ → MapOrder (ℤ × Hash)) (idx : RootCauseIndex)
    (rules : List CompiledRule) :
    (Inhibitor.decide now orders idx rules (some event)).2.newRegistrations
      = (rules.filter fun r => r.enrolls event).map fun r => (r.rule.id, event.hash) := by
  have key : ∀ (rules : List CompiledRule) (orders : ℕ → MapOrder (ℤ × Hash))
      (s : RootCauseIndex × Decision), (decideLoop now event orders rules s).2.newRegistrations
        = s.2.newRegistrations ++
          (rules.filter fun r => r.enrolls event).map fun r => (r.rule.id, event.hash) := by
    intro rules
    induction rules with
    | nil => simp [decideLoop]
    | cons r rules ih =>
      intro orders s
      rw [decideLoop, ih, newRegistrations_visit, append_assoc]
      cases hr : r.enrolls event <;> simp [hr]
  exact (key rules orders (idx, {})).trans (nil_append _)

end Register

/-! ## Runs with reloads -/

/-- A decision, with what it was made on: the rules then active, and the tags every source had when
it was last registered. -/
structure Verdict where
  rules : List CompiledRule
  tags : GoMap (ℤ × Hash) (GoMap String String)
  event : AlertCurEvent
  decision : Decision

/-- **Source and target agree** on every label the rule names: both have it, with one value. -/
def Verdict.Agrees (v : Verdict) : Prop :=
  v.decision.suppressed = true → ∃ r ∈ v.rules,
    r.rule.id = v.decision.byRuleId ∧ r.inScope v.event ∧
    matchAllTagFilters v.event.tagsMap r.targetMatch ∧
    ∃ source, v.tags.lookup (r.rule.id, v.decision.bySourceHash) = some source ∧
      ∀ l ∈ r.equalLabels, ∃ x, source.lookup l = some x ∧ v.event.tagsMap.lookup l = some x

/-- The index and the rules; the tags of every source at its last registration; and all decisions
so far. -/
structure Bench where
  index : RootCauseIndex
  rules : List CompiledRule := []
  tags : GoMap (ℤ × Hash) (GoMap String String) := ∅
  verdicts : List Verdict := []

/-- The rules are reloaded, or `Decide` is called. -/
inductive BenchOp where
  | reload (rules : List CompiledRule)
  | decide (a : Ask)

namespace Bench

/-- One step. -/
def step (s : Bench) : BenchOp → Bench
  | .reload rules => { s with rules := rules }
  | .decide a =>
    let out := Inhibitor.decide a.now a.orders s.index s.rules (some a.event)
    { s with
      index := out.1
      tags := out.2.newRegistrations.foldl (fun tags k => tags.insert k a.event.tagsMap) s.tags
      verdicts := s.verdicts ++ [⟨s.rules, s.tags, a.event, out.2⟩] }

/-- Every source that matches the event was entered with all labels its rule names now. -/
def Covered (s : Bench) : BenchOp → Prop
  | .reload _ => True
  | .decide a => ∀ r ∈ s.rules, r.inScope a.event →
      matchAllTagFilters a.event.tagsMap r.targetMatch → ∀ h ≠ a.event.hash,
        Serves a.now a.event s.index r h → ∀ e, s.index.entries.lookup (r.rule.id, h) = some e →
          ∀ l ∈ r.equalLabels, l ∈ e.equalLabelValues

/-- Every entry holds values its source had when it was last registered. -/
def Backed (entries : GoMap (ℤ × Hash) RootCauseEntry)
    (tags : GoMap (ℤ × Hash) (GoMap String String)) : Prop :=
  ∀ k e, entries.lookup k = some e → ∃ source, tags.lookup k = some source ∧
    ∀ l x, e.equalLabelValues.lookup l = some x → source.lookup l = some x

/-- The entries stay backed through the registrations of an event. -/
theorem Backed.enroll {now : ℤ} {event : AlertCurEvent} (rules : List CompiledRule)
    {idx : RootCauseIndex} {tags : GoMap (ℤ × Hash) (GoMap String String)}
    (h : Backed idx.entries tags) : Backed (rules.foldl (Suppress.enroll now event) idx).entries
      (((rules.filter fun r => r.enrolls event).map fun r => (r.rule.id, event.hash)).foldl
        (fun tags k => tags.insert k event.tagsMap) tags) := by
  induction rules generalizing idx tags with
  | nil => exact h
  | cons r rules ih =>
    rw [foldl_cons, enroll_eq]
    cases hr : r.enrolls event with
    | false => simpa [hr] using ih h
    | true =>
      rw [filter_cons_of_pos hr, map_cons, foldl_cons, if_pos rfl]
      refine ih fun k e he => ?_
      rcases GoMap.lookup_insert_eq_some.mp he with ⟨rfl, rfl⟩ | ⟨hk, hold⟩
      · exact ⟨event.tagsMap, lookup_insert _, fun l x hx => extractEqualValues_sub hx⟩
      · rw [lookup_insert_of_ne _ hk]
        exact h k e hold

/-- **A verdict over backed and covered sources.** -/
theorem agrees_of_covered {s : Bench} {a : Ask} (hs : Backed s.index.entries s.tags)
    (h : s.Covered (.decide a)) : Verdict.Agrees ⟨s.rules, s.tags, a.event,
      (Inhibitor.decide a.now a.orders s.index s.rules (some a.event)).2⟩ := by
  intro hsup
  obtain ⟨r, hr, hscope, htarget, hid, hne, hserves⟩ := decide_names hsup
  obtain ⟨e, he, -, hmatch⟩ := id hserves
  obtain ⟨source, hsource, hvalues⟩ := hs _ e he
  refine ⟨r, hr, hid.symm, hscope, htarget, source, hsource, fun l hl => ?_⟩
  have hmem := h r hr hscope htarget _ hne hserves e he l hl
  obtain ⟨x, hx⟩ := mem_iff.mp hmem
  have hmatch := of_decide_eq_true hmatch l (mem_keys.mpr hmem)
  exact ⟨x, hvalues l x hx, extractEqualValues_sub (hmatch.trans hx)⟩

/-- What holds along a run: the entries are backed, and all verdicts agree. -/
structure Sound (s : Bench) : Prop where
  backed : Backed s.index.entries s.tags
  agrees : ∀ v ∈ s.verdicts, v.Agrees

/-- **One step.** -/
theorem Sound.step {s : Bench} {op : BenchOp} (hs : s.Sound) (h : s.Covered op) :
    (s.step op).Sound := by
  cases op with
  | reload rules => exact ⟨hs.backed, hs.agrees⟩
  | decide a =>
    constructor
    · have hindex : (s.step (.decide a)).index
          = s.rules.foldl (Suppress.enroll a.now a.event) s.index :=
        decideLoop_fst a.orders s.rules (s.index, {})
      have htags : (s.step (.decide a)).tags
          = ((s.rules.filter fun r => r.enrolls a.event).map fun r =>
              (r.rule.id, a.event.hash)).foldl
            (fun tags k => tags.insert k a.event.tagsMap) s.tags := by
        rw [← newRegistrations_decide a.orders s.index s.rules]
        rfl
      rw [hindex, htags]
      exact hs.backed.enroll s.rules
    · intro v hv
      rcases mem_append.mp hv with hv | hv
      · exact hs.agrees v hv
      · rw [mem_singleton.mp hv]
        exact agrees_of_covered hs.backed h

/-- **Source and target agree on the labels**, at every verdict of every run in which the sources
that match were entered with all labels their rule names by then. -/
theorem suppressed_labels_agree (index : RootCauseIndex) (hempty : index.entries = ∅)
    (ops : List BenchOp) (h : Along step Covered { index := index } ops) :
    ∀ v ∈ (ops.foldl step { index := index }).verdicts, v.Agrees := by
  have hstart : Sound { index := index } :=
    ⟨fun k e he => by rw [hempty] at he; simp at he, fun v hv => by simp at hv⟩
  exact (Along.invariant (fun s op h hs => Sound.step hs h) h hstart).agrees

end Bench

namespace Example

/-- Switches silence the hosts of their rack. -/
def rackRule : CompiledRule := { kindRule 1 "switch" "host" with equalLabels := ["rack"] }

/-- An event of a kind in a rack. -/
def rackEvent (kind rack : String) : AlertCurEvent :=
  { hash := kind, tagsMap := (singleton "kind" kind).insert "rack" rack }

/-- A switch of rack 7, and then a host of it. -/
def sameRack : List BenchOp :=
  [.reload [rackRule], .decide ⟨1000, fun _ => startingWith "", rackEvent "switch" "7"⟩,
    .decide ⟨1001, fun _ => startingWith "", rackEvent "host" "7"⟩]

/-- A switch without a rack, and then a host of rack 7. -/
def noRack : List BenchOp :=
  [.reload [rackRule], .decide ⟨1000, fun _ => startingWith "", kindEvent "switch"⟩,
    .decide ⟨1001, fun _ => startingWith "", rackEvent "host" "7"⟩]

end Example

/-- A host silenced by the switch of its rack. -/
theorem Bench.same_rack_agrees : (sameRack.foldl Bench.step { index := emptyIndex }).verdicts.map
        (fun v => v.decision.suppressed) = [false, true] ∧
      ∀ v ∈ (sameRack.foldl Bench.step { index := emptyIndex }).verdicts, v.Agrees := by
  refine ⟨by decide, suppressed_labels_agree emptyIndex rfl sameRack
    ⟨trivial, ?_, ?_, trivial⟩⟩
  · intro r _ _ _ h _ hserves
    obtain ⟨e, he, -⟩ := hserves
    simp [emptyIndex, Bench.step] at he
  · have hentered : ∀ k ∈ ((sameRack.take 2).foldl Bench.step
        { index := emptyIndex }).index.entries.keys, ∀ e ∈ ((sameRack.take 2).foldl Bench.step
          { index := emptyIndex }).index.entries.lookup k, "rack" ∈ e.equalLabelValues := by
      decide
    intro r hr _ _ h _ _ e he l hl
    obtain rfl := mem_singleton.mp hr
    obtain rfl := mem_singleton.mp hl
    exact hentered _ (mem_keys.mpr (mem_iff.mpr ⟨e, he⟩)) e he

/-- **A switch without a rack silences every rack.**  The rule asks for equal racks; the switch has
none, so nothing is entered for it, and the host of rack 7 is suppressed because of it. -/
theorem source_without_label_suppresses :
    ∃ v ∈ (noRack.foldl Bench.step { index := emptyIndex }).verdicts,
      v.decision.suppressed = true ∧ v.decision.bySourceHash = "switch" ∧ ¬ v.Agrees := by
  refine ⟨(noRack.foldl Bench.step { index := emptyIndex }).verdicts.getLast
    (by decide), getLast_mem _, by decide, by decide, fun h => ?_⟩
  obtain ⟨r, hr, -, -, -, source, hsource, hlabels⟩ := h (by decide)
  obtain rfl : r = rackRule := mem_singleton.mp hr
  obtain rfl : singleton "kind" "switch" = source := Option.some.inj hsource
  obtain ⟨x, hx, -⟩ := hlabels "rack" (by decide)
  have hnone : (singleton "kind" "switch" : GoMap String String).lookup "rack" = none := rfl
  exact absurd (hnone.symm.trans hx) (Option.some_ne_none x).symm

end Nightingale.Suppress
