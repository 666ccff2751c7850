import Nightingale.Lib.Pointers
import Nightingale.Lib.Run
import Nightingale.Suppress.Verdict

/-!
# Suppress/Chains — who is silent because of whom

The latest `Decide` of every event leaves a pointer: to the source that suppressed it, or to
nothing.  An event registers as a source before it is known whether it is suppressed itself, and the
entry outlives the verdict, so two events can silence each other:

    Decide a   registers a                        not suppressed
    Decide b   registers b, finds a               b ──▸ a
    Decide a   registers a, finds b               a ──▸ b ──▸ a ──▸ …

`suppression_rooted` says what keeps the pointers from running in circles: no source that could
suppress an event is itself suppressed because of that event.
-/

namespace Nightingale.Suppress

open Option Function Suppress.Example Inhibitor

/-- A call of `Decide` on an event. -/
structure Ask where
  now : ℤ
  orders : ℕ → MapOrder (ℤ × Hash)
  event : AlertCurEvent

/-- The index, and the latest decision on every event, by its hash. -/
structure Docket where
  index : RootCauseIndex
  latest : GoMap Hash Decision := ∅

/-- The source an event is silent because of. -/
def Decision.source (d : Decision) : Option Hash :=
  if d.suppressed then some d.bySourceHash else none

namespace Docket

/-- Where the latest decision on an event points. -/
def points (s : Docket) (h : Hash) : Option (Option Hash) :=
  (s.latest.lookup h).map Decision.source

section Run

variable (rules : List CompiledRule)

/-- A call of `Decide`. -/
def ask (s : Docket) (a : Ask) : Docket :=
  let out := decide a.now a.orders s.index rules (some a.event)
  { index := out.1, latest := s.latest.insert a.event.hash out.2 }

/-- No source that could suppress the event is silent because of it, directly or through others. -/
def Unentangled (s : Docket) (a : Ask) : Prop :=
  ∀ r ∈ rules, r.inScope a.event → matchAllTagFilters a.event.tagsMap r.targetMatch →
    ∀ h ≠ a.event.hash, Serves a.now a.event s.index r h →
      ¬ Relation.ReflTransGen (Points s.points) h a.event.hash

variable {rules} {s : Docket} {a : Ask}

theorem points_ask : (s.ask rules a).points = update s.points a.event.hash
      (some (decide a.now a.orders s.index rules (some a.event)).2.source) := by
  funext h
  by_cases hh : h = a.event.hash
  · subst hh
    simp [ask, points]
  · simp [ask, points, update_of_ne hh, Finmap.lookup_insert_of_ne _ hh]

/-- Every source has been decided on, and every event decided on leads to one that is free. -/
structure Sound (s : Docket) : Prop where
  known : ∀ k e, s.index.entries.lookup k = some e → s.points k.2 ≠ none
  rooted : ∀ h, s.points h ≠ none → Rooted s.points h

/-- **One call.** -/
theorem Sound.ask (hs : s.Sound) (h : s.Unentangled rules a) : (s.ask rules a).Sound := by
  have hself : (s.ask rules a).points a.event.hash ≠ none := by
    rw [points_ask, update_self]
    exact some_ne_none _
  constructor
  · intro k e he
    by_cases hk : k.2 = a.event.hash
    · rwa [hk]
    · have hlookup : s.index.entries.lookup k = some e := by
        rw [← lookup_foldl_enroll rules s.index hk, ← decideLoop_fst a.orders rules (s.index, {})]
        exact he
      rw [points_ask, update_of_ne hk]
      exact hs.known k e hlookup
  · rw [points_ask]
    refine Rooted.update hs.rooted fun b hb => ?_
    cases hsup : (decide a.now a.orders s.index rules (some a.event)).2.suppressed with
    | false =>
      rw [Decision.source, hsup] at hb
      cases hb
    | true =>
      rw [Decision.source, hsup] at hb
      cases hb
      obtain ⟨r, hr, hscope, htarget, -, hne, hserves⟩ := decide_names hsup
      obtain ⟨e, he, -⟩ := id hserves
      exact ⟨hs.known _ e he, h r hr hscope htarget _ hne hserves⟩

/-- **Suppression is not circular**, in every run in which no source that could suppress an event is
silent because of it: from a suppressed event the sources lead to one that is not suppressed. -/
theorem suppression_rooted (rules : List CompiledRule) (index : RootCauseIndex)
    (hempty : index.entries = ∅) (asks : List Ask)
    (h : Along (ask rules) (Unentangled rules) { index := index } asks) (hash : Hash) (d : Decision)
    (hd : (asks.foldl (ask rules) { index := index }).latest.lookup hash = some d) :
    Rooted (asks.foldl (ask rules) { index := index }).points hash := by
  have hstart : Sound { index := index } := by
    constructor
    · intro k e he
      rw [hempty] at he
      simp at he
    · intro h hne
      simp [points] at hne
  refine (Along.invariant (fun s a h hs => Sound.ask hs h) h hstart).rooted hash ?_
  rw [points, hd]
  exact some_ne_none _

end Run

end Docket

namespace Example

/-- Events of one kind are the source of events of another. -/
def kindRule (id : ℤ) (source target : String) : CompiledRule where
  rule := { id := id }
  sourceMatch := [{ key := "kind", func := .eq, value := .str source }]
  targetMatch := [{ key := "kind", func := .eq, value := .str target }]
  equalLabels := []

/-- An event of a kind. -/
def kindEvent (kind : String) : AlertCurEvent :=
  { hash := kind, tagsMap := Finmap.singleton "kind" kind }

/-- An index without entries. -/
def emptyIndex : RootCauseIndex := { oneSource with entries := ∅ }

/-- An event of a kind is decided on. -/
def kindAsk (now : ℤ) (kind : String) : Ask := ⟨now, fun _ => startingWith "", kindEvent kind⟩

/-- Switches silence hosts. -/
def oneWay : List CompiledRule := [kindRule 1 "switch" "host"]

/-- …and hosts silence switches. -/
def bothWays : List CompiledRule := [kindRule 1 "switch" "host", kindRule 2 "host" "switch"]

/-- A switch and then a host. -/
def oneRound : List Ask := [kindAsk 1000 "switch", kindAsk 1001 "host"]

/-- …and the switch again. -/
def twoRounds : List Ask := oneRound ++ [kindAsk 1002 "switch"]

end Example

/-- A host behind a switch, which is free. -/
theorem Docket.host_behind_switch : Rooted (oneRound.foldl (Docket.ask oneWay)
      { index := emptyIndex }).points "host" := by
  have hsource : (decide 1000 (fun _ => startingWith "") emptyIndex
      oneWay (some (kindEvent "switch"))).2.source = none := by decide
  have hfree : ∀ x y, ¬ Points (ask oneWay { index := emptyIndex }
      (kindAsk 1000 "switch")).points x y := by
    intro x y hxy
    rw [Points, points_ask] at hxy
    by_cases hx : x = "switch"
    · subst hx
      have hsome := (update_self "switch" _ _).symm.trans hxy
      exact absurd (hsource.symm.trans (some.inj hsome)) (some_ne_none y).symm
    · have hnone := (update_of_ne hx _ _).symm.trans hxy
      simp [points] at hnone
  have hdecided : (oneRound.foldl (Docket.ask oneWay)
      { index := emptyIndex }).points "host" ≠ none := by decide
  obtain ⟨points, hpoints⟩ := ne_none_iff_exists'.mp hdecided
  obtain ⟨d, hd, -⟩ := map_eq_some_iff.mp hpoints
  refine suppression_rooted oneWay emptyIndex rfl oneRound ⟨?_, ?_, trivial⟩
    "host" d hd
  · intro r _ _ _ h _ hserves
    obtain ⟨e, he, -⟩ := hserves
    simp [emptyIndex] at he
  · intro r _ _ _ h hne _ hlead
    rcases Relation.ReflTransGen.cases_tail hlead with heq | ⟨x, -, hx⟩
    · exact hne heq.symm
    · exact hfree x _ hx

/-- **Two alerts that silence each other.**  A switch is free; a host is suppressed because of it;
and a moment later the switch is suppressed because of the host. -/
theorem silent_by_each_other :
    (twoRounds.foldl (Docket.ask bothWays) { index := emptyIndex }).points
        "switch" = some (some "host") ∧
      (twoRounds.foldl (Docket.ask bothWays) { index := emptyIndex }).points
        "host" = some (some "switch") ∧
      ¬ Rooted (twoRounds.foldl (Docket.ask bothWays)
        { index := emptyIndex }).points "switch" := by
  have hswitch : (twoRounds.foldl (Docket.ask bothWays)
      { index := emptyIndex }).points "switch" = some (some "host") := by decide
  have hhost : (twoRounds.foldl (Docket.ask bothWays)
      { index := emptyIndex }).points "host" = some (some "switch") := by decide
  exact ⟨hswitch, hhost, not_rooted_of_pair hswitch hhost⟩

end Nightingale.Suppress
