import Nightingale.Eval.Joins
import Nightingale.Process.Calls

/-!
# Eval/Triggers — an expression that cannot be evaluated

`GetAnomalyPoint` evaluates the expression of a trigger for every group of series.  It may be that
it cannot: a query the expression names has no series with a value in the group, or the expression
engine reports an error.

    cannot be evaluated ─▸ calcWithRid = false ─▸ not triggered ─▸ recoverPoints ─▸ RecoverSingle

Both come out as `false`, as for a group whose condition does not hold any more.  Only a trigger
that recovers on a condition of its own asks again.  So the recover points are those of the groups
that were evaluated exactly if every other group is spared by that condition
(`recoverPoints_iff_spared`).
-/

namespace Nightingale.Eval

open Text List Turn

/-! ## Groups and their expressions -/

section Turns

variable (tools : Tools) (rule : RuleQuery)

/-- A query has a series with a last value in the group. -/
def Group.hasValue (store : Store) (g : Group) (ref : String) : Bool :=
  g.members.any fun h => (store.lookup h).any fun d => d.ref = ref ∧ d.last.isSome

/-- What the expression of a turn is evaluated with. -/
def Turn.vars (store : Store) (turn : Turn) : GoMap String Datum :=
  (reading tools store (unitMap rule.queries) turn.trigger.exp turn.group).m

/-- **The expression cannot be evaluated**: a query it names has no value in the group, or the
engine reports an error. -/
def Turn.unevaluable (store : Store) (turn : Turn) : Bool :=
  (rule.queries.any fun q => q.ref.any fun ref =>
    containsText turn.trigger.exp ("$" ++ ref) && !turn.group.hasValue store ref) ||
  !(tools.mathCalc turn.trigger.exp (turn.vars tools rule store)).isOk

/-- The group is spared a recovery: its expression holds after all, or the trigger recovers on a
condition of its own, which does not hold. -/
def Turn.spared (store : Store) (turn : Turn) : Bool :=
  calcWithRid tools turn.trigger.exp (turn.vars tools rule store) ||
    decide (turn.trigger.recoverConfig.judgeType = .recoverOnCondition) &&
      !calcWithRid tools turn.trigger.recoverConfig.recoverExp (turn.vars tools rule store)

/-- The recover point of a turn, if it has one. -/
def Turn.recoverPoint? (store : Store) (turn : Turn) : Option AnomalyPoint :=
  (turn.outcome tools store (unitMap rule.queries)).recoverPoint?

end Turns

section Evaluations

variable {tools : Tools} {rule : RuleQuery}

/-- **A turn has a recover point unless it is spared one.** -/
theorem recoverPoint?_eq_none_iff (store : Store) (turn : Turn) :
    turn.recoverPoint? tools rule store = none ↔ turn.spared tools rule store := by
  rw [recoverPoint?, outcome, spared, vars]
  split
  · next h => simp [h, Outcome.recoverPoint?]
  · next h =>
    cases hj : turn.trigger.recoverConfig.judgeType with
    | recoverOnCondition =>
      dsimp only
      split <;> next h' => simp [h, h', Outcome.recoverPoint?]
    | origin | notRecoverWhenNoData | other code => simp [h, Outcome.recoverPoint?]

/-! ## The evaluation -/

/-- The store and the turns of an evaluation; one that fails has none. -/
def Evaluation.run (tools : Tools) (rule : RuleQuery) (e : Evaluation) : Store × List Turn :=
  if rule.queries = [] then (∅, [])
  else
    match e.answers rule.queries with
    | .error _ => (∅, [])
    | .ok answers =>
      ((collect tools.sum64 answers).1, e.turns tools rule (collect tools.sum64 answers))

/-- **The recover points of an evaluation are those of its turns**, and one that fails has none. -/
theorem recoverPoints_getAnomalyPoint (w : AlertRuleWorker) (e : Evaluation) :
    (∃ err, (getAnomalyPoint tools (.ok rule) w e).2 = .error err ∧ (e.run tools rule).2 = []) ∨
      ∃ points, (getAnomalyPoint tools (.ok rule) w e).2 = .ok (points,
        (e.run tools rule).2.filterMap (recoverPoint? tools rule (e.run tools rule).1)) := by
  rw [getAnomalyPoint, Evaluation.run]
  split
  · exact .inr ⟨[], rfl⟩
  · cases ha : e.answers rule.queries with
    | error err => exact .inl ⟨err, rfl, rfl⟩
    | ok answers =>
      simp only [filterMap_map]
      exact .inr ⟨_, rfl⟩

theorem filterMap_eq_filterMap_filter_iff {α β : Type*} {f : α → Option β} {p : α → Bool}
    {l : List α} :
    l.filterMap f = (l.filter p).filterMap f ↔ ∀ a ∈ l, p a = false → f a = none := by
  constructor
  · induction l with
    | nil => simp
    | cons a l ih =>
      intro h
      cases hp : p a with
      | true =>
        have hne : ¬ p a = false := by simp [hp]
        rw [filter_cons_of_pos hp, filterMap_cons, filterMap_cons] at h
        have hl : l.filterMap f = (l.filter p).filterMap f := by
          cases hf : f a <;> simpa [hf] using h
        exact forall_mem_cons.mpr ⟨fun hn => absurd hn hne, ih hl⟩
      | false =>
        rw [filter_cons_of_neg (by simp [hp]), filterMap_cons] at h
        cases hf : f a with
        | none =>
          rw [hf] at h
          exact forall_mem_cons.mpr ⟨fun _ => hf, ih h⟩
        | some b =>
          rw [hf] at h
          have hle : ((l.filter p).filterMap f).length ≤ (l.filterMap f).length :=
            (filter_sublist.filterMap f).length_le
          have hlen := congrArg length h
          simp only [length_cons] at hlen
          omega
  · intro h
    induction l with
    | nil => rfl
    | cons a l ih =>
      obtain ⟨ha, hl⟩ := forall_mem_cons.mp h
      cases hp : p a with
      | true => rw [filter_cons_of_pos hp, filterMap_cons, filterMap_cons, ih hl]
      | false =>
        rw [filter_cons_of_neg (by simp [hp]), filterMap_cons, ha hp, ih hl]

/-- **Only groups that were evaluated have recover points exactly if all others are spared.** -/
theorem recoverPoints_iff_spared (tools : Tools) (rule : RuleQuery) (w : AlertRuleWorker)
    (e : Evaluation) : (∀ points recoverPoints,
      (getAnomalyPoint tools (.ok rule) w e).2 = .ok (points, recoverPoints) →
        recoverPoints = ((e.run tools rule).2.filter fun turn =>
          !turn.unevaluable tools rule (e.run tools rule).1).filterMap
            (recoverPoint? tools rule (e.run tools rule).1))
      ↔ ∀ turn ∈ (e.run tools rule).2, turn.unevaluable tools rule (e.run tools rule).1 →
          turn.spared tools rule (e.run tools rule).1 := by
  have hiff : (∀ turn ∈ (e.run tools rule).2, turn.unevaluable tools rule (e.run tools rule).1 →
        turn.spared tools rule (e.run tools rule).1)
      ↔ (e.run tools rule).2.filterMap (recoverPoint? tools rule (e.run tools rule).1)
        = ((e.run tools rule).2.filter fun turn =>
          !turn.unevaluable tools rule (e.run tools rule).1).filterMap
            (recoverPoint? tools rule (e.run tools rule).1) := by
    rw [filterMap_eq_filterMap_filter_iff]
    refine forall₂_congr fun turn _ => ?_
    rw [recoverPoint?_eq_none_iff, Bool.not_eq_false']
  rw [hiff]
  rcases recoverPoints_getAnomalyPoint w e with ⟨err, hres, hnil⟩ | ⟨points, hres⟩
  · rw [hres, hnil]
    exact ⟨fun _ => rfl, fun _ _ _ h => by cases h⟩
  · rw [hres]
    constructor
    · intro h
      exact h points _ rfl
    · intro h points' recoverPoints hok
      cases hok
      exact h

end Evaluations

namespace Example

/-- An engine for one expression, which wants both its variables. -/
def engine (_ : String) (m : GoMap String Datum) : Except String ℚ :=
  match m.lookup "$A", m.lookup "$B" with
  | some (.number a), some (.number b) => .ok (if 80 < a ∧ 0 < b then 1 else 0)
  | _, _ => .error "unknown name"

/-- What is rendered as text matters little here. -/
def tools : Tools where
  sum64 := sum64
  mathCalc := engine
  valueFormatter _ _ := ""
  fixed3 _ := ""
  sprint _ := ""
  readable _ := ""
  sprintQuery _ trigger := trigger.exp
  metricString _ := ""
  formatTime _ := ""

/-- A rule on two queries. -/
def pairRule (recoverConfig : RecoverConfig) : RuleQuery where
  queries := [⟨some "A", ""⟩, ⟨some "B", ""⟩]
  triggers := [{ exp := "$A > 80 && $B > 0", severity := 2, recoverConfig }]

/-- A series of host `h` with one value. -/
def hostSeries (ref : String) (value : ℚ) : DataResp :=
  { series ref [("host", "h")] with values := [[60, value]] }

/-- An evaluation in which the two queries return the given series. -/
def evaluation (now : ℤ) (a b : List DataResp) : Evaluation where
  now := now
  queryData i := .ok (if i = 0 then a else b)
  orders _ := orders
  lastOrder := ascending

/-- Both queries return a series. -/
def bothThere : Evaluation := evaluation 60 [hostSeries "A" 90] [hostSeries "B" 1]

/-- The second query returns nothing. -/
def oneMissing : Evaluation := evaluation 120 [hostSeries "A" 90] []

/-- The rule recovers on a condition of its own. -/
def conditionRule : RuleQuery := pairRule ⟨.recoverOnCondition, "$A < 70 && $B > 0"⟩

/-- A condition that wants both variables as well spares the group. -/
theorem recoverPoints_conditionRule : (oneMissing.run tools conditionRule).2.map (fun turn =>
      turn.unevaluable tools conditionRule (oneMissing.run tools conditionRule).1) = [true] ∧
    ∀ points recoverPoints,
      (getAnomalyPoint tools (.ok conditionRule) {} oneMissing).2 = .ok (points, recoverPoints) →
      recoverPoints = ((oneMissing.run tools conditionRule).2.filter fun turn =>
          !turn.unevaluable tools conditionRule (oneMissing.run tools conditionRule).1).filterMap
        (recoverPoint? tools conditionRule (oneMissing.run tools conditionRule).1) :=
  ⟨by decide +kernel,
    (recoverPoints_iff_spared tools conditionRule {} oneMissing).mpr (by decide +kernel)⟩

/-- The rule is not to recover when data is missing. -/
def cautiousRule : RuleQuery := pairRule ⟨.notRecoverWhenNoData, ""⟩

/-- The points and recover points of an evaluation. -/
def evaluated (e : Evaluation) : List AnomalyPoint × List AnomalyPoint :=
  ((getAnomalyPoint tools (.ok cautiousRule) {} e).2.toOption).getD ([], [])

/-- The processor after the first evaluation. -/
def firing : World :=
  ({ rule := { id := 1 } } : World).handle Nightingale.Example.env
    (Nightingale.Example.call { id := 1 } 60 (evaluated bothThere).1)

/-- **The alert of a group that cannot be evaluated recovers.**  It fires while both queries return
a series; then the second returns none, the expression cannot be evaluated, and the recover point of
the group removes the alert, for a rule that is not to recover when data is missing. -/
theorem recovers_when_missing : firing.fires.keys.card = 1 ∧
    (oneMissing.run tools cautiousRule).2.map (fun turn =>
      turn.unevaluable tools cautiousRule (oneMissing.run tools cautiousRule).1) = [true] ∧
    (evaluated oneMissing).2.length = 1 ∧
    (firing.recoverPoints Nightingale.Example.env ⟨(evaluated oneMissing).2, false, 120,
      Nightingale.Example.order⟩).fires.keys.card = 0 := by
  decide +kernel

end Example

end Nightingale.Eval
