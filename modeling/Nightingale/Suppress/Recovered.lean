import Nightingale.Process.Grouping
import Nightingale.Suppress.Hook

/-!
# Suppress/Recovered — root causes that have recovered

The processor and the index know of each other only through the hook.  An alert that fires passes
the hook, and is entered; an alert that recovers is pushed by `RecoverSingle`, past the hook, and
its entries stay where they are until their time is up:

    fires ──hook──▸ entered ─────────────────────────▸ expires
                       recovers ──▸ (nobody tells the index)

`recovered_no_source` is the rule one expects, that a recovered alert suppresses nothing until it
passes the hook again, for runs in which its entries have expired by the next call of the hook.
-/

namespace Nightingale.Suppress

open List

/-! ## A processor and its hook -/

/-- A call of `Handle`, with what the hook finds at each point in place of its answer. -/
structure HookedCall extends HandleCall where
  hooks : ℕ → HookEnv

/-- A call of the hook: the alerts then recovered, and the decision of `Decide`, if it was
reached. -/
structure HookCall where
  quiet : Finset Hash
  decision : Option Decision

/-- **No recovered alert suppresses.** -/
def HookCall.Fair (c : HookCall) : Prop :=
  ∀ d ∈ c.decision, d.suppressed = true → d.bySourceHash ∉ c.quiet

instance (c : HookCall) : Decidable c.Fair := inferInstanceAs (Decidable (∀ _ ∈ _, _ → _))

/-- A processor and the index, with the alerts that have recovered since they last passed the hook
(`quiet`), and all calls of the hook so far. -/
structure Station where
  world : World
  index : RootCauseIndex
  quiet : Finset Hash := ∅
  calls : List HookCall := []

open Station

/-- What the two do.  The hook is called for other processors too, and by the try-run endpoint; a
reboot of the server empties the index. -/
inductive StationOp where
  | evaluate (c : HookedCall)
  | recoverPoints (c : RecoverCall)
  | recoverSingle (byRecover : Bool) (hash : Hash) (now : ℤ) (value : Option String)
  | restart (c : RestartCall)
  | consume (steps : ℕ)
  | call (env : HookEnv) (event : AlertCurEvent)
  | reboot

/-- The event of a point, if it gets as far as the hook. -/
def HookedCall.asked (env : Env) (c : HookedCall) (rule : AlertRule) (p : AnomalyPoint × ℕ) :
    Option AlertCurEvent :=
  (c.pipeline p.2 (buildEvent env rule p.1 c.src c.now)).filter fun event => !c.isMuted p.2 event

/-- The call, with the answers of the hook. -/
def HookedCall.handleCall (c : HookedCall) (answers : List Bool) : HandleCall :=
  { c.toHandleCall with eventMuteHook := fun i _ => answers.getD i false }

/-- The alerts whose recovery is pushed. -/
def recoveries (log : List Effect) : Finset Hash :=
  (((pushed log).filter fun e => e.isRecovered).map fun e => e.hash).toFinset

namespace Station

/-- The hook is called. -/
def hook (s : Station) (env : HookEnv) (event : AlertCurEvent) : Station :=
  { s with
    index := (env.eventMuteHook s.index (some event)).index
    quiet := s.quiet.erase event.hash
    calls := s.calls ++ [⟨s.quiet, env.decision s.index event⟩] }

section Points

variable (env : Env) (c : HookedCall) (rule : AlertRule)

/-- The hook is called for a point of `Handle`. -/
def hookPoint (s : Station) (p : AnomalyPoint × ℕ) : Station :=
  match c.asked env rule p with
  | none => s
  | some event => s.hook (c.hooks p.2) event

/-- The answers of the hook at the points of `Handle`, one after the other. -/
def answers : Station → List (AnomalyPoint × ℕ) → List Bool
  | _, [] => []
  | s, p :: ps =>
    (c.asked env rule p).any
      (fun event => ((c.hooks p.2).eventMuteHook s.index (some event)).muted) ::
      answers (s.hookPoint env c rule p) ps

end Points

variable (env : Env)

/-- The processor does something; what it pushes is noted. -/
def act (s : Station) (op : Op) : Station :=
  { s with
    world := s.world.step env op
    quiet := s.quiet ∪ recoveries ((s.world.step env op).log.drop s.world.log.length) }

/-- One step.  `Handle` calls the hook for all its points before it pushes anything. -/
def step (s : Station) : StationOp → Station
  | .evaluate c =>
    match c.cachedRule with
    | none => s.act env (.handle c.toHandleCall)
    | some rule =>
      (c.points.zipIdx.foldl (hookPoint env c rule) s).act env
        (.handle (c.handleCall (s.answers env c rule c.points.zipIdx)))
  | .recoverPoints c => s.act env (.recoverPoints c)
  | .recoverSingle byRecover hash now value => s.act env (.recoverSingle byRecover hash now value)
  | .restart c => s.act env (.restart c)
  | .consume steps => s.act env (.consume steps)
  | .call env event => s.hook env event
  | .reboot => { s with index := { s.index with entries := ∅ } }

/-! ## Entries that have expired -/

/-- The entries of the recovered alerts have expired. -/
def Faded (s : Station) (now : ℤ) : Prop :=
  ∀ k ∈ s.index.entries.keys, k.2 ∈ s.quiet →
    ∀ e ∈ s.index.entries.lookup k, e.live now = false

instance (s : Station) (now : ℤ) : Decidable (s.Faded now) :=
  inferInstanceAs (Decidable (∀ _ ∈ _, _ → _))

/-- **Whenever the hook is called, the entries of the recovered alerts have expired.** -/
def Timely (s : Station) : StationOp → Prop
  | .evaluate c => ∀ rule ∈ c.cachedRule, ∀ p ∈ c.points.zipIdx,
      (c.asked env rule p).isSome → s.Faded (c.hooks p.2).now
  | .call env _ => s.Faded env.now
  | _ => True

instance (s : Station) : (op : StationOp) → Decidable (s.Timely env op)
  | .evaluate _ => inferInstanceAs (Decidable (∀ _ ∈ _, ∀ _ ∈ _, _ → _))
  | .call env _ => inferInstanceAs (Decidable (s.Faded env.now))
  | .recoverPoints _ | .recoverSingle .. | .restart _ | .consume _ | .reboot =>
    inferInstanceAs (Decidable True)

variable {env} {s : Station}

theorem Faded.not_live {now : ℤ} (h : s.Faded now) {k : ℤ × Hash} {e : RootCauseEntry}
    (hk : k.2 ∈ s.quiet) (he : s.index.entries.lookup k = some e) : e.live now = false :=
  h k (Finmap.mem_keys.mpr (Finmap.mem_iff.mpr ⟨e, he⟩)) hk e he

/-- A call of the hook leaves what has expired: it touches only the entries of its event, and that
is quiet no longer. -/
theorem Faded.hook {now : ℤ} (h : s.Faded now) (henv : HookEnv) (event : AlertCurEvent) :
    (s.hook henv event).Faded now := by
  intro k _ hk e he
  obtain ⟨hne, hquiet⟩ := Finset.mem_erase.mp hk
  exact h.not_live hquiet ((lookup_eventMuteHook henv s.index event hne).symm.trans he)

/-- **A call among expired entries is fair**: who suppresses is live. -/
theorem Faded.fair {henv : HookEnv} (h : s.Faded henv.now) (event : AlertCurEvent) :
    HookCall.Fair ⟨s.quiet, henv.decision s.index event⟩ := by
  intro d hd hsup hquiet
  simp only [HookEnv.decision] at hd
  split_ifs at hd
  · cases hd
  cases hd
  obtain ⟨r, -, -, -, -, -, e, he, hlive, -⟩ := decide_names hsup
  exact absurd hlive (by rw [h.not_live hquiet he]; exact Bool.false_ne_true)

/-! ## Runs -/

/-- All calls so far were fair. -/
def Fair (s : Station) : Prop := ∀ c ∈ s.calls, c.Fair

theorem Fair.hook (hs : s.Fair) {henv : HookEnv} (h : s.Faded henv.now) (event : AlertCurEvent) :
    (s.hook henv event).Fair := by
  intro c hc
  rcases mem_append.mp hc with hc | hc
  · exact hs c hc
  · rw [mem_singleton.mp hc]
    exact h.fair event

/-- **The points of one `Handle`.**  The induction carries the condition along: what had expired for
the points to come has expired still. -/
theorem Fair.hookPoints {c : HookedCall} {rule : AlertRule} {ps : List (AnomalyPoint × ℕ)}
    (hs : s.Fair)
    (h : ∀ p ∈ ps, (c.asked env rule p).isSome → s.Faded (c.hooks p.2).now) :
    (ps.foldl (hookPoint env c rule) s).Fair := by
  induction ps generalizing s with
  | nil => exact hs
  | cons p ps ih =>
    rw [foldl_cons, hookPoint]
    cases hp : c.asked env rule p with
    | none => exact ih hs fun q hq => h q (mem_cons_of_mem _ hq)
    | some event =>
      refine ih (hs.hook (h p mem_cons_self (by simp [hp])) event) fun q hq hsome => ?_
      exact (h q (mem_cons_of_mem _ hq) hsome).hook _ event

/-- **One step.** -/
theorem Fair.step (hs : s.Fair) {op : StationOp} (h : s.Timely env op) : (s.step env op).Fair := by
  cases op with
  | evaluate c =>
    cases hrule : c.cachedRule with
    | none =>
      simp only [Station.step, hrule]
      exact hs
    | some rule =>
      simp only [Station.step, hrule]
      exact hs.hookPoints (h rule hrule)
  | call henv event => exact hs.hook h event
  | recoverPoints | recoverSingle | restart | consume | reboot => exact hs

end Station

/-- **A recovered root cause stops suppressing**, in every run in which the entries of the alerts
that have recovered, and have not passed the hook since, are expired whenever the hook is
called. -/
theorem recovered_no_source (env : Env) (world : World) (index : RootCauseIndex)
    (ops : List StationOp)
    (h : Along (step env) (Station.Timely env) { world := world, index := index } ops) :
    ∀ c ∈ (ops.foldl (step env) { world := world, index := index }).calls, c.Fair := by
  have hstart : Station.Fair { world := world, index := index } := fun c hc => absurd hc not_mem_nil
  exact Along.invariant (I := Station.Fair) (fun _ _ htimely hs => hs.step htimely) h hstart

namespace Example

/-- All points are switches. -/
def switches : Env :=
  { Nightingale.Example.env with fillTags := fun _ _ => (Finmap.singleton "kind" "switch", "") }

/-- Switches silence hosts. -/
def hooksAt (now : ℤ) : HookEnv where
  muteNow := now * 10 ^ 9
  rules := oneWay
  now := now
  orders := fun _ => startingWith ""

/-- An evaluation at `now`. -/
def evaluateAt (now : ℤ) (points : List AnomalyPoint) : StationOp :=
  .evaluate { Nightingale.Example.call { id := 1 } now points with hooks := fun _ => hooksAt now }

/-- A switch fires at 1000 and recovers at 1010; a host fires at `now`. -/
def switchThenHost (now : ℤ) : List StationOp :=
  [evaluateAt 1000 [Nightingale.Example.point "a" 1 1000], evaluateAt 1010 [],
    .call (hooksAt now) (kindEvent "host")]

/-- Before the run. -/
def station : Station := { world := { rule := { id := 1 } }, index := emptyIndex }

end Example

open Suppress.Example

/-- A host that fires when the entry of the switch has expired. -/
theorem recovered_switch_expired :
    (pointHash switches 1 (Nightingale.Example.point "a" 1 1000)) ∈
        ((switchThenHost 1601).foldl (step switches) station).quiet ∧
      ∀ c ∈ ((switchThenHost 1601).foldl (step switches)
        station).calls, c.Fair := ⟨by decide, recovered_no_source _ _ _ _ (by decide)⟩

/-- **A switch that is up again silences the host.**  It fires at 1000 and recovers at 1010, the
recovery is pushed, and at 1011 the host is suppressed because of it. -/
theorem recovered_switch_suppresses : ∃ c ∈ ((switchThenHost 1011).foldl (step switches)
        station).calls, ¬ c.Fair ∧ c.decision.map (fun d => d.bySourceHash)
        = some (pointHash switches 1 (Nightingale.Example.point "a" 1 1000)) := by
  decide

end Nightingale.Suppress
