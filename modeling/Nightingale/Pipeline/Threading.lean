import Nightingale.Pipeline.Calls

/-!
# Pipeline/Threading — the event a workflow returns

`executeNode` assigns the context a processor returns to a variable of its own.  `executeDAG` and
`Execute` go on with the context they began with, so a processor is heard only as far as it works in
place:

    given ──processor──▸ left in place  ──▸ given to the next  ──▸ …  ──▸ its event is returned
               └───────▸ returned       ──▸ looked at for nil, and dropped

The event returned is the one of the context as the last processor leaves it (`execute_event`).
`event_produced_iff` says when that is the event the processors produced.
-/

namespace Nightingale.Pipeline

open List Option Example Engine

variable {V : Type}

/-! ## `Execute` -/

/-- `ProcessorConfig`. -/
structure ProcessorConfig where
  typ : String
  config : Json := .null

/-- `EventPipeline`, with the fields `Execute` reads; those that only make up the first context are
left to `data`. -/
structure EventPipeline where
  nodes : List WorkflowNode := []
  processorConfigs : List ProcessorConfig := []
  connections : Connections := ∅

/-- `GetWorkflowNodes`: a pipeline of the old format has its processors as nodes. -/
def EventPipeline.getWorkflowNodes (p : EventPipeline) : List WorkflowNode :=
  if p.nodes.isEmpty then
    p.processorConfigs.mapIdx fun i pc =>
      { id := s!"node_{i}", name := pc.typ, typ := pc.typ, config := pc.config, maxRetries := 0 }
  else p.nodes

/-- `GetWorkflowConnections`: without connections, every node leads to the next. -/
def EventPipeline.getWorkflowConnections (p : EventPipeline) : Connections :=
  if 0 < p.connections.keys.card then p.connections
  else
    (p.getWorkflowNodes.zip p.getWorkflowNodes.tail).foldl
      (fun conns (n : WorkflowNode × WorkflowNode) => conns.insert n.1.id [[n.2.id]]) ∅

/-- `initWorkflowContext`. -/
def initWorkflowContext (event : Option AlertCurEvent) (data : V) (stream : Bool) :
    WorkflowContext V := { event := event, data := data, stream := stream }

/-- `WorkflowEngine.Execute`, without the record it saves: the event and the result. -/
def Engine.execute (e : Engine V) (pipeline : EventPipeline) (orders : Orders)
    (event : Option AlertCurEvent) (data : V) (stream : Bool) :
    Option (Option AlertCurEvent × WorkflowResult) :=
  if pipeline.getWorkflowNodes.isEmpty then
    some (event, { event := event, status := .success, message := "no nodes to execute" })
  else
    (e.executeDAG (buildNodeMap pipeline.getWorkflowNodes) pipeline.getWorkflowConnections orders
      (initWorkflowContext event data stream)).map fun out =>
        (out.1.event, { out.2 with event := out.1.event })

/-! ## What processors answer -/

/-- One attempt of a processor: the context it was given, and the one it returns. -/
def Processor.respond (retries : ℕ) (ctx : WorkflowContext V) :
    Processor V → WorkflowContext V × Except String (Returned V)
  | .plain process =>
    let out := process retries ctx
    (out.1, out.2.map Prod.fst)
  | .branch processWithBranch =>
    let out := processWithBranch retries ctx
    (out.1, out.2.map fun output => output.elim .nil NodeOutput.wfCtx)

/-- The answer to the last attempt, with the number of retries left. -/
def Processor.answer (p : Processor V) : ℕ → ℕ → WorkflowContext V → Except String (Returned V)
  | 0, retries, ctx => (p.respond retries ctx).2
  | left + 1, retries, ctx =>
    match p.respond retries ctx with
    | (_, .ok returned) => .ok returned
    | (ctx, .error _) => p.answer left (retries + 1) ctx

/-- The answer of the processor of a node, if there is one to ask. -/
def Engine.answer (e : Engine V) (node : WorkflowNode) (ctx : WorkflowContext V) :
    Option (Except String (Returned V)) :=
  if node.disabled then none
  else
    match e.getProcessorByType node.typ node.config with
    | .error _ => none
    | .ok processor =>
      let maxRetries := if node.retryOnFail then node.maxRetries else 0
      if maxRetries < 0 then none else some (processor.answer maxRetries.toNat 0 ctx)

section Answers

variable (e : Engine V)

/-- The context a successful call returns. -/
def Engine.returned (c : Call V) : Option (Returned V) :=
  (e.answer c.node c.given).bind Except.toOption

/-- A successful call that returns no context, or one without an event. -/
def Engine.Drops (c : Call V) : Prop :=
  ∃ r, e.returned c = some r ∧ ∀ ctx ∈ r.get (e.left c), ctx.event = none

/-- A successful call that leaves the context it was given without an event. -/
def Engine.Clears (c : Call V) : Prop := e.returned c ≠ none ∧ (e.left c).event = none

/-- The context given to all calls, after them. -/
def Engine.after (ctx : WorkflowContext V) (calls : List (Call V)) : WorkflowContext V :=
  calls.foldl (fun _ c => e.left c) ctx

/-- The calls of `Execute` that ask a processor. -/
def Engine.executeCalls (pipeline : EventPipeline) (orders : Orders)
    (event : Option AlertCurEvent) (data : V) (stream : Bool) : List (Call V) :=
  if pipeline.getWorkflowNodes.isEmpty then []
  else
    (e.dagCalls (buildNodeMap pipeline.getWorkflowNodes) pipeline.getWorkflowConnections orders
      (initWorkflowContext event data stream)).filter fun c => (e.answer c.node c.given).isSome

/-! ## What is expected of the calls, and of the processors -/

/-- **Each processor is given the context the last successful one before it returned.**  What a
processor is given is always the same context, so that one is `same`. -/
def Engine.Threaded (calls : List (Call V)) : Prop :=
  ∀ pre c mid next post r, calls = pre ++ c :: (mid ++ next :: post) →
    (∀ x ∈ mid, e.returned x = none) → e.returned c = some r → r = .same

/-- **The event is the one produced**: nil just in case a processor dropped it, and otherwise the
event of the context the last successful call returned. -/
structure Engine.Produced (ctx : WorkflowContext V) (calls : List (Call V))
    (event : Option AlertCurEvent) : Prop where
  nil_iff : event = none ↔ ∃ c ∈ calls, e.Drops c
  last : (∀ c ∈ calls, ¬ e.Drops c) → ∀ pre c post r, calls = pre ++ c :: post →
    (∀ x ∈ post, e.returned x = none) → e.returned c = some r →
      (r.get (e.after ctx calls)).bind WorkflowContext.event = event

/-- A successful call that another call follows returns the context it was given. -/
def Engine.HandBack (calls : List (Call V)) : Prop :=
  ∀ pre c post, calls = pre ++ c :: post → post ≠ [] → e.returned c ≠ none →
    e.returned c = some .same

/-- **The processors work in place**: they hand back the context; there is an event, if none is
asked; the last call puts none back that a successful one cleared, and clears none if it fails; and
it leaves in the context the event of what it returns, unless the event was gone. -/
structure Engine.InPlace (ctx : WorkflowContext V) (calls : List (Call V)) : Prop where
  handBack : e.HandBack calls
  given : calls = [] → ctx.event ≠ none
  cleared : ∀ pre c, calls = pre ++ [c] → (∃ x ∈ pre, e.Clears x) → (e.left c).event = none
  kept : ∀ pre c, calls = pre ++ [c] → e.returned c = none → (e.left c).event = none →
    ∃ x ∈ pre, e.Clears x
  last : ∀ pre c r, calls = pre ++ [c] → e.returned c = some r →
    (∃ x ∈ pre, e.Clears x) ∨ (r.get (e.left c)).bind WorkflowContext.event = (e.left c).event

end Answers

/-! ## The context in place -/

section Place

variable {e : Engine V} {nodeMap : GoMap String WorkflowNode} {connections : Connections}
  {ctx : WorkflowContext V} {calls : List (Call V)}

theorem after_concat (pre : List (Call V)) (c : Call V) :
    e.after ctx (pre ++ [c]) = e.left c := by simp [Engine.after]

theorem executeNode_of_unanswered {node : WorkflowNode} (h : e.answer node ctx = none) :
    (e.executeNode node ctx).1 = ctx := by
  unfold answer at h
  unfold executeNode
  by_cases hdisabled : node.disabled = true
  · rw [if_pos hdisabled]
  · rw [if_neg hdisabled] at h ⊢
    cases hget : e.getProcessorByType node.typ node.config with
    | error err => rfl
    | ok processor =>
      simp only [hget] at h ⊢
      split_ifs at h ⊢ with hneg
      · rfl
      · rfl

/-- **The loop returns the context as the last processor leaves it.** -/
theorem Runs.after {s : Progress V} {out : WorkflowContext V × WorkflowResult}
    (h : Runs e nodeMap connections s calls out) :
    out.1 = e.after s.ctx (calls.filter fun c => (e.answer c.node c.given).isSome) := by
  have hcons : ∀ (c : Call V) (calls : List (Call V)), e.after c.given
      ((c :: calls).filter fun c => (e.answer c.node c.given).isSome)
        = e.after (e.left c) (calls.filter fun c => (e.answer c.node c.given).isSome) := by
    intro c calls
    cases hanswer : e.answer c.node c.given with
    | none =>
      rw [filter_cons_of_neg (by simp [hanswer]), left, executeNode_of_unanswered hanswer]
    | some a => rw [filter_cons_of_pos (by simp [hanswer])]; rfl
  induction h with
  | done => rfl
  | pass _ _ _ ih => exact ih
  | @run s id rest node ctx r o calls out _ _ hexec _ ih =>
    have hctx : (takeOutputs connections id (ran s id rest ctx r)).ctx
        = e.left ⟨id, node, s.ctx⟩ := by
      rw [takeOutputs_eq_with, left, hexec]
      rfl
    rw [ih, hctx]
    exact (hcons ⟨id, node, s.ctx⟩ calls).symm
  | @stop s id rest node ctx r r' o result _ _ hexec _ _ _ =>
    refine Eq.trans ?_ (hcons ⟨id, node, s.ctx⟩ []).symm
    rw [filter_nil, left, hexec]
    rfl

/-! ## In place and produced -/

theorem threaded_iff : e.Threaded calls ↔ e.HandBack calls := by
  constructor
  · intro h pre c post heq hpost hc
    obtain ⟨r, hr⟩ := ne_none_iff_exists'.mp hc
    obtain ⟨next, post, rfl⟩ := exists_cons_of_ne_nil hpost
    rw [hr, h pre c [] next post r heq (by simp) hr]
  · intro h pre c mid next post r heq _ hr
    have := h pre c _ heq (by simp) (by simp [hr])
    exact some.inj (hr.symm.trans this)

/-- The event of what is returned is missing if and only if there is none to see. -/
theorem bind_event_eq_none {r : Returned V} {ctx : WorkflowContext V} :
    (r.get ctx).bind WorkflowContext.event = none ↔ ∀ x ∈ r.get ctx, x.event = none := by
  cases r.get ctx <;> simp

theorem last_or_before {pre : List (Call V)} {c last : Call V} (h : c ∈ pre ++ [last]) :
    c ∈ pre ∨ c = last := by simpa using h

section HandBack

variable {pre : List (Call V)} {c : Call V}

theorem Engine.HandBack.drops_iff (h : e.HandBack (pre ++ [c])) {x : Call V} (hx : x ∈ pre) :
    e.Drops x ↔ e.Clears x := by
  by_cases hret : e.returned x = none
  · simp [Drops, Clears, hret]
  · obtain ⟨p, q, rfl⟩ := append_of_mem hx
    have hsame := h p x (q ++ [c]) (by simp) (by simp) hret
    simp [Drops, Clears, hsame, Returned.get]

end HandBack

section InPlace

variable {pre : List (Call V)} {c : Call V}

/-- In place, the event is gone at the end just in case a successful call cleared it. -/
theorem Engine.InPlace.gone_iff (h : e.InPlace ctx calls) :
    (e.after ctx calls).event = none ↔ ∃ c ∈ calls, e.Clears c := by
  rcases eq_nil_or_concat calls with rfl | ⟨pre, c, rfl⟩
  · simpa [Engine.after] using h.given rfl
  rw [concat_eq_append] at h ⊢
  rw [after_concat]
  constructor
  · intro hnone
    by_cases hret : e.returned c = none
    · obtain ⟨x, hx, hclears⟩ := h.kept pre c rfl hret hnone
      exact ⟨x, by simp [hx], hclears⟩
    · exact ⟨c, by simp, hret, hnone⟩
  · rintro ⟨x, hx, hclears⟩
    rcases last_or_before hx with hx | rfl
    · exact h.cleared pre c rfl ⟨x, hx, hclears⟩
    · exact hclears.2

/-- In place, the last call leaves the event of what it returns, unless the event was gone. -/
theorem Engine.InPlace.last_event (h : e.InPlace ctx (pre ++ [c])) (hnone : ∀ x ∈ pre, ¬ e.Clears x)
    {r : Returned V} (hr : e.returned c = some r) :
    (r.get (e.left c)).bind WorkflowContext.event = (e.left c).event := by
  refine (h.last pre c r rfl hr).resolve_left ?_
  rintro ⟨x, hx, hclears⟩
  exact hnone x hx hclears

/-- In place, the last call too drops the event if and only if it clears it. -/
theorem Engine.InPlace.drops_last_iff (h : e.InPlace ctx (pre ++ [c]))
    (hnone : ∀ x ∈ pre, ¬ e.Clears x) : e.Drops c ↔ e.Clears c := by
  constructor
  · rintro ⟨r, hr, hdrops⟩
    exact ⟨by simp [hr], (h.last_event hnone hr).symm.trans (bind_event_eq_none.mpr hdrops)⟩
  · rintro ⟨hret, hclears⟩
    obtain ⟨r, hr⟩ := ne_none_iff_exists'.mp hret
    exact ⟨r, hr, bind_event_eq_none.mp ((h.last_event hnone hr).trans hclears)⟩

/-- In place, some call drops the event if and only if some call clears it. -/
theorem Engine.InPlace.exists_drops_iff (h : e.InPlace ctx (pre ++ [c])) :
    (∃ x ∈ pre ++ [c], e.Drops x) ↔ ∃ x ∈ pre ++ [c], e.Clears x := by
  by_cases hbefore : ∃ y ∈ pre, e.Clears y
  · obtain ⟨y, hy, hclears⟩ := hbefore
    exact iff_of_true ⟨y, by simp [hy], (h.handBack.drops_iff hy).mpr hclears⟩
      ⟨y, by simp [hy], hclears⟩
  · have hnone : ∀ y ∈ pre, ¬ e.Clears y := fun y hy hclears => hbefore ⟨y, hy, hclears⟩
    refine exists_congr fun x => and_congr_right fun hx => ?_
    rcases last_or_before hx with hx | rfl
    · exact h.handBack.drops_iff hx
    · exact h.drops_last_iff hnone

end InPlace

/-- In place, the event at the end is the one produced. -/
theorem Engine.InPlace.produced (h : e.InPlace ctx calls) :
    e.Produced ctx calls (e.after ctx calls).event := by
  rcases eq_nil_or_concat calls with rfl | ⟨pre, c, rfl⟩
  · refine ⟨by simpa using h.gone_iff, fun _ pre c post r heq => ?_⟩
    simp at heq
  rw [concat_eq_append] at h ⊢
  refine ⟨h.gone_iff.trans h.exists_drops_iff.symm, fun hno p x q r heq _ hr => ?_⟩
  rw [after_concat]
  by_cases hq : q = []
  · subst hq
    obtain ⟨rfl, hxc⟩ := append_inj' heq rfl
    obtain rfl := (cons.inj hxc).1
    refine h.last_event (fun y hy hclears => hno y (by simp [hy]) ?_) hr
    exact (h.handBack.drops_iff hy).mpr hclears
  · rw [some.inj (hr.symm.trans (h.handBack p x q heq hq (by simp [hr])))]
    rfl

/-- **The event in place is the one produced if and only if the processors work in place.** -/
theorem produced_iff_inPlace :
    e.HandBack calls ∧ e.Produced ctx calls (e.after ctx calls).event ↔ e.InPlace ctx calls := by
  refine ⟨?_, fun h => ⟨h.handBack, h.produced⟩⟩
  rintro ⟨hback, hnil, hlast⟩
  rcases eq_nil_or_concat calls with rfl | ⟨pre, c, rfl⟩
  · exact ⟨hback, fun _ => by simpa [Engine.after] using hnil, by simp, by simp, by simp⟩
  rw [concat_eq_append] at hback hnil hlast ⊢
  rw [after_concat] at hnil
  have hinj : ∀ {p x}, pre ++ [c] = p ++ [x] → pre = p ∧ c = x := fun heq => by
    simpa using append_inj' heq rfl
  refine ⟨hback, by simp, fun p x heq hgone => ?_, fun p x heq hret hnone => ?_,
    fun p x r heq hr => ?_⟩
  all_goals obtain ⟨rfl, rfl⟩ := hinj heq
  · obtain ⟨y, hy, hclears⟩ := hgone
    exact hnil.mpr ⟨y, by simp [hy], (hback.drops_iff hy).mpr hclears⟩
  · obtain ⟨y, hy, hdrops⟩ := hnil.mp hnone
    rcases last_or_before hy with hy | rfl
    · exact ⟨y, hy, (hback.drops_iff hy).mp hdrops⟩
    · obtain ⟨r, hr, -⟩ := hdrops
      simp [hret] at hr
  · by_cases hbefore : ∃ y ∈ pre, e.Clears y
    · exact .inl hbefore
    refine .inr ?_
    by_cases hdrops : e.Drops c
    · obtain ⟨r', hr', hnone⟩ := id hdrops
      obtain rfl : r' = r := some.inj (hr'.symm.trans hr)
      rw [bind_event_eq_none.mpr hnone, hnil.mpr ⟨c, by simp, hdrops⟩]
    · have := hlast (fun x hx hx' => ?_) pre c [] r rfl (by simp) hr
      · rwa [after_concat] at this
      · rcases last_or_before hx with hx | rfl
        · exact hbefore ⟨x, hx, (hback.drops_iff hx).mp hx'⟩
        · exact hdrops hx'

end Place

/-! ## The whole of `Execute` -/

/-- **`Execute` returns the event of the context in place.** -/
theorem execute_event (e : Engine V) (pipeline : EventPipeline) (orders : Orders)
    (event : Option AlertCurEvent) (data : V) (stream : Bool) :
    ∃ result, e.execute pipeline orders event data stream = some
      ((e.after (initWorkflowContext event data stream)
        (e.executeCalls pipeline orders event data stream)).event, result) := by
  unfold execute executeCalls
  split_ifs with hnodes
  · exact ⟨_, rfl⟩
  · obtain ⟨left, result, hrun, ⟨hq, -, rfl, rfl⟩ | ⟨-, hruns⟩⟩ := executeDAG_runs e
      (buildNodeMap pipeline.getWorkflowNodes) pipeline.getWorkflowConnections orders
      (initWorkflowContext event data stream)
    · rw [hrun, dagCalls, calls_of_queue_nil _ hq]
      exact ⟨_, rfl⟩
    · rw [hrun]
      have hleft : left = _ := hruns.after
      rw [hleft]
      exact ⟨_, rfl⟩

/-- **When the event returned is the one produced.**  For any pipeline, any processors, any event
and any order of the maps, `Execute` returns; each processor was given the context the last
successful one returned if and only if every successful call that another followed returned the
context it was given; and the event returned is then also the one the workflow produced if and only
if the processors worked in place. -/
theorem event_produced_iff (e : Engine V) (pipeline : EventPipeline) (orders : Orders)
    (event : Option AlertCurEvent) (data : V) (stream : Bool) :
    ∃ returned result, e.execute pipeline orders event data stream = some (returned, result) ∧
      (e.Threaded (e.executeCalls pipeline orders event data stream) ↔
        e.HandBack (e.executeCalls pipeline orders event data stream)) ∧
      (e.Threaded (e.executeCalls pipeline orders event data stream) ∧
          e.Produced (initWorkflowContext event data stream)
            (e.executeCalls pipeline orders event data stream) returned ↔
        e.InPlace (initWorkflowContext event data stream)
          (e.executeCalls pipeline orders event data stream)) := by
  obtain ⟨result, hrun⟩ := execute_event e pipeline orders event data stream
  refine ⟨_, result, hrun, threaded_iff, ?_⟩
  rw [threaded_iff]
  exact produced_iff_inPlace

namespace Example

/-- A pipeline of one node. -/
def single : EventPipeline := { nodes := [node "a" ""] }

/-- Processors that leave the context alone and return another one, or none. -/
def answering (returned : Returned Unit) : Engine Unit where
  getProcessorByType _ _ := .ok (.plain fun _ ctx => (ctx, .ok (returned, "")))

/-- The event the pipeline is given. -/
def old : AlertCurEvent := { hash := "old" }

/-- A context with another event. -/
def renewed : WorkflowContext Unit := { event := some { hash := "new" }, data := () }

/-- The call of the only node. -/
def onlyCall : Call Unit := ⟨"a", node "a" "", initWorkflowContext (some old) () false⟩

end Example

/-- **A new context is lost, and so is a drop.**  The only processor succeeds.  If it returns a new
context with another event, `Execute` returns the old event; if it returns no context at all,
`Execute` returns the old event as well. -/
theorem returned_context_lost : (∃ result, (answering (.fresh renewed)).execute single orders
        (some old) () false = some (some old, result) ∧ result.status = .success ∧
      ¬ (answering (.fresh renewed)).Produced
        (initWorkflowContext (some old) () false) [onlyCall] (some old) ∧
      (answering (.fresh renewed)).executeCalls single orders
        (some old) () false = [onlyCall]) ∧ ∃ result, (answering .nil).execute single orders
        (some old) () false = some (some old, result) ∧ result.status = .success ∧
      ¬ (answering .nil).Produced
        (initWorkflowContext (some old) () false) [onlyCall] (some old) ∧
      (answering .nil).executeCalls single orders
        (some old) () false = [onlyCall] := by
  refine ⟨⟨_, rfl, rfl, fun h => ?_, rfl⟩, _, rfl, rfl, fun h => ?_, rfl⟩
  · have hkeeps : ∀ c ∈ [onlyCall], ¬ (answering (.fresh renewed)).Drops c := by
      rintro c hc ⟨r, hr, hnone⟩
      obtain rfl := mem_singleton.mp hc
      obtain rfl : Returned.fresh renewed = r := some.inj hr
      exact absurd (hnone _ rfl) (by simp [renewed])
    have hevent := h.last hkeeps [] onlyCall [] _ rfl (by simp) rfl
    exact absurd (congrArg AlertCurEvent.hash (some.inj hevent)) (by decide)
  · have hnone := h.nil_iff.mpr ⟨onlyCall, by simp, .nil, rfl, by simp [Returned.get]⟩
    cases hnone

end Nightingale.Pipeline
