import Nightingale.Pipeline.Calls

/-!
# Pipeline/Starts — the nodes a workflow starts with

`executeDAG` fills its queue by ranging over a map, so the nodes without an incoming connection wait
in an order nobody chose:

    range inDegree ──▸ queue = [a, b, …] or [b, a, …] ──▸ the first runs first

The counters are the same for every order of the maps (`initialDegrees_congr`), so a workflow with
one such node has one outcome.  With two, either can be the first to run, and the results say which
(`outcome_orderFree_iff`).
-/

namespace Nightingale.Pipeline

open List Option Finmap MapOrder

variable {V : Type}

/-- A node nothing leads to. -/
def IsStart (connections : Connections) (id : String) : Prop := ∀ m, id ∉ outputs connections m

/-- What is seen of a run: the event, the status and the results of the nodes. -/
def outcome (out : WorkflowContext V × WorkflowResult) :
    Option AlertCurEvent × ExecutionStatus × List NodeExecutionResult :=
  (out.1.event, out.2.status, out.2.nodeResults)

section Graph

variable {nodeMap : GoMap String WorkflowNode} {connections : Connections}

/-- **The counters do not depend on the order of the maps.** -/
theorem initialDegrees_congr (nodeOrder connOrder nodeOrder' connOrder' : MapOrder String) :
    initialDegrees nodeMap connections nodeOrder connOrder
      = initialDegrees nodeMap connections nodeOrder' connOrder' := by
  have hlookup : ∀ (m : GoMap String ℤ) t,
      m.lookup t = if t ∈ m then some (degree m t) else none := by
    intro m t
    split_ifs with ht
    · obtain ⟨d, hd⟩ := mem_iff.mp ht
      rw [degree, hd, getD_some]
    · exact lookup_eq_none.mpr ht
  refine ext_lookup fun t => ?_
  rw [hlookup, hlookup, degree_initialDegrees, degree_initialDegrees]
  exact if_congr ((mem_initialDegrees _ _ t).trans (mem_initialDegrees _ _ t).symm) rfl rfl

variable (orders : Orders) (ctx : WorkflowContext V)

theorem mem_start_queue_iff {id : String} :
    id ∈ (start nodeMap connections orders ctx).queue ↔ id ∈ nodeMap ∧ IsStart connections id := by
  simp only [start, mem_filter, mem_list, Finmap.mem_keys, mem_initialDegrees,
    decide_eq_true_eq, degree_eq_zero_iff, IsStart]
  constructor
  · rintro ⟨hid | ⟨m, hm⟩, hstart⟩
    · exact ⟨hid, hstart⟩
    · exact absurd hm (hstart m)
  · rintro ⟨hid, hstart⟩
    exact ⟨.inl hid, hstart⟩

theorem nodup_start_queue : (start nodeMap connections orders ctx).queue.Nodup :=
  (orders.starts.nodup _).filter _

theorem executeDAG_eq (e : Engine V) : e.executeDAG nodeMap connections orders ctx
      = if (start nodeMap connections orders ctx).queue = [] ∧ 0 < nodeMap.keys.card then
          some (ctx, { stream := ctx.stream, status := .failed,
                       message := "workflow has circular dependency" })
        else e.loop nodeMap connections (start nodeMap connections orders ctx).inDegree.keys.card
          (start nodeMap connections orders ctx) := rfl

variable {orders ctx}

/-- **One node to start with leaves no choice.** -/
theorem start_congr (hone : ∀ a ∈ nodeMap, ∀ b ∈ nodeMap, IsStart connections a →
      IsStart connections b → a = b) (orders' : Orders) :
    start nodeMap connections orders ctx = start nodeMap connections orders' ctx := by
  have hqueue : (start nodeMap connections orders ctx).queue
      = (start nodeMap connections orders' ctx).queue := by
    have hmem : ∀ id, id ∈ (start nodeMap connections orders ctx).queue ↔
        id ∈ (start nodeMap connections orders' ctx).queue := fun id =>
      (mem_start_queue_iff orders ctx).trans (mem_start_queue_iff orders' ctx).symm
    have hperm := (perm_ext_iff_of_nodup (nodup_start_queue orders ctx)
      (nodup_start_queue orders' ctx)).mpr hmem
    have hsame : ∀ a ∈ (start nodeMap connections orders ctx).queue,
        ∀ b ∈ (start nodeMap connections orders' ctx).queue, a = b := by
      intro a ha b hb
      obtain ⟨ha, hastart⟩ := (mem_start_queue_iff orders ctx).mp ha
      obtain ⟨hb, hbstart⟩ := (mem_start_queue_iff orders' ctx).mp hb
      exact hone a ha b hb hastart hbstart
    exact hperm.eq_of_pairwise (fun a b ha hb _ _ => hsame a ha b hb)
      (nodup_start_queue orders ctx) (nodup_start_queue orders' ctx)
  have hdegrees : initialDegrees nodeMap connections orders.nodes orders.connections
      = initialDegrees nodeMap connections orders'.nodes orders'.connections :=
    initialDegrees_congr _ _ _ _
  calc start nodeMap connections orders ctx
      = { inDegree := initialDegrees nodeMap connections orders.nodes orders.connections
          queue := (start nodeMap connections orders ctx).queue
          ctx := ctx
          result := { stream := ctx.stream } } := rfl
    _ = start nodeMap connections orders' ctx := by
      rw [hqueue, hdegrees]
      rfl

/-- The node at the head of the queue is the first to be called. -/
theorem Runs.head {e : Engine V} {s : Progress V} {calls : List (Call V)}
    {out : WorkflowContext V × WorkflowResult} (h : Runs e nodeMap connections s calls out)
    {id : String} {rest : List String} (hq : s.queue = id :: rest) {node : WorkflowNode}
    (hnode : nodeMap.lookup id = some node) : ∃ others, calls = ⟨id, node, s.ctx⟩ :: others := by
  cases h with
  | done hq' =>
    rw [hq] at hq'
    cases hq'
  | pass hq' hnode' _ =>
    obtain ⟨rfl, -⟩ := cons.inj (hq.symm.trans hq')
    rw [hnode] at hnode'
    cases hnode'
  | run hq' hnode' _ _ | stop hq' hnode' _ _ _ _ =>
    obtain ⟨rfl, -⟩ := cons.inj (hq.symm.trans hq')
    obtain rfl := some.inj (hnode.symm.trans hnode')
    exact ⟨_, rfl⟩

variable (ctx) in
/-- **Any node to start with may be the first to run**, in some order of the maps. -/
theorem exists_first (e : Engine V) (hids : ∀ id node, nodeMap.lookup id = some node → node.id = id)
    {a : String} (ha : a ∈ nodeMap) (hstart : IsStart connections a) :
    ∃ orders left result, e.executeDAG nodeMap connections orders ctx = some (left, result) ∧
      result.executed.head? = some a := by
  let orders : Orders := ⟨default, default, (default : MapOrder String).prefer (· == a)⟩
  have hmem : a ∈ (start nodeMap connections orders ctx).queue :=
    (mem_start_queue_iff orders ctx).mpr ⟨ha, hstart⟩
  have hhead : (start nodeMap connections orders ctx).queue.head? = some a := by
    have hkey := (mem_filter.mp hmem).1
    rw [mem_list] at hkey
    unfold start
    rw [head?_filter, find?_eq_findSome?_guard]
    obtain ⟨b, -, hb, hfind, -⟩ := findSome?_prefer (default : MapOrder String)
      (p := (· == a)) (f := guard fun id => decide (degree (initialDegrees nodeMap
        connections orders.nodes orders.connections) id = 0)) ⟨a, hkey, by simp, by
          simpa [degree_eq_zero_iff, IsStart] using hstart⟩
    obtain rfl : b = a := by simpa using hb
    rw [hfind]
    simpa [degree_eq_zero_iff, IsStart] using hstart
  obtain ⟨rest, hq⟩ := head?_eq_some_iff.mp hhead
  obtain ⟨node, hnode⟩ := mem_iff.mp ha
  obtain ⟨left, result, hrun, ⟨hnil, -⟩ | ⟨-, hruns⟩⟩ :=
    executeDAG_runs e nodeMap connections orders ctx
  · rw [hq] at hnil
    cases hnil
  · refine ⟨orders, left, result, hrun, ?_⟩
    obtain ⟨others, hcalls⟩ := hruns.head hq hnode
    have hexecuted : result.executed = _ := hruns.executed
    rw [hexecuted, hcalls]
    simp [start, WorkflowResult.executed, hids a node hnode]

end Graph

/-- **The outcome does not depend on the order of the maps exactly if there is at most one node to
start with**, for any workflow, any processors and any context. -/
theorem outcome_orderFree_iff (e : Engine V) (nodes : List WorkflowNode) (connections : Connections)
    (ctx : WorkflowContext V) : (∀ orders orders' : Orders,
        (e.executeDAG (buildNodeMap nodes) connections orders ctx).map outcome
          = (e.executeDAG (buildNodeMap nodes) connections orders' ctx).map outcome) ↔
      ∀ a ∈ buildNodeMap nodes, ∀ b ∈ buildNodeMap nodes,
        IsStart connections a → IsStart connections b → a = b := by
  constructor
  · intro hfree a ha b hb hastart hbstart
    obtain ⟨orders, left, result, hrun, hfirst⟩ :=
      exists_first ctx e (Workflow.buildNodeMap_ids nodes) ha hastart
    obtain ⟨orders', left', result', hrun', hfirst'⟩ :=
      exists_first ctx e (Workflow.buildNodeMap_ids nodes) hb hbstart
    have hsame := hfree orders orders'
    rw [hrun, hrun', map_some, map_some, some.injEq, outcome, outcome,
      Prod.mk.injEq, Prod.mk.injEq] at hsame
    rw [WorkflowResult.executed, hsame.2.2] at hfirst
    exact some.inj (hfirst.symm.trans hfirst')
  · intro hone orders orders'
    rw [executeDAG_eq, executeDAG_eq, start_congr hone orders']

namespace Example

/-- A processor that drops the event, and one that fails. -/
def dropOrFail : Engine Unit where
  getProcessorByType typ _ :=
    if typ = "drop" then .ok (.plain fun _ ctx => ({ ctx with event := none }, .ok (.same, "")))
    else .ok (.plain fun _ ctx => (ctx, .error "refused"))

/-- Two nodes, and nothing between them. -/
def twoStarts : List WorkflowNode := [node "a" "drop", node "b" "fail"]

/-- The maps in the order of their keys, and the other way round. -/
def backwards : Orders :=
  ⟨.sortBy (· ≤ ·), .sortBy (· ≤ ·), (MapOrder.sortBy fun x y : String => x ≤ y).prefer (· == "b")⟩

end Example

open Example

/-- **Two nodes to start with.**  If `a` is the first, the event is dropped and the run succeeds; if
`b` is, the run fails and the event stays. -/
theorem outcome_twoStarts : (dropOrFail.executeDAG (buildNodeMap twoStarts) ∅ orders
        context).map (fun out => (outcome out).1.isSome) = some false ∧
    (dropOrFail.executeDAG (buildNodeMap twoStarts) ∅ orders
        context).map (fun out => (outcome out).2.1) = some .success ∧
    (dropOrFail.executeDAG (buildNodeMap twoStarts) ∅ backwards
        context).map (fun out => (outcome out).1.isSome) = some true ∧
    (dropOrFail.executeDAG (buildNodeMap twoStarts) ∅ backwards
        context).map (fun out => (outcome out).2.1) = some .failed ∧ ¬ ∀ orders orders' : Orders,
      (dropOrFail.executeDAG (buildNodeMap twoStarts) ∅ orders
          context).map outcome
        = (dropOrFail.executeDAG (buildNodeMap twoStarts) ∅ orders'
          context).map outcome := by
  refine ⟨by decide, by decide, by decide, by decide, fun h => ?_⟩
  have hsame := congrArg (Option.map fun out => out.2.1) (h orders backwards)
  revert hsame
  decide

end Nightingale.Pipeline
