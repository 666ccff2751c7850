import Nightingale.Lib.History
import Nightingale.Pipeline.Branches

/-!
# Pipeline/Calls — the nodes a workflow runs, one after the other

`Engine.calls` is the list of the calls of `executeNode` the loop of `executeDAG` makes, each with
the context it is given.  The graph may be anything: cycles, duplicate connections, connections from
and to ids no node has, nodes under ids that are not their own.

    Runs:   done     the queue is empty
            pass     an id without a node          ──▸ Runs
            run      a node, then its successors   ──▸ Runs
            stop     a node that ends the run

`calls_inTurn` says that a node is run once
at most and after all its predecessors, so the nodes of a cycle are never run; nothing tells so in
the result unless there is no node to start with (`cycle_reported_iff`).
-/

namespace Nightingale.Pipeline

open List Finmap Example Engine

variable {V : Type}

/-- A call of `executeNode`: the id taken off the queue, its node, and the context given. -/
structure Call (V : Type) where
  id : String
  node : WorkflowNode
  given : WorkflowContext V

section Calls

variable (e : Engine V) (nodeMap : GoMap String WorkflowNode) (connections : Connections)

/-- The calls the loop of `executeDAG` makes. -/
def Engine.calls : ℕ → Progress V → List (Call V)
  | 0, _ => []
  | fuel + 1, s =>
    match s.queue with
    | [] => []
    | id :: rest =>
      (if id ∈ s.executed then []
        else ((nodeMap.lookup id).map fun node => ⟨id, node, s.ctx⟩).toList) ++
      match e.round nodeMap connections s id rest with
      | .inl s' => Engine.calls fuel s'
      | .inr _ => []

/-- The variables of `executeDAG` before its loop. -/
def start (orders : Orders) (ctx : WorkflowContext V) : Progress V :=
  let inDegree := initialDegrees nodeMap connections orders.nodes orders.connections
  { inDegree := inDegree
    queue := (orders.starts.list inDegree.keys).filter fun id => degree inDegree id = 0
    ctx := ctx
    result := { stream := ctx.stream } }

/-- The calls `executeDAG` makes. -/
def Engine.dagCalls (orders : Orders) (ctx : WorkflowContext V) : List (Call V) :=
  e.calls nodeMap connections
    (initialDegrees nodeMap connections orders.nodes orders.connections).keys.card
    (start nodeMap connections orders ctx)

/-- **The loop of `executeDAG`**, from its variables to the calls it makes and what it returns. -/
inductive Runs : Progress V → List (Call V) → WorkflowContext V × WorkflowResult → Prop
  | done {s : Progress V} : s.queue = [] → Runs s [] (s.ctx, s.result)
  | pass {s : Progress V} {id : String} {rest : List String} {calls : List (Call V)}
      {out : WorkflowContext V × WorkflowResult} : s.queue = id :: rest →
    nodeMap.lookup id = none → Runs { s with queue := rest } calls out → Runs s calls out
  | run {s : Progress V} {id : String} {rest : List String} {node : WorkflowNode}
      {ctx : WorkflowContext V} {r : NodeExecutionResult} {o : Option (NodeOutput V)}
      {calls : List (Call V)} {out : WorkflowContext V × WorkflowResult} : s.queue = id :: rest →
    nodeMap.lookup id = some node → e.executeNode node s.ctx = (ctx, r, o) →
    Runs (takeOutputs connections id (ran s id rest ctx r)) calls out →
    Runs s (⟨id, node, s.ctx⟩ :: calls) out
  | stop {s : Progress V} {id : String} {rest : List String} {node : WorkflowNode}
      {ctx : WorkflowContext V} {r r' : NodeExecutionResult} {o : Option (NodeOutput V)}
      {result : WorkflowResult} : s.queue = id :: rest → nodeMap.lookup id = some node →
    e.executeNode node s.ctx = (ctx, r, o) →
    result.nodeResults = s.result.nodeResults ++ [r'] → r'.nodeId = r.nodeId → r'.Ends →
    Runs s [⟨id, node, s.ctx⟩] (ctx, result)

end Calls

section Runs

variable {e : Engine V} {nodeMap : GoMap String WorkflowNode} {connections : Connections}
  {known : Finset String} {branch : String → Option ℤ} {popped : List String} {s : Progress V}
  {calls : List (Call V)} {out : WorkflowContext V × WorkflowResult}

theorem calls_of_queue_nil (fuel : ℕ) (hq : s.queue = []) :
    e.calls nodeMap connections fuel s = [] := by
  cases fuel with
  | zero => rfl
  | succ fuel => simp only [calls, hq]

theorem known_of_edge (orders : Orders) (t : String)
    (ht : 0 < Kahn.edgesInto connections.keys (outputs connections) t) :
    t ∈ (initialDegrees nodeMap connections orders.nodes orders.connections).keys := by
  obtain ⟨m, _, hm⟩ := Finset.exists_ne_zero_of_sum_ne_zero ht.ne'
  exact mem_keys.mpr ((mem_initialDegrees _ _ t).mpr
    (.inr ⟨m, count_pos_iff.mp (Nat.pos_of_ne_zero hm)⟩))

/-- A counter starts at zero exactly if nothing leads to the node. -/
theorem degree_eq_zero_iff (nodeOrder connOrder : MapOrder String) (id : String) :
    degree (initialDegrees nodeMap connections nodeOrder connOrder) id = 0 ↔
      ∀ m, id ∉ outputs connections m := by
  rw [degree_initialDegrees, Int.natCast_eq_zero, Kahn.edgesInto, Finset.sum_eq_zero_iff]
  refine forall_congr' fun m => ?_
  rw [count_eq_zero]
  refine ⟨fun h => ?_, fun h _ => h⟩
  by_cases hm : m ∈ connections.keys
  · exact h hm
  · rw [outputs_of_notMem hm]
    exact not_mem_nil

theorem runs_of_queue_nil (fuel : ℕ) (hq : s.queue = []) :
    ∃ out, e.loop nodeMap connections fuel s = some out ∧
      Runs e nodeMap connections s (e.calls nodeMap connections fuel s) out := by
  refine ⟨(s.ctx, s.result), ?_, ?_⟩
  · cases fuel with
    | zero | succ fuel => simp only [loop, hq]
  · rw [calls_of_queue_nil fuel hq]
    exact .done hq

/-- **The loop returns within its fuel**, having made the calls listed. -/
theorem Paces.runs
    (hknown : ∀ t, 0 < Kahn.edgesInto connections.keys (outputs connections) t → t ∈ known)
    {fuel : ℕ} (hfuel : known.card ≤ fuel + popped.length)
    (h : Paces nodeMap connections known branch popped s) :
    ∃ out, e.loop nodeMap connections fuel s = some out ∧
      Runs e nodeMap connections s (e.calls nodeMap connections fuel s) out := by
  induction fuel generalizing branch popped s with
  | zero => exact runs_of_queue_nil 0 (h.queue_eq_nil (by omega))
  | succ fuel ih =>
    cases hq : s.queue with
    | nil => exact runs_of_queue_nil (fuel + 1) hq
    | cons id rest =>
      have hnot := h.notMem_executed hq
      have hlen : known.card ≤ fuel + (popped ++ [id]).length := by
        rw [length_append, length_singleton]
        omega
      rw [loop.eq_def]
      simp only [calls, hq, if_neg hnot]
      rcases e.round_cases nodeMap connections rest hnot
        with ⟨hnode, hround⟩ | ⟨node, ctx, r, o, hnode, hexec, hround | ⟨r', result, hround, hend⟩⟩
      · obtain ⟨out, hloop, hruns⟩ := ih hlen (h.pass hknown hq (lookup_eq_none.mp hnode))
        exact ⟨out, by simpa only [hround] using hloop,
          by simpa [hround, hnode] using Runs.pass hq hnode hruns⟩
      · have hid : id ∈ nodeMap := mem_iff.mpr ⟨node, hnode⟩
        obtain ⟨out, hloop, hruns⟩ := ih hlen (h.ran hknown hq hid ctx r)
        exact ⟨out, by simpa only [hround] using hloop,
          by simpa [hround, hnode] using Runs.run hq hnode hexec hruns⟩
      · exact ⟨(ctx, result), by simp only [hround],
          by simpa [hround, hnode] using Runs.stop hq hnode hexec hend.1 hend.2.1 hend.2.2⟩

/-! ## What the calls leave behind -/

/-- The context as a call leaves it. -/
def Engine.left (e : Engine V) (c : Call V) : WorkflowContext V := (e.executeNode c.node c.given).1

/-- **The results list the calls.** -/
theorem Runs.executed (h : Runs e nodeMap connections s calls out) :
    out.2.executed = s.result.executed ++ calls.map fun c => c.node.id := by
  have hid : ∀ {node : WorkflowNode} {given ctx : WorkflowContext V} {r : NodeExecutionResult}
      {o : Option (NodeOutput V)}, e.executeNode node given = (ctx, r, o) → r.nodeId = node.id := by
    intro node given ctx r o hexec
    rw [← executeNode_nodeId e node given, hexec]
  induction h with
  | done => simp
  | pass _ _ _ ih => exact ih
  | run _ _ hexec _ ih =>
    rw [ih, takeOutputs_eq_with]
    simp [WorkflowResult.executed, ran, hid hexec]
  | stop _ _ hexec hresults hr' _ =>
    simp [WorkflowResult.executed, hresults, hr', hid hexec]

/-- **A run that no node ends** leaves the status as it was. -/
theorem Runs.status_of_calm (h : Runs e nodeMap connections s calls out)
    (hcalm : ∀ r ∈ out.2.nodeResults, ¬ r.Ends) : out.2.status = s.result.status := by
  induction h with
  | done => rfl
  | pass _ _ _ ih => exact ih hcalm
  | run _ _ _ _ ih =>
    rw [ih hcalm, takeOutputs_eq_with]
    rfl
  | stop _ _ _ hresults _ hends => exact absurd hends (hcalm _ (by simp [hresults]))

/-! ## In turn -/

/-- A node runs when it has not run before and all nodes with a connection to it have. -/
def InTurn (connections : Connections) (past : List String) (id : String) : Prop :=
  id ∉ past ∧ ∀ m, id ∈ outputs connections m → m ∈ past

theorem Runs.inTurn
    (hknown : ∀ t, 0 < Kahn.edgesInto connections.keys (outputs connections) t → t ∈ known)
    (h : Runs e nodeMap connections s calls out)
    (hp : Paces nodeMap connections known branch popped s)
    (hpast : Historic (InTurn connections) (popped.filter (· ∈ nodeMap))) :
    Historic (InTurn connections) (popped.filter (· ∈ nodeMap) ++ calls.map Call.id) := by
  have hnext : ∀ {popped : List String} {branch : String → Option ℤ} {s : Progress V} {id : String}
      {rest : List String}, s.queue = id :: rest → Paces nodeMap connections known branch popped s →
      Historic (InTurn connections) (popped.filter (· ∈ nodeMap)) →
      Historic (InTurn connections) (popped.filter (· ∈ nodeMap) ++ [id]) := by
    intro popped branch s id rest hq hp hpast
    exact historic_concat.mpr ⟨hpast, fun hmem => hp.fresh hq (mem_filter.mp hmem).1,
      fun m hm => hp.mem_of_edge hq hm⟩
  induction h generalizing branch popped with
  | done => simpa using hpast
  | @pass s id rest calls out hq hnode _ ih =>
    have hid := lookup_eq_none.mp hnode
    have := ih (hp.pass hknown hq hid) (by simpa [hid] using hpast)
    simpa [hid] using this
  | @run s id rest node ctx r o calls out hq hnode _ _ ih =>
    have hid : id ∈ nodeMap := mem_iff.mpr ⟨node, hnode⟩
    have := ih (hp.ran hknown hq hid ctx r) (by simpa [hid] using hnext hq hp hpast)
    simpa [hid] using this
  | stop hq _ _ _ _ _ => simpa using hnext hq hp hpast

/-- **A cycle is never entered**: what runs in turn has run none of its nodes. -/
theorem notMem_of_cycle {ids : List String} (h : Historic (InTurn connections) ids) {n : String}
    (hcycle : Relation.TransGen (Edge connections) n n) : n ∉ ids := by
  intro hn
  obtain ⟨past, rest, rfl⟩ := append_of_mem hn
  have hbefore : ∀ m, Relation.TransGen (Edge connections) m n → m ∈ past := by
    intro m hm
    induction hm using Relation.TransGen.head_induction_on with
    | single hmn => exact (h past n rest rfl).2 _ (mem_outputs_iff.mpr hmn)
    | head hmb _ ih =>
      obtain ⟨p₁, p₂, rfl⟩ := append_of_mem ih
      have := (h p₁ _ (p₂ ++ n :: rest) (by simp)).2 _ (mem_outputs_iff.mpr hmb)
      exact mem_append_left _ this
  exact (h past n rest rfl).1 (hbefore n hcycle)

end Runs

/-! ## The whole of `executeDAG` -/

section Whole

variable (e : Engine V) (nodeMap : GoMap String WorkflowNode) (connections : Connections)
  (orders : Orders) (ctx : WorkflowContext V)

theorem Paces.start : Paces nodeMap connections
    (initialDegrees nodeMap connections orders.nodes orders.connections).keys (fun _ => none) []
    (start nodeMap connections orders ctx) :=
  (Tracks.initial nodeMap connections orders ctx { stream := ctx.stream } rfl).toPaces

/-- **`executeDAG` returns**: it reports that there is no node to start with, or has made the calls
listed. -/
theorem executeDAG_runs :
    ∃ left result, e.executeDAG nodeMap connections orders ctx = some (left, result) ∧
      (((start nodeMap connections orders ctx).queue = [] ∧ 0 < nodeMap.keys.card ∧ left = ctx ∧
          result = { stream := ctx.stream, status := .failed,
                     message := "workflow has circular dependency" }) ∨
        ¬ ((start nodeMap connections orders ctx).queue = [] ∧ 0 < nodeMap.keys.card) ∧
          Runs e nodeMap connections (start nodeMap connections orders ctx)
            (e.dagCalls nodeMap connections orders ctx) (left, result)) := by
  obtain ⟨⟨left, result⟩, hloop, hruns⟩ := (Paces.start nodeMap connections orders ctx).runs
    (e := e) (known_of_edge orders) (Nat.le_add_right _ _)
  by_cases hstart : (Pipeline.start nodeMap connections orders ctx).queue = [] ∧
      0 < nodeMap.keys.card
  · exact ⟨_, _, if_pos hstart, .inl ⟨hstart.1, hstart.2, rfl, rfl⟩⟩
  · exact ⟨left, result, (if_neg hstart).trans hloop, .inr ⟨hstart, hruns⟩⟩

theorem dagCalls_inTurn :
    Historic (InTurn connections) ((e.dagCalls nodeMap connections orders ctx).map Call.id) := by
  obtain ⟨out, -, hruns⟩ := (Paces.start nodeMap connections orders ctx).runs
    (e := e) (known_of_edge orders) (Nat.le_add_right _ _)
  have := hruns.inTurn (known_of_edge orders) (Paces.start nodeMap connections orders ctx)
    historic_nil
  simpa [dagCalls] using this

/-- **A workflow runs once and in order**, on any graph and with any processors: `executeDAG`
returns, its results list the calls it has made, and every node called had not been called before
and is called after all nodes that have a connection to it. -/
theorem called_once_in_order :
    ∃ left result, e.executeDAG nodeMap connections orders ctx = some (left, result) ∧
      result.executed = (e.dagCalls nodeMap connections orders ctx).map (fun c => c.node.id) ∧
      Historic (InTurn connections)
        ((e.dagCalls nodeMap connections orders ctx).map Call.id) := by
  obtain ⟨left, result, hrun, ⟨hq, -, -, rfl⟩ | ⟨-, hruns⟩⟩ :=
    executeDAG_runs e nodeMap connections orders ctx
  · refine ⟨left, _, hrun, ?_, dagCalls_inTurn e nodeMap connections orders ctx⟩
    rw [dagCalls, calls_of_queue_nil _ hq]
    rfl
  · exact ⟨left, result, hrun, hruns.executed, dagCalls_inTurn e nodeMap connections orders ctx⟩

variable {nodeMap connections} in
/-- There is no node to start with if and only if every node has an incoming connection. -/
theorem start_queue_eq_nil_iff : (start nodeMap connections orders ctx).queue = [] ↔
      ∀ id ∈ nodeMap, ∃ m, id ∈ outputs connections m := by
  simp only [start, filter_eq_nil_iff, MapOrder.mem_list, Finmap.mem_keys,
    mem_initialDegrees, decide_eq_true_eq, degree_eq_zero_iff, not_forall, not_not]
  exact ⟨fun h id hid => h id (.inl hid), fun h id hid => hid.elim (h id) fun hm => hm⟩

variable {nodeMap connections} in
/-- **When a cycle is reported.**  Take any workflow with a cycle.  The run returns and calls no
node of the cycle; and if no node ends it, its status is other than success if and only if every
node has an incoming connection. -/
theorem cycle_reported_iff {n : String} (hn : n ∈ nodeMap)
    (hcycle : Relation.TransGen (Edge connections) n n) :
    ∃ left result, e.executeDAG nodeMap connections orders ctx = some (left, result) ∧
      (∀ c ∈ e.dagCalls nodeMap connections orders ctx, c.id ≠ n) ∧
      ((∀ r ∈ result.nodeResults, ¬ r.Ends) →
        (result.status ≠ .success ↔ ∀ id ∈ nodeMap, ∃ m, id ∈ outputs connections m)) := by
  have hnever : ∀ c ∈ e.dagCalls nodeMap connections orders ctx, c.id ≠ n := by
    intro c hc heq
    exact notMem_of_cycle (dagCalls_inTurn e nodeMap connections orders ctx) hcycle
      (heq ▸ mem_map_of_mem hc)
  have hpos : 0 < nodeMap.keys.card := Finset.card_pos.mpr ⟨n, mem_keys.mpr hn⟩
  obtain ⟨left, result, hrun, ⟨hq, -, -, rfl⟩ | ⟨hq, hruns⟩⟩ :=
    executeDAG_runs e nodeMap connections orders ctx
  · refine ⟨left, _, hrun, hnever, fun _ => iff_of_true (by simp) ?_⟩
    exact (start_queue_eq_nil_iff orders ctx).mp hq
  · refine ⟨left, result, hrun, hnever, fun hcalm => ?_⟩
    have hstatus : result.status = .success := hruns.status_of_calm hcalm
    rw [← start_queue_eq_nil_iff orders ctx]
    exact iff_of_false (fun h => h hstatus) fun h => hq ⟨h, hpos⟩

end Whole

namespace Example

/-- The nodes of a cycle. -/
def pair : List WorkflowNode := [node "b" "", node "c" ""]

/-- `b` and `c` lead to each other. -/
def ring : Connections := (singleton "b" [["c"]]).insert "c" [["b"]]

theorem ring_cycle : Relation.TransGen (Edge ring) "b" "b" :=
  .tail (b := "c") (.single ⟨0, by decide⟩) ⟨0, by decide⟩

/-- A node before the cycle. -/
def ringEntered : Connections := ring.insert "a" [["b"]]

theorem ringEntered_cycle : Relation.TransGen (Edge ringEntered) "b" "b" :=
  .tail (b := "c") (.single ⟨0, by decide⟩) ⟨0, by decide⟩

end Example

/-- A cycle and nothing else is reported. -/
theorem ring_reported : ∃ left result, (choosing 0).executeDAG (buildNodeMap pair) ring
        orders context = some (left, result) ∧ result.status ≠ .success := by
  obtain ⟨left, result, hrun, -, hiff⟩ := cycle_reported_iff (choosing 0) orders
    context (by decide : "b" ∈ buildNodeMap pair) ring_cycle
  have hcalm : ∀ x ∈ (choosing 0).executeDAG (buildNodeMap pair) ring
      orders context, ∀ r ∈ x.2.nodeResults, ¬ r.Ends := by decide
  have hinto : ∀ id ∈ (buildNodeMap pair).keys, ∃ m ∈ ring.keys, id ∈ outputs ring m := by decide
  refine ⟨left, result, hrun, (hiff (hcalm _ hrun)).mpr fun id hid => ?_⟩
  obtain ⟨m, -, hm⟩ := hinto id (mem_keys.mpr hid)
  exact ⟨m, hm⟩

/-- **A cycle behind a node is not.**  `a` runs and leads to `b`, which waits for `c`, which waits
for `b`: no node fails, none of the cycle is run, and the status is success. -/
theorem ring_entered_succeeds : ∃ left result, (choosing 0).executeDAG
        (buildNodeMap (node "a" "" :: pair)) ringEntered
        orders context = some (left, result) ∧
      Relation.TransGen (Edge ringEntered) "b" "b" ∧ Edge ringEntered "a" "b" ∧
      (∀ r ∈ result.nodeResults, ¬ r.Ends) ∧ result.executed = ["a"] ∧
      result.status = .success := by
  have hresult : ∀ x ∈ (choosing 0).executeDAG
      (buildNodeMap (node "a" "" :: pair)) ringEntered orders
        context, (∀ r ∈ x.2.nodeResults, ¬ r.Ends) ∧ x.2.executed = ["a"] ∧
          x.2.status = .success := by decide
  obtain ⟨left, result, hrun, -⟩ := executeDAG_runs (choosing 0)
    (buildNodeMap (node "a" "" :: pair)) ringEntered orders
    context
  exact ⟨left, result, hrun, ringEntered_cycle, ⟨0, by decide⟩, hresult _ hrun⟩

end Nightingale.Pipeline
