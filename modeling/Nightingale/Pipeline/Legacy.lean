import Nightingale.Pipeline.Starts
import Nightingale.Pipeline.Threading

/-!
# Pipeline/Legacy — a pipeline that is a list of processors

A pipeline of the old format has processors and no graph.  `GetWorkflowNodes` numbers them and
`GetWorkflowConnections` leads each to the next, and the engine for graphs runs what comes of it:

    node_0 ──▸ node_1 ──▸ ⋯ ──▸ node_n        one counter at 0, the others at 1

So one node waits at a time, and `legacy_runs_as_list` says that the processors run as those of a
list do: one after the other, up to the first that fails, drops the event or begins to stream.
-/

namespace Nightingale.Pipeline

open List Option Example GoMap Engine Finmap

variable {V : Type}

/-! ## A list of processors -/

/-- Why a list of processors ends at one of them. -/
inductive Stop where
  | fails
  | drops
  | streams
  deriving DecidableEq

/-- What comes of a processor: the context as it leaves it, and whether the list ends with it. -/
def turn (process : ℕ → WorkflowContext V → WorkflowContext V × Except String (Returned V × String))
    (ctx : WorkflowContext V) : WorkflowContext V × Option Stop :=
  match process 0 ctx with
  | (ctx, .error _) => (ctx, some .fails)
  | (ctx, .ok (returned, _)) =>
    match returned.get ctx with
    | none => (ctx, some .drops)
    | some new =>
      if new.stream ∧ new.streamChan ≠ none then (ctx, some .streams)
      else if new.event.isNone then (ctx, some .drops)
      else (ctx, none)

/-- **The processors of a list that are run**, with the context each is given: up to the first with
which the list ends.  One that cannot be made ends it before its turn. -/
def Engine.runList (e : Engine V) :
    WorkflowContext V → List ProcessorConfig → List (ProcessorConfig × WorkflowContext V)
  | _, [] => []
  | ctx, pc :: pcs =>
    match e.getProcessorByType pc.typ pc.config with
    | .ok (.plain process) =>
      (pc, ctx) ::
        match turn process ctx with
        | (_, some _) => []
        | (ctx, none) => e.runList ctx pcs
    | _ => []

/-- A processor that is no branch processor. -/
def Engine.IsPlain (e : Engine V) (pc : ProcessorConfig) : Prop :=
  ∀ p, e.getProcessorByType pc.typ pc.config = .ok p → ∃ process, p = .plain process

/-! ## The graph of a list -/

/-- The id of a processor's node. -/
def nodeId (i : ℕ) : String := s!"node_{i}"

/-- The node of a processor, as the node map has it. -/
def legacyNode (i : ℕ) (pc : ProcessorConfig) : WorkflowNode :=
  { id := nodeId i, name := pc.typ, typ := pc.typ, config := pc.config, maxRetries := 1 }

/-- A pipeline of the old format. -/
def legacy (pcs : List ProcessorConfig) : EventPipeline := { processorConfigs := pcs }

theorem nodeId_inj {i j : ℕ} : nodeId i = nodeId j ↔ i = j := by
  refine ⟨fun h => ?_, congrArg nodeId⟩
  have hrepr : "node_" ++ i.repr = "node_" ++ j.repr := h
  exact Nat.repr_injective (String.append_right_inj _ |>.mp hrepr)

section Line

variable (pcs : List ProcessorConfig)

theorem getWorkflowNodes_legacy : (legacy pcs).getWorkflowNodes
    = pcs.mapIdx fun i pc => { legacyNode i pc with maxRetries := 0 } := rfl

theorem map_id_nodes :
    (legacy pcs).getWorkflowNodes.map (·.id) = (range pcs.length).map nodeId := by
  rw [getWorkflowNodes_legacy]
  refine ext_getElem (by simp) fun i hi hi' => ?_
  simp [legacyNode]

theorem nodup_ids : ((legacy pcs).getWorkflowNodes.map (·.id)).Nodup := by
  rw [map_id_nodes]
  exact nodup_range.map fun i j h => nodeId_inj.mp h

theorem lookup_nodeMap (i : ℕ) : (buildNodeMap (legacy pcs).getWorkflowNodes).lookup (nodeId i)
      = (pcs[i]?).map (legacyNode i) := by
  unfold buildNodeMap
  by_cases hi : i < pcs.length
  · have hmem : { legacyNode i pcs[i] with maxRetries := 0 } ∈ (legacy pcs).getWorkflowNodes := by
      rw [getWorkflowNodes_legacy, mem_mapIdx]
      exact ⟨i, hi, rfl⟩
    rw [getElem?_eq_getElem hi, map_some]
    exact lookup_foldl_insert_of_mem WorkflowNode.id _ (nodup_ids pcs) hmem ∅
  · rw [getElem?_eq_none (by omega), map_none]
    refine lookup_foldl_insert_of_notMem WorkflowNode.id _ ?_ ∅
    rw [map_id_nodes, List.mem_map]
    rintro ⟨j, hj, hji⟩
    rw [mem_range, nodeId_inj.mp hji] at hj
    exact hi hj

theorem mem_nodeMap_iff {id : String} :
    id ∈ buildNodeMap (legacy pcs).getWorkflowNodes ↔ ∃ i < pcs.length, id = nodeId i := by
  constructor
  · intro hid
    by_contra hnone
    refine mem_iff.mp hid |>.elim fun node hnode => ?_
    have hnot : id ∉ (legacy pcs).getWorkflowNodes.map (·.id) := by
      rw [map_id_nodes, List.mem_map]
      rintro ⟨i, hi, rfl⟩
      exact hnone ⟨i, mem_range.mp hi, rfl⟩
    rw [buildNodeMap, lookup_foldl_insert_of_notMem WorkflowNode.id _ hnot] at hnode
    cases hnode
  · rintro ⟨i, hi, rfl⟩
    refine mem_iff.mpr ⟨legacyNode i pcs[i], ?_⟩
    rw [lookup_nodeMap, getElem?_eq_getElem hi, map_some]

theorem getWorkflowConnections_legacy : (legacy pcs).getWorkflowConnections
    = (range (pcs.length - 1)).foldl
        (fun conns i => conns.insert (nodeId i) [[nodeId (i + 1)]]) ∅ := by
  have hpairs : ((legacy pcs).getWorkflowNodes.zip (legacy pcs).getWorkflowNodes.tail).map
      (fun n => (n.1.id, n.2.id))
        = (range (pcs.length - 1)).map fun i => (nodeId i, nodeId (i + 1)) := by
    rw [getWorkflowNodes_legacy]
    refine ext_getElem (by simp) fun i hi hi' => ?_
    simp [legacyNode]
  have hfold := congrArg (foldl (fun (conns : Connections) (n : String × String) =>
    conns.insert n.1 [[n.2]]) ∅) hpairs
  rw [foldl_map, foldl_map] at hfold
  exact hfold

/-- **Every node leads to the next**, and the last to none. -/
theorem lookup_connections (i : ℕ) : (legacy pcs).getWorkflowConnections.lookup (nodeId i)
    = if i + 1 < pcs.length then some [[nodeId (i + 1)]] else none := by
  rw [getWorkflowConnections_legacy]
  split_ifs with hi
  · exact lookup_foldl_insert_of_mem nodeId (fun i => [[nodeId (i + 1)]])
      (nodup_range.map fun i j h => nodeId_inj.mp h) (mem_range.mpr (by omega)) ∅
  · refine lookup_foldl_insert_of_notMem nodeId (fun i => [[nodeId (i + 1)]]) ?_ ∅
    rw [List.mem_map]
    rintro ⟨j, hj, hji⟩
    rw [mem_range, nodeId_inj.mp hji] at hj
    omega

theorem outputs_legacy (i : ℕ) : outputs (legacy pcs).getWorkflowConnections (nodeId i)
    = if i + 1 < pcs.length then [nodeId (i + 1)] else [] := by
  rw [outputs, lookup_connections]
  split_ifs
  · rfl
  · rfl

theorem exists_of_mem_outputs {m t : String}
    (h : t ∈ outputs (legacy pcs).getWorkflowConnections m) :
    ∃ i, i + 1 < pcs.length ∧ m = nodeId i ∧ t = nodeId (i + 1) := by
  by_cases hm : m ∈ (range (pcs.length - 1)).map nodeId
  · obtain ⟨i, -, rfl⟩ := mem_map.mp hm
    rw [outputs_legacy] at h
    split_ifs at h with hi
    · exact ⟨i, hi, rfl, mem_singleton.mp h⟩
    · cases h
  · rw [outputs, getWorkflowConnections_legacy,
      lookup_foldl_insert_of_notMem nodeId (fun i => [[nodeId (i + 1)]]) hm] at h
    cases h

theorem isStart_iff (i : ℕ) (hi : i < pcs.length) :
    IsStart (legacy pcs).getWorkflowConnections (nodeId i) ↔ i = 0 := by
  constructor
  · intro h
    by_contra hne
    obtain ⟨j, rfl⟩ := Nat.exists_eq_succ_of_ne_zero hne
    refine h (nodeId j) ?_
    rw [outputs_legacy, if_pos hi]
    exact mem_singleton_self _
  · rintro rfl m hm
    obtain ⟨j, -, -, hj⟩ := exists_of_mem_outputs pcs hm
    cases nodeId_inj.mp hj

theorem degree_legacy (nodeOrder connOrder : MapOrder String) (i : ℕ) (hi : i + 1 < pcs.length) :
    degree (initialDegrees (buildNodeMap (legacy pcs).getWorkflowNodes)
      (legacy pcs).getWorkflowConnections nodeOrder connOrder) (nodeId (i + 1)) = 1 := by
  rw [degree_initialDegrees, Kahn.edgesInto, Finset.sum_eq_single (nodeId i)]
  · rw [outputs_legacy, if_pos hi, count_singleton_self]
    rfl
  · intro m _ hne
    rw [count_eq_zero]
    intro hm
    obtain ⟨j, -, rfl, hj⟩ := exists_of_mem_outputs pcs hm
    exact hne (by rw [Nat.succ.inj (nodeId_inj.mp hj)])
  · intro hnot
    rw [outputs_of_notMem hnot]
    rfl

theorem length_le_card (nodeOrder connOrder : MapOrder String) :
    pcs.length ≤ (initialDegrees (buildNodeMap (legacy pcs).getWorkflowNodes)
      (legacy pcs).getWorkflowConnections nodeOrder connOrder).keys.card := by
  have hcard : ((Finset.range pcs.length).image nodeId).card = pcs.length := by
    rw [Finset.card_image_of_injective _ fun i j h => nodeId_inj.mp h, Finset.card_range]
  rw [← hcard]
  refine Finset.card_le_card fun id hid => ?_
  obtain ⟨i, hi, rfl⟩ := Finset.mem_image.mp hid
  rw [Finmap.mem_keys, mem_initialDegrees, mem_nodeMap_iff]
  exact .inl ⟨i, Finset.mem_range.mp hi, rfl⟩

end Line

/-! ## The loop on a list -/

section Loop

variable {e : Engine V} {pcs : List ProcessorConfig} {i : ℕ} {s : Progress V}

/-- The loop has come to a node of the list: it is the only one that waits, the nodes behind it
wait for one more, and no branch was taken. -/
structure AtNode (pcs : List ProcessorConfig) (i : ℕ) (s : Progress V) : Prop where
  queue : s.queue = if i < pcs.length then [nodeId i] else []
  ahead : ∀ j, i < j → j < pcs.length → degree s.inDegree (nodeId j) = 1
  fresh : ∀ j, i ≤ j → nodeId j ∉ s.executed
  branches : s.branchResults = ∅

theorem AtNode.start (orders : Orders) (ctx : WorkflowContext V) :
    AtNode pcs 0 (start (buildNodeMap (legacy pcs).getWorkflowNodes)
      (legacy pcs).getWorkflowConnections orders ctx) where
  queue := by
    have hmem : ∀ id, id ∈ (Pipeline.start (buildNodeMap (legacy pcs).getWorkflowNodes)
        (legacy pcs).getWorkflowConnections orders ctx).queue ↔
          id ∈ if 0 < pcs.length then [nodeId 0] else [] := by
      intro id
      rw [mem_start_queue_iff, mem_nodeMap_iff]
      constructor
      · rintro ⟨⟨i, hi, rfl⟩, hstart⟩
        obtain rfl := (isStart_iff pcs i hi).mp hstart
        rw [if_pos hi]
        exact mem_singleton_self _
      · intro hid
        split_ifs at hid with hpos
        · obtain rfl := mem_singleton.mp hid
          exact ⟨⟨0, hpos, rfl⟩, (isStart_iff pcs 0 hpos).mpr rfl⟩
        · cases hid
    have hnodup : (if 0 < pcs.length then [nodeId 0] else []).Nodup := by
      split_ifs
      · exact nodup_singleton _
      · exact nodup_nil
    have hperm := (perm_ext_iff_of_nodup (nodup_start_queue orders ctx) hnodup).mpr hmem
    split_ifs at hperm ⊢
    · exact perm_singleton.mp hperm
    · exact hperm.eq_nil
  ahead j hj hlt := by
    obtain ⟨k, rfl⟩ := Nat.exists_eq_succ_of_ne_zero hj.ne'
    exact degree_legacy pcs orders.nodes orders.connections k hlt
  fresh _ _ := Finset.notMem_empty _
  branches := rfl

/-- **The loop goes on to the next node.** -/
theorem AtNode.next (h : AtNode pcs i s) (ctx : WorkflowContext V) {r : NodeExecutionResult}
    (hr : r.branchIndex = none) :
    AtNode pcs (i + 1) (takeOutputs (legacy pcs).getWorkflowConnections (nodeId i)
      (ran s (nodeId i) [] ctx r)) := by
  have hbranches : (ran s (nodeId i) [] ctx r).branchResults = ∅ := by
    simp [ran, hr, h.branches]
  have hlookup : (ran s (nodeId i) [] ctx r).branchResults.lookup (nodeId i)
      = (none : Option ℤ).map some := by
    rw [hbranches]
    rfl
  rw [takeOutputs_eq hlookup, lookup_connections]
  have hexecuted : ∀ j, i + 1 ≤ j → nodeId j ∉ insert (nodeId i) s.executed := by
    intro j hj
    rw [Finset.mem_insert, nodeId_inj, not_or]
    exact ⟨by omega, h.fresh j (by omega)⟩
  split_ifs with hi
  · have hdegree : degree s.inDegree (nodeId (i + 1)) = 1 := h.ahead (i + 1) (by omega) hi
    refine ⟨?_, fun j hj hlt => ?_, hexecuted, hbranches⟩
    · rw [if_pos hi]
      simp [takeConnection, ran, hdegree, Takes]
    · have hne : nodeId j ≠ nodeId (i + 1) := fun heq => hj.ne' (nodeId_inj.mp heq)
      simpa [takeConnection, ran, Takes, degree_insert, hne] using h.ahead j (by omega) hlt
  · refine ⟨?_, fun j hj hlt => by omega, hexecuted, hbranches⟩
    rw [if_neg hi]
    rfl

/-- How the node of a processor shows whether the list ends with it. -/
def Shows : Option Stop → NodeExecutionResult → Option (NodeOutput V) → Prop
  | none, r, o => r.status = .success ∧ o = none
  | some .fails, r, o => r.status = .failed ∧ o = none
  | some .drops, r, o => r.status = .terminated ∧ o = none
  | some .streams, _, o => ∃ output chan, o = some output ∧ output.stream = true ∧
      output.streamChan = some chan

section Round

variable {nodeMap : GoMap String WorkflowNode} {connections : Connections} {pc : ProcessorConfig}
  {process : ℕ → WorkflowContext V → WorkflowContext V × Except String (Returned V × String)}
  {rest : List String}

/-- **The node of a processor makes one attempt**, and shows what comes of it. -/
theorem executeNode_legacy (hget : e.getProcessorByType pc.typ pc.config = .ok (.plain process))
    {ctx left : WorkflowContext V} {stop : Option Stop} (hturn : turn process ctx = (left, stop)) :
    ∃ r o, e.executeNode (legacyNode i pc) ctx = (left, r, o) ∧ r.branchIndex = none ∧
      Shows stop r o := by
  have hone : e.executeNode (legacyNode i pc) ctx
      = attempts { nodeId := nodeId i, nodeName := pc.typ, nodeType := pc.typ } (.plain process)
          0 0 ctx := by
    simp [executeNode, legacyNode, hget]
  rw [hone, attempts, attempt]
  rw [turn] at hturn
  generalize process 0 ctx = answer at hturn ⊢
  rcases answer with ⟨ctx', err | ⟨returned, msg⟩⟩
  · cases hturn
    exact ⟨_, _, rfl, rfl, by simp [Shows]⟩
  · dsimp only at hturn ⊢
    cases hnew : returned.get ctx' with
    | none =>
      rw [hnew] at hturn
      cases hturn
      exact ⟨_, _, rfl, rfl, by simp [Shows]⟩
    | some new =>
      rw [hnew] at hturn
      dsimp only at hturn
      by_cases hstream : new.stream = true ∧ new.streamChan ≠ none
      · obtain ⟨chan, hchan⟩ := ne_none_iff_exists'.mp hstream.2
        rw [if_pos hstream] at hturn
        cases hturn
        exact ⟨_, _, rfl, rfl, by simp [Shows, hstream.1, hchan]⟩
      · rw [if_neg hstream] at hturn
        split_ifs at hturn with hevent
        · cases hturn
          exact ⟨_, _, rfl, rfl, by simp_all [Shows]⟩
        · cases hturn
          exact ⟨_, _, rfl, rfl, by simp_all [Shows]⟩

variable (connections rest) (hnot : nodeId i ∉ s.executed)
  (hnode : nodeMap.lookup (nodeId i) = some (legacyNode i pc))
  (hget : e.getProcessorByType pc.typ pc.config = .ok (.plain process)) {ctx : WorkflowContext V}

include hnot hnode hget

/-- **The round of a processor that lets the list go on**: so does the loop, with the context as the
processor leaves it. -/
theorem round_of_goesOn (hturn : turn process s.ctx = (ctx, none)) :
    ∃ r, r.branchIndex = none ∧ e.round nodeMap connections s (nodeId i) rest
      = .inl (takeOutputs connections (nodeId i) (ran s (nodeId i) rest ctx r)) := by
  obtain ⟨r, o, hexec, hbranch, hstatus, rfl⟩ := executeNode_legacy (i := i) hget hturn
  refine ⟨r, hbranch, ?_⟩
  unfold Engine.round
  simp only [if_neg hnot, hnode, hexec, hstatus, bind_none]
  rfl

theorem round_of_ends {stop : Stop} (hturn : turn process s.ctx = (ctx, some stop)) :
    ∃ out, e.round nodeMap connections s (nodeId i) rest = .inr out := by
  obtain ⟨r, o, hexec, -, hshows⟩ := executeNode_legacy (i := i) hget hturn
  unfold Engine.round
  simp only [if_neg hnot, hnode, hexec]
  cases stop with
  | fails =>
    obtain ⟨hstatus, rfl⟩ := hshows
    simp [hstatus, legacyNode]
  | drops =>
    obtain ⟨hstatus, rfl⟩ := hshows
    simp [hstatus]
  | streams =>
    obtain ⟨output, chan, rfl, hstream, hchan⟩ := hshows
    simp [hstream, hchan]

end Round

theorem isSome_answer_legacy (pc : ProcessorConfig) (ctx : WorkflowContext V) :
    (e.answer (legacyNode i pc) ctx).isSome
      = (e.getProcessorByType pc.typ pc.config).toBool := by
  cases hget : e.getProcessorByType pc.typ pc.config with
  | error err | ok p => simp [answer, legacyNode, hget, Except.toBool]

/-- The processor of a call, and the context it was given. -/
def asked (c : Call V) : ProcessorConfig × WorkflowContext V :=
  (⟨c.node.typ, c.node.config⟩, c.given)

/-- **The loop runs the rest of the list**, by induction on it. -/
theorem AtNode.calls (hplain : ∀ pc ∈ pcs, e.IsPlain pc) {rest : List ProcessorConfig}
    (hrest : pcs.drop i = rest) {fuel : ℕ} (hfuel : rest.length ≤ fuel) (h : AtNode pcs i s) :
    ((e.calls (buildNodeMap (legacy pcs).getWorkflowNodes) (legacy pcs).getWorkflowConnections
        fuel s).filter fun c => (e.answer c.node c.given).isSome).map asked
      = e.runList s.ctx rest := by
  induction rest generalizing i fuel s with
  | nil =>
    have hq : s.queue = [] := by
      rw [h.queue, if_neg (not_lt.mpr (drop_eq_nil_iff.mp hrest))]
    rw [calls_of_queue_nil fuel hq]
    rfl
  | cons pc rest ih =>
    have hget? : pcs[i]? = some pc := by
      rw [← head?_drop, hrest]
      rfl
    have hi : i < pcs.length := (List.getElem?_eq_some_iff.mp hget?).1
    have hdrop : pcs.drop (i + 1) = rest := by
      rw [← tail_drop, hrest]
      rfl
    have hnode : (buildNodeMap (legacy pcs).getWorkflowNodes).lookup (nodeId i)
        = some (legacyNode i pc) := by
      rw [lookup_nodeMap, hget?]
      rfl
    have hnot := h.fresh i le_rfl
    have hq : s.queue = [nodeId i] := by rw [h.queue, if_pos hi]
    obtain ⟨fuel, rfl⟩ : ∃ n, fuel = n + 1 :=
      Nat.exists_eq_succ_of_ne_zero (by simp at hfuel; omega)
    rw [Engine.calls, Engine.runList]
    simp only [hq, if_neg hnot, hnode, map_some, toList_some, singleton_append,
      filter_cons, isSome_answer_legacy]
    cases hget : e.getProcessorByType pc.typ pc.config with
    | error err =>
      simp [Engine.round, hnot, hnode, Engine.executeNode, legacyNode, hget, Except.toBool]
    | ok p =>
      obtain ⟨process, rfl⟩ := hplain pc (mem_of_getElem? hget?) p hget
      rcases hturn : turn process s.ctx with ⟨ctx, _ | stop⟩
      · obtain ⟨r, hbranch, hround⟩ :=
          round_of_goesOn (legacy pcs).getWorkflowConnections [] hnot hnode hget hturn
        have hctx : (takeOutputs (legacy pcs).getWorkflowConnections (nodeId i)
            (ran s (nodeId i) [] ctx r)).ctx = ctx := by
          rw [takeOutputs_eq_with]
          rfl
        have hnext := ih hdrop (Nat.le_of_succ_le_succ hfuel) (h.next ctx hbranch)
        rw [hctx] at hnext
        simpa [hround, hturn, Except.toBool, asked, legacyNode] using hnext
      · obtain ⟨out, hround⟩ :=
          round_of_ends (legacy pcs).getWorkflowConnections [] hnot hnode hget hturn
        simp [hround, hturn, Except.toBool, asked, legacyNode]

end Loop

theorem runList_isPrefix (e : Engine V) (ctx : WorkflowContext V) (pcs : List ProcessorConfig) :
    (e.runList ctx pcs).map Prod.fst <+: pcs := by
  induction pcs generalizing ctx with
  | nil => exact prefix_rfl
  | cons pc pcs ih =>
    rw [runList]
    split
    · rw [map_cons, cons_prefix_cons]
      refine ⟨rfl, ?_⟩
      split
      · exact nil_prefix
      · exact ih _
    · exact nil_prefix

/-- **A pipeline of the old format runs as a list.**  Take any list of processors of which none is a
branch processor, any event, and any order of the maps.  `Execute` returns, and the processors it
asks, with the contexts they are given, are those of the list: once each and from the first on, up
to the first that fails, drops the event or begins to stream, and none after it. -/
theorem legacy_runs_as_list (e : Engine V) (pcs : List ProcessorConfig)
    (hplain : ∀ pc ∈ pcs, e.IsPlain pc) (orders : Orders) (event : Option AlertCurEvent) (data : V)
    (stream : Bool) : (∃ out, e.execute (legacy pcs) orders event data stream = some out) ∧
      (e.executeCalls (legacy pcs) orders event data stream).map asked
        = e.runList (initWorkflowContext event data stream) pcs ∧
      (e.executeCalls (legacy pcs) orders event data stream).map (fun c => (asked c).1)
        <+: pcs := by
  have hlist : (e.executeCalls (legacy pcs) orders event data stream).map asked
      = e.runList (initWorkflowContext event data stream) pcs := by
    unfold Engine.executeCalls
    split_ifs with hnodes
    · have hnil : pcs = [] := by simpa [getWorkflowNodes_legacy] using hnodes
      subst hnil
      rfl
    · exact (AtNode.start orders (initWorkflowContext event data stream)).calls hplain rfl
        (length_le_card pcs orders.nodes orders.connections)
  obtain ⟨result, hrun⟩ := execute_event e (legacy pcs) orders event data stream
  refine ⟨⟨_, hrun⟩, hlist, ?_⟩
  have hbegin := runList_isPrefix e (initWorkflowContext event data stream) pcs
  rwa [← hlist, List.map_map] at hbegin

namespace Example

/-- A processor that begins to stream, and one that does nothing. -/
def streaming : Engine Unit where
  getProcessorByType typ _ :=
    if typ = "ai" then
      .ok (.plain fun _ ctx => ({ ctx with stream := true, streamChan := some 0 }, .ok (.same, "")))
    else .ok (.plain fun _ ctx => (ctx, .ok (.same, "")))

/-- One after the other. -/
def aiFirst : List ProcessorConfig := [⟨"ai", .null⟩, ⟨"event_update", .null⟩]

theorem streaming_isPlain (pc : ProcessorConfig) : streaming.IsPlain pc := by
  intro p hp
  unfold streaming at hp
  dsimp only at hp
  split_ifs at hp
  · cases hp
    exact ⟨_, rfl⟩
  · cases hp
    exact ⟨_, rfl⟩

end Example

/-- With a processor that does nothing in the first place both run. -/
theorem legacy_runs_both : (∀ pc ∈ aiFirst.reverse, streaming.IsPlain pc) ∧
    (∃ out, streaming.execute (legacy aiFirst.reverse) orders (some old)
      () false = some out) ∧ (streaming.executeCalls (legacy aiFirst.reverse) orders (some old)
      () false).map (fun c => c.node.typ) = ["event_update", "ai"] := by
  have h := legacy_runs_as_list streaming aiFirst.reverse
    (fun pc _ => streaming_isPlain pc) orders (some old) () false
  refine ⟨fun pc _ => streaming_isPlain pc, h.1, ?_⟩
  have htypes := congrArg (List.map fun x => x.1.typ) h.2.1
  rwa [List.map_map] at htypes

/-- **A stream ends the list.**  The first of two processors succeeds, keeps the event and begins to
stream; the second is never run. -/
theorem stream_ends_list : (streaming.executeCalls (legacy aiFirst) orders (some old) ()
      false).map (fun c => c.node.typ) = ["ai"] ∧
    (∀ c ∈ streaming.executeCalls (legacy aiFirst) orders (some old) ()
      false, streaming.returned c = some .same ∧ ¬ streaming.Drops c) ∧
    (streaming.execute (legacy aiFirst) orders (some old) ()
      false).map (fun out => out.1.isSome) = some true := by
  have hcalls : streaming.executeCalls (legacy aiFirst) orders
      (some old) () false
        = [⟨"node_0", legacyNode 0 ⟨"ai", .null⟩,
          initWorkflowContext (some old) () false⟩] := rfl
  refine ⟨by rw [hcalls]; rfl, ?_, by decide⟩
  rw [hcalls]
  rintro c hc
  obtain rfl := mem_singleton.mp hc
  refine ⟨rfl, ?_⟩
  rintro ⟨r, hr, hnone⟩
  cases hr
  exact some_ne_none old (hnone _ rfl)

end Nightingale.Pipeline
