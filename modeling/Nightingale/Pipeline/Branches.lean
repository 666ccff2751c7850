import Mathlib.Logic.Relation
import Mathlib.Order.WellFoundedSet
import Nightingale.Pipeline.Order

/-!
# Pipeline/Branches — the nodes a choice of branches leads to

A choice of branches `β` leads from the nodes without incoming connections to a set of nodes,
`Reached β`.  The counters of `executeDAG` hold all connections into a node, the ones not chosen
included, so a node is run only if the choice takes every connection into it:

    a ──0──▸ b ──▸ d        choice 0 at a:  reached a b d,  run a b
    └───1──▸ c ────┘        (the connection c ▸ d is never taken)

On an acyclic workflow the nodes run are always reached, and they are closed under the outputs taken
just in case every connection into a reached node is taken.
-/

namespace Nightingale.Pipeline

open Finmap

/-! ## Workflows -/

/-- A connection between two nodes. -/
def Edge (connections : Connections) (m t : String) : Prop := ∃ j, t ∈ output connections m j

theorem Edge.mem_keys {connections : Connections} {m t : String} (h : Edge connections m t) :
    m ∈ connections.keys := by
  by_contra hm
  have ht := mem_outputs_iff.mpr h
  rw [outputs_of_notMem hm] at ht
  cases ht

/-- An acyclic workflow: nodes under their ids, and connections between them. -/
structure Workflow where
  nodeMap : GoMap String WorkflowNode
  connections : Connections
  ids : ∀ id node, nodeMap.lookup id = some node → node.id = id
  sources : ∀ m ∈ connections.keys, m ∈ nodeMap
  targets : ∀ m ∈ connections.keys, ∀ t ∈ outputs connections m, t ∈ nodeMap
  acyclic : ∀ n, ¬ Relation.TransGen (Edge connections) n n

namespace Workflow

variable {g : Workflow} {β : String → Option ℤ} {m t : String} {j : ℕ}

/-- **Induction along the connections**: a workflow has finitely many nodes and no cycle. -/
theorem induction {P : String → Prop}
    (step : ∀ t ∈ g.nodeMap, (∀ m j, t ∈ output g.connections m j → P m) → P t)
    (ht : t ∈ g.nodeMap) : P t := by
  have : IsStrictOrder String (Relation.TransGen (Edge g.connections)) :=
    { irrefl := g.acyclic, trans := fun _ _ _ => Relation.TransGen.trans }
  have hwf : Set.WellFoundedOn (g.nodeMap.keys : Set String)
      (Relation.TransGen (Edge g.connections)) := g.nodeMap.keys.finite_toSet.wellFoundedOn
  refine hwf.induction (mem_keys.mpr ht) fun t ht ih => ?_
  exact step t (mem_keys.mp ht) fun m j hj =>
    ih m (mem_keys.mpr (g.sources m (Edge.mem_keys ⟨j, hj⟩))) (.single ⟨j, hj⟩)

theorem buildNodeMap_ids (nodes : List WorkflowNode) (id : String) (node : WorkflowNode)
    (h : (buildNodeMap nodes).lookup id = some node) : node.id = id := by
  revert id node
  refine List.foldlRecOn (motive := fun m : GoMap String WorkflowNode =>
    ∀ id node, m.lookup id = some node → node.id = id) nodes _ (by simp) ?_
  exact fun m hm n _ => GoMap.forall_lookup_insert rfl hm

/-- A numbering that grows along the connections excludes cycles. -/
theorem acyclic_of_rank {connections : Connections} (rank : String → ℕ)
    (h : ∀ m ∈ connections.keys, ∀ t ∈ outputs connections m, rank m < rank t) (n : String) :
    ¬ Relation.TransGen (Edge connections) n n := by
  have hedge : ∀ m t, Edge connections m t → rank m < rank t := fun m t hmt =>
    h m hmt.mem_keys t (mem_outputs_iff.mpr hmt)
  intro hcycle
  have hlt : ∀ t, Relation.TransGen (Edge connections) n t → rank n < rank t := by
    intro t htrans
    induction htrans with
    | single hnt => exact hedge _ _ hnt
    | tail _ hmt ih => exact ih.trans (hedge _ _ hmt)
  exact lt_irrefl _ (hlt n hcycle)

/-! ## Reached and run -/

/-- The nodes that a choice of branches leads to. -/
inductive Reached (g : Workflow) (β : String → Option ℤ) : String → Prop
  | start {id : String} : id ∈ g.nodeMap → (∀ m j, id ∉ output g.connections m j) → Reached g β id
  | step {m t : String} {j : ℕ} :
    Reached g β m → Takes (β m) j → t ∈ output g.connections m j → Reached g β t

theorem Reached.mem (h : g.Reached β t) : t ∈ g.nodeMap := by
  cases h with
  | start hid _ => exact hid
  | step _ _ ht => exact g.targets _ (Edge.mem_keys ⟨_, ht⟩) _ (mem_outputs_iff.mpr ⟨_, ht⟩)

variable (g β) in
/-- A set of nodes that a run counting all connections ends with. -/
def Counted (X : String → Prop) : Prop :=
  ∀ t, X t ↔ t ∈ g.nodeMap ∧ ∀ m j, t ∈ output g.connections m j → X m ∧ Takes (β m) j

variable {X : String → Prop}

/-- **What is run is reached.** -/
theorem Counted.reached (hX : g.Counted β X) (ht : X t) : g.Reached β t := by
  refine induction (P := fun t => X t → g.Reached β t) ?_ ((hX t).mp ht).1 ht
  intro t hmem ih hXt
  by_cases hin : ∃ m j, t ∈ output g.connections m j
  · obtain ⟨m, j, hj⟩ := hin
    obtain ⟨hm, htakes⟩ := ((hX t).mp hXt).2 m j hj
    exact .step (ih m j hj hm) htakes hj
  · push Not at hin
    exact .start hmem hin

/-- If the nodes run are closed under the outputs taken, all reached nodes are run. -/
theorem Counted.of_closed (hX : g.Counted β X)
    (hclosed : ∀ m, X m → ∀ j, Takes (β m) j → ∀ t ∈ output g.connections m j, X t)
    (ht : g.Reached β t) : X t := by
  induction ht with
  | start hid hnone => exact (hX _).mpr ⟨hid, fun m j hj => absurd hj (hnone m j)⟩
  | step _ htakes hj ih => exact hclosed _ ih _ htakes _ hj

/-- If every connection into a reached node is taken, all reached nodes are run. -/
theorem Counted.of_taken (hX : g.Counted β X)
    (htaken : ∀ t, g.Reached β t → ∀ m j, t ∈ output g.connections m j →
      g.Reached β m ∧ Takes (β m) j)
    (ht : g.Reached β t) : X t := by
  refine induction (P := fun t => g.Reached β t → X t) ?_ ht.mem ht
  intro t hmem ih hreached
  refine (hX t).mpr ⟨hmem, fun m j hj => ?_⟩
  obtain ⟨hm, htakes⟩ := htaken t hreached m j hj
  exact ⟨ih m j hj hm, htakes⟩

/-- **Closed just in case all connections into reached nodes are taken.** -/
theorem Counted.closed_iff (hX : g.Counted β X) :
    (∀ m, X m → ∀ j, Takes (β m) j → ∀ t ∈ output g.connections m j, X t) ↔
      ∀ t, g.Reached β t → ∀ m j, t ∈ output g.connections m j → g.Reached β m ∧ Takes (β m) j := by
  constructor
  · intro hclosed t ht m j hj
    obtain ⟨hm, htakes⟩ := ((hX t).mp (hX.of_closed hclosed ht)).2 m j hj
    exact ⟨hX.reached hm, htakes⟩
  · intro htaken m hm j htakes t hj
    exact hX.of_taken htaken (.step (hX.reached hm) htakes hj)

/-- The nodes run by a calm run, when `β` is what its branch nodes chose. -/
theorem counted_executed {result : WorkflowResult} {branch : String → Option ℤ}
    (hbranch : ∀ r ∈ result.nodeResults, r.branchIndex = branch r.nodeId)
    (hβ : ∀ r ∈ result.nodeResults, r.branchIndex = β r.nodeId)
    (hran : ∀ t, t ∈ result.executed ↔ t ∈ g.nodeMap ∧ ∀ m j, t ∈ output g.connections m j →
      m ∈ result.executed ∧ Takes (branch m) j) : g.Counted β (· ∈ result.executed) := by
  have hagree : ∀ m ∈ result.executed, branch m = β m := by
    intro m hm
    obtain ⟨r, hr, rfl⟩ := List.mem_map.mp hm
    rw [← hbranch r hr, hβ r hr]
  intro t
  refine (hran t).trans ?_
  refine and_congr_right fun _ => forall₃_congr fun m j _ => and_congr_right fun hm => ?_
  rw [hagree m hm]

/-- **Which workflows run every node their branches lead to.**  Take any processors, any order of
the maps and any choice `β`.  The run returns; and if no node failed, terminated or streamed in it
and its branch nodes chose as `β` does, then every target of an output taken was run if and only if
every connection into a node reached by `β` is taken by `β`. -/
theorem targets_run_iff {V : Type} (g : Workflow) (β : String → Option ℤ) (e : Engine V)
    (orders : Orders) (ctx : WorkflowContext V) :
    ∃ left result, e.executeDAG g.nodeMap g.connections orders ctx = some (left, result) ∧
      ((∀ r ∈ result.nodeResults, ¬ r.Ends ∧ r.branchIndex = β r.nodeId) →
        ((∀ m ∈ result.executed, ∀ j, Takes (β m) j → ∀ t ∈ output g.connections m j,
            t ∈ result.executed) ↔ ∀ t, g.Reached β t → ∀ m j, t ∈ output g.connections m j →
            g.Reached β m ∧ Takes (β m) j)) := by
  obtain ⟨left, result, hrun, hend⟩ := executeDAG_returns g.ids e orders ctx
  refine ⟨left, result, hrun, fun hcalm => ?_⟩
  rcases hend with ⟨r, hr, hends⟩ | ⟨branch, hbranch, hran⟩
  · exact absurd hends (hcalm r hr).1
  · exact (counted_executed hbranch (fun r hr => (hcalm r hr).2) hran).closed_iff

end Workflow

namespace Example

/-- A node `id` of a type. -/
def node (id typ : String) : WorkflowNode := { id := id, name := id, typ := typ }

/-- Nodes of type `if` choose a fixed output; the others leave the context as it is. -/
def choosing (choice : ℤ) : Engine Unit where
  getProcessorByType typ _ := .ok <|
    if typ = "if" then .branch fun _ ctx => (ctx, .ok (some { branchIndex := some choice }))
    else .plain fun _ ctx => (ctx, .ok (.same, ""))

/-- What they choose. -/
def choice (b : ℤ) (id : String) : Option ℤ := if id = "a" then some b else none

/-- A branch at `a`. -/
def nodes : List WorkflowNode := [node "a" "if", node "b" "", node "c" "", node "d" ""]

/-- The nodes are numbered by their letters. -/
def rank (id : String) : ℕ := if id = "a" then 0 else if id = "d" then 2 else 1

/-- Both branches lead to `d`. -/
def joined : Workflow where
  nodeMap := buildNodeMap nodes
  connections := ((singleton "a" [["b"], ["c"]]).insert "b" [["d"]]).insert "c" [["d"]]
  ids := Workflow.buildNodeMap_ids nodes
  sources := by decide
  targets := by decide
  acyclic := Workflow.acyclic_of_rank rank (by decide)

/-- Only the second branch leads to `d`. -/
def apart : Workflow where
  nodeMap := buildNodeMap nodes
  connections := (singleton "a" [["b"], ["c"]]).insert "c" [["d"]]
  ids := Workflow.buildNodeMap_ids nodes
  sources := by decide
  targets := by decide
  acyclic := Workflow.acyclic_of_rank rank (by decide)

/-- An event and nothing else. -/
def context : WorkflowContext Unit := { event := some {}, data := () }

/-- The maps are visited in the order of their keys. -/
def orders : Orders := ⟨.sortBy (· ≤ ·), .sortBy (· ≤ ·), .sortBy (· ≤ ·)⟩

end Example

open Example

/-- A calm run with a branch, all of whose targets are run. -/
theorem Workflow.targets_run_apart :
    ∃ left result, (choosing 1).executeDAG apart.nodeMap apart.connections
        orders context = some (left, result) ∧
      result.executed = ["a", "c", "d"] ∧
      ∀ t, apart.Reached (choice 1) t → ∀ m j, t ∈ output apart.connections m j →
          apart.Reached (choice 1) m ∧ Takes (choice 1 m) j := by
  obtain ⟨left, result, hrun, hiff⟩ := targets_run_iff apart (choice 1)
    (choosing 1) orders context
  have hresult : ∀ x ∈ (choosing 1).executeDAG apart.nodeMap apart.connections
      orders context, x.2.executed = ["a", "c", "d"] ∧
        ∀ r ∈ x.2.nodeResults, ¬ r.Ends ∧ r.branchIndex = choice 1 r.nodeId := by decide
  obtain ⟨hran, hcalm⟩ := hresult _ hrun
  have hclosed : ∀ m ∈ ["a", "c", "d"], ∀ t ∈ output apart.connections m
      ((choice 1 m).getD 0).toNat, t ∈ ["a", "c", "d"] := by decide
  refine ⟨left, result, hrun, hran, (hiff hcalm).mp fun m hm j hj t ht => ?_⟩
  rw [hj.eq_toNat] at ht
  rw [hran] at hm ⊢
  exact hclosed m hm t ht

/-- **A join after a branch never runs.**  The branch node chooses its first output; `b` runs and
takes its only output, to `d`; and `d`, which waits for `c` as well, is not run. -/
theorem join_after_branch_skipped :
    ∃ left result, (choosing 0).executeDAG joined.nodeMap joined.connections
        orders context = some (left, result) ∧
      (∀ r ∈ result.nodeResults, ¬ r.Ends ∧ r.branchIndex = choice 0 r.nodeId) ∧
      "b" ∈ result.executed ∧ Takes (choice 0 "b") 0 ∧
      "d" ∈ output joined.connections "b" 0 ∧ "d" ∉ result.executed := by
  have hresult : ∀ x ∈ (choosing 0).executeDAG joined.nodeMap
      joined.connections orders context, x.2.executed = ["a", "b"] ∧
        ∀ r ∈ x.2.nodeResults, ¬ r.Ends ∧ r.branchIndex = choice 0 r.nodeId := by decide
  obtain ⟨left, result, hrun, -⟩ := executeDAG_returns joined.ids (choosing 0)
    orders context
  obtain ⟨hran, hcalm⟩ := hresult _ hrun
  refine ⟨left, result, hrun, hcalm, ?_, by decide, by decide, ?_⟩ <;> rw [hran] <;> decide

end Nightingale.Pipeline
