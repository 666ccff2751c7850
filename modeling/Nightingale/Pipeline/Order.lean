import Nightingale.Lib.Kahn
import Nightingale.Pipeline.Engine

/-!
# Pipeline/Order — `executeDAG` is Kahn's algorithm

`Tracks` relates the variables of `executeDAG` to the counting of `Lib/Kahn`: the connections a node
takes are the edges it follows, and a node the map does not know takes none.  It holds from the
start and through every round, so the loop ends within its fuel, whatever the processors do
(`executeDAG_returns`), and a run that ends with an empty queue has run exactly the nodes all of
whose incoming connections were taken (`Tracks.mem_iff`).
-/

namespace Nightingale.Pipeline

open Kahn List Finmap Function Engine Prod

/-! ## Counters -/

theorem degree_insert (m : GoMap String ℤ) (id : String) (d : ℤ) :
    degree (m.insert id d) = update (degree m) id d := by
  funext t
  by_cases ht : t = id
  · subst ht; simp [degree]
  · simp [degree, update_of_ne ht, lookup_insert_of_ne _ ht]

theorem degree_foldl_count (l : List String) (m : GoMap String ℤ) (t : String) :
    degree (l.foldl (fun m target => m.insert target (degree m target + 1)) m) t
      = degree m t + l.count t := by
  induction l generalizing m with
  | nil => simp
  | cons x l ih =>
    rw [foldl_cons, ih, degree_insert]
    by_cases ht : t = x
    · subst ht
      rw [update_self, count_cons_self]
      omega
    · rw [update_of_ne ht, count_cons_of_ne (Ne.symm ht)]

section Graph

variable (nodeMap : GoMap String WorkflowNode) (connections : Connections)

/-- The targets of the `j`-th output of a node. -/
def output (id : String) (j : ℕ) : List String := (((connections.lookup id).getD [])[j]?).getD []

/-- All targets of a node. -/
def outputs (id : String) : List String := ((connections.lookup id).getD []).flatten

/-- The output a branch result selects; without one, the first. -/
def Takes : Option ℤ → ℕ → Prop
  | none, j => j = 0
  | some b, j => (j : ℤ) = b

instance : (b : Option ℤ) → DecidablePred (Takes b)
  | none, j => inferInstanceAs (Decidable (j = 0))
  | some b, j => inferInstanceAs (Decidable ((j : ℤ) = b))

theorem Takes.eq_toNat {b : Option ℤ} {j : ℕ} (h : Takes b j) : j = (b.getD 0).toNat := by
  cases b with
  | none => exact h
  | some b =>
    have hb : (j : ℤ) = b := h
    simp [← hb]

/-- The targets a node takes when its branch result is `branch id`. -/
def follow (branch : String → Option ℤ) (id : String) : List String :=
  if id ∈ nodeMap then
    ((((connections.lookup id).getD []).zipIdx).filter fun o => Takes (branch id) o.2).flatMap
      fst
  else []

/-! ## The start -/

variable {nodeMap connections}

/-- The nested loops count the targets of all outputs. -/
theorem initialDegrees_eq (nodeOrder connOrder : MapOrder String) :
    initialDegrees nodeMap connections nodeOrder connOrder
      = ((connOrder.list connections.keys).flatMap (outputs connections)).foldl
          (fun m target => m.insert target (degree m target + 1))
          ((nodeOrder.list nodeMap.keys).foldl (fun m id => m.insert id 0) ∅) := by
  rw [foldl_flatMap]
  simp only [initialDegrees, outputs, foldl_flatten]

/-- **The counters start at the number of incoming connections.** -/
theorem degree_initialDegrees (nodeOrder connOrder : MapOrder String) (t : String) :
    degree (initialDegrees nodeMap connections nodeOrder connOrder) t
      = edgesInto connections.keys (outputs connections) t := by
  have hzeros : degree ((nodeOrder.list nodeMap.keys).foldl (fun m id => m.insert id 0) ∅) t
      = 0 := by
    refine foldlRecOn (motive := fun m => degree m t = 0) _ _ (by simp [degree]) ?_
    intro m h x _
    rw [degree_insert]
    by_cases ht : t = x
    · rw [ht, update_self]
    · rwa [update_of_ne ht]
  have hkeys : (connOrder.list connections.keys).toFinset = connections.keys := by
    ext id; simp
  rw [initialDegrees_eq, degree_foldl_count, hzeros, Int.zero_add,
    count_flatMap, ← sum_toFinset _ (connOrder.nodup _), hkeys]
  rfl

theorem mem_initialDegrees (nodeOrder connOrder : MapOrder String) (t : String) :
    t ∈ initialDegrees nodeMap connections nodeOrder connOrder ↔
      t ∈ nodeMap ∨ ∃ id, t ∈ outputs connections id := by
  rw [initialDegrees_eq, GoMap.mem_foldl_insert (fun id => id) fun m id => degree m id + 1,
    GoMap.mem_foldl_insert (fun id => id) fun _ _ => 0]
  simp only [Finmap.notMem_empty, false_or, exists_eq_right, MapOrder.mem_list, Finmap.mem_keys,
    mem_flatMap]
  refine or_congr_right (exists_congr fun id => and_iff_right_of_imp fun h => ?_)
  by_contra hid
  rw [outputs, lookup_eq_none.mpr hid] at h
  simp at h

theorem outputs_of_notMem {id : String} (h : id ∉ connections.keys) :
    outputs connections id = [] := by
  rw [outputs, Finmap.lookup_eq_none.mpr (by simpa [Finmap.mem_keys] using h)]
  rfl

theorem outputs_eq_flatMap (id : String) :
    outputs connections id = (((connections.lookup id).getD []).zipIdx).flatMap fst := by
  rw [outputs, flatMap_def, zipIdx_map_fst]

theorem mem_output_iff {id t : String} {j : ℕ} : t ∈ output connections id j ↔
      ∃ targets, (targets, j) ∈ ((connections.lookup id).getD []).zipIdx ∧ t ∈ targets := by
  simp only [output, mem_zipIdx_iff_getElem?]
  cases ((connections.lookup id).getD [])[j]? <;> simp

theorem mem_outputs_iff {id t : String} :
    t ∈ outputs connections id ↔ ∃ j, t ∈ output connections id j := by
  simp only [outputs_eq_flatMap, mem_flatMap, mem_output_iff, Prod.exists]
  exact ⟨fun ⟨targets, j, h⟩ => ⟨j, targets, h⟩, fun ⟨j, targets, h⟩ => ⟨targets, j, h⟩⟩

theorem count_follow_le (branch : String → Option ℤ) (id t : String) :
    (follow nodeMap connections branch id).count t ≤ (outputs connections id).count t := by
  unfold follow
  split_ifs
  · rw [outputs_eq_flatMap]
    exact (filter_sublist.flatMap _).count_le _
  · simp

/-! ## One round -/

variable {V : Type}

/-- The counting state behind the variables of the loop. -/
def Progress.count (s : Progress V) (popped : List String) : Kahn.State String where
  deg := degree s.inDegree
  queue := s.queue
  popped := popped

theorem count_takeConnection (s : Progress V) (popped : List String) (t : String) :
    (takeConnection s t).count popped = relax (s.count popped) t := by
  by_cases h : degree s.inDegree t - 1 = 0 <;>
    simp [Progress.count, takeConnection, relax, degree_insert, h]

theorem count_foldl_takeConnection (l : List String) (s : Progress V) (popped : List String) :
    (l.foldl takeConnection s).count popped = l.foldl relax (s.count popped) := by
  induction l generalizing s with
  | nil => rfl
  | cons t l ih => rw [foldl_cons, ih, count_takeConnection, foldl_cons]

theorem foldl_takeConnection_eq (l : List String) (s : Progress V) :
    l.foldl takeConnection s = { s with
      inDegree := (l.foldl takeConnection s).inDegree
      queue := (l.foldl takeConnection s).queue } := by
  induction l generalizing s with
  | nil => rfl
  | cons t l ih => rw [foldl_cons, ih]; rfl

theorem takeOutputs_eq_with (id : String) (s : Progress V) : takeOutputs connections id s = { s with
      inDegree := (takeOutputs connections id s).inDegree
      queue := (takeOutputs connections id s).queue } := by
  unfold takeOutputs
  generalize ((connections.lookup id).getD []).zipIdx = outs
  induction outs generalizing s with
  | nil => rfl
  | cons o outs ih =>
    rw [foldl_cons]
    split_ifs
    · rw [ih, foldl_takeConnection_eq o.1 s]
    · exact ih s

theorem shouldFollowBranch_iff {branchResults : GoMap String (Option ℤ)} {id : String}
    {b : Option ℤ} (h : branchResults.lookup id = b.map some) (j : ℕ) :
    shouldFollowBranch id j branchResults = decide (Takes b j) := by
  cases b with
  | none => simp only [shouldFollowBranch, h, Option.map_none, Takes]; rfl
  | some b => simp only [shouldFollowBranch, h, Option.map_some, Takes]; rfl

/-- **The successors of a node that has run** are the targets it takes. -/
theorem takeOutputs_eq {s : Progress V} {id : String} {b : Option ℤ}
    (h : s.branchResults.lookup id = b.map some) : takeOutputs connections id s
      = (((((connections.lookup id).getD []).zipIdx).filter fun o => Takes b o.2).flatMap
          fst).foldl takeConnection s := by
  unfold takeOutputs
  generalize ((connections.lookup id).getD []).zipIdx = outs
  induction outs generalizing s with
  | nil => rfl
  | cons o outs ih =>
    rw [foldl_cons, shouldFollowBranch_iff h]
    by_cases ho : Takes b o.2
    · have hs := foldl_takeConnection_eq o.1 s
      simp only [ho, decide_true, if_true, filter_cons_of_pos, flatMap_cons, foldl_append]
      rw [ih (by rw [hs]; exact h)]
    · simp only [ho, decide_false, Bool.false_eq_true, if_false, not_false_eq_true,
        filter_cons_of_neg]
      exact ih h

variable (nodeMap connections)

/-- **The loop against the counting**, without the results: the nodes taken off the queue so far are
`popped`, and the branch results are those of `branch`. -/
structure Paces (known : Finset String) (branch : String → Option ℤ) (popped : List String)
    (s : Progress V) : Prop where
  inv : Inv (edgesInto connections.keys (outputs connections)) (· ∈ known)
    (popped.flatMap (follow nodeMap connections branch)) (s.count popped)
  executed : s.executed = (popped.filter (· ∈ nodeMap)).toFinset
  results : ∀ id ∉ popped, s.branchResults.lookup id = none

/-- **The loop against the counting**, when the nodes taken off the queue so far are `popped` and
the branch results are those of `branch`. -/
structure Tracks (known : Finset String) (branch : String → Option ℤ) (popped : List String)
    (s : Progress V) : Prop extends Paces nodeMap connections known branch popped s where
  ids : s.result.nodeResults.map NodeExecutionResult.nodeId = popped.filter (· ∈ nodeMap)
  branches : ∀ r ∈ s.result.nodeResults, r.branchIndex = branch r.nodeId

variable {nodeMap connections} {known : Finset String} {branch : String → Option ℤ}
  {popped : List String} {s : Progress V} {id : String} {rest : List String}

theorem flatMap_follow_update (h : id ∉ popped) (b : Option ℤ) :
    popped.flatMap (follow nodeMap connections (update branch id b))
      = popped.flatMap (follow nodeMap connections branch) := flatMap_congr fun m hm => by
    have hne : m ≠ id := fun heq => h (heq ▸ hm)
    rw [follow, follow, update_of_ne hne]

section

variable (h : Paces nodeMap connections known branch popped s)

include h

theorem Paces.fresh (hq : s.queue = id :: rest) : id ∉ popped := by
  have hnodup : (popped ++ s.queue).Nodup := h.inv.nodup
  rw [hq] at hnodup
  exact fun hmem => (nodup_append.mp hnodup).2.2 id hmem id (by simp) rfl

theorem Paces.notMem_executed (hq : s.queue = id :: rest) : id ∉ s.executed := by
  rw [h.executed]
  intro hmem
  exact h.fresh hq (mem_filter.mp (mem_toFinset.mp hmem)).1

/-- **A node that waits has all its predecessors behind it**: they were taken, and ran. -/
theorem Paces.mem_of_edge (hq : s.queue = id :: rest) {m : String} (hm : id ∈ outputs connections m)
    : m ∈ popped.filter (· ∈ nodeMap) := by
  have hnodup : (popped ++ s.queue).Nodup := h.inv.nodup
  have hwait : id ∈ popped ++ s.queue := by simp [hq]
  have hzero : degree s.inDegree id = 0 := ((h.inv.queued id).mp hwait).2
  have hdeg : degree s.inDegree id = _ := h.inv.deg id
  have hall : (popped.flatMap (follow nodeMap connections branch)).count id
      = edgesInto connections.keys (outputs connections) id := by omega
  obtain ⟨hpopped, hcount⟩ := (count_flatMap_eq_iff (count_follow_le _)
    (fun _ => outputs_of_notMem) hnodup.of_append_left id).mp hall m hm
  refine mem_filter.mpr ⟨hpopped, decide_eq_true ?_⟩
  by_contra hnot
  rw [follow, if_neg hnot, count_nil] at hcount
  exact (count_pos_iff.mpr hm).ne hcount

/-- When all known nodes have been taken, none waits. -/
theorem Paces.queue_eq_nil (hcard : known.card ≤ popped.length) : s.queue = [] := by
  have hnodup : (popped ++ s.queue).Nodup := h.inv.nodup
  have hsub : (popped ++ s.queue).toFinset ⊆ known := fun t ht =>
    ((h.inv.queued t).mp (mem_toFinset.mp ht)).1
  have hle := Finset.card_le_card hsub
  rw [toFinset_card_of_nodup hnodup, length_append] at hle
  exact length_eq_zero_iff.mp (by omega)

end

/-- The variables after a node has run and before its successors are updated. -/
def ran (s : Progress V) (id : String) (rest : List String) (ctx : WorkflowContext V)
    (r : NodeExecutionResult) : Progress V :=
  { s with
    queue := rest
    ctx := ctx
    result := { s.result with nodeResults := s.result.nodeResults ++ [r] }
    executed := insert id s.executed
    branchResults :=
      if r.branchIndex ≠ none then s.branchResults.insert id r.branchIndex else s.branchResults }

theorem lookup_ran (h : s.branchResults.lookup id = none) (ctx : WorkflowContext V)
    (r : NodeExecutionResult) :
    (ran s id rest ctx r).branchResults.lookup id = r.branchIndex.map some := by
  cases hb : r.branchIndex <;> simp [ran, hb, h]

theorem lookup_ran_of_ne {m : String} (hne : m ≠ id) (ctx : WorkflowContext V)
    (r : NodeExecutionResult) :
    (ran s id rest ctx r).branchResults.lookup m = s.branchResults.lookup m := by
  unfold ran
  split_ifs
  · exact lookup_insert_of_ne _ hne
  · rfl

/-- A result that ends the run. -/
def NodeExecutionResult.Ends (r : NodeExecutionResult) : Prop :=
  r.status = .failed ∨ r.status = .terminated ∨ r.status = .streaming

instance : DecidablePred NodeExecutionResult.Ends := fun r =>
  inferInstanceAs (Decidable (r.status = .failed ∨ r.status = .terminated ∨ r.status = .streaming))

theorem attempt_nodeId {base : NodeExecutionResult} {ctx ctx' : WorkflowContext V} {retries : ℕ}
    {p : Processor V} {r : NodeExecutionResult} {o : Option (NodeOutput V)}
    (h : attempt base ctx retries p = (ctx', .ok (r, o))) : r.nodeId = base.nodeId := by
  unfold attempt at h
  split at h <;> split at h <;> cases h <;> rfl

theorem attempts_nodeId (base : NodeExecutionResult) (p : Processor V) (left retries : ℕ)
    (ctx : WorkflowContext V) : (attempts base p left retries ctx).2.1.nodeId = base.nodeId := by
  induction left generalizing retries ctx with
  | zero =>
    rw [attempts]
    split
    next ha => exact attempt_nodeId ha
    next => rfl
  | succ left ih =>
    rw [attempts]
    split
    next ha => exact attempt_nodeId ha
    next => exact ih _ _

theorem executeNode_nodeId (e : Engine V) (node : WorkflowNode) (ctx : WorkflowContext V) :
    (e.executeNode node ctx).2.1.nodeId = node.id := by
  unfold executeNode
  by_cases hdisabled : node.disabled = true
  · rw [if_pos hdisabled]
  · rw [if_neg hdisabled]
    split
    · rfl
    · by_cases hneg : (if node.retryOnFail = true then node.maxRetries else 0) < 0
      · rw [if_pos hneg]
      · rw [if_neg hneg]
        exact attempts_nodeId _ _ _ _ _

variable (nodeMap connections rest) in
/-- The round of a node that has not run yet: it is unknown and passed over; or it is run, and its
successors are updated; or it ends the run, with the result of the node last in the list. -/
theorem Engine.round_cases (e : Engine V) (hnot : id ∉ s.executed) : (nodeMap.lookup id = none ∧
        e.round nodeMap connections s id rest = .inl { s with queue := rest }) ∨
      ∃ node ctx r o, nodeMap.lookup id = some node ∧ e.executeNode node s.ctx = (ctx, r, o) ∧
        (e.round nodeMap connections s id rest
            = .inl (takeOutputs connections id (ran s id rest ctx r)) ∨
          ∃ r' result, e.round nodeMap connections s id rest = .inr (ctx, result) ∧
            result.nodeResults = s.result.nodeResults ++ [r'] ∧ r'.nodeId = r.nodeId ∧
            r'.Ends) := by
  unfold round
  simp only [if_neg hnot]
  cases hnode : nodeMap.lookup id with
  | none => exact .inl ⟨rfl, rfl⟩
  | some node =>
    dsimp only
    generalize hexec : e.executeNode node s.ctx = x
    obtain ⟨ctx, r, o⟩ := x
    refine .inr ⟨node, ctx, r, o, rfl, hexec, ?_⟩
    dsimp only
    split
    · exact .inr ⟨_, _, rfl, rfl, rfl, .inr (.inr rfl)⟩
    · by_cases hfail : r.status = .failed ∧ (!node.continueOnFail) = true
      · rw [if_pos hfail]
        exact .inr ⟨r, _, rfl, rfl, rfl, .inl hfail.1⟩
      · rw [if_neg hfail]
        by_cases hterm : r.status = .terminated
        · rw [if_pos hterm]
          exact .inr ⟨r, _, rfl, rfl, rfl, .inr (.inl hterm)⟩
        · rw [if_neg hterm]
          exact .inl rfl

section Round

variable (hknown : ∀ t, 0 < edgesInto connections.keys (outputs connections) t → t ∈ known)

section Paces

variable (h : Paces nodeMap connections known branch popped s) (hq : s.queue = id :: rest)

include hknown h hq

theorem Paces.inv_visit (b : Option ℤ) :
    Inv (edgesInto connections.keys (outputs connections)) (· ∈ known)
      ((popped ++ [id]).flatMap (follow nodeMap connections (update branch id b)))
      (visit (follow nodeMap connections (update branch id b)) (s.count popped) id
        rest) := by
  have hinv := h.inv
  rw [← flatMap_follow_update (h.fresh hq) b] at hinv
  exact Inv.visit (s := s.count popped) (fun l hl t => count_flatMap_le (count_follow_le _)
    (fun _ => outputs_of_notMem) hl t) hknown hinv hq

theorem Paces.pass (hid : id ∉ nodeMap) :
    Paces nodeMap connections known branch (popped ++ [id]) { s with queue := rest } := by
  have hinv := h.inv_visit hknown hq (branch id)
  rw [update_eq_self] at hinv
  refine ⟨?_, ?_, fun m hm => h.results m fun hmem => hm (by simp [hmem])⟩
  · simpa [visit, follow, hid, Progress.count] using hinv
  · simpa [hid] using h.executed

/-- The counting of a node that has run: it takes the outputs its branch result selects. -/
theorem Paces.inv_ran (hid : id ∈ nodeMap) (ctx : WorkflowContext V) (r : NodeExecutionResult) :
    Inv (edgesInto connections.keys (outputs connections)) (· ∈ known)
      ((popped ++ [id]).flatMap
        (follow nodeMap connections (update branch id r.branchIndex)))
      ((takeOutputs connections id (ran s id rest ctx r)).count (popped ++ [id])) := by
  have hinv := h.inv_visit hknown hq r.branchIndex
  have hfollow : follow nodeMap connections (update branch id r.branchIndex) id
      = ((((connections.lookup id).getD []).zipIdx).filter fun o =>
          Takes r.branchIndex o.2).flatMap fst := by
    rw [follow, if_pos hid, update_self]
  rw [visit, hfollow] at hinv
  rw [takeOutputs_eq (lookup_ran (h.results id (h.fresh hq)) ctx r), count_foldl_takeConnection]
  exact hinv

/-- **A node that has run.** -/
theorem Paces.ran (hid : id ∈ nodeMap) (ctx : WorkflowContext V) (r : NodeExecutionResult) :
    Paces nodeMap connections known (update branch id r.branchIndex) (popped ++ [id])
      (takeOutputs connections id (ran s id rest ctx r)) := by
  refine ⟨h.inv_ran hknown hq hid ctx r, ?_, fun m hm => ?_⟩
  · have hfilter : (popped ++ [id]).filter (· ∈ nodeMap)
        = popped.filter (· ∈ nodeMap) ++ [id] := by simp [hid]
    rw [takeOutputs_eq_with, hfilter, toFinset_append, ← h.executed]
    change insert id s.executed = s.executed ∪ {id}
    rw [Finset.insert_eq, Finset.union_comm]
  · have hne : m ≠ id := fun heq => hm (by simp [heq])
    have hsame : (Pipeline.ran s id rest ctx r).branchResults.lookup m = _ :=
      lookup_ran_of_ne hne ctx r
    rw [takeOutputs_eq_with]
    exact hsame.trans (h.results m fun hmem => hm (by simp [hmem]))

end Paces

include hknown

theorem Tracks.pass (h : Tracks nodeMap connections known branch popped s)
    (hq : s.queue = id :: rest) (hid : id ∉ nodeMap) :
    Tracks nodeMap connections known branch (popped ++ [id]) { s with queue := rest } :=
  ⟨h.toPaces.pass hknown hq hid, by simpa [hid] using h.ids, h.branches⟩

theorem Tracks.ran (h : Tracks nodeMap connections known branch popped s)
    (hq : s.queue = id :: rest) (hid : id ∈ nodeMap) (ctx : WorkflowContext V)
    {r : NodeExecutionResult} (hr : r.nodeId = id) :
    Tracks nodeMap connections known (update branch id r.branchIndex) (popped ++ [id])
      (takeOutputs connections id (ran s id rest ctx r)) := by
  have hold : ∀ m ∈ s.result.nodeResults, m.nodeId ≠ id := fun m hm heq => by
    have hmem : m.nodeId ∈ popped.filter (· ∈ nodeMap) := by
      rw [← h.ids]; exact mem_map_of_mem hm
    exact h.fresh hq (heq ▸ (mem_filter.mp hmem).1)
  refine ⟨h.toPaces.ran hknown hq hid ctx r, ?_, fun m hm => ?_⟩
  · rw [takeOutputs_eq_with]
    simp [Pipeline.ran, hr, h.ids, hid]
  · rw [takeOutputs_eq_with] at hm
    rcases mem_append.mp (show m ∈ s.result.nodeResults ++ [r] from hm) with hm | hm
    · rw [update_of_ne (hold m hm), h.branches m hm]
    · rw [mem_singleton.mp hm, hr, update_self]

variable (hids : ∀ id node, nodeMap.lookup id = some node → node.id = id)

include hids

/-- **One round**: the loop goes on tracked, or a node ends the run. -/
theorem Tracks.round (e : Engine V) (h : Tracks nodeMap connections known branch popped s)
    (hq : s.queue = id :: rest) : (∃ branch' s', e.round nodeMap connections s id rest = .inl s' ∧
        Tracks nodeMap connections known branch' (popped ++ [id]) s') ∨
      ∃ left result, e.round nodeMap connections s id rest = .inr (left, result) ∧
        ∃ r ∈ result.nodeResults, r.Ends := by
  rcases e.round_cases nodeMap connections rest (h.notMem_executed hq) with
    ⟨hnode, hround⟩ | ⟨node, ctx, r, o, hnode, hexec, hround⟩
  · exact .inl ⟨branch, _, hround, h.pass hknown hq (lookup_eq_none.mp hnode)⟩
  · have hid : id ∈ nodeMap := mem_iff.mpr ⟨node, hnode⟩
    have hr : r.nodeId = id := by
      rw [← hids id node hnode, ← executeNode_nodeId e node s.ctx, hexec]
    rcases hround with hround | ⟨r', result, hround, hresults, -, hends⟩
    · exact .inl ⟨_, _, hround, h.ran hknown hq hid ctx hr⟩
    · exact .inr ⟨ctx, result, hround, r', by simp [hresults], hends⟩

/-! ## The whole run -/

/-- **The loop ends within its fuel**: a node has ended the run, or the queue is empty. -/
theorem Tracks.loop (e : Engine V) {fuel : ℕ} (hfuel : known.card ≤ fuel + popped.length)
    (h : Tracks nodeMap connections known branch popped s) :
    ∃ left result, e.loop nodeMap connections fuel s = some (left, result) ∧
      ((∃ r ∈ result.nodeResults, r.Ends) ∨ ∃ branch' popped', ∃ s' : Progress V,
        Tracks nodeMap connections known branch' popped' s' ∧ s'.queue = [] ∧
          s'.result = result) := by
  induction fuel generalizing branch popped s with
  | zero =>
    have hq : s.queue = [] := h.queue_eq_nil (by omega)
    exact ⟨s.ctx, s.result, by simp only [loop, hq], .inr ⟨branch, popped, s, h, hq, rfl⟩⟩
  | succ fuel ih =>
    cases hq : s.queue with
    | nil =>
      exact ⟨s.ctx, s.result, by simp only [loop, hq], .inr ⟨branch, popped, s, h, hq, rfl⟩⟩
    | cons id rest =>
      rw [loop.eq_def]
      simp only [hq]
      rcases h.round hknown hids e hq with ⟨branch', s', hround, h'⟩ | ⟨left, result, hround, hends⟩
      · have hlen : known.card ≤ fuel + (popped ++ [id]).length := by
          rw [length_append, length_singleton]
          omega
        simpa only [hround] using ih hlen h'
      · exact ⟨left, result, by simp only [hround], .inl hends⟩

end Round

variable (nodeMap connections) in
theorem Tracks.initial (orders : Orders) (ctx : WorkflowContext V) (result : WorkflowResult)
    (hresult : result.nodeResults = []) :
    let inDegree := initialDegrees nodeMap connections orders.nodes orders.connections
    Tracks nodeMap connections inDegree.keys (fun _ => none) []
      { inDegree := inDegree
        queue := (orders.starts.list inDegree.keys).filter fun id => degree inDegree id = 0
        ctx := ctx
        result := result } := by
  intro inDegree
  have hdeg : degree inDegree = fun t =>
      (edgesInto connections.keys (outputs connections) t : ℤ) := funext (degree_initialDegrees _ _)
  refine ⟨⟨?_, rfl, fun id _ => lookup_empty id⟩, by rw [hresult]; rfl, by simp [hresult]⟩
  unfold Progress.count
  rw [hdeg]
  exact Inv.initial ((orders.starts.nodup _).filter _) fun t => by simp

/-- Filtering outputs keeps all occurrences of `t` if and only if it keeps all outputs with one. -/
theorem count_flatMap_filter_eq_iff (outs : List (List String × ℕ)) (p : List String × ℕ → Bool)
    (t : String) : ((outs.filter p).flatMap fst).count t = (outs.flatMap fst).count t ↔
      ∀ o ∈ outs, t ∈ o.1 → p o = true := by
  induction outs with
  | nil => simp
  | cons o outs ih =>
    have hle : ((outs.filter p).flatMap fst).count t ≤ (outs.flatMap fst).count t :=
      (filter_sublist.flatMap _).count_le _
    rw [forall_mem_cons, ← ih, flatMap_cons, count_append]
    cases hp : p o with
    | true =>
      rw [filter_cons_of_pos hp, flatMap_cons, count_append]
      simp
    | false =>
      rw [filter_cons_of_neg (by simp [hp])]
      have hzero := count_eq_zero (a := t) (l := o.1)
      constructor
      · intro heq
        refine ⟨fun ht => absurd ht (hzero.mp (by omega)), by omega⟩
      · rintro ⟨hnot, heq⟩
        have := hzero.mpr fun ht => Bool.false_ne_true (hnot ht)
        omega

/-- The connections into `t` are all taken from a node if and only if it takes every output that
leads to `t`. -/
theorem count_follow_eq_iff (branch : String → Option ℤ) (id t : String) :
    (follow nodeMap connections branch id).count t = (outputs connections id).count t ↔
      ∀ j, t ∈ output connections id j → id ∈ nodeMap ∧ Takes (branch id) j := by
  unfold follow
  split_ifs with hid
  · rw [outputs_eq_flatMap, count_flatMap_filter_eq_iff]
    simp only [mem_output_iff, hid, true_and, decide_eq_true_eq, Prod.forall]
    exact ⟨fun h j ⟨targets, ho, ht⟩ => h targets j ho ht, fun h targets j ho ht =>
      h j ⟨targets, ho, ht⟩⟩
  · rw [count_nil, eq_comm, count_eq_zero, mem_outputs_iff]
    simp [hid]

/-- **At the end**, the nodes taken are those whose incoming connections all come from nodes that
were taken and ran, along outputs they take. -/
theorem Tracks.mem_iff (h : Tracks nodeMap connections known branch popped s) (hq : s.queue = [])
    (t : String) : t ∈ popped ↔ t ∈ known ∧ ∀ m j, t ∈ output connections m j →
      (m ∈ popped ∧ m ∈ nodeMap) ∧ Takes (branch m) j := by
  have hnodup : (popped ++ s.queue).Nodup := h.inv.nodup
  have hpopped : t ∈ popped ↔ _ := h.inv.mem_popped_iff hq t
  rw [hpopped, count_flatMap_eq_iff (count_follow_le _) (fun _ => outputs_of_notMem)
    hnodup.of_append_left t]
  simp only [count_follow_eq_iff, mem_outputs_iff]
  refine and_congr_right fun _ => ⟨fun H m j hj => ?_, fun H m hm => ?_⟩
  · obtain ⟨hm, hall⟩ := H m ⟨j, hj⟩
    exact ⟨⟨hm, (hall j hj).1⟩, (hall j hj).2⟩
  · obtain ⟨j, hj⟩ := hm
    exact ⟨(H m j hj).1.1, fun j hj => ⟨(H m j hj).1.2, (H m j hj).2⟩⟩

/-- The nodes that ran, in their order. -/
def WorkflowResult.executed (result : WorkflowResult) : List String :=
  result.nodeResults.map NodeExecutionResult.nodeId

theorem Tracks.mem_executed_iff (h : Tracks nodeMap connections known branch popped s)
    (hq : s.queue = []) (hsub : ∀ id ∈ nodeMap, id ∈ known) (t : String) :
    t ∈ s.result.executed ↔ t ∈ nodeMap ∧ ∀ m j, t ∈ output connections m j →
      m ∈ s.result.executed ∧ Takes (branch m) j := by
  have hmem : ∀ m, m ∈ s.result.executed ↔ m ∈ popped ∧ m ∈ nodeMap := by
    intro m
    rw [WorkflowResult.executed, h.ids, mem_filter, decide_eq_true_eq]
  simp only [hmem, h.mem_iff hq t]
  constructor
  · rintro ⟨⟨_, hall⟩, ht⟩
    exact ⟨ht, hall⟩
  · rintro ⟨ht, hall⟩
    exact ⟨⟨hsub t ht, hall⟩, ht⟩

/-- **`executeDAG` returns**, for any processors; and unless a node ends it, the nodes that have run
are exactly those whose incoming connections were all taken. -/
theorem executeDAG_returns (hids : ∀ id node, nodeMap.lookup id = some node → node.id = id)
    (e : Engine V) (orders : Orders) (ctx : WorkflowContext V) :
    ∃ left result, e.executeDAG nodeMap connections orders ctx = some (left, result) ∧
      ((∃ r ∈ result.nodeResults, r.Ends) ∨ ∃ branch : String → Option ℤ,
        (∀ r ∈ result.nodeResults, r.branchIndex = branch r.nodeId) ∧
        ∀ t, t ∈ result.executed ↔ t ∈ nodeMap ∧ ∀ m j, t ∈ output connections m j →
          m ∈ result.executed ∧ Takes (branch m) j) := by
  have hmem : ∀ t, t ∈ initialDegrees nodeMap connections orders.nodes orders.connections ↔ _ :=
    mem_initialDegrees _ _
  have hsub : ∀ id ∈ nodeMap, id ∈ (initialDegrees nodeMap connections orders.nodes
      orders.connections).keys := fun id hid => mem_keys.mpr ((hmem id).mpr (.inl hid))
  have hknown : ∀ t, 0 < edgesInto connections.keys (outputs connections) t →
      t ∈ (initialDegrees nodeMap connections orders.nodes orders.connections).keys := by
    intro t ht
    obtain ⟨m, _, hm⟩ := Finset.exists_ne_zero_of_sum_ne_zero ht.ne'
    exact mem_keys.mpr ((hmem t).mpr (.inr ⟨m, count_pos_iff.mp (by omega)⟩))
  unfold executeDAG
  dsimp only
  split_ifs with hstart
  · have h := Tracks.initial nodeMap connections orders ctx
      { status := .failed, message := "workflow has circular dependency", stream := ctx.stream } rfl
    exact ⟨_, _, rfl, .inr ⟨_, h.branches, h.mem_executed_iff hstart.1 hsub⟩⟩
  · have h := Tracks.initial nodeMap connections orders ctx
      { stream := ctx.stream } rfl
    obtain ⟨left, result, hloop, hends | ⟨branch, popped, s, h, hq, rfl⟩⟩ :=
      h.loop hknown hids e (Nat.le_add_right _ _)
    · exact ⟨left, result, hloop, .inl hends⟩
    · exact ⟨left, s.result, hloop, .inr ⟨branch, h.branches, h.mem_executed_iff hq hsub⟩⟩

end Graph

end Nightingale.Pipeline
