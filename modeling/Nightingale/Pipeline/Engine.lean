import Nightingale.Models.TagFilter

/-!
# Pipeline/Engine — workflows

`WorkflowEngine.executeDAG` (`alert/pipeline/engine/engine.go`) runs the nodes of a workflow in the
order of Kahn's algorithm.  The counters are the numbers of *all* incoming connections; a node that
has run decrements those of the targets of the outputs it takes:

    inDegree ──▸ queue of the nodes at 0 ──pop──▸ executeNode ──▸ failed, terminated or streaming
       ▴                                              │            return
       └──────── − 1 for every target ◂──── outputs taken

All nodes work on one shared context.  A processor may change it in place, and may also return
another one, which the engine looks at and then drops.
-/

namespace Nightingale.Pipeline

/-! ## Nodes and processors -/

/-- `WorkflowNode`, without the position in the editor and the sleep between retries. -/
structure WorkflowNode where
  id : String
  name : String := ""
  typ : String := ""
  config : Json := .null
  disabled : Bool := false
  continueOnFail : Bool := false
  retryOnFail : Bool := false
  maxRetries : ℤ := 1

/-- `Connections`: the targets of each output of each node. -/
abbrev Connections := GoMap String (List (List String))

/-- `WorkflowContext`.  `data` stands for what only processors use (`Env`, `Vars`, `Metadata`,
`Output`), and a channel is known by a number. -/
structure WorkflowContext (V : Type) where
  event : Option AlertCurEvent
  data : V
  stream : Bool := false
  streamChan : Option ℕ := none

/-- The context a processor returns: none, the one it was given, or another. -/
inductive Returned (V : Type) where
  | nil
  | same
  | fresh (ctx : WorkflowContext V)

/-- The context returned, when the one given has become `shared`. -/
def Returned.get {V : Type} (shared : WorkflowContext V) : Returned V → Option (WorkflowContext V)
  | .nil => none
  | .same => some shared
  | .fresh ctx => some ctx

/-- `NodeOutput`. -/
structure NodeOutput (V : Type) where
  wfCtx : Returned V := .same
  message : String := ""
  terminate : Bool := false
  branchIndex : Option ℤ := none
  stream : Bool := false
  streamChan : Option ℕ := none

/-- A processor, ordinary or branching.  It is told which attempt this is, and answers with the
context it was given as it leaves it, and with its result. -/
inductive Processor (V : Type) where
  | plain (process :
      ℕ → WorkflowContext V → WorkflowContext V × Except String (Returned V × String))
  | branch (processWithBranch :
      ℕ → WorkflowContext V → WorkflowContext V × Except String (Option (NodeOutput V)))

/-- The texts of a node's `Status`; `unset` is the empty one. -/
inductive NodeStatus where
  | unset
  | success
  | failed
  | skipped
  | terminated
  | streaming
  deriving DecidableEq

/-- `NodeExecutionResult`, without its times. -/
structure NodeExecutionResult where
  nodeId : String
  nodeName : String
  nodeType : String
  status : NodeStatus := .unset
  message : String := ""
  error : String := ""
  branchIndex : Option ℤ := none
  deriving DecidableEq

/-- The processors of the running program. -/
structure Engine (V : Type) where
  getProcessorByType : String → Json → Except String (Processor V)

section Node

variable {V : Type}

/-- One attempt of a processor: an error, or the result and the output of the node. -/
def attempt (base : NodeExecutionResult) (ctx : WorkflowContext V) (retries : ℕ) :
    Processor V → WorkflowContext V × Except String (NodeExecutionResult × Option (NodeOutput V))
  | .branch processWithBranch =>
    match processWithBranch retries ctx with
    | (ctx, .error err) => (ctx, .error err)
    | (ctx, .ok none) => (ctx, .ok ({ base with status := .success }, none))
    | (ctx, .ok (some output)) =>
      (ctx, .ok
        ({ base with
            status := if output.terminate then .terminated else .success
            message := output.message
            branchIndex := output.branchIndex },
          some output))
  | .plain process =>
    match process retries ctx with
    | (ctx, .error err) => (ctx, .error err)
    | (ctx, .ok (returned, msg)) =>
      let new := returned.get ctx
      let dropped := new.all fun c => c.event.isNone
      let output : Option (NodeOutput V) := new.bind fun c =>
        if c.stream ∧ c.streamChan ≠ none then
          some { wfCtx := returned, message := msg, stream := true, streamChan := c.streamChan }
        else none
      (ctx, .ok
        ({ base with status := if dropped then .terminated else .success, message := msg }, output))

/-- The retry loop of `executeNode`, with the number of retries left. -/
def attempts (base : NodeExecutionResult) (processor : Processor V) :
    ℕ → ℕ → WorkflowContext V →
      WorkflowContext V × NodeExecutionResult × Option (NodeOutput V)
  | 0, retries, ctx =>
    match attempt base ctx retries processor with
    | (ctx, .ok result) => (ctx, result)
    | (ctx, .error err) => (ctx, { base with status := .failed, error := err }, none)
  | left + 1, retries, ctx =>
    match attempt base ctx retries processor with
    | (ctx, .ok result) => (ctx, result)
    | (ctx, .error _) => attempts base processor left (retries + 1) ctx

/-- `WorkflowEngine.executeNode`; a negative number of retries means no attempt at all. -/
def Engine.executeNode (e : Engine V) (node : WorkflowNode) (ctx : WorkflowContext V) :
    WorkflowContext V × NodeExecutionResult × Option (NodeOutput V) :=
  let base : NodeExecutionResult :=
    { nodeId := node.id, nodeName := node.name, nodeType := node.typ }
  if node.disabled then
    (ctx, { base with status := .skipped, message := "node is disabled" }, none)
  else
    match e.getProcessorByType node.typ node.config with
    | .error err =>
      (ctx, { base with status := .failed, error := s!"failed to get processor: {err}" }, none)
    | .ok processor =>
      let maxRetries := if node.retryOnFail then node.maxRetries else 0
      if maxRetries < 0 then (ctx, base, none)
      else attempts base processor maxRetries.toNat 0 ctx

end Node

/-! ## The run of a workflow -/

/-- The statuses of a `WorkflowResult`. -/
inductive ExecutionStatus where
  | success
  | failed
  | streaming
  deriving DecidableEq

/-- `WorkflowResult`. -/
structure WorkflowResult where
  event : Option AlertCurEvent := none
  status : ExecutionStatus := .success
  message : String := ""
  nodeResults : List NodeExecutionResult := []
  errorNode : String := ""
  stream : Bool := false
  streamChan : Option ℕ := none

/-- The node map of `Execute`: the nodes under their ids, a node without a number of retries having
one.  Of two nodes with one id the later stays. -/
def buildNodeMap (nodes : List WorkflowNode) : GoMap String WorkflowNode :=
  nodes.foldl (fun nodeMap node => nodeMap.insert node.id
    { node with maxRetries := if node.maxRetries = 0 then 1 else node.maxRetries }) ∅

/-- The value of a counter. -/
def degree (m : GoMap String ℤ) (id : String) : ℤ := (m.lookup id).getD 0

/-- `inDegree` before the first node runs: zero for every node, plus one per connection. -/
def initialDegrees (nodeMap : GoMap String WorkflowNode) (connections : Connections)
    (nodeOrder connOrder : MapOrder String) : GoMap String ℤ :=
  let zeros := (nodeOrder.list nodeMap.keys).foldl (fun m id => m.insert id 0) (∅ : GoMap String ℤ)
  (connOrder.list connections.keys).foldl (fun m id =>
    ((connections.lookup id).getD []).foldl (fun m targets =>
      targets.foldl (fun m target => m.insert target (degree m target + 1)) m) m) zeros

/-- `shouldFollowBranch`: without a branch result only the first output is taken. -/
def shouldFollowBranch (id : String) (outputIndex : ℕ) (branchResults : GoMap String (Option ℤ)) :
    Bool :=
  match branchResults.lookup id with
  | none => outputIndex == 0
  | some none => true
  | some (some branchIndex) => (outputIndex : ℤ) == branchIndex

/-- The variables of the loop of `executeDAG`. -/
structure Progress (V : Type) where
  inDegree : GoMap String ℤ
  queue : List String
  executed : Finset String := ∅
  branchResults : GoMap String (Option ℤ) := ∅
  ctx : WorkflowContext V
  result : WorkflowResult

section Run

variable {V : Type}

/-- A connection into `target` is taken. -/
def takeConnection (s : Progress V) (target : String) : Progress V :=
  { s with
    inDegree := s.inDegree.insert target (degree s.inDegree target - 1)
    queue := if degree s.inDegree target - 1 = 0 then s.queue ++ [target] else s.queue }

/-- The update of the successors of a node that has run. -/
def takeOutputs (connections : Connections) (id : String) (s : Progress V) : Progress V :=
  (((connections.lookup id).getD []).zipIdx).foldl (fun s output =>
    if shouldFollowBranch id output.2 s.branchResults then output.1.foldl takeConnection s
    else s) s

/-- One round of the loop of `executeDAG`, on the node at the head of the queue: the loop goes on,
or `executeDAG` returns. -/
def Engine.round (e : Engine V) (nodeMap : GoMap String WorkflowNode) (connections : Connections)
    (s : Progress V) (id : String) (rest : List String) :
    Progress V ⊕ WorkflowContext V × WorkflowResult :=
  let s := { s with queue := rest }
  if id ∈ s.executed then .inl s
  else
    match nodeMap.lookup id with
    | none => .inl s
    | some node =>
      let name := node.name
      let (ctx, nodeResult, nodeOutput) := e.executeNode node s.ctx
      match nodeOutput.bind fun output => if output.stream then output.streamChan else none with
      | some chan =>
        .inr (ctx,
          { s.result with
            stream := true
            streamChan := some chan
            event := ctx.event
            status := .streaming
            message := s!"streaming output from node: {name}"
            nodeResults := s.result.nodeResults ++
              [{ nodeResult with status := .streaming, message := "streaming in progress" }] })
      | none =>
        let result := { s.result with nodeResults := s.result.nodeResults ++ [nodeResult] }
        let s := { s with
          ctx := ctx
          result := result
          executed := insert id s.executed
          branchResults :=
            if nodeResult.branchIndex ≠ none then s.branchResults.insert id nodeResult.branchIndex
            else s.branchResults }
        if nodeResult.status = .failed ∧ !node.continueOnFail then
          let error := nodeResult.error
          .inr (ctx, { result with
            status := .failed
            errorNode := id
            message := s!"node {name} failed: {error}" })
        else if nodeResult.status = .terminated then
          .inr (ctx, { result with message := s!"workflow terminated at node {name}" })
        else .inl (takeOutputs connections id s)

/-- The loop of `executeDAG`, for at most `fuel` rounds. -/
def Engine.loop (e : Engine V) (nodeMap : GoMap String WorkflowNode) (connections : Connections) :
    ℕ → Progress V → Option (WorkflowContext V × WorkflowResult)
  | fuel, s =>
    match s.queue, fuel with
    | [], _ => some (s.ctx, s.result)
    | _ :: _, 0 => none
    | id :: rest, fuel + 1 =>
      match e.round nodeMap connections s id rest with
      | .inl s => e.loop nodeMap connections fuel s
      | .inr returned => some returned

/-- The orders in which `executeDAG` ranges over its maps. -/
structure Orders where
  nodes : MapOrder String
  connections : MapOrder String
  starts : MapOrder String

/-- `WorkflowEngine.executeDAG`: the context as it is left, and the result.  There are as many
rounds as counters. -/
def Engine.executeDAG (e : Engine V) (nodeMap : GoMap String WorkflowNode)
    (connections : Connections) (orders : Orders) (ctx : WorkflowContext V) :
    Option (WorkflowContext V × WorkflowResult) :=
  let inDegree := initialDegrees nodeMap connections orders.nodes orders.connections
  let queue := (orders.starts.list inDegree.keys).filter fun id => degree inDegree id = 0
  let result : WorkflowResult := { stream := ctx.stream }
  if queue = [] ∧ 0 < nodeMap.keys.card then
    some (ctx, { result with status := .failed, message := "workflow has circular dependency" })
  else
    e.loop nodeMap connections inDegree.keys.card
      { inDegree := inDegree, queue := queue, ctx := ctx, result := result }

end Run

/-! ## The `event_update` processor -/

/-- What `EventUpdateConfig.Process` relies on: `request` posts the event and answers with the body
of the response, `unmarshal` is `json.Unmarshal` over an event, which may have written fields when
it fails. -/
structure EventUpdateConfig where
  text : String
  request : Option AlertCurEvent → Except String String
  unmarshal : String → AlertCurEvent → AlertCurEvent × Option String

/-- `EventUpdateConfig.Process`: the response is unmarshalled over the event itself. -/
def EventUpdateConfig.process {V : Type} (c : EventUpdateConfig) (wfCtx : WorkflowContext V) :
    WorkflowContext V × Except String (Returned V × String) :=
  match c.request wfCtx.event with
  | .error err => (wfCtx, .error err)
  | .ok body =>
    let updated := wfCtx.event.map (c.unmarshal body)
    let wfCtx := { wfCtx with event := updated.map Prod.fst }
    match updated.bind Prod.snd with
    | some err =>
      let text := c.text
      (wfCtx, .error s!"failed to unmarshal response body: {err} processor: {text}")
    | none => (wfCtx, .ok (.same, ""))

end Nightingale.Pipeline
