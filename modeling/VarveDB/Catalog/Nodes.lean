import VarveDB.Catalog.Repository

/-! The nodes and query groups of a cluster and its committed feature level. -/
namespace VarveDB.Catalog
open Library

inductive NodeMode where
  | core
  | query
  | ingest
  | compact
  | process
  | all
  deriving DecidableEq

inductive NodeState where
  | running (registeredTimeNs : Int)
  | stopping (stoppedTimeNs : Int)
  | stopped (stoppedTimeNs ackTimeNs : Int) (finalSnapshotSequence : Option Nat)
  | removing (requestedTimeNs : Int) (finalSnapshotSequence : Option Nat)
  deriving DecidableEq

namespace NodeState

def isRunning : NodeState → Bool
  | running _ => true
  | _ => false

def isActive : NodeState → Bool
  | running _ | stopping _ => true
  | _ => false

def asStr : NodeState → String
  | running _ => "running"
  | stopping _ => "stopping"
  | stopped .. => "stopped"
  | removing .. => "removing"

end NodeState

structure NodeDefinition where
  nodeId : String
  nodeCatalogId : Nat
  instanceId : String
  mode : List NodeMode
  coreCount : Nat
  state : NodeState
  connInfo : Option String
  cliParams : Option String
  rowDeletePredicateVersion : Nat
  featureLevel : FeatureLevel
  deriving DecidableEq

variable (n : NodeDefinition)

namespace NodeDefinition

def isCompactor : Bool := n.mode.contains .compact || n.mode.contains .all

def canReRegister (instanceId : String) : Bool :=
  match n.state with
  | .stopped .. => true
  | .running _ | .stopping _ => n.instanceId = instanceId
  | .removing .. => false

end NodeDefinition

abbrev ReplicationFactor := { n : Nat // 0 < n }

structure QueryGroupDefinition where
  id : Nat
  name : String
  members : List Nat
  replicationFactor : ReplicationFactor
  deriving DecidableEq

instance : CatalogResource NodeDefinition := ⟨"nodes", NodeDefinition.nodeId, 2 ^ 32 - 1⟩

instance : CatalogResource QueryGroupDefinition := ⟨"query_groups", QueryGroupDefinition.name, 2 ^ 32 - 1⟩

structure ClusterCatalog where
  committedFeatureLevel : FeatureLevel
  nodes : Repository NodeDefinition
  queryGroups : Repository QueryGroupDefinition
  deriving DecidableEq

variable (level : FeatureLevel) {f : NodeState → Apply NodeState} {nodeCatalogId : Nat} {r : ClusterRecord}

def ClusterCatalog.new : ClusterCatalog := ⟨level, .new, .new⟩

structure AdvanceFeatureLevel where
  committed : FeatureLevel
  deriving DecidableEq

structure RegisterNode where
  nodeCatalogId : Nat
  nodeId : String
  instanceId : String
  registeredTimeNs : Int
  coreCount : Nat
  mode : List NodeMode
  connInfo : Option String
  cliParams : Option String
  rowDeletePredicateVersion : Nat
  featureLevel : FeatureLevel
  deriving DecidableEq

structure StopNode where
  nodeCatalogId : Nat
  stoppedTimeNs : Int
  deriving DecidableEq

structure RequestStopNode where
  nodeCatalogId : Nat
  stoppedTimeNs : Int
  deriving DecidableEq

structure AckStopNode where
  nodeCatalogId : Nat
  ackTimeNs : Int
  finalSnapshotSequence : Option Nat
  deriving DecidableEq

structure RemoveNode where
  nodeCatalogId : Nat
  nodeId : String
  requestedTimeNs : Int
  deriving DecidableEq

structure UnregisterNode where
  nodeCatalogId : Nat
  nodeId : String
  deriving DecidableEq

structure QueryGroupFields where
  queryGroupId : Nat
  queryGroupName : String
  members : List Nat
  replicationFactor : Nat
  deriving DecidableEq

structure CreateQueryGroup extends QueryGroupFields
  deriving DecidableEq

structure UpdateQueryGroup extends QueryGroupFields
  deriving DecidableEq

structure DeleteQueryGroup where
  queryGroupId : Nat
  deriving DecidableEq

def AdvanceFeatureLevel.apply (r : AdvanceFeatureLevel) (c : ClusterCatalog) : Apply ClusterCatalog :=
  .ok { c with committedFeatureLevel := r.committed }

def RegisterNode.definition (r : RegisterNode) (nodeCatalogId : Nat) : NodeDefinition where
  nodeId := r.nodeId
  nodeCatalogId := nodeCatalogId
  instanceId := r.instanceId
  mode := r.mode
  coreCount := r.coreCount
  state := .running r.registeredTimeNs
  connInfo := r.connInfo
  cliParams := r.cliParams
  rowDeletePredicateVersion := r.rowDeletePredicateVersion
  featureLevel := r.featureLevel

def RegisterNode.apply (r : RegisterNode) (c : ClusterCatalog) : Apply ClusterCatalog :=
  match c.nodes.getByName r.nodeId with
  | some node =>
    if !node.canReRegister r.instanceId then
      .error (.error (s!"RegisterNode: invalid node re-registration: node '{r.nodeId}' is {node.state.asStr} with " ++
        s!"instance_id '{node.instanceId}' but received registration with instance_id '{r.instanceId}'"))
    else do
      let nodes ← applied (c.nodes.update r.nodeCatalogId (r.definition node.nodeCatalogId))
      .ok { c with nodes }
  | none => do
    let nodes ← applied (c.nodes.insert r.nodeCatalogId (r.definition r.nodeCatalogId))
    .ok { c with nodes }

def modifyNodeState (c : ClusterCatalog) (nodeCatalogId : Nat) (f : NodeState → Apply NodeState) :
    Apply ClusterCatalog := do
  let nodes ← c.nodes.modifyById nodeCatalogId fun n => do
    let state ← f n.state
    .ok { n with state }
  .ok { c with nodes }

def StopNode.apply (r : StopNode) (c : ClusterCatalog) : Apply ClusterCatalog :=
  modifyNodeState c r.nodeCatalogId fun _ => .ok (.stopped r.stoppedTimeNs r.stoppedTimeNs none)

def RequestStopNode.apply (r : RequestStopNode) (c : ClusterCatalog) : Apply ClusterCatalog :=
  modifyNodeState c r.nodeCatalogId fun
    | .running _ => .ok (.stopping r.stoppedTimeNs)
    | state => .ok state

def AckStopNode.apply (r : AckStopNode) (c : ClusterCatalog) : Apply ClusterCatalog :=
  modifyNodeState c r.nodeCatalogId fun
    | .stopping stoppedTimeNs => .ok (.stopped stoppedTimeNs r.ackTimeNs r.finalSnapshotSequence)
    | state => .ok state

def RemoveNode.apply (r : RemoveNode) (c : ClusterCatalog) : Apply ClusterCatalog :=
  modifyNodeState c r.nodeCatalogId fun
    | .stopped _ _ finalSnapshotSequence => .ok (.removing r.requestedTimeNs finalSnapshotSequence)
    | .removing requestedTimeNs finalSnapshotSequence => .ok (.removing requestedTimeNs finalSnapshotSequence)
    | _ => .error (.error s!"RemoveNode: node '{r.nodeId}' is not in Stopped state")

def UnregisterNode.apply (r : UnregisterNode) (c : ClusterCatalog) : Apply ClusterCatalog :=
  match (c.nodes.getById r.nodeCatalogId).map NodeDefinition.state with
  | none | some (.removing ..) => .ok { c with nodes := c.nodes.remove r.nodeCatalogId }
  | _ => .error (.error s!"UnregisterNode: node '{r.nodeId}' is not in Removing state")

def decodeReplicationFactor (record : String) (value : Nat) : Apply ReplicationFactor :=
  if h : 0 < value then .ok ⟨value, h⟩ else .error (.error s!"{record}: invalid replication factor {value}")

def QueryGroupFields.definition (r : QueryGroupFields) (replicationFactor : ReplicationFactor) : QueryGroupDefinition :=
  ⟨r.queryGroupId, r.queryGroupName, r.members, replicationFactor⟩

def CreateQueryGroup.apply (r : CreateQueryGroup) (c : ClusterCatalog) : Apply ClusterCatalog :=
  if c.queryGroups.containsId r.queryGroupId then
    .error (.error s!"CreateQueryGroup: query group id {r.queryGroupId} already exists")
  else if c.queryGroups.containsName r.queryGroupName then
    .error (.error s!"CreateQueryGroup: query group name '{r.queryGroupName}' already exists")
  else do
    let replicationFactor ← decodeReplicationFactor "CreateQueryGroup" r.replicationFactor
    let queryGroups ← applied (c.queryGroups.insert r.queryGroupId (r.definition replicationFactor))
    .ok { c with queryGroups }

def UpdateQueryGroup.apply (r : UpdateQueryGroup) (c : ClusterCatalog) : Apply ClusterCatalog :=
  if !c.queryGroups.containsId r.queryGroupId then
    .error (.error s!"UpdateQueryGroup: query group id {r.queryGroupId} does not exist")
  else if (c.queryGroups.nameToId r.queryGroupName).any (· ≠ r.queryGroupId) then
    .error (.error s!"UpdateQueryGroup: query group name '{r.queryGroupName}' already exists")
  else do
    let replicationFactor ← decodeReplicationFactor "UpdateQueryGroup" r.replicationFactor
    let queryGroups ← applied (c.queryGroups.update r.queryGroupId (r.definition replicationFactor))
    .ok { c with queryGroups }

def DeleteQueryGroup.apply (r : DeleteQueryGroup) (c : ClusterCatalog) : Apply ClusterCatalog :=
  if !c.queryGroups.containsId r.queryGroupId then
    .error (.error s!"DeleteQueryGroup: query group id {r.queryGroupId} does not exist")
  else .ok { c with queryGroups := c.queryGroups.remove r.queryGroupId }

inductive ClusterRecord where
  | advanceFeatureLevel (r : AdvanceFeatureLevel)
  | registerNode (r : RegisterNode)
  | stopNode (r : StopNode)
  | requestStopNode (r : RequestStopNode)
  | ackStopNode (r : AckStopNode)
  | removeNode (r : RemoveNode)
  | unregisterNode (r : UnregisterNode)
  | createQueryGroup (r : CreateQueryGroup)
  | updateQueryGroup (r : UpdateQueryGroup)
  | deleteQueryGroup (r : DeleteQueryGroup)
  deriving DecidableEq

namespace ClusterRecord

def id : ClusterRecord → RecordId
  | advanceFeatureLevel _ => .advanceFeatureLevel
  | registerNode _ => .registerNode
  | stopNode _ => .stopNode
  | requestStopNode _ => .requestStopNode
  | ackStopNode _ => .ackStopNode
  | removeNode _ => .removeNode
  | unregisterNode _ => .unregisterNode
  | createQueryGroup _ => .createQueryGroup
  | updateQueryGroup _ => .updateQueryGroup
  | deleteQueryGroup _ => .deleteQueryGroup

def isAdvance : ClusterRecord → Bool
  | advanceFeatureLevel _ => true
  | _ => false

def apply : ClusterRecord → ClusterCatalog → Apply ClusterCatalog
  | advanceFeatureLevel r => r.apply
  | registerNode r => r.apply
  | stopNode r => r.apply
  | requestStopNode r => r.apply
  | ackStopNode r => r.apply
  | removeNode r => r.apply
  | unregisterNode r => r.apply
  | createQueryGroup r => r.apply
  | updateQueryGroup r => r.apply
  | deleteQueryGroup r => r.apply

end ClusterRecord

structure ClusterCatalog.Quieter (c c' : ClusterCatalog) : Prop where
  level : c'.committedFeatureLevel = c.committedFeatureLevel
  consistent : c'.nodes.Consistent
  nodes : ∀ id node', c'.nodes.getById id = some node' → ∃ node, c.nodes.getById id = some node ∧
    node'.nodeId = node.nodeId ∧ node'.featureLevel = node.featureLevel ∧
    (node'.state.isActive = true → node.state.isActive = true)

section Effects
variable {c c' : ClusterCatalog}

section
variable (h : c.nodes.Consistent)
include h

theorem quieter_modifyNodeState
    (hf : ∀ state state', f state = .ok state' → state'.isActive = true → state.isActive = true)
    (hmodify : modifyNodeState c nodeCatalogId f = .ok c') : c.Quieter c' := by
  obtain ⟨nodes, hnodes, ⟨⟩⟩ := bind_eq_ok.mp hmodify
  obtain ⟨node, node', hnode, hnode', rfl, hname⟩ := Repository.of_modifyById hnodes
  obtain ⟨state, hstate, ⟨⟩⟩ := bind_eq_ok.mp hnode'
  refine ⟨rfl, h.updated hname, fun id n hn => ?_⟩
  rw [Repository.getById_updated] at hn
  split at hn
  · rename_i hid
    cases hn
    exact ⟨node, hid ▸ hnode, rfl, rfl, hf _ _ hstate⟩
  · exact ⟨n, hn, rfl, rfl, fun h => h⟩

private theorem Quieter.of_nodes_eq (hlevel : c'.committedFeatureLevel = c.committedFeatureLevel)
    (hnodes : c'.nodes = c.nodes) : c.Quieter c' :=
  ⟨hlevel, hnodes ▸ h, fun _ node' hnode' => ⟨node', hnodes ▸ hnode', rfl, rfl, fun h => h⟩⟩

/-- What a registration that is not refused does. -/
theorem RegisterNode.of_apply {r : RegisterNode} (happly : r.apply c = .ok c') :
    c'.committedFeatureLevel = c.committedFeatureLevel ∧ c'.nodes.Consistent ∧ ∃ nodeCatalogId, ∀ id,
      c'.nodes.getById id = if id = r.nodeCatalogId then some (r.definition nodeCatalogId) else c.nodes.getById id := by
  unfold RegisterNode.apply at happly
  split at happly
  · rename_i node hnode
    split at happly
    · cases happly
    · obtain ⟨nodes, hnodes, ⟨⟩⟩ := bind_eq_ok.mp happly
      obtain ⟨rfl, hname⟩ := Repository.of_update hnodes
      exact ⟨rfl, h.updated hname, _, fun id => Repository.getById_updated⟩
  · rename_i hnone
    obtain ⟨nodes, hnodes, ⟨⟩⟩ := bind_eq_ok.mp happly
    obtain rfl := Repository.eq_inserted_of_insert hnodes
    refine ⟨rfl, h.inserted fun id' howner => ?_, _, fun id => Repository.getById_inserted⟩
    have howner : c.nodes.nameToId r.nodeId = some id' := howner
    rw [h.nameToId_eq_none_of_getByName hnone] at howner
    cases howner

open ClusterRecord

/-- What a record does that neither registers a node nor advances the level. -/
theorem ClusterRecord.quieter (happly : r.apply c = .ok c') (hregister : ∀ a, r ≠ .registerNode a)
    (hadvance : ∀ a, r ≠ .advanceFeatureLevel a) : c.Quieter c' := by
  cases r with
  | advanceFeatureLevel a => exact absurd rfl (hadvance a)
  | registerNode a => exact absurd rfl (hregister a)
  | stopNode a =>
    rw [apply, StopNode.apply] at happly
    refine quieter_modifyNodeState h (fun state state' hf hactive => ?_) happly
    cases hf
    cases hactive
  | requestStopNode | ackStopNode =>
    simp only [apply, RequestStopNode.apply, AckStopNode.apply] at happly
    refine quieter_modifyNodeState h (fun state state' hf hactive => ?_) happly
    cases state <;> cases hf <;> first | rfl | exact hactive
  | removeNode a =>
    rw [apply, RemoveNode.apply] at happly
    refine quieter_modifyNodeState h (fun state state' hf hactive => ?_) happly
    cases state <;> cases hf <;> cases hactive
  | unregisterNode a =>
    have hremove : c' = { c with nodes := c.nodes.remove a.nodeCatalogId } := by
      rw [apply, UnregisterNode.apply] at happly
      split at happly <;> cases happly <;> rfl
    subst hremove
    refine ⟨rfl, h.remove _, fun id node' hnode' => ?_⟩
    rw [Repository.getById_remove] at hnode'
    split at hnode'
    · cases hnode'
    · exact ⟨node', hnode', rfl, rfl, fun h => h⟩
  | createQueryGroup | updateQueryGroup =>
    obtain ⟨-, hrest⟩ := ite_error_eq_ok.mp happly
    obtain ⟨-, hrest⟩ := ite_error_eq_ok.mp hrest
    obtain ⟨factor, -, hrest⟩ := bind_eq_ok.mp hrest
    obtain ⟨groups, -, ⟨⟩⟩ := bind_eq_ok.mp hrest
    exact Quieter.of_nodes_eq h rfl rfl
  | deleteQueryGroup a =>
    obtain ⟨-, ⟨⟩⟩ := ite_error_eq_ok.mp happly
    exact Quieter.of_nodes_eq h rfl rfl

end

private theorem modifyNodeState_withLevel (hmodify : modifyNodeState c nodeCatalogId f = .ok c') :
    modifyNodeState { c with committedFeatureLevel := level } nodeCatalogId f =
      .ok { c' with committedFeatureLevel := level } := by
  obtain ⟨nodes, hnodes, ⟨⟩⟩ := bind_eq_ok.mp hmodify
  exact bind_eq_ok.mpr ⟨nodes, hnodes, rfl⟩

/-- What a record does does not depend on the level, which it keeps unless it advances it. -/
theorem ClusterRecord.apply_withLevel (happly : r.apply c = .ok c') :
    r.apply { c with committedFeatureLevel := level } =
      .ok { c' with committedFeatureLevel := if r.isAdvance then c'.committedFeatureLevel else level } := by
  cases r with
  | advanceFeatureLevel a =>
    cases happly
    rfl
  | registerNode a =>
    rw [apply, RegisterNode.apply] at happly ⊢
    split at happly
    · rename_i node hnode
      simp only [hnode]
      split at happly
      · cases happly
      · obtain ⟨nodes, hnodes, ⟨⟩⟩ := bind_eq_ok.mp happly
        rename_i hre
        rw [if_neg hre]
        exact bind_eq_ok.mpr ⟨nodes, hnodes, rfl⟩
    · rename_i hnone
      simp only [hnone]
      obtain ⟨nodes, hnodes, ⟨⟩⟩ := bind_eq_ok.mp happly
      exact bind_eq_ok.mpr ⟨nodes, hnodes, rfl⟩
  | unregisterNode a =>
    rw [apply, UnregisterNode.apply] at happly ⊢
    split at happly <;> cases happly <;> simp only [*] <;> rfl
  | createQueryGroup a | updateQueryGroup a =>
    obtain ⟨hid, hrest⟩ := ite_error_eq_ok.mp happly
    obtain ⟨hname, hrest⟩ := ite_error_eq_ok.mp hrest
    obtain ⟨factor, hfactor, hrest⟩ := bind_eq_ok.mp hrest
    obtain ⟨groups, hgroups, ⟨⟩⟩ := bind_eq_ok.mp hrest
    exact ite_error_eq_ok.mpr ⟨hid, ite_error_eq_ok.mpr ⟨hname,
      bind_eq_ok.mpr ⟨factor, hfactor, bind_eq_ok.mpr ⟨groups, hgroups, rfl⟩⟩⟩⟩
  | deleteQueryGroup a =>
    obtain ⟨hid, ⟨⟩⟩ := ite_error_eq_ok.mp happly
    exact ite_error_eq_ok.mpr ⟨hid, rfl⟩
  | _ =>
    simp only [apply, StopNode.apply, RequestStopNode.apply, AckStopNode.apply, RemoveNode.apply] at happly ⊢
    exact modifyNodeState_withLevel level happly

end Effects

section Prepare

variable (nodeId : String) (id : Nat) (c : ClusterCatalog) (stoppedTimeNs : Int)

def ClusterCatalog.featureLevelConsensusOfRunningNodes (binary : Binary) (registeringNodeId : String) : FeatureLevel :=
  c.nodes.repo.values.foldl (fun level node =>
    if node.nodeId = registeringNodeId then level
    else if !node.state.isRunning then level
    else level.min node.featureLevel) binary.featureLevel

def ClusterCatalog.proposeNewFeatureLevel (binary : Binary) (registeringNodeId : String) : Option FeatureLevel :=
  let proposed := c.featureLevelConsensusOfRunningNodes binary registeringNodeId
  if c.committedFeatureLevel < proposed then some proposed else none

structure RegisterNodeArgs where
  nodeId : String
  coreCount : Nat
  mode : List NodeMode
  instanceId : String
  connInfo : Option String
  cliParams : Option String
  registeredTimeNs : Int
  rowDeletePredicateVersion : Nat
  deriving DecidableEq

def RegisterNodeArgs.record (args : RegisterNodeArgs) (nodeCatalogId : Nat) (level : FeatureLevel) : RegisterNode where
  nodeCatalogId := nodeCatalogId
  nodeId := args.nodeId
  instanceId := args.instanceId
  registeredTimeNs := args.registeredTimeNs
  coreCount := args.coreCount
  mode := args.mode
  connInfo := args.connInfo
  cliParams := args.cliParams
  rowDeletePredicateVersion := args.rowDeletePredicateVersion
  featureLevel := level

def RegisterNode.prepare (binary : Binary) (args : RegisterNodeArgs) (c : ClusterCatalog) :
    Except CatalogError (List ClusterRecord) :=
  let existing := c.nodes.getByName args.nodeId
  if existing.any fun node => !node.canReRegister args.instanceId then .error .invalidNodeRegistration
  else
    let nodeCatalogId := (existing.map NodeDefinition.nodeCatalogId).getD c.nodes.nextId
    .ok (.registerNode (args.record nodeCatalogId binary.featureLevel) ::
      ((c.proposeNewFeatureLevel binary args.nodeId).map fun target => .advanceFeatureLevel ⟨target⟩).toList)

def ClusterCatalog.requireNode (nodeId : String) : Except CatalogError NodeDefinition :=
  match c.nodes.getByName nodeId with
  | some node => .ok node
  | none => .error (.notFound s!"node '{nodeId}'")

def StopNode.prepare (c : ClusterCatalog) : Except CatalogError (List ClusterRecord) := do
  let node ← c.requireNode nodeId
  if !node.state.isRunning then .error (.nodeAlreadyStopped nodeId)
  else .ok [.stopNode ⟨node.nodeCatalogId, stoppedTimeNs⟩]

def RequestStopNode.prepare (c : ClusterCatalog) : Except CatalogError (List ClusterRecord) := do
  let node ← c.requireNode nodeId
  if !node.state.isRunning then .error .idempotentNoOp
  else .ok [.requestStopNode ⟨node.nodeCatalogId, stoppedTimeNs⟩]

def AckStopNode.prepare (ackTimeNs : Int) (finalSnapshotSequence : Option Nat) (c : ClusterCatalog) :
    Except CatalogError (List ClusterRecord) := do
  let node ← c.requireNode nodeId
  match node.state with
  | .stopping _ => .ok [.ackStopNode ⟨node.nodeCatalogId, ackTimeNs, finalSnapshotSequence⟩]
  | state => .error (.invalidStopAck nodeId state.asStr)

def RemoveNode.prepare (requestedTimeNs : Int) (c : ClusterCatalog) : Except CatalogError (List ClusterRecord) := do
  let node ← c.requireNode nodeId
  if node.isCompactor then .error (.nodeModeNotRemovable nodeId)
  else match node.state with
    | .stopped .. =>
      match c.queryGroups.repo.values.find? fun group => group.members.contains node.nodeCatalogId with
      | some group => .error (.nodeInQueryGroup nodeId group.name group.id)
      | none => .ok [.removeNode ⟨node.nodeCatalogId, nodeId, requestedTimeNs⟩]
    | .removing .. => .error .idempotentNoOp
    | state => .error (.nodeNotFullyStopped nodeId state.asStr)

def UnregisterNode.prepare : Except CatalogError (List ClusterRecord) := do
  let node ← c.requireNode nodeId
  match node.state with
  | .removing .. => .ok [.unregisterNode ⟨node.nodeCatalogId, nodeId⟩]
  | state => .error (.invalidUnregister nodeId state.asStr)

def AdvanceFeatureLevel.prepare (committed : FeatureLevel) (c : ClusterCatalog) :
    Except CatalogError (List ClusterRecord) :=
  let current := c.committedFeatureLevel
  if committed.core < current.core ∨ committed.enterprise < current.enterprise then
    .error (.internal (s!"AdvanceFeatureLevel regression: current ({current.core}, {current.enterprise}), " ++
      s!"target ({committed.core}, {committed.enterprise})"))
  else if committed = current then
    .error (.noCatalogChange s!"feature level already at ({current.core}, {current.enterprise})")
  else .ok [.advanceFeatureLevel ⟨committed⟩]

def CreateQueryGroup.prepare (name : String) (members : List Nat) (replicationFactor : ReplicationFactor)
    (c : ClusterCatalog) : Except CatalogError (List ClusterRecord) :=
  if c.queryGroups.containsName name then .error .alreadyExists
  else .ok [.createQueryGroup ⟨⟨c.queryGroups.nextId, name, members, replicationFactor⟩⟩]

def ClusterCatalog.requireQueryGroup (id : Nat) : Except CatalogError QueryGroupDefinition :=
  match c.queryGroups.getById id with
  | some group => .ok group
  | none => .error (.notFound s!"query group id {id}")

structure QueryGroupUpdate where
  name : Option String
  members : Option (List Nat)
  replicationFactor : Option ReplicationFactor
  deriving DecidableEq

def UpdateQueryGroup.prepare (update : QueryGroupUpdate) (c : ClusterCatalog) :
    Except CatalogError (List ClusterRecord) := do
  let group ← c.requireQueryGroup id
  let name := update.name.getD group.name
  if (c.queryGroups.nameToId name).any (· ≠ id) then .error .alreadyExists
  else .ok [.updateQueryGroup ⟨⟨id, name, update.members.getD group.members,
    update.replicationFactor.getD group.replicationFactor⟩⟩]

inductive QueryGroupMemberMutation where
  | add (member : Nat) (position : Option Nat)
  | remove (member : Nat)
  deriving DecidableEq

def QueryGroupMemberMutation.mutate (members : List Nat) : QueryGroupMemberMutation → Except CatalogError (List Nat)
  | add member none => .ok (members ++ [member])
  | add member (some index) =>
    if members.length < index then .error (.invalidConfiguration
      s!"query group insert index {index} is greater than member count {members.length}")
    else .ok (members.insertIdx index member)
  | remove member =>
    if members.contains member then .ok (members.erase member)
    else .error (.notFound s!"query group member node {member}")

def UpdateQueryGroup.prepareMembers (mutation : QueryGroupMemberMutation) (c : ClusterCatalog) :
    Except CatalogError (List ClusterRecord) := do
  let group ← c.requireQueryGroup id
  let members ← mutation.mutate group.members
  .ok [.updateQueryGroup ⟨⟨id, group.name, members, group.replicationFactor⟩⟩]

def DeleteQueryGroup.prepare : Except CatalogError (List ClusterRecord) := do
  let group ← c.requireQueryGroup id
  .ok [.deleteQueryGroup ⟨group.id⟩]

inductive ClusterOp where
  | registerNode (args : RegisterNodeArgs)
  | stopNode (nodeId : String) (stoppedTimeNs : Int)
  | requestStopNode (nodeId : String) (stoppedTimeNs : Int)
  | ackStopNode (nodeId : String) (ackTimeNs : Int) (finalSnapshotSequence : Option Nat)
  | removeNode (nodeId : String) (requestedTimeNs : Int)
  | unregisterNode (nodeId : String)
  | advanceFeatureLevel (committed : FeatureLevel)
  | createQueryGroup (name : String) (members : List Nat) (replicationFactor : ReplicationFactor)
  | updateQueryGroup (id : Nat) (update : QueryGroupUpdate)
  | updateQueryGroupMembers (id : Nat) (mutation : QueryGroupMemberMutation)
  | deleteQueryGroup (id : Nat)
  deriving DecidableEq

def ClusterOp.prepare (binary : Binary) (c : ClusterCatalog) : ClusterOp → Except CatalogError (List ClusterRecord)
  | registerNode args => RegisterNode.prepare binary args c
  | stopNode nodeId time => StopNode.prepare nodeId time c
  | requestStopNode nodeId time => RequestStopNode.prepare nodeId time c
  | ackStopNode nodeId time sequence => AckStopNode.prepare nodeId time sequence c
  | removeNode nodeId time => RemoveNode.prepare nodeId time c
  | unregisterNode nodeId => UnregisterNode.prepare nodeId c
  | advanceFeatureLevel committed => AdvanceFeatureLevel.prepare committed c
  | createQueryGroup name members factor => CreateQueryGroup.prepare name members factor c
  | updateQueryGroup id update => UpdateQueryGroup.prepare id update c
  | updateQueryGroupMembers id mutation => UpdateQueryGroup.prepareMembers id mutation c
  | deleteQueryGroup id => DeleteQueryGroup.prepare id c

section Inversion
variable {binary : Binary} {c : ClusterCatalog} (registeringNodeId : String)

private theorem consensus_step_le (node : NodeDefinition) :
    (if node.nodeId = registeringNodeId then level else if !node.state.isRunning then level
      else level.min node.featureLevel) ≤ level := by
  split
  · exact le_refl level
  · split
    · exact le_refl level
    · exact ⟨Nat.min_le_left .., Nat.min_le_left ..⟩

private theorem foldl_consensus_le (nodes : List NodeDefinition) :
    nodes.foldl (fun level node => if node.nodeId = registeringNodeId then level else
      if !node.state.isRunning then level
      else level.min node.featureLevel) level ≤ level :=
  List.foldlRecOn (motive := (· ≤ level)) _ _ le_rfl fun _ h _ _ => le_trans (consensus_step_le ..) h

theorem ClusterCatalog.consensus_le_binary :
    c.featureLevelConsensusOfRunningNodes binary registeringNodeId ≤ binary.featureLevel := foldl_consensus_le ..

theorem ClusterCatalog.consensus_le_node {registeringNodeId : String} {node : NodeDefinition}
    (hnode : node ∈ c.nodes.repo.values) (hother : node.nodeId ≠ registeringNodeId)
    (hrunning : node.state.isRunning = true) :
    c.featureLevelConsensusOfRunningNodes binary registeringNodeId ≤ node.featureLevel := by
  obtain ⟨before, after, hsplit⟩ := List.append_of_mem hnode
  rw [featureLevelConsensusOfRunningNodes, hsplit, List.foldl_append, List.foldl_cons]
  refine le_trans (foldl_consensus_le ..) ?_
  rw [if_neg hother, hrunning]
  exact ⟨Nat.min_le_right .., Nat.min_le_right ..⟩

/-- The batch of an operation: a registration with the level it proposes, an advance, or one record
that does neither. -/
theorem ClusterOp.prepare_cases {op : ClusterOp} {records : List ClusterRecord}
    (h : op.prepare binary c = .ok records) : (∃ args nodeCatalogId, op = .registerNode args ∧
      records = .registerNode (args.record nodeCatalogId binary.featureLevel) ::
        ((c.proposeNewFeatureLevel binary args.nodeId).map fun target => .advanceFeatureLevel ⟨target⟩).toList) ∨
    (∃ committed, op = .advanceFeatureLevel committed ∧ c.committedFeatureLevel ≤ committed ∧
      records = [.advanceFeatureLevel ⟨committed⟩]) ∨ (∀ args, op ≠ .registerNode args) ∧
      ∃ r, records = [r] ∧ (∀ a, r ≠ .registerNode a) ∧ ∀ a, r ≠ .advanceFeatureLevel a := by
  cases op with
  | registerNode args =>
    obtain ⟨-, ⟨⟩⟩ := ite_error_eq_ok.mp h
    exact .inl ⟨args, _, rfl, rfl⟩
  | advanceFeatureLevel committed =>
    obtain ⟨hbelow, hrest⟩ := ite_error_eq_ok.mp h
    obtain ⟨-, ⟨⟩⟩ := ite_error_eq_ok.mp hrest
    rw [not_or] at hbelow
    exact .inr (.inl ⟨committed, rfl, ⟨Nat.le_of_not_lt hbelow.1, Nat.le_of_not_lt hbelow.2⟩, rfl⟩)
  | stopNode | requestStopNode | updateQueryGroup =>
    obtain ⟨_, -, hrest⟩ := bind_eq_ok.mp h
    obtain ⟨-, ⟨⟩⟩ := ite_error_eq_ok.mp hrest
    exact .inr (.inr ⟨nofun, _, rfl, nofun, nofun⟩)
  | ackStopNode | unregisterNode =>
    obtain ⟨node, -, hrest⟩ := bind_eq_ok.mp h
    split at hrest <;> cases hrest
    exact .inr (.inr ⟨nofun, _, rfl, nofun, nofun⟩)
  | removeNode nodeId time =>
    obtain ⟨node, -, hrest⟩ := bind_eq_ok.mp h
    obtain ⟨-, hrest⟩ := ite_error_eq_ok.mp hrest
    split at hrest
    · split at hrest <;> cases hrest
      exact .inr (.inr ⟨nofun, _, rfl, nofun, nofun⟩)
    · cases hrest
    · cases hrest
  | createQueryGroup name members factor =>
    obtain ⟨-, ⟨⟩⟩ := ite_error_eq_ok.mp h
    exact .inr (.inr ⟨nofun, _, rfl, nofun, nofun⟩)
  | updateQueryGroupMembers id mutation =>
    obtain ⟨group, -, hrest⟩ := bind_eq_ok.mp h
    obtain ⟨members, -, ⟨⟩⟩ := bind_eq_ok.mp hrest
    exact .inr (.inr ⟨nofun, _, rfl, nofun, nofun⟩)
  | deleteQueryGroup id =>
    obtain ⟨group, -, ⟨⟩⟩ := bind_eq_ok.mp h
    exact .inr (.inr ⟨nofun, _, rfl, nofun, nofun⟩)

end Inversion
end Prepare
end VarveDB.Catalog
