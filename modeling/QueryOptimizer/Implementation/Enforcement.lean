import QueryOptimizer.Implementation.Choice

/-! # Enforcement of layouts

Requirements go from the root down, deliveries from the leaves up. Where an input delivers less
than is required, exchanges and sorts are put on the edge. A sort whose input is in order already
is taken out.
-/

namespace QueryOptimizer

/-- The columns to sort by, so that tuples have the properties. A grouping is sorted in ascending
    order. -/
def LocalProperty.sortColumns (properties : List LocalProperty) : List OrderColumn :=
  Partitioning.distinctColumns <| properties.flatMap fun
    | .order c => [c]
    | .grouping columns => columns.toList.map fun v => ⟨v, .asc⟩

/-- The exchange that partitions tuples. -/
def Partitioning.exchange : Partitioning → Except Failure Physical
  | hash [] _ => .error .hashOnNoColumns
  | hash columns domain => .ok (.hashExchange columns domain)
  | range columns domain => .ok (.rangeExchange columns domain)
  | broadcast domain => .ok (.broadcastExchange domain)
  | random domain => .ok (.randomExchange domain)
  | unpartitioned => .error .singlePartitionExchange

/-- The columns that a sort sorts by. -/
def Physical.sortOrder? : Physical → Option (List OrderColumn)
  | stableSort order | inMemorySort order => some order
  | _ => none

namespace Session

/-- The physical operator of a node. -/
def physicalOf (s : Session) (id : NodeId) : Except Failure Physical :=
  match (s.plan.node id).physical with
  | some physical => .ok physical
  | none => .error (.notImplemented (s.plan.operator id).name)

/-- Goes through the domains of inputs, of which the first is known. -/
def sharedDomain (s : Session) (id : NodeId) (known : Option Domain) :
    List NodeId → Except Failure (Session × Domain)
  | [] => .ok (s, known.getD .default)
  | input :: rest => do
      let layout ← s.delivered input
      match known, layout.partitioning.bind (·.domain?) with
      | known, none => sharedDomain s id known rest
      | none, some domain => sharedDomain s id (some domain) rest
      | some first, some domain =>
          if first = domain then sharedDomain s id (some first) rest
          else
            let warning := "Inputs of " ++ (s.plan.operator id).name ++ " span domains "
              ++ first.text ++ " and " ++ domain.text ++ ", using the default domain"
            return (s.warn warning, .default)

/-- The domain that the inputs of a node share, the default domain if they disagree. -/
def inputsDomain (s : Session) (id : NodeId) : Except Failure (Session × Domain) :=
  s.sharedDomain id none (s.plan.inputs id)

/-- Records what a node delivers. The rule is done with it. -/
def deliver (s : Session) (id : NodeId) (physical : Physical) : Except Failure Session := do
  let layout ← physical.delivered (s.surroundings id)
  return s.mapContext fun context =>
    (context.setDelivered id layout).setApplied .enforceLayouts id

/-- Puts an operator on an edge, and derives everything about it. -/
def insertEnforcer (s : Session) (parent : NodeId) (index : Nat) (operator : Operator)
    (physical : Physical) (mode : Mode) : Except Failure Session := do
  let input ← s.plan.input parent index
  let (plan, id) := s.plan.addNode
    { Node.above operator [input] with mode := mode, physical := some physical }
  let plan ← (plan.setInput parent index id).recomputeSchema id
  let plan ← plan.recomputeSchema parent
  let s ← (s.withPlan plan).ensureFacts id
  s.deliver id physical

/-- Sorts the tuples on an edge, unless they have the properties already. -/
def sortIfUnmet (s : Session) (parent : NodeId) (index : Nat) (properties : List LocalProperty)
    (isNested : Bool) : Except Failure Session :=
  if properties.isEmpty then .ok s
  else do
    let input ← s.plan.input parent index
    let layout ← s.delivered input
    let (s, facts) ← s.facts input
    if LocalProperty.isMatch facts properties layout.properties then return s
    else
      let order := LocalProperty.sortColumns properties
      let (s, sort) ← s.chooseSort input order isNested
      let columns := order.map fun c => (c.direction, Expr.var c.column)
      s.insertEnforcer parent index (.order columns none) sort .local

/-- Makes an edge deliver the required layout, of which `missing` is not delivered. Tuples are
    sorted before they are merged, and after they are partitioned. Inside nested plans there are
    no partitions. -/
def enforceEdge (s : Session) (parent : NodeId) (index : Nat) (required missing : Layout)
    (isNested : Bool) : Except Failure Session :=
  match if isNested then none else missing.partitioning with
  | some .unpartitioned => do
      let s ← s.sortIfUnmet parent index required.properties isNested
      let layout ← s.delivered (← s.plan.input parent index)
      let merge := match layout.orderColumns with
        | [] => Physical.randomMergeExchange
        | order => .sortMergeExchange order
      s.insertEnforcer parent index .exchange merge .unpartitioned
  | some partitioning => do
      let exchange ← partitioning.exchange
      let s ← s.insertEnforcer parent index .exchange exchange .partitioned
      s.sortIfUnmet parent index required.properties isNested
  | none => s.sortIfUnmet parent index required.properties isNested

/-- The requirement on an input, in the domain of all inputs and, for the second input, coordinated
    with what the first delivers. -/
def edgeRequirement (s : Session) (id : NodeId) (index : Nat) (domain : Domain)
    (coordination : Coordination) (facts : Facts) (required : Layout) :
    Except Failure Layout := do
  let filled := { required with partitioning := required.partitioning.map (·.fillDomain domain) }
  if index = 1 then
    let first ← s.delivered (← s.plan.input id 0)
    coordination.coordinate facts filled first
  else return filled

/-- Enforces the requirement on one input. -/
def enforceInput (id : NodeId) (requirements : Requirements) (domain : Domain) (facts : Facts)
    (isNested : Bool) (acc : Session × Bool) (index : Nat) : Except Failure (Session × Bool) :=
  let (s, changed) := acc
  match requirements.layouts[index]?.join with
  | none => .ok (s, changed)
  | some layout => do
      let required ← s.edgeRequirement id index domain requirements.coordination facts layout
      let input ← s.plan.input id index
      let delivered ← s.delivered input
      let (s, inputFacts) ← s.facts input
      match Layout.missing? inputFacts (requirements.coordination = .independent) required
        delivered with
      | some missing => return (← s.enforceEdge id index required missing isNested, true)
      | none => return (s, changed)

/-- Whether the input of a sort is in order already. An order that keeps the first tuples only is
    always needed. -/
def isRedundantSort (s : Session) (id : NodeId) (order : List OrderColumn) :
    Except Failure (Session × Bool) :=
  match s.plan.operator id with
  | .order _ (some _) => .ok (s, false)
  | _ => do
      let input ← s.plan.input id 0
      let layout ← s.delivered input
      let (s, facts) ← s.facts input
      return (s, LocalProperty.isMatch facts (order.map .order) layout.properties)

/-- Takes a sort out of a slot, and a project right below it that keeps every variable. Returns
    the node that the slot then holds. -/
def removeSort (s : Session) (slot : Slot) (id : NodeId) : Except Failure (Session × NodeId) := do
  let input ← s.plan.input id 0
  let below ← match s.plan.operator input with
    | .project vars => do
        let below ← s.plan.input input 0
        pure (if (← s.plan.schema below) = vars then below else input)
    | _ => pure input
  let s ← (s.withPlan (← s.plan.setSlot slot below)).refreshSchemas
  return (s, below)

/-- Enforces the layouts of everything at and below a slot. `removed` counts the sorts that were
    taken out of the slot. -/
def enforceWithin : Nat → Session → Slot → (isNested : Bool) → (removed : Nat) →
    Except Failure (Session × Bool)
  | 0, _, _, _, _ => .error .cyclicPlan
  | fuel + 1, s, slot, isNested, removed => do
      let id ← s.plan.nodeAt slot
      if s.context.isApplied .enforceLayouts id then return (s, false)
      else
        let s ← s.ensureFacts id
        let physical ← s.physicalOf id
        let arity := (s.plan.inputs id).length
        let requirements := physical.requirements (s.plan.mode id) arity
        let (s, changed) ← (s.plan.inputSlots id).foldlM (fun (s, changed) child => do
          let (s, fired) ← enforceWithin fuel s child isNested 0
          return (s, changed || fired)) (s, false)
        let (s, domain) ← s.inputsDomain id
        let (s, facts) ← s.facts id
        let (s, changed) ← (List.range (s.plan.inputs id).length).foldlM
          (enforceInput id requirements domain facts isNested) (s, changed)
        let (s, changed) ← (s.plan.nestedSlots id).foldlM (fun (s, changed) child => do
          let (s, fired) ← enforceWithin fuel s child true 0
          return (s, changed || fired)) (s, changed)
        let (s, isRedundant) ← match physical.sortOrder? with
          | some order => s.isRedundantSort id order
          | none => pure (s, false)
        if isRedundant then
          if removed ≥ s.context.config.maxSortRemovals then throw (.sortRemovalCascade removed)
          else
            let (s, below) ← s.removeSort slot id
            let s := s.mapContext (·.clearApplied .enforceLayouts below)
            let (s, _) ← enforceWithin fuel s slot isNested (removed + 1)
            return (s, true)
        else return (← s.deliver id physical, changed)

/-- A bound on the length of paths while enforcers are put on the edges. -/
def enforcementDepth (s : Session) : Nat :=
  8 * s.plan.ids.foldl (fun total id => total + 1 + (s.plan.inputs id).length) 0 + 8

/-- Enforces the layouts of the whole plan. -/
def enforceLayouts (s : Session) : Except Failure (Session × Bool) :=
  enforceWithin s.enforcementDepth s .root false 0

end Session

end QueryOptimizer
