import QueryOptimizer.Session

/-! # Estimation of sizes -/

namespace QueryOptimizer

namespace Size

def withCardinality (size : Size) (n : Nat) : Size := { size with cardinality := some n }

/-- At most so many tuples. -/
def atMost (size : Size) (n : Nat) : Size :=
  size.withCardinality ((size.cardinality.map (min · n)).getD n)

/-- The number of all tuples, unknown as soon as one number is. -/
def totalFrom (total : Nat) : List Size → Except Failure (Option Nat)
  | [] => .ok (some total)
  | size :: rest =>
      match size.cardinality with
      | none => .ok none
      | some n => if total + n < bound then totalFrom (total + n) rest else .error .overflow

/-- The size of a union. -/
def union (sizes : List Size) : Except Failure Size := do
  return ⟨← totalFrom 0 sizes, (sizes.filterMap (·.tupleBytes)).max?⟩

end Size

namespace Session

/-- The size of the result of a node, from the sizes of its inputs. -/
def sizeFromInputs (s : Session) (id : NodeId) (inputs : List Size) : Except Failure Size :=
  let first := inputs.headD .unknown
  match s.plan.operator id with
  | .emptySource => .ok ⟨some 1, some 0⟩
  | .scan source _ =>
      .ok (match s.context.catalog.statistics? source with
        | some statistics => ⟨some statistics.rows, some statistics.tupleBytes⟩
        | none => .unknown)
  | .order _ (some k) => .ok (first.atMost k)
  | .limit count _ => .ok (first.atMost count)
  | .aggregate .. => .ok (first.withCardinality 1)
  | .unionAll _ => Size.union inputs
  | .nestedSource _ | .join .. | .unnest .. | .script .. => .ok .unknown
  | _ => .ok first

/-- Estimates the size of a node and of everything below it, unless that was done before. -/
def sizeWithin : Nat → Session → NodeId → Except Failure (Session × Size)
  | 0, _, _ => .error .cyclicPlan
  | fuel + 1, s, id =>
      match s.context.sizes.get? id with
      | some size => .ok (s, size)
      | none => do
          let (s, inputs) ← (s.plan.inputs id).foldlM (fun (s, sizes) input => do
            let (s, size) ← sizeWithin fuel s input
            return (s, sizes ++ [size])) (s, [])
          let size ← s.sizeFromInputs id inputs
          return (s.mapContext (·.setSize id size), size)

/-- The estimated size of the result of a node. -/
def size (s : Session) (id : NodeId) : Except Failure (Session × Size) :=
  sizeWithin s.depth s id

/-- The estimated number of frames of the result of a node. -/
def frames? (s : Session) (id : NodeId) : Except Failure (Session × Option Nat) := do
  let (s, size) ← s.size id
  return (s, size.frames? s.context.config.memory)

end Session

end QueryOptimizer
