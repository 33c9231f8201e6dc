import QueryOptimizer.Derivation.Types
import QueryOptimizer.Implementation.Enforcement
import QueryOptimizer.Implementation.Mode
import QueryOptimizer.Transform.Assigns
import QueryOptimizer.Transform.Inlining
import QueryOptimizer.Transform.Limits
import QueryOptimizer.Transform.Projects

/-! # Batches of rules

A batch sweeps its rules over a plan, once or until nothing changes. A sweep goes from the root to
the leaves and back: rules are offered every slot before and after everything below it.
-/

namespace QueryOptimizer

/-- A rule at work, with what it collected at the root. -/
structure RuleState where
  rule : Rule
  vars : VarSet := ∅
  nodes : List NodeId := []

/-- Whether a rule is offered a slot before or after everything below it. -/
inductive Hook where
  | before
  | after
  deriving DecidableEq, Repr

namespace RuleState

/-- The result of a transformation, which may not apply. -/
def outcome (r : RuleState) (s : Session) : Option Plan → RuleState × Session × Bool
  | some plan => (r, s.withPlan plan, true)
  | none => (r, s, false)

/-- Offers a slot to the rule on the way down. -/
def before (r : RuleState) (slot : Slot) (s : Session) :
    Except Failure (RuleState × Session × Bool) := do
  match r.rule with
  | .splitSelect => return r.outcome s (← s.plan.splitSelect slot)
  | .pushSelect => return r.outcome s (← s.plan.pushSelect slot)
  | .mergeSelectIntoJoin => return r.outcome s (← s.plan.mergeSelectIntoJoin slot)
  | .mergeSelects => return r.outcome s (← s.plan.mergeSelects slot)
  | .mergeLimits => return r.outcome s (← s.plan.mergeLimits slot)
  | .pushLimit => return r.outcome s (← s.plan.pushLimit slot)
  | .mergeAssigns => return r.outcome s (← s.plan.mergeAssigns slot)
  | .dropRedundantProject => return r.outcome s (← s.plan.dropRedundantProject slot)
  | .inlineVariables =>
      let r := if slot = .root then { r with vars := s.inlineable } else r
      return (r, ← s.inlineAt r.vars slot)
  | .dropUnusedAssigns =>
      let r ← if slot = .root then pure { r with vars := ← s.plan.neededVars } else pure r
      return r.outcome s (← s.plan.dropUnusedAssigns r.vars slot)
  | .chooseMode | .choosePhysical =>
      return (if slot = .root then { r with nodes := s.plan.nestedNodes } else r, s, false)
  | .enforceLayouts => if slot = .root then return (r, ← s.enforceLayouts) else return (r, s, false)
  | .inferTypes => return (r, s, false)

/-- Offers a slot to the rule on the way up. -/
def after (r : RuleState) (slot : Slot) (s : Session) :
    Except Failure (RuleState × Session × Bool) := do
  match r.rule with
  | .inferTypes =>
      let (s, _) ← s.types (← s.plan.nodeAt slot)
      return (r, s, false)
  | .chooseMode => return (r, ← s.chooseMode r.nodes slot)
  | .choosePhysical => return (r, ← s.choosePhysical r.nodes slot)
  | _ => return (r, s, false)

def offer (r : RuleState) : Hook → Slot → Session → Except Failure (RuleState × Session × Bool)
  | .before => r.before
  | .after => r.after

end RuleState

/-- A sweep of rules over a plan. -/
structure Sweep where
  rules : List RuleState
  session : Session
  visited : List NodeId := []
  changed : Bool := false

namespace Sweep

/-- Offers a slot to one rule, if the node has the right shape. A rule that changes something makes
    what was derived worthless. -/
def applyRule (hook : Hook) (slot : Slot) (w : Sweep) (r : RuleState) : Except Failure Sweep := do
  let id ← w.session.plan.nodeAt slot
  if !r.rule.pattern.isMatch w.session.plan id then return { w with rules := w.rules ++ [r] }
  else
    let (r, s, fired) ← r.offer hook slot w.session
    if fired then
      let s ← s.refreshSchemas
      return { w with
        rules := w.rules ++ [r], session := s.mapContext (·.invalidate), changed := true }
    else return { w with rules := w.rules ++ [r], session := s }

/-- Offers a slot to all rules, one after the other. -/
def apply (hook : Hook) (slot : Slot) (w : Sweep) : Except Failure Sweep :=
  w.rules.foldlM (applyRule hook slot) { w with rules := [] }

/-- Sweeps over everything at and below a slot. Nested plans are left out unless `fullDepth` is
    set. -/
def sweepWithin (fullDepth : Bool) : Nat → Sweep → Slot → Except Failure Sweep
  | 0, _, _ => .error .cyclicPlan
  | fuel + 1, w, slot => do
      let w ← w.apply .before slot
      let id ← w.session.plan.nodeAt slot
      let w ← if id ∈ w.visited then pure w
        else
          let plan := w.session.plan
          let children := if fullDepth then plan.childSlots id else plan.inputSlots id
          children.foldlM (sweepWithin fullDepth fuel) { w with visited := id :: w.visited }
      w.apply .after slot

end Sweep

/-- A bound on the length of paths during a sweep: splitting a select makes a path longer by its
    conjuncts, and pushing one below a shared node by the node. -/
def Plan.sweepDepth (plan : Plan) : Nat :=
  let weight := plan.ids.foldl (fun total id =>
    match plan.operator id with
    | .select condition => total + 1 + condition.conjuncts.length
    | _ => total + 1) 0
  (weight + 2) * (weight + 2)

/-- How often a batch sweeps over a plan, and whether over nested plans too. -/
structure Controller where
  untilStable : Bool
  fullDepth : Bool
  deriving DecidableEq, Repr

/-- A named list of rules. -/
structure Batch where
  name : String
  controller : Controller
  rules : List Rule
  deriving DecidableEq, Repr

namespace Batch

/-- A batch that sweeps once. -/
def once (name : String) (fullDepth : Bool) (rules : List Rule) : Batch :=
  ⟨name, ⟨false, fullDepth⟩, rules⟩

/-- A batch that sweeps until nothing changes. -/
def fixpoint (name : String) (fullDepth : Bool) (rules : List Rule) : Batch :=
  ⟨name, ⟨true, fullDepth⟩, rules⟩

/-- Sweeps over the plan once. -/
def sweep (batch : Batch) (rules : List RuleState) (s : Session) : Except Failure Sweep :=
  Sweep.sweepWithin batch.controller.fullDepth s.plan.sweepDepth { rules := rules, session := s }
    .root

/-- Sweeps until nothing changes, which has to happen within the allowed number of sweeps. -/
def sweepUntilStable (batch : Batch) : Nat → (changed : Bool) → List RuleState → Session →
    Except Failure (Session × Bool)
  | 0, _, _, s => .error (.noFixpoint batch.name s.context.config.maxSweeps)
  | sweeps + 1, changed, rules, s => do
      let w ← batch.sweep rules s
      if w.changed then sweepUntilStable batch sweeps true w.rules w.session
      else return (w.session, changed)

/-- Removes the nodes that cannot be reached any more, and what is known about them. -/
def collectGarbage (s : Session) : Session :=
  let (plan, removed) := s.plan.collectGarbage
  { s with plan := plan, context := removed.foldl Context.forget s.context }

/-- Runs a batch. Returns whether it changed something. -/
def run (batch : Batch) (s : Session) : Except Failure (Session × Bool) := do
  let rules := batch.rules.map fun rule => { rule := rule }
  let (s, changed) ←
    if batch.controller.untilStable then
      batch.sweepUntilStable s.context.config.maxSweeps false rules s
    else do
      let w ← batch.sweep rules s
      pure (w.session, w.changed)
  return (collectGarbage s, changed)

end Batch

end QueryOptimizer
