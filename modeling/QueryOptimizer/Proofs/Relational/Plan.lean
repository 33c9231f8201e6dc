import Mathlib
import QueryOptimizer.Plan.Schema
import QueryOptimizer.Proofs.Plan.Reach
import QueryOptimizer.Proofs.Relational.Expr

/-! # Runs of plans

An operator makes a list of tuples of the lists that its inputs yield. A plan may have many runs:
a call of a nondeterministic function, a script and an aggregate have any of their results. Nested
plans run once for each group of a group-by and once for each tuple of a subplan, and yield one
tuple each time.
-/

namespace QueryOptimizer

/-- The items of each key. -/
def groups {α κ : Type} [DecidableEq κ] (key : α → κ) (items : List α) : List (List α) :=
  (items.map key).dedup.map fun k => items.filter fun a => key a = k

/-- The rows of values that some expressions may have in the tuples of a list. -/
def Evaluated (I : Interpretation) (es : List Expr) : List Tuple → List (List Scalar) → Prop :=
  List.Forall₂ fun t row => Expr.EvaluateTo I t es row

/-- The values that some aggregates may have over a list of tuples. -/
def Folded (I : Interpretation) (ts : List Tuple) : List Expr → List Scalar → Prop :=
  List.Forall₂ fun e x => I.folds e ts x

/-- The tuples in which a condition is true. -/
def Selected (I : Interpretation) (condition : Expr) (ts out : List Tuple) : Prop :=
  ∃ verdicts, List.Forall₂ (fun t x => condition.Evaluates I t x) ts verdicts ∧
    out = ((ts.zip verdicts).filter fun entry => entry.2 = .boolean true).map (·.1)

/-- Whether a row of sort keys may stand before another. -/
def precedes (ascends : Scalar → Scalar → Bool) : List Direction → List Scalar → List Scalar → Bool
  | direction :: directions, x :: xs, y :: ys =>
    if x = y then precedes ascends directions xs ys
    else match direction with
      | .asc => ascends x y
      | .desc => ascends y x
  | _, _, _ => true

namespace Operator

/-- The values that a union takes from a tuple of one of its inputs. -/
def unionTuple (columns : List UnionColumn) (side : UnionColumn → Var) (t : Tuple) : Tuple :=
  fun v => (columns.find? fun c => c.output = v).bind fun c => t (side c)

/-- The tuples that an operator without nested plans may make of those of its inputs. The columns
    of the inputs tell the two sides of a join apart. -/
def Emits (I : Interpretation) (columns : Nat → List Var) (ins : Nat → List Tuple) :
    Operator → List Tuple → Prop
  | emptySource, out => out = [Tuple.empty]
  | scan source vars, out =>
    out = (ins 0).flatMap fun t => (I.rows source).map fun row => t.extend vars row
  | select condition, out => Selected I condition (ins 0) out
  | assign vars exprs, out => ∃ rows, Evaluated I exprs (ins 0) rows ∧
      out = ((ins 0).zip rows).map fun entry => entry.1.extend vars entry.2
  | project vars, out => out = (ins 0).map fun t => t.restrict vars
  | join .inner condition, out =>
    Selected I condition
      ((ins 0).flatMap fun t => (ins 1).map fun u => Tuple.join (columns 0) t u) out
  | join .leftOuter condition, out => ∃ blocks,
      List.Forall₂ (fun t block =>
        Selected I condition ((ins 1).map fun u => Tuple.join (columns 0) t u) block)
        (ins 0) blocks ∧
      out = ((ins 0).zip blocks).flatMap fun entry =>
        if entry.2.isEmpty then
          [Tuple.join (columns 0) entry.1 (Tuple.empty.extend (columns 1)
            ((columns 1).map fun _ => .null .null))]
        else entry.2
  | aggregate vars exprs, out => ∃ row, Folded I (ins 0) exprs row ∧
      out = [Tuple.empty.extend vars row]
  | runningAggregate vars exprs, out => ∃ rows,
      List.Forall₂ (fun sofar row => Folded I sofar exprs row) (ins 0).inits.tail rows ∧
      out = ((ins 0).zip rows).map fun entry => entry.1.extend vars entry.2
  | distinct vars, out =>
    out = (groups (fun t : Tuple => vars.map t) (ins 0)).filterMap fun group =>
      group.head?.map fun t => t.restrict vars
  | order keys top, out => ∃ rows, Evaluated I (keys.map (·.2)) (ins 0) rows ∧
      let sorted := (((ins 0).zip rows).mergeSort fun a b =>
        precedes I.ascends (keys.map (·.1)) a.2 b.2).map (·.1)
      out = sorted.take (top.getD sorted.length)
  | limit count offset, out => out = ((ins 0).drop (offset.getD 0)).take count
  | unnest v e position, out => ∃ rows,
      List.Forall₂ (fun t x => e.Evaluates I t x) (ins 0) rows ∧
      out = ((ins 0).zip rows).flatMap fun entry => (I.items entry.2).zipIdx.map fun item =>
        entry.1.extend (v :: position.toList) [item.1, .integer .int64 (item.2 + 1)]
  | exchange, out | replicate, out | write .., out | insertDelete .., out | sink, out =>
    out = ins 0
  | unionAll columns, out =>
    out = (ins 0).map (unionTuple columns (·.left)) ++ (ins 1).map (unionTuple columns (·.right))
  | script command inputs outputs, out => ∃ rows,
      I.scripts command ((ins 0).map fun t => t.restrict inputs) rows ∧
      out = rows.map fun row => Tuple.empty.extend outputs row
  | nestedSource _, _ | groupBy .., _ | subplan _, _ => False

end Operator

/-- The tuples that the nested plans of each owner are run on. -/
abbrev Frames := NodeId → Option (List Tuple)

namespace Frames

/-- Outside of all nested plans. -/
def outer : Frames := fun _ => none

def enter (frames : Frames) (owner : NodeId) (ts : List Tuple) : Frames :=
  fun id => if id = owner then some ts else frames id

end Frames

namespace Plan

/-- The variables of the result of a node. -/
def columns (plan : Plan) (id : NodeId) : List Var := (plan.node id).schema.getD []

def inputColumns (plan : Plan) (id : NodeId) (index : Nat) : List Var :=
  ((plan.inputs id)[index]?.map plan.columns).getD []

/-- The values of the tuples that some nodes yield. -/
def combine (plan : Plan) (yielded : NodeId → Tuple) : List NodeId → Tuple
  | [] => Tuple.empty
  | id :: ids => Tuple.join (plan.columns id) (yielded id) (plan.combine yielded ids)

/-- The tuples that a node may yield. -/
inductive Yields (plan : Plan) (I : Interpretation) : Frames → NodeId → List Tuple → Prop where
  | nestedSource {frames : Frames} {id owner : NodeId} {ts : List Tuple}
      (operator : plan.operator id = .nestedSource owner) (frame : frames owner = some ts) :
      Yields plan I frames id ts
  | plain {frames : Frames} {id : NodeId} {ins : Nat → List Tuple} {out : List Tuple}
      (inputs : ∀ k input, (plan.inputs id)[k]? = some input → Yields plan I frames input (ins k))
      (missing : ∀ k, (plan.inputs id)[k]? = none → ins k = [])
      (emits : (plan.operator id).Emits I (plan.inputColumns id) ins out) :
      Yields plan I frames id out
  | groupBy {frames : Frames} {id input : NodeId} {keys decor : List (Var × Expr)}
      {nested : NestedPlans} {us : List Tuple} {rows : List (List Scalar)}
      {grouped : List (List (Tuple × List Scalar))} {inner : Nat → NodeId → Tuple}
      (operator : plan.operator id = .groupBy keys decor nested)
      (source : (plan.inputs id)[0]? = some input)
      (tuples : Yields plan I frames input us)
      (values : Evaluated I ((keys ++ decor).map (·.2)) us rows)
      (groups : grouped = groups (fun entry => entry.2.take keys.length) (us.zip rows))
      (decorations : ∀ group ∈ grouped, ∀ a ∈ group, ∀ b ∈ group, a.2 = b.2)
      (yielded : ∀ i group, grouped[i]? = some group → ∀ root ∈ plan.nestedRoots id,
        Yields plan I (frames.enter id (group.map (·.1))) root [inner i root]) :
      Yields plan I frames id (grouped.mapIdx fun i group =>
        (plan.combine (inner i) (plan.nestedRoots id)).extend ((keys ++ decor).map (·.1))
          ((group.head?.map (·.2)).getD []))
  | subplan {frames : Frames} {id input : NodeId} {nested : NestedPlans} {us : List Tuple}
      {inner : Nat → NodeId → Tuple}
      (operator : plan.operator id = .subplan nested)
      (source : (plan.inputs id)[0]? = some input)
      (tuples : Yields plan I frames input us)
      (yielded : ∀ i t, us[i]? = some t → ∀ root ∈ plan.nestedRoots id,
        Yields plan I (frames.enter id [t]) root [inner i root]) :
      Yields plan I frames id (us.mapIdx fun i t =>
        Tuple.join (plan.columns input) t (plan.combine (inner i) (plan.nestedRoots id)))

/-- The frames in which nested plans may run: inside an owner, on some of the tuples of its
    input. -/
inductive Invocation (plan : Plan) (I : Interpretation) : Frames → Prop where
  | outer : Invocation plan I .outer
  | enter {frames : Frames} {owner input : NodeId} {us ts : List Tuple}
      (around : Invocation plan I frames) (reached : plan.Reaches owner)
      (source : (plan.inputs owner)[0]? = some input) (tuples : Yields plan I frames input us)
      (some_ : ∀ t ∈ ts, t ∈ us) : Invocation plan I (frames.enter owner ts)

end Plan

end QueryOptimizer
