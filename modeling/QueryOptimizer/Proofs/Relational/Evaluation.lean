import Mathlib
import QueryOptimizer.Proofs.Relational.Filled

/-! # Evaluation with faults

An operator is evaluated on one list of tuples for each of its inputs. It reads variables from the
tuples that combine one tuple of each list, except that a union reads each of its inputs alone. To
read a variable without a value is a fault. What functions, aggregates, scripts and data sources
answer is left to a world with a state of its own, so that one call may have different results at
different times. All arguments of a call are read, also those that a lazy function would skip.
-/

namespace QueryOptimizer

inductive Fault where
  /-- A variable was read that has no value. -/
  | unbound (v : Var)
  /-- Nested plans stand deeper than the evaluation goes. -/
  | tooDeep
  deriving DecidableEq, Repr

/-- A row with a value for each of a number of columns. -/
abbrev Row (width : Nat) := { row : List Scalar // row.length = width }

/-- What evaluation asks for outside of the plan. -/
structure World (σ : Type) where
  call : Function → List Scalar → σ → Scalar × σ
  /-- The value of an aggregate, given those of its arguments in each tuple. -/
  fold : Expr → List (List Scalar) → σ → Scalar × σ
  items : Scalar → List Scalar
  /-- Whether the first value may stand before the second in ascending order. -/
  ascends : Scalar → Scalar → Bool
  scan : String → (width : Nat) → σ → List (Row width) × σ
  script : String → List (List Scalar) → (width : Nat) → σ → List (Row width) × σ
  store : String → List (List Scalar) → σ → σ
  change : ChangeKind → String → List (List Scalar) → σ → σ

abbrev Evaluation (σ α : Type) := StateT σ (Except Fault) α

variable {σ : Type}

/-! ## Evaluators -/

/-- The value of a variable. -/
def Tuple.read (t : Tuple) (v : Var) : Evaluation σ Scalar :=
  match t v with
  | some x => pure x
  | none => throw (.unbound v)

namespace Expr

mutual
/-- The value of an expression in a tuple. -/
def evaluate (W : World σ) (t : Tuple) : Expr → Evaluation σ Scalar
  | const value => pure value
  | var v => t.read v
  | call f args _ => do modifyGet (W.call f (← evaluateAll W t args))

def evaluateAll (W : World σ) (t : Tuple) : List Expr → Evaluation σ (List Scalar)
  | [] => pure []
  | e :: es => do return (← evaluate W t e) :: (← evaluateAll W t es)
end

/-- The expressions whose values an aggregate gathers. -/
def gathered : Expr → List Expr
  | call _ args _ => args
  | e => [e]

/-- The value of an aggregate over a list of tuples. -/
def foldOver (W : World σ) (ts : List Tuple) (e : Expr) : Evaluation σ Scalar := do
  modifyGet (W.fold e (← ts.mapM fun t => evaluateAll W t e.gathered))

/-- The tuples in which a condition is true. -/
def selectFrom (W : World σ) (ts : List Tuple) (condition : Expr) : Evaluation σ (List Tuple) := do
  let verdicts ← ts.mapM fun t => condition.evaluate W t
  return ((ts.zip verdicts).filter fun entry => entry.2 = .boolean true).map (·.1)

end Expr

/-- The tuples that combine one tuple of each list. The columns of a list tell its values apart from
    those of the lists after it. -/
def combinations : List (List Var × List Tuple) → List Tuple
  | [] => [Tuple.empty]
  | (vs, ts) :: rest => ts.flatMap fun t => (combinations rest).map fun u => Tuple.join vs t u

/-- The tuple in which the given variables have the values of other variables of a tuple. -/
def Tuple.copy (t : Tuple) (entries : List (Var × Var)) : Evaluation σ Tuple := do
  return Tuple.empty.extend (entries.map (·.1)) (← entries.mapM fun entry => t.read entry.2)

namespace Operator

/-- The tuples that a union makes of those of one input. -/
def evaluateSide (columns : List UnionColumn) (side : UnionColumn → Var) (ts : List Tuple) :
    Evaluation σ (List Tuple) :=
  ts.mapM fun t => t.copy (columns.map fun c => (c.output, side c))

/-- The tuples that an operator makes of those of its inputs, given the columns of the inputs, the
    tuples around each nested plan, and the evaluation of its own nested plans on some tuples. -/
def evaluate (W : World σ) (columns : List (List Var)) (ins : List (List Tuple))
    (around : NodeId → List Tuple) (nested : List Tuple → Evaluation σ (List Tuple))
    (op : Operator) : Evaluation σ (List Tuple) :=
  let tuples := combinations (columns.zip ins)
  match op with
  | emptySource => return [Tuple.empty]
  | nestedSource owner => return around owner
  | scan source vars => do
      let rows ← modifyGet (W.scan source vars.length)
      return tuples.flatMap fun t => rows.map fun row => t.extend vars row.1
  | select condition | join .inner condition => condition.selectFrom W tuples
  | assign vars exprs => tuples.mapM fun t => do
      return t.extend vars (← Expr.evaluateAll W t exprs)
  | project vars => tuples.mapM fun t => t.copy (vars.map fun v => (v, v))
  | join .leftOuter condition => do
      let blocks ← (ins.headD []).mapM fun t => do
        let block ← condition.selectFrom W (combinations (columns.zip ([t] :: ins.tail)))
        if block.isEmpty then
          return [Tuple.join (columns.headD []) t (Tuple.empty.extend columns.tail.flatten
            (columns.tail.flatten.map fun _ => .null .null))]
        else return block
      return blocks.flatten
  | groupBy keys decor _ => do
      let rows ← tuples.mapM fun t => Expr.evaluateAll W t ((keys ++ decor).map (·.2))
      let blocks ← (groups (fun entry => entry.2.take keys.length) (tuples.zip rows)).mapM
        fun group => do
          let inner ← nested (group.map (·.1))
          return inner.map fun t =>
            t.extend ((keys ++ decor).map (·.1)) ((group.head?.map (·.2)).getD [])
      return blocks.flatten
  | aggregate vars exprs => do
      return [Tuple.empty.extend vars (← exprs.mapM fun e => e.foldOver W tuples)]
  | runningAggregate vars exprs => (tuples.zip tuples.inits.tail).mapM fun entry => do
      return entry.1.extend vars (← exprs.mapM fun e => e.foldOver W entry.2)
  | distinct vars => do
      let rows ← tuples.mapM fun t => vars.mapM t.read
      return rows.dedup.map fun row => Tuple.empty.extend vars row
  | order keys top => do
      let rows ← tuples.mapM fun t => Expr.evaluateAll W t (keys.map (·.2))
      let sorted := ((tuples.zip rows).mergeSort fun a b =>
        precedes W.ascends (keys.map (·.1)) a.2 b.2).map (·.1)
      return sorted.take (top.getD sorted.length)
  | limit count offset => return (tuples.drop (offset.getD 0)).take count
  | unnest v e position => do
      let blocks ← tuples.mapM fun t => do
        return (W.items (← e.evaluate W t)).zipIdx.map fun item =>
          t.extend (v :: position.toList) [item.1, .integer .int64 (item.2 + 1)]
      return blocks.flatten
  | subplan _ => do
      let blocks ← tuples.mapM fun t => do
        return (← nested [t]).map fun u => Tuple.join columns.flatten t u
      return blocks.flatten
  | exchange | replicate | sink => return tuples
  | unionAll pairs => do
      -- A column is read from its own side, not from the combined tuples.
      let left ← evaluateSide pairs (·.left) (ins.getD 0 [])
      let right ← evaluateSide pairs (·.right) (ins.getD 1 [])
      return left ++ right
  | write target exprs => do
      let rows ← tuples.mapM fun t => Expr.evaluateAll W t exprs
      modify (W.store target rows)
      return tuples
  | insertDelete change dataset payload keys => do
      let rows ← tuples.mapM fun t => Expr.evaluateAll W t (payload :: keys)
      modify (W.change change dataset rows)
      return tuples
  | script command inputs outputs => do
      let rows ← tuples.mapM fun t => inputs.mapM t.read
      let made ← modifyGet (W.script command rows outputs.length)
      return made.map fun row => Tuple.empty.extend outputs row.1

end Operator

namespace Plan

/-- Evaluates the operator of a node on the tuples of its inputs. Its nested plans are evaluated by
    `run`, inside the node. -/
def evaluateNode (plan : Plan) (W : World σ)
    (run : Frames → NodeId → Evaluation σ (List Tuple)) (frames : Frames) (id : NodeId)
    (ins : List (List Tuple)) : Evaluation σ (List Tuple) :=
  (plan.operator id).evaluate W ((plan.inputs id).map plan.columns) ins
    (fun owner => (frames owner).getD []) fun ts => do
      let outs ← (plan.nestedRoots id).mapM (run (frames.enter id ts))
      return combinations (((plan.nestedRoots id).map plan.columns).zip outs)

/-- Evaluates a node and all below it, to some depth. -/
def evaluateWithin (plan : Plan) (W : World σ) :
    Nat → Frames → NodeId → Evaluation σ (List Tuple)
  | 0, _, _ => throw .tooDeep
  | depth + 1, frames, id => do
      let ins ← (plan.inputs id).mapM (plan.evaluateWithin W depth frames)
      plan.evaluateNode W (plan.evaluateWithin W depth) frames id ins

end Plan

/-! ## Evaluations without faults -/

namespace Evaluation

variable {α β : Type} {f : α → Evaluation σ β} {items : List α}

/-- Whether an evaluation ends without a fault in every state, with a result of this kind. -/
def Ensures (m : Evaluation σ α) (P : α → Prop) : Prop :=
  ∀ s, ∃ a s', m.run s = .ok (a, s') ∧ P a

variable {m : Evaluation σ α} {P Q : α → Prop} {R : β → Prop}

theorem ensures_pure {a : α} (holds : P a) : Ensures (pure a : Evaluation σ α) P :=
  fun s => ⟨a, s, rfl, holds⟩

theorem ensures_modifyGet {f : σ → α × σ} (holds : ∀ a, P a) :
    Ensures (modifyGet f : Evaluation σ α) P :=
  fun s => ⟨(f s).1, (f s).2, rfl, holds _⟩

theorem Ensures.mono (ensured : m.Ensures P) (weaker : ∀ a, P a → Q a) : m.Ensures Q := by
  intro s
  obtain ⟨a, s', run, holds⟩ := ensured s
  exact ⟨a, s', run, weaker a holds⟩

theorem Ensures.bind (first : m.Ensures P) (next : ∀ a, P a → (f a).Ensures R) :
    Ensures (m >>= f) R := by
  intro s
  obtain ⟨a, s', run, holds⟩ := first s
  obtain ⟨b, s'', rest, result⟩ := next a holds s'
  refine ⟨b, s'', ?_, result⟩
  rw [StateT.run_bind, run]
  exact rest

theorem Ensures.map {f : α → β} (ensured : m.Ensures P) (result : ∀ a, P a → R (f a)) :
    Ensures (do return f (← m)) R :=
  ensured.bind fun a holds => ensures_pure (result a holds)

/-- A loop without faults has a result for each item. -/
theorem ensures_mapM {result : α → β → Prop} (each : ∀ a ∈ items, (f a).Ensures (result a)) :
    Ensures (items.mapM f) (List.Forall₂ result items) := by
  induction items with
  | nil => exact ensures_pure .nil
  | cons a items ih =>
    rw [List.mapM_cons]
    exact (each a List.mem_cons_self).bind fun b first =>
      (ih fun other member => each other (List.mem_cons_of_mem _ member)).map fun bs rest =>
        .cons first rest

/-- A loop over blocks, all of which hold items of one kind. -/
theorem ensures_flatten {f : α → Evaluation σ (List β)}
    (each : ∀ a ∈ items, (f a).Ensures fun block => ∀ b ∈ block, R b) :
    Ensures (do return (← items.mapM f).flatten) fun out => ∀ b ∈ out, R b := by
  refine (ensures_mapM each).map fun blocks results b member => ?_
  obtain ⟨block, isBlock, inside⟩ := List.mem_flatten.mp member
  obtain ⟨i, small, rfl⟩ := List.getElem_of_mem isBlock
  exact results.get (results.length_eq ▸ small) small b inside

/-- A loop whose results are all of one kind. -/
theorem ensures_mapM_mem (each : ∀ a ∈ items, (f a).Ensures R) :
    Ensures (items.mapM f) fun out => ∀ b ∈ out, R b := by
  refine (ensures_mapM each).mono fun out results b member => ?_
  obtain ⟨i, small, rfl⟩ := List.getElem_of_mem member
  exact results.get (results.length_eq ▸ small) small

/-- The first fault of a loop ends it. -/
theorem exists_run_of_mapM {s s' : σ} {out : List β} (done : (items.mapM f).run s = .ok (out, s'))
    {a : α} (member : a ∈ items) : ∃ t b t', (f a).run t = .ok (b, t') := by
  induction items generalizing s s' out with
  | nil => cases member
  | cons head items ih =>
    rw [List.mapM_cons, StateT.run_bind] at done
    obtain ⟨⟨b, t⟩, first, rest⟩ := bind_ok_iff.mp done
    obtain ⟨⟨bs, t'⟩, rest, _⟩ := bind_ok_iff.mp rest
    rcases List.mem_cons.mp member with rfl | member
    · exact ⟨s, b, t, first⟩
    · exact ih rest member

end Evaluation

end QueryOptimizer
