import Mathlib
import QueryOptimizer.Proofs.Plan.Graph
import QueryOptimizer.Proofs.Relational.Steps

/-! # Values of all columns

In a valid plan whose operators have a value for every variable that they produce, every tuple has
values of all columns of its node.
-/

namespace QueryOptimizer

/-! ## Tuples -/

namespace Tuple

variable {t u : Tuple} {vs ws : List Var} {xs : List Scalar} {v : Var}

theorem lookup_zip_some (member : v ∈ vs) (enough : vs.length ≤ xs.length) :
    ∃ x, (vs.zip xs).lookup v = some x := by
  induction vs generalizing xs with
  | nil => cases member
  | cons w vs ih =>
    cases xs with
    | nil => cases enough
    | cons x xs =>
      rw [List.zip_cons_cons, List.lookup_cons]
      by_cases same : v = w
      · exact ⟨x, by simp [same]⟩
      · obtain ⟨y, found⟩ := ih ((List.mem_cons.mp member).resolve_left same)
          (Nat.le_of_succ_le_succ enough)
        rw [beq_eq_false_iff_ne.mpr same]
        exact ⟨y, found⟩

/-- A tuple that is extended by as many values as variables has values of them. -/
theorem fills_extend (t : Tuple) (enough : vs.length ≤ xs.length) : (t.extend vs xs).Fills vs := by
  intro v member
  obtain ⟨x, found⟩ := lookup_zip_some member enough
  exact ⟨x, by simp [extend, found]⟩

theorem Fills.extend (fills : t.Fills vs) (enough : ws.length ≤ xs.length) :
    (t.extend ws xs).Fills (appendNew vs ws) := by
  intro v member
  by_cases new : v ∈ ws
  · exact fills_extend t enough v new
  · rw [extend_of_not_mem new]
    exact fills v ((mem_appendNew.mp member).resolve_right new)

theorem Fills.join (left : t.Fills vs) (right : u.Fills ws) :
    (Tuple.join vs t u).Fills (vs ++ ws) := by
  intro v member
  by_cases onLeft : v ∈ vs
  · rw [join_of_mem onLeft]
    exact left v onLeft
  · rw [join_of_not_mem onLeft]
    exact right v ((List.mem_append.mp member).resolve_left onLeft)

theorem Fills.restrict (fills : t.Fills vs) (fewer : ∀ v ∈ ws, v ∈ vs) : (t.restrict ws).Fills ws := by
  intro v member
  rw [restrict_of_mem member]
  exact fills v (fewer v member)

end Tuple

/-! ## Operators -/

namespace Operator

/-- Whether an operator has a value for every variable that it produces: it has an expression or a
    stored value for each, and a union takes its columns from its sides. -/
def Fits (I : Interpretation) (columns : Nat → List Var) : Operator → Prop
  | scan source vars => ∀ row ∈ I.rows source, vars.length ≤ row.length
  | assign vars exprs | aggregate vars exprs | runningAggregate vars exprs =>
    vars.length ≤ exprs.length
  | unionAll pairs => ∀ c ∈ pairs, c.left ∈ columns 0 ∧ c.right ∈ columns 1
  | script command _ outputs => ∀ ts rows, I.scripts command ts rows →
      ∀ row ∈ rows, outputs.length ≤ row.length
  | _ => True

theorem fills_unionTuple {pairs : List UnionColumn} {side : UnionColumn → Var} {t : Tuple}
    {vs : List Var} (fills : t.Fills vs) (inside : ∀ c ∈ pairs, side c ∈ vs) :
    (unionTuple pairs side t).Fills (pairs.map (·.output)) := by
  intro v member
  obtain ⟨c, isColumn, rfl⟩ := List.mem_map.mp member
  have present : (pairs.find? fun d => decide (d.output = c.output)).isSome = true :=
    List.find?_isSome.mpr ⟨c, isColumn, by simp⟩
  obtain ⟨d, found⟩ := Option.isSome_iff_exists.mp present
  obtain ⟨x, value⟩ := fills (side d) (inside d (List.mem_of_find?_eq_some found))
  exact ⟨x, by simp only [unionTuple, found, Option.bind_some, value]⟩

variable {I : Interpretation} {cols nested : List (List Var)} {ins : Nat → List Tuple}
  {out : List Tuple} {op : Operator}

/-- The tuples of an operator have values of all its schema. -/
theorem Emits.fills (run : op.Emits I (fun k => cols[k]?.getD []) ins out)
    (arity : cols.length = op.arity) (fits : op.Fits I fun k => cols[k]?.getD [])
    (reads : ∀ v ∈ op.used, ∃ vs ∈ cols, v ∈ vs)
    (inputs : ∀ k, ∀ t ∈ ins k, t.Fills (cols[k]?.getD [])) :
    ∀ t ∈ out, t.Fills (op.schema cols nested) := by
  have first : ∀ t ∈ ins 0, t.Fills (cols.headD []) := headD_eq_getD cols ▸ inputs 0
  have all : op.arity = 1 → ∀ t ∈ ins 0, t.Fills cols.flatten := by
    intro unary t member
    obtain ⟨vs, rfl⟩ := List.length_eq_one_iff.mp (arity.trans unary)
    rw [List.flatten_singleton]
    exact inputs 0 t member
  intro o member
  have made := run.makes member
  cases op with
  | nestedSource | groupBy | subplan => exact made.elim
  | emptySource =>
    intro v impossible
    cases impossible
  | scan source vars =>
    obtain ⟨t, fromInput, row, stored, rfl⟩ := made
    exact (all rfl t fromInput).extend (fits row stored)
  | assign vars exprs =>
    obtain ⟨t, fromInput, row, values, rfl⟩ := made
    exact (all rfl t fromInput).extend (fits.trans_eq values.length_eq.symm)
  | runningAggregate vars exprs =>
    obtain ⟨t, fromInput, row, length, rfl⟩ := made
    exact (all rfl t fromInput).extend (fits.trans_eq length)
  | unnest v e position =>
    obtain ⟨t, fromInput, x, y, rfl⟩ := made
    refine (all rfl t fromInput).extend ?_
    cases position <;> simp
  | select condition => exact first o made.1
  | order | limit | exchange | replicate | write | insertDelete | sink => exact first o made
  | project vars | distinct vars =>
    obtain ⟨t, fromInput, rfl⟩ := made
    exact (all rfl t fromInput).restrict fun v member => List.mem_flatten.mpr (reads v member)
  | aggregate vars exprs =>
    obtain ⟨row, length, rfl⟩ := made
    exact Tuple.fills_extend _ (fits.trans_eq length)
  | join kind condition =>
    obtain ⟨left, right, rfl⟩ := List.length_eq_two.mp arity
    have columns : (Operator.join kind condition).schema [left, right] nested = left ++ right := by
      simp [Operator.schema]
    rw [columns]
    obtain ⟨t, fromLeft, ⟨u, fromRight, rfl, _⟩ | ⟨_, rfl⟩⟩ := made
    · exact (inputs 0 t fromLeft).join (inputs 1 u fromRight)
    · exact (inputs 0 t fromLeft).join (Tuple.fills_extend _ (by simp))
  | unionAll pairs =>
    obtain ⟨u, inside, rfl⟩ | ⟨u, inside, rfl⟩ := made
    · exact fills_unionTuple (inputs 0 u inside) fun c isColumn => (fits c isColumn).1
    · exact fills_unionTuple (inputs 1 u inside) fun c isColumn => (fits c isColumn).2
  | script command read written =>
    obtain ⟨_, _, scripted, row, inside, rfl⟩ := made
    exact Tuple.fills_extend _ (fits _ _ scripted row inside)

end Operator

/-! ## Plans -/

namespace Plan

variable {plan : Plan} {I : Interpretation} {frames : Frames} {n : NodeId} {ts : List Tuple}

theorem combine_fills {yielded : NodeId → Tuple} {ids : List NodeId}
    (each : ∀ id ∈ ids, (yielded id).Fills (plan.columns id)) :
    (plan.combine yielded ids).Fills (ids.map plan.columns).flatten := by
  induction ids with
  | nil => intro v impossible; cases impossible
  | cons id ids ih =>
    exact (each id List.mem_cons_self).join
      (ih fun other member => each other (List.mem_cons_of_mem _ member))

/-- Whether nested plans run on tuples that have values of the columns of the input of their
    owner. -/
abbrev FramesFilled (plan : Plan) (frames : Frames) : Prop := plan.FramesHold (fun vs t => t.Fills vs) frames

section Fitting

variable (wellFormed : plan.WellFormed) (current : plan.SchemasCurrent) (scope : plan.InScope)
  (fits : ∀ n, plan.Reaches n → (plan.operator n).Fits I (plan.inputColumns n))

include wellFormed scope fits in
theorem carries_fills : plan.Carries I fun vs t => t.Fills vs where
  plain {n ins out} reached emits inputs := by
    have other : ∀ nested, plan.operator n ≠ .subplan nested := by
      intro nested operator
      rw [operator] at emits
      exact emits.elim
    have fitsHere := fits n reached
    rw [inputColumns_eq] at fitsHere
    refine emits.fills ?_ fitsHere (fun v used => ?_) inputs
    · rw [List.length_map]
      exact wellFormed.arity n reached
    · obtain ⟨c, isInput, inside⟩ := scope n reached other v used
      exact ⟨_, List.mem_map_of_mem isInput, inside⟩
  groupBy values yielded := by
    refine (combine_fills yielded).extend (Nat.le_of_eq ?_)
    have length := values.length_eq
    rw [List.length_map] at length ⊢
    exact length.symm
  subplan {n nested input t yielded} reached operator source filled each := by
    obtain ⟨c, single⟩ := List.length_eq_one_iff.mp
      ((wellFormed.arity n reached).trans (by rw [operator]; rfl))
    obtain rfl : c = input := by rw [single] at source; exact Option.some.inj source
    refine (filled.join (combine_fills each)).mono fun v member => ?_
    rw [single] at member
    simpa [mem_appendNew] using member

include wellFormed current scope fits

theorem Yields.fills (run : plan.Yields I frames n ts) (reached : plan.Reaches n)
    (framed : plan.FramesFilled frames) : ∀ t ∈ ts, t.Fills (plan.columns n) :=
  (carries_fills wellFormed scope fits).yields current run reached framed

theorem Invocation.framesFilled (invoked : plan.Invocation I frames) : plan.FramesFilled frames :=
  (carries_fills wellFormed scope fits).framesHold current invoked

/-- Every tuple has values of the columns of its node. -/
theorem filled_of_fits : plan.Filled I := fun _ _ _ invoked reached run =>
  run.fills wellFormed current scope fits reached
    (invoked.framesFilled wellFormed current scope fits)

end Fitting

end Plan

end QueryOptimizer
