import Mathlib
import QueryOptimizer.Plan.Validity
import QueryOptimizer.Proofs.Relational.Pushing

/-! # Runs of single nodes

What a node may yield in terms of what its inputs may yield, and when the runs of two plans are the
same. A valid plan is one in which operators read what their inputs have.
-/

namespace QueryOptimizer

/-- The values of two inputs. -/
def sides {α : Type} (first second : List α) : Nat → List α
  | 0 => first
  | 1 => second
  | _ => []

theorem update_sides_zero {α : Type} (first second other : List α) :
    Function.update (sides first second) 0 other = sides other second := by
  funext k
  match k with
  | 0 => rfl
  | 1 => rfl
  | _ + 2 => rfl

theorem update_sides_one {α : Type} (first second other : List α) :
    Function.update (sides first second) 1 other = sides first other := by
  funext k
  match k with
  | 0 => rfl
  | 1 => rfl
  | _ + 2 => rfl

namespace Plan

variable {plan plan' : Plan} {I : Interpretation} {frames : Frames} {n x y : NodeId} {op : Operator}
  {ts : List Tuple}

/-- A node with one input. -/
theorem yields_single_iff (operator : plan.operator n = op) (plain : op.IsPlain)
    (arity : op.arity = 1) (inputs : plan.inputs n = [x]) :
    plan.Yields I frames n ts ↔ ∃ us, plan.Yields I frames x us ∧ op.Turns I us ts := by
  constructor
  · intro run
    obtain ⟨ins, each, _, emits⟩ := run.emits operator plain
    exact ⟨ins 0, each 0 x (by rw [inputs]; rfl), (Operator.emits_iff_turns plain arity).mp emits⟩
  · rintro ⟨us, run, turns⟩
    refine @Yields.plain plan I frames n (sides us []) ts (fun k input found => ?_) (fun k missing => ?_) ?_
    · rw [inputs] at found
      match k with
      | 0 => cases found; exact run
      | _ + 1 => cases found
    · rw [inputs] at missing
      match k with
      | 0 => cases missing
      | 1 => rfl
      | _ + 2 => rfl
    · rw [operator]
      exact (Operator.emits_iff_turns plain arity).mpr turns

theorem inputColumns_sides (inputs : plan.inputs n = [x, y]) :
    plan.inputColumns n = sides (plan.columns x) (plan.columns y) := by
  funext k
  unfold inputColumns
  rw [inputs]
  match k with
  | 0 => rfl
  | 1 => rfl
  | _ + 2 => rfl

/-- A node with two inputs. -/
theorem yields_sides_iff (operator : plan.operator n = op) (plain : op.IsPlain)
    (inputs : plan.inputs n = [x, y]) :
    plan.Yields I frames n ts ↔ ∃ us vs, plan.Yields I frames x us ∧ plan.Yields I frames y vs ∧
      op.Emits I (sides (plan.columns x) (plan.columns y)) (sides us vs) ts := by
  rw [← inputColumns_sides inputs]
  constructor
  · intro run
    obtain ⟨ins, each, missing, emits⟩ := run.emits operator plain
    have same : ins = sides (ins 0) (ins 1) := by
      funext k
      match k with
      | 0 => rfl
      | 1 => rfl
      | k + 2 => exact missing (k + 2) (by rw [inputs]; rfl)
    rw [same] at emits
    exact ⟨ins 0, ins 1, each 0 x (by rw [inputs]; rfl), each 1 y (by rw [inputs]; rfl), emits⟩
  · rintro ⟨us, vs, first, second, emits⟩
    refine @Yields.plain plan I frames n (sides us vs) ts (fun k input found => ?_) (fun k missing => ?_) ?_
    · rw [inputs] at found
      match k with
      | 0 => cases found; exact first
      | 1 => cases found; exact second
      | _ + 2 => cases found
    · rw [inputs] at missing
      match k with
      | 0 => cases missing
      | 1 => cases missing
      | _ + 2 => rfl
    · rw [operator]
      exact emits

/-- A run only depends on the nodes below. -/
theorem Yields.transfer {U : NodeId → Prop} (closed : ∀ n, U n → ∀ c ∈ plan.children n, U c)
    (same : ∀ n, U n → plan'.node n = plan.node n) (run : plan.Yields I frames n ts)
    (inside : U n) : plan'.Yields I frames n ts := by
  have operators : ∀ n, U n → plan'.operator n = plan.operator n := fun n inside =>
    congrArg Node.operator (same n inside)
  have inputsSame : ∀ n, U n → plan'.inputs n = plan.inputs n := fun n inside =>
    inputs_congr (same n inside)
  have rootsSame : ∀ n, U n → plan'.nestedRoots n = plan.nestedRoots n := fun n inside =>
    nestedRoots_congr (same n inside)
  have columnsSame : ∀ n, U n → plan'.columns n = plan.columns n := by
    intro n inside
    unfold columns
    rw [same n inside]
  have combined : ∀ n, U n → ∀ yielded : NodeId → Tuple,
      plan'.combine yielded (plan'.nestedRoots n) = plan.combine yielded (plan.nestedRoots n) := by
    intro n inside yielded
    rw [rootsSame n inside]
    exact combine_congr (fun root isRoot =>
      columnsSame root (closed n inside root (List.mem_append_right _ isRoot))) fun _ _ => rfl
  have input : ∀ n, U n → ∀ {k : Nat} {c : NodeId}, (plan.inputs n)[k]? = some c → U c :=
    fun n inside k c found => closed n inside c (List.mem_append_left _ (List.mem_of_getElem? found))
  induction run with
  | @nestedSource frames n owner ts operator frame =>
    exact .nestedSource ((operators n inside).trans operator) frame
  | @plain frames n ins out inputs missing emits ih =>
    have columns : plan'.inputColumns n = plan.inputColumns n := by
      funext k
      unfold inputColumns
      rw [inputsSame n inside]
      cases found : (plan.inputs n)[k]? with
      | none => rfl
      | some c => exact columnsSame c (input n inside found)
    refine @Yields.plain plan' I frames n ins out (fun k c found => ?_) (fun k gone => ?_) ?_
    · rw [inputsSame n inside] at found
      exact ih k c found (input n inside found)
    · rw [inputsSame n inside] at gone
      exact missing k gone
    · rw [operators n inside, columns]
      exact emits
  | @groupBy frames n source keys decor nested us rows grouped inner operator found _ values groups
      decorations yielded ihTuples ihYielded =>
      have run : plan'.Yields I frames n (grouped.mapIdx fun i group =>
          (plan'.combine (inner i) (plan'.nestedRoots n)).extend ((keys ++ decor).map (·.1))
            ((group.head?.map (·.2)).getD [])) := by
        refine .groupBy ((operators n inside).trans operator) ?_ (ihTuples (input n inside found))
          values groups decorations fun i group position root isRoot => ?_
        · rw [inputsSame n inside]
          exact found
        · rw [rootsSame n inside] at isRoot
          exact ihYielded i group position root isRoot
            (closed n inside root (List.mem_append_right _ isRoot))
      simpa only [combined n inside] using run
  | @subplan frames n source nested us inner operator found _ yielded ihTuples ihYielded =>
    have run : plan'.Yields I frames n (us.mapIdx fun i t =>
        Tuple.join (plan'.columns source) t (plan'.combine (inner i) (plan'.nestedRoots n))) := by
      refine .subplan ((operators n inside).trans operator) ?_ (ihTuples (input n inside found))
        fun i t position root isRoot => ?_
      · rw [inputsSame n inside]
        exact found
      · rw [rootsSame n inside] at isRoot
        exact ihYielded i t position root isRoot
          (closed n inside root (List.mem_append_right _ isRoot))
    simpa only [combined n inside, columnsSame source (input n inside found)] using run

/-! ## Valid plans -/

/-- Whether operators read what one of their inputs has. -/
def InScope (plan : Plan) : Prop :=
  ∀ n, plan.Reaches n → (∀ nested, plan.operator n ≠ .subplan nested) →
    ∀ v ∈ (plan.operator n).used, ∃ c ∈ plan.inputs n, v ∈ plan.columns c

theorem forM_ok {ids : List NodeId} {f : NodeId → Except Failure Unit} (done : ids.forM f = .ok ())
    (member : n ∈ ids) : f n = .ok () := by
  induction ids with
  | nil => cases member
  | cons id ids ih =>
    rw [List.forM_eq_forM, List.forM_cons] at done
    obtain ⟨_, first, rest⟩ := bind_ok_iff.mp done
    rcases List.mem_cons.mp member with rfl | member
    · exact first
    · exact ih rest member

theorem inScope_of_validate (valid : plan.validate false = .ok ()) : plan.InScope := by
  intro n reached other v used
  obtain ⟨_, checked, _⟩ := bind_ok_iff.mp (forM_ok valid (mem_reachable reached))
  obtain ⟨schemas, computed, checked⟩ := bind_ok_iff.mp checked
  have found : v ∈ schemas.flatten := by
    by_contra missing
    cases operator : plan.operator n with
    | subplan nested => exact other nested operator
    | _ =>
      rw [operator] at checked used
      dsimp only at checked
      split at checked
      · exact throw_ne_ok checked
      · rename_i none
        exact missing (by simpa using List.find?_eq_none.mp none v used)
  rw [mapM_schema computed] at found
  obtain ⟨vs, isColumns, inside⟩ := List.mem_flatten.mp found
  obtain ⟨c, isInput, rfl⟩ := List.mem_map.mp isColumns
  exact ⟨c, isInput, inside⟩

/-- Whether every tuple of every run has values of the columns of its node. -/
def Filled (plan : Plan) (I : Interpretation) : Prop :=
  ∀ frames n ts, plan.Invocation I frames → plan.Reaches n → plan.Yields I frames n ts →
    ∀ t ∈ ts, t.Fills (plan.columns n)

end Plan

end QueryOptimizer
