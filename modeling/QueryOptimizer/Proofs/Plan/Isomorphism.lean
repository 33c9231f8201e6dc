import Mathlib
import QueryOptimizer.Plan.Explain
import QueryOptimizer.Plan.Isomorphism
import QueryOptimizer.Proofs.Plan.Garbage

/-! # Isomorphic plans

Unfolded from the root, without the numbers of nodes, a plan is a tree. Plans are isomorphic exactly if
these trees are equal, and what is drawn of a plan is its tree.
-/

namespace QueryOptimizer

/-- The operator without the numbers of nodes in it. -/
def Operator.anonymous (op : Operator) : Operator := (op.mapNested fun _ => []).ownedBy 0

theorem Operator.isSame_iff {op other : Operator} :
    op.isSame other = true ↔ op.anonymous = other.anonymous := by
  cases op with
  | nestedSource => cases other <;> simp [isSame, anonymous, mapNested, ownedBy]
  | groupBy => cases other <;> simp [isSame, anonymous, mapNested, ownedBy]
  | subplan => cases other <;> simp [isSame, anonymous, mapNested, ownedBy]
  | _ =>
    refine decide_eq_true_iff.trans ⟨fun same => same ▸ rfl, fun same => same.trans ?_⟩
    cases other <;> first | rfl | cases same

theorem Physical.isSame_iff {p q : Option Physical} :
    Physical.isSame p q = true ↔ p.map (·.ownedBy 0) = q.map (·.ownedBy 0) := by
  have owned : ∀ p : Physical, p.ownedBy 0 = p ∨ ∃ owner, p = .nestedSource owner := by
    intro p
    cases p <;> simp [ownedBy]
  unfold isSame
  split
  · simp [ownedBy]
  · rename_i other
    refine decide_eq_true_iff.trans ⟨fun same => same ▸ rfl, fun same => ?_⟩
    rcases p with _ | p <;> rcases q with _ | q
    · rfl
    · cases same
    · cases same
    · replace same : p.ownedBy 0 = q.ownedBy 0 := Option.some.inj same
      rcases owned p with kept | ⟨owner, rfl⟩ <;> rcases owned q with kept' | ⟨owner', rfl⟩
      · rw [← kept, same, kept']
      · exact (other 0 owner' (congrArg some (kept.symm.trans same)) rfl).elim
      · exact (other owner 0 rfl (congrArg some (kept'.symm.trans same.symm))).elim
      · exact (other owner owner' rfl rfl).elim

/-- What stands at a node, over the trees of its inputs and nested plans. -/
inductive Shape where
  | node (operator : Operator) (physical : Option Physical) (mode : Mode) (inputs : List Shape)
      (nested : List (List Shape))

theorem map_eq_map_iff {α β γ : Type} {f : α → γ} {g : β → γ} {as : List α} {bs : List β} :
    as.map f = bs.map g ↔ List.Forall₂ (fun a b => f a = g b) as bs := by
  rw [← List.forall₂_eq_eq_eq, List.forall₂_map_left_iff, List.forall₂_map_right_iff]

namespace Plan

variable {plan other : Plan} {n m : NodeId} {depth more : Nat}

/-- The tree below a node, cut off at a depth. Nothing but the numbers of nodes is left out. -/
def shape (plan : Plan) : Nat → NodeId → Shape
  | 0, n => .node (plan.operator n).anonymous ((plan.node n).physical.map (·.ownedBy 0)) (plan.mode n) [] []
  | depth + 1, n => .node (plan.operator n).anonymous ((plan.node n).physical.map (·.ownedBy 0))
      (plan.mode n) ((plan.inputs n).map (shape plan depth))
      ((plan.operator n).nested.map (·.map (shape plan depth)))

theorem shape_zero_iff : plan.shape 0 n = other.shape 0 m ↔
    (plan.operator n).anonymous = (other.operator m).anonymous ∧
      (plan.node n).physical.map (·.ownedBy 0) = (other.node m).physical.map (·.ownedBy 0) ∧
      plan.mode n = other.mode m := by
  simp [shape]

theorem shape_succ_iff : plan.shape (depth + 1) n = other.shape (depth + 1) m ↔
    plan.shape 0 n = other.shape 0 m ∧
      List.Forall₂ (fun c d => plan.shape depth c = other.shape depth d) (plan.inputs n) (other.inputs m) ∧
      List.Forall₂ (List.Forall₂ fun c d => plan.shape depth c = other.shape depth d)
        (plan.operator n).nested (other.operator m).nested := by
  simp only [shape, Shape.node.injEq, map_eq_map_iff, and_assoc, and_true]

theorem pairwise_iff {α : Type} {agree : α → α → Bool} {as bs : List α} :
    pairwise agree as bs = true ↔ List.Forall₂ (fun a b => agree a b = true) as bs := by
  induction as generalizing bs with
  | nil => cases bs <;> simp [pairwise]
  | cons a as ih => cases bs <;> simp [pairwise, ih]

theorem sameTree_succ_iff : sameTree plan other (depth + 1) n m = true ↔
    plan.shape 0 n = other.shape 0 m ∧
      List.Forall₂ (fun c d => sameTree plan other depth c d = true) (plan.inputs n) (other.inputs m) ∧
      List.Forall₂ (List.Forall₂ fun c d => sameTree plan other depth c d = true)
        (plan.operator n).nested (other.operator m).nested := by
  simp only [sameTree, shape_zero_iff, Bool.and_eq_true, decide_eq_true_eq, Operator.isSame_iff,
    Physical.isSame_iff, pairwise_iff]
  tauto

/-- Trees that are the same agree down to any depth. -/
theorem shape_eq_of_sameTree (same : sameTree plan other more n m = true) (depth : Nat) :
    plan.shape depth n = other.shape depth m := by
  induction depth generalizing more n m with
  | zero =>
    cases more with
    | zero => cases same
    | succ more => exact (sameTree_succ_iff.mp same).1
  | succ depth ih =>
    cases more with
    | zero => cases same
    | succ more =>
      obtain ⟨label, inputs, nested⟩ := sameTree_succ_iff.mp same
      exact shape_succ_iff.mpr ⟨label, inputs.imp fun _ _ => ih,
        nested.imp fun _ _ roots => roots.imp fun _ _ => ih⟩

/-- Whether no path from a node is longer than the depth. -/
def Fits (plan : Plan) : Nat → NodeId → Prop
  | 0, n => plan.inputs n = [] ∧ (plan.operator n).nested = []
  | depth + 1, n => ∀ c ∈ plan.children n, Fits plan depth c

theorem Fits.child {c : NodeId} (fits : plan.Fits depth n) (member : c ∈ plan.children n) :
    ∃ less, depth = less + 1 ∧ plan.Fits less c := by
  cases depth with
  | zero =>
    unfold children nestedRoots at member
    rw [fits.1, fits.2] at member
    cases member
  | succ depth => exact ⟨depth, rfl, fits c member⟩

theorem Fits.sameTree (fits : plan.Fits depth n)
    (same : plan.shape (depth + 1) n = other.shape (depth + 1) m) :
    Plan.sameTree plan other (depth + 1) n m = true := by
  induction depth using Nat.strong_induction_on generalizing n m with
  | h depth ih =>
    have child : ∀ c ∈ plan.children n, ∀ d, plan.shape depth c = other.shape depth d →
        Plan.sameTree plan other depth c d = true := by
      intro c member d same
      obtain ⟨less, rfl, below⟩ := fits.child member
      exact ih less (Nat.lt_succ_self less) below same
    obtain ⟨label, inputs, nested⟩ := shape_succ_iff.mp same
    refine sameTree_succ_iff.mpr ⟨label, ?_, ?_⟩
    · exact forall₂_of_mem inputs fun c isInput d _ => child c (List.mem_append_left _ isInput) d
    · exact forall₂_of_mem nested fun roots listed _ _ alike => forall₂_of_mem alike fun c isRoot d _ =>
        child c (List.mem_append_right _ (List.mem_flatten_of_mem listed isRoot)) d

/-! ## Drawings -/

theorem nodeText_eq (plan : Plan) (n : NodeId) : plan.nodeText n =
    ((plan.node n).physical.map (·.ownedBy 0)).elim (plan.operator n).anonymous.text fun p =>
      (plan.operator n).anonymous.text ++ " [" ++ p.text ++ "] " ++ (plan.mode n).text := by
  have operator : (plan.operator n).anonymous.text = (plan.operator n).text := by
    cases plan.operator n <;> rfl
  have physical : ∀ p : Physical, (p.ownedBy 0).text = p.text := fun p => by cases p <;> rfl
  rw [operator]
  unfold nodeText
  dsimp only
  cases (plan.node n).physical with
  | none => rfl
  | some p => rw [Option.map_some, Option.elim_some, physical]; rfl

theorem nodeText_congr (same : plan.shape 0 n = other.shape 0 m) : plan.nodeText n = other.nodeText m := by
  obtain ⟨operator, physical, mode⟩ := shape_zero_iff.mp same
  rw [nodeText_eq, nodeText_eq, operator, physical, mode]

theorem drawing_succ : plan.drawing (depth + 1) n = .item (plan.nodeText n)
    ((plan.inputs n).map (plan.drawing depth) ++
      ((plan.operator n).nested.map (·.map (plan.drawing depth))).zipIdx.map fun entry =>
        .item ("nested plan #" ++ Nat.repr entry.2) entry.1) := by
  simp only [drawing, List.zipIdx_map, List.map_map]
  rfl

theorem drawing_congr (same : plan.shape depth n = other.shape depth m) :
    plan.drawing depth n = other.drawing depth m := by
  induction depth generalizing n m with
  | zero => rw [drawing, drawing, nodeText_congr same]
  | succ depth ih =>
    obtain ⟨label, inputs, nested⟩ := shape_succ_iff.mp same
    rw [drawing_succ, drawing_succ, nodeText_congr label, map_eq_map_iff.mpr (inputs.imp fun _ _ => ih),
      map_eq_map_iff.mpr (nested.imp fun _ _ roots => map_eq_map_iff.mpr (roots.imp fun _ _ => ih))]

theorem Fits.drawing (fits : plan.Fits depth n) (enough : depth ≤ more) :
    plan.drawing more n = plan.drawing depth n := by
  induction depth generalizing more n with
  | zero =>
    cases more with
    | zero => rfl
    | succ more =>
      rw [drawing_succ, fits.1, fits.2]
      rfl
  | succ depth ih =>
    obtain ⟨more, rfl⟩ := Nat.exists_eq_add_of_le' (Nat.le_of_add_left_le enough)
    have child : ∀ c ∈ plan.children n, plan.drawing more c = plan.drawing depth c :=
      fun c member => ih (fits c member) (Nat.le_of_succ_le_succ enough)
    rw [drawing_succ, drawing_succ,
      List.map_congr_left fun c isInput => child c (List.mem_append_left _ isInput),
      List.map_congr_left fun roots listed => List.map_congr_left fun c isRoot =>
        child c (List.mem_append_right _ (List.mem_flatten_of_mem listed isRoot))]

/-! ## Plans without cycles -/

/-- Whether no reachable node is below itself. -/
def Unfolds (plan : Plan) : Prop := ∃ rank, plan.Descends rank

/-- No path is longer than there are nodes. -/
theorem Unfolds.fits (unfolds : plan.Unfolds) : plan.Fits plan.nodes.length plan.root := by
  obtain ⟨rank, falls⟩ := unfolds
  let low := rankIn (List.range plan.nodes.length) rank
  have lower : ∀ n, plan.Reaches n → ∀ c ∈ plan.children n, low c < low n := fun n reached c member =>
    rankIn_lt (List.mem_range.mpr (lt_of_children (List.ne_nil_of_mem member))) (falls n reached c member)
  have fits : ∀ depth n, plan.Reaches n → low n ≤ depth → plan.Fits depth n := by
    intro depth
    induction depth with
    | zero =>
      intro n _ none
      have absent : plan.node? n = Option.none := by
        refine node?_eq_none (Nat.le_of_not_lt fun inside => ?_)
        have counted : 0 < low n := Finset.card_pos.mpr ⟨n, Finset.mem_filter.mpr
          ⟨List.mem_toFinset.mpr (List.mem_range.mpr inside), le_rfl⟩⟩
        omega
      unfold Fits Plan.inputs Plan.operator Plan.node
      rw [absent]
      exact ⟨rfl, rfl⟩
    | succ depth ih =>
      exact fun n reached enough c member =>
        ih c (reached.child member) (Nat.le_of_lt_succ ((lower n reached c member).trans_le enough))
  exact fits _ _ .refl ((rankIn_le _ rank _).trans List.length_range.le)

/-- Plans without cycles are isomorphic exactly if they unfold to the same trees. -/
theorem Unfolds.isIsomorphic_iff (unfolds : plan.Unfolds) :
    plan.isIsomorphic other = true ↔ ∀ depth, plan.shape depth plan.root = other.shape depth other.root :=
  ⟨shape_eq_of_sameTree, fun same => unfolds.fits.sameTree (same _)⟩

theorem Unfolds.explain (unfolds : plan.Unfolds) (more : plan.nodes.length ≤ depth) :
    plan.explain = (plan.drawing depth plan.root).text := by
  rw [Plan.explain, unfolds.fits.drawing more]

end Plan

/-! ## Copies -/

/-- The operator with other numbers for the nodes in it. -/
def Operator.renumber (f : NodeId → NodeId) : Operator → Operator
  | nestedSource owner => nestedSource (f owner)
  | op => op.mapNested fun nested => nested.map (·.map f)

def Physical.renumber (f : NodeId → NodeId) : Physical → Physical
  | nestedSource owner => nestedSource (f owner)
  | p => p

def Node.renumber (f : NodeId → NodeId) (node : Node) : Node :=
  { node with
    operator := node.operator.renumber f
    physical := node.physical.map (·.renumber f)
    inputs := node.inputs.map fun edge => (edge.1, f edge.2) }

theorem Node.renumber_id (node : Node) : node.renumber id = node := by
  have operator : node.operator.renumber id = node.operator := by
    cases node.operator <;> simp [Operator.renumber, Operator.mapNested]
  have physical : (fun p : Physical => p.renumber id) = id := funext fun p => by cases p <;> rfl
  simp [Node.renumber, operator, physical]

namespace Plan

variable {plan other : Plan} {n m : NodeId} {depth more : Nat} {f : NodeId → NodeId}

/-- A plan with the same nodes under other numbers. -/
structure Renumbered (f : NodeId → NodeId) (plan other : Plan) : Prop where
  root : other.root = f plan.root
  node : ∀ n, plan.Reaches n → other.node (f n) = (plan.node n).renumber f

namespace Renumbered

variable (renumbered : plan.Renumbered f other) (reached : plan.Reaches n)

include renumbered reached

theorem inputs : other.inputs (f n) = (plan.inputs n).map f := by
  unfold Plan.inputs
  rw [renumbered.node n reached, Node.renumber, List.map_map, List.map_map]
  rfl

theorem nested : (other.operator (f n)).nested = (plan.operator n).nested.map (·.map f) := by
  unfold Plan.operator
  rw [renumbered.node n reached]
  change ((plan.node n).operator.renumber f).nested = _
  cases (plan.node n).operator <;> rfl

theorem shape_zero : plan.shape 0 n = other.shape 0 (f n) := by
  have operator : ∀ op : Operator, op.anonymous = (op.renumber f).anonymous := fun op => by cases op <;> rfl
  have physical : ∀ p : Physical, p.ownedBy 0 = (p.renumber f).ownedBy 0 := fun p => by cases p <;> rfl
  rw [shape_zero_iff, Plan.operator, Plan.operator, Plan.mode, Plan.mode, renumbered.node n reached]
  refine ⟨operator _, ?_, rfl⟩
  rw [Node.renumber, Option.map_map]
  exact Option.map_congr fun p _ => physical p

theorem shape (depth : Nat) : plan.shape depth n = other.shape depth (f n) := by
  induction depth generalizing n with
  | zero => exact renumbered.shape_zero reached
  | succ depth ih =>
    refine shape_succ_iff.mpr ⟨renumbered.shape_zero reached, ?_, ?_⟩
    · rw [renumbered.inputs reached, List.forall₂_map_right_iff, List.forall₂_same]
      exact fun c isInput => ih (reached.input isInput)
    · rw [renumbered.nested reached, List.forall₂_map_right_iff, List.forall₂_same]
      intro roots listed
      rw [List.forall₂_map_right_iff, List.forall₂_same]
      exact fun c isRoot => ih (reached.nestedRoot (List.mem_flatten_of_mem listed isRoot))

end Renumbered

/-- Isomorphism of plans without cycles is equality of the trees that they unfold to, and so an
    equivalence. Neither other numbers nor the removal of what cannot be reached makes a
    difference to it, and isomorphic plans are drawn in the same way. -/
theorem isIsomorphic_is_equivalence (unfolds : plan.Unfolds) :
    plan.isIsomorphic plan = true ∧
    (∀ other : Plan, other.Unfolds → plan.isIsomorphic other = true →
      other.isIsomorphic plan = true ∧ plan.explain = other.explain ∧
      ∀ third : Plan, other.isIsomorphic third = true → plan.isIsomorphic third = true) ∧
    (∀ f copy, plan.Renumbered f copy → plan.isIsomorphic copy = true) ∧
    plan.isIsomorphic plan.collectGarbage.1 = true ∧
    ∀ other : Plan, plan.isIsomorphic other = true ↔
      ∀ depth, plan.shape depth plan.root = other.shape depth other.root := by
  have copies : ∀ f copy, plan.Renumbered f copy → plan.isIsomorphic copy = true := by
    intro f copy renumbered
    rw [unfolds.isIsomorphic_iff, renumbered.root]
    exact renumbered.shape .refl
  refine ⟨unfolds.isIsomorphic_iff.mpr fun _ => rfl, fun other unfolds' same => ?_, copies, ?_,
    fun other => unfolds.isIsomorphic_iff⟩
  · rw [unfolds.isIsomorphic_iff] at same
    refine ⟨unfolds'.isIsomorphic_iff.mpr fun depth => (same depth).symm, ?_, fun third same' => ?_⟩
    · rw [unfolds.explain (Nat.le_max_left _ other.nodes.length), unfolds'.explain (Nat.le_max_right _ _),
        drawing_congr (same _)]
    · rw [unfolds'.isIsomorphic_iff] at same'
      exact unfolds.isIsomorphic_iff.mpr fun depth => (same depth).trans (same' depth)
  · have trimmed := plan.trimmed_collectGarbage
    refine copies id _ ⟨trimmed.root, fun n reached => ?_⟩
    rw [Node.renumber_id]
    exact trimmed.node reached

/-- A group-by that counts, and a node that cannot be reached. -/
def countedGroups : Plan where
  nodes := [
    some (.above .emptySource []),
    some (.above (.scan "S" [1]) [0]),
    some (.above (.groupBy [(2, .var 1)] [] [[4]]) [1]),
    some (.above (.nestedSource 2) []),
    some { Node.above (.aggregate [3] [.call .count [.var 1] []]) [3] with mode := .local },
    some (.above (.limit 1 none) [2])]
  root := 2

/-- The same nodes, the other way round. -/
def countedGroupsReversed : Plan where
  nodes := (countedGroups.nodes.map (·.map (·.renumber (5 - ·)))).reverse
  root := 3

theorem Unfolds.of_nodes (rank : NodeId → Nat)
    (falls : ∀ n < plan.nodes.length, ∀ c ∈ plan.children n, rank c < rank n) : plan.Unfolds :=
  ⟨rank, fun n _ c member => falls n (lt_of_children (List.ne_nil_of_mem member)) c member⟩

theorem countedGroups_unfolds : countedGroups.Unfolds :=
  .of_nodes (fun n => [0, 1, 4, 2, 3, 5].getD n 0) (by decide)

/-- Numbers do not matter, nor does the node that cannot be reached. -/
theorem isIsomorphic_is_equivalence_reversed :
    countedGroups.isIsomorphic countedGroupsReversed = true ∧
      countedGroups.explain = countedGroupsReversed.explain ∧
      countedGroups.collectGarbage.2 = [5] ∧
      countedGroups.isIsomorphic countedGroups.collectGarbage.1 = true := by
  obtain ⟨_, others, copies, collected, _⟩ := isIsomorphic_is_equivalence countedGroups_unfolds
  have copy : countedGroups.isIsomorphic countedGroupsReversed = true := by
    have each : ∀ n < 6, countedGroupsReversed.node (5 - n) = (countedGroups.node n).renumber (5 - ·) := by
      decide
    refine copies (5 - ·) _ ⟨rfl, fun n reached => each n ?_⟩
    exact Below.of_closed (P := (· < 6)) (by decide) (by decide) reached
  have unfolds : countedGroupsReversed.Unfolds :=
    .of_nodes (fun n => [5, 3, 2, 4, 1, 0].getD n 0) (by decide)
  exact ⟨copy, (others _ unfolds copy).2.1, rfl, collected⟩

end Plan

end QueryOptimizer
