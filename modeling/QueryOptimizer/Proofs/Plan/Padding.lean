import Mathlib
import QueryOptimizer.Proofs.Plan.Inserted
import QueryOptimizer.Proofs.Plan.Outline
import QueryOptimizer.Proofs.Plan.Rework

/-! # Plans with the same outlines

Operators that only move or sort tuples are put on edges and taken out again. Neither changes the outline
of the plan, or the schema of any node that stays.
-/

namespace QueryOptimizer

theorem Operator.schema_mapNested (op : Operator) (f : NestedPlans → NestedPlans)
    (inputs nested : List (List Var)) : (op.mapNested f).schema inputs nested = op.schema inputs nested := by
  cases op <;> rfl

theorem Operator.Rewires.nested {old new : NodeId} {op op' : Operator} (rewires : op.Rewires old new op') :
    List.Forall₂ (List.Forall₂ (Replaces old new)) op.nested op'.nested := by
  obtain ⟨nested, rfl, replaced⟩ := rewires
  cases op with
  | groupBy | subplan => exact replaced
  | _ => exact .nil

namespace Plan

variable {plan plan' mid : Plan} {n c c' old new : NodeId} {fuel : Nat} {outline : Outline}

/-- Whether a node leads to another one through nodes that are left out. -/
def Leads (plan : Plan) : NodeId → NodeId → Prop :=
  Relation.ReflTransGen fun a b => plan.below? a = some b

theorem Leads.outlineWithin (leads : plan.Leads n c) (found : plan.outlineWithin fuel n = some outline) :
    plan.outlineWithin fuel c = some outline := by
  induction leads with
  | refl => exact found
  | tail _ skips ih =>
    cases fuel with
    | zero => cases found
    | succ fuel =>
      rw [outlineWithin_of_below? skips] at ih
      exact outlineWithin_succ ih

/-- Whether a node takes the place of another one: before the change the old node led to the new one, or
    after it the new node leads to the old one, and schemas are the same. -/
def TakesPlace (used : NodeId → Prop) (plan plan' : Plan) (c c' : NodeId) : Prop :=
  (plan'.node c').schema = (plan.node c).schema ∧
    (used c' ∧ plan.Leads c c' ∨ used c ∧ plan'.below? c' = some c)

variable {used : NodeId → Prop}

namespace TakesPlace

variable (kept : ∀ n outline, used n → plan.outlineWithin fuel n = some outline →
  plan'.HasOutline n outline)

include kept

/-- A node that takes the place of another one has its outline, if the nodes in use keep theirs. -/
theorem hasOutline (place : TakesPlace used plan plan' c c')
    (found : plan.outlineWithin fuel c = some outline) : plan'.HasOutline c' outline := by
  obtain ⟨_, ⟨isUsed, leads⟩ | ⟨isUsed, skips⟩⟩ := place
  · exact kept c' outline isUsed (leads.outlineWithin found)
  · exact .of_below? skips (kept c outline isUsed found)

theorem hasOutlines {ids ids' : List NodeId} {outlines : List Outline}
    (places : List.Forall₂ (TakesPlace used plan plan') ids ids')
    (found : List.Forall₂ (fun c t => plan.outlineWithin fuel c = some t) ids outlines) :
    List.Forall₂ plan'.HasOutline ids' outlines := by
  induction places generalizing outlines with
  | nil =>
    cases found
    exact .nil
  | cons place _ ih =>
    cases found with
    | cons first rest => exact .cons (hasOutline kept place first) (ih rest)

theorem hasNestedOutlines {nested nested' : NestedPlans} {outlines : List (List Outline)}
    (places : List.Forall₂ (List.Forall₂ (TakesPlace used plan plan')) nested nested')
    (found : List.Forall₂ (List.Forall₂ fun c t => plan.outlineWithin fuel c = some t) nested outlines) :
    List.Forall₂ (List.Forall₂ plan'.HasOutline) nested' outlines := by
  induction places generalizing outlines with
  | nil =>
    cases found
    exact .nil
  | cons place _ ih =>
    cases found with
    | cons first rest => exact .cons (hasOutlines kept place first) (ih rest)

end TakesPlace

/-- A plan in which nodes that are left out of outlines were put on edges or taken out, as seen by the
    nodes that are in use. -/
structure Padded (used : NodeId → Prop) (plan plan' : Plan) : Prop where
  operator : ∀ n, used n → (plan'.operator n).mapNested (fun _ => []) =
    (plan.operator n).mapNested fun _ => []
  physical : ∀ n, used n → (plan'.node n).physical = (plan.node n).physical
  mode : ∀ n, used n → plan'.mode n = plan.mode n
  inputs : ∀ n, used n → List.Forall₂ (TakesPlace used plan plan') (plan.inputs n) (plan'.inputs n)
  nested : ∀ n, used n → List.Forall₂ (List.Forall₂ (TakesPlace used plan plan'))
    (plan.operator n).nested (plan'.operator n).nested

namespace Padded

variable (padded : Padded used plan plan')

include padded

/-- The same nodes are left out. -/
theorem below? (isUsed : used n) : Option.Rel (TakesPlace used plan plan') (plan.below? n)
    (plan'.below? n) := by
  have first : Option.Rel (TakesPlace used plan plan') (plan.inputs n)[0]? (plan'.inputs n)[0]? := by
    have places := padded.inputs n isUsed
    generalize plan.inputs n = ids, plan'.inputs n = ids' at places
    cases places with
    | nil => exact .none
    | cons first _ => exact .some first
  have same := padded.operator n isUsed
  unfold Plan.below?
  cases operator : plan.operator n <;> cases operator' : plan'.operator n <;>
    rw [operator, operator'] at same <;> cases same
  case project.refl =>
    generalize (plan.inputs n)[0]? = x, (plan'.inputs n)[0]? = x' at first ⊢
    cases first with
    | none => exact .none
    | some place =>
      simp only [Option.filter, place.1]
      split
      · exact .some place
      · exact .none
  case order.refl columns top =>
    cases top with
    | none => exact first
    | some k => exact .none
  case exchange.refl => exact first
  all_goals exact .none

/-- Nodes in use keep their outlines. -/
theorem hasOutline (isUsed : used n) (has : plan.HasOutline n outline) : plan'.HasOutline n outline := by
  obtain ⟨fuel, found⟩ := has
  induction fuel generalizing n outline with
  | zero => cases found
  | succ fuel ih =>
    have kept : ∀ n outline, used n → plan.outlineWithin fuel n = some outline →
        plan'.HasOutline n outline := fun n outline isUsed found => ih isUsed found
    have rel := padded.below? isUsed
    cases skips : plan.below? n with
    | some c =>
      rw [skips] at rel
      generalize skips' : plan'.below? n = x at rel
      cases rel with
      | some place =>
        rw [outlineWithin_of_below? skips] at found
        exact .of_below? skips' (TakesPlace.hasOutline kept place found)
    | none =>
      rw [skips] at rel
      generalize skips' : plan'.below? n = x at rel
      cases rel with
      | none =>
        obtain ⟨inputs, nested, fromInputs, fromNested, rfl⟩ := (outlineWithin_some_iff skips).mp found
        rw [← padded.operator n isUsed, ← padded.physical n isUsed, ← padded.mode n isUsed]
        refine .of_children skips' ?_ ?_
        · exact TakesPlace.hasOutlines kept (padded.inputs n isUsed) fromInputs
        · exact TakesPlace.hasNestedOutlines kept (padded.nested n isUsed) fromNested

end Padded

/-! ## One node in the place of another -/

theorem mapM_schema_of_replaced {ids ids' : List NodeId} {schemas : List (List Var)}
    (replaced : List.Forall₂ (Replaces old new) ids ids')
    (each : ∀ c ∈ ids, ∀ c' ∈ ids', Replaces old new c c' →
      (plan'.node c').schema = (plan.node c).schema)
    (computed : ids.mapM plan.schema = .ok schemas) : ids'.mapM plan'.schema = .ok schemas := by
  have known := mapM_ok_iff_forall₂.mp computed
  refine mapM_ok_iff_forall₂.mpr ?_
  clear computed
  induction replaced generalizing schemas with
  | nil =>
    cases known
    exact .nil
  | cons first _ ih =>
    cases known with
    | cons stored rest =>
      have same := each _ List.mem_cons_self _ List.mem_cons_self first
      refine .cons (schema_ok_iff.mpr (same.trans (schema_ok_iff.mp stored))) (ih ?_ rest)
      exact fun c member c' member' =>
        each c (List.mem_cons_of_mem _ member) c' (List.mem_cons_of_mem _ member')

theorem forall₂_takesPlace {ids ids' : List NodeId} (place : TakesPlace used plan plan' old new)
    (same : ∀ c ∈ ids, c ∈ ids' → TakesPlace used plan plan' c c)
    (replaced : List.Forall₂ (Replaces old new) ids ids') :
    List.Forall₂ (TakesPlace used plan plan') ids ids' := by
  induction replaced with
  | nil => exact .nil
  | @cons c c' _ _ first _ ih =>
    refine .cons ?_ (ih fun c member member' => same c (List.mem_cons_of_mem _ member)
      (List.mem_cons_of_mem _ member'))
    rcases first with rfl | ⟨rfl, rfl⟩
    · exact same _ List.mem_cons_self List.mem_cons_self
    · exact place

theorem forall₂_nested_takesPlace {nested nested' : NestedPlans}
    (place : TakesPlace used plan plan' old new)
    (same : ∀ c ∈ nested.flatten, c ∈ nested'.flatten → TakesPlace used plan plan' c c)
    (replaced : List.Forall₂ (List.Forall₂ (Replaces old new)) nested nested') :
    List.Forall₂ (List.Forall₂ (TakesPlace used plan plan')) nested nested' := by
  induction replaced with
  | nil => exact .nil
  | cons first _ ih =>
    refine .cons (forall₂_takesPlace place (fun c member member' => same c
      (List.mem_append_left _ member) (List.mem_append_left _ member')) first)
      (ih fun c member member' => same c (List.mem_append_right _ member)
        (List.mem_append_right _ member'))

/-- A plan in which edges to a node may lead to another node, as seen by the nodes that are in use. -/
structure Redirected (used : NodeId → Prop) (old new : NodeId) (plan plan' : Plan) : Prop where
  operator : ∀ n, used n → (plan.operator n).Rewires old new (plan'.operator n)
  inputs : ∀ n, used n → List.Forall₂ (Replaces old new) (plan.inputs n) (plan'.inputs n)
  physical : ∀ n, used n → (plan'.node n).physical = (plan.node n).physical
  mode : ∀ n, used n → plan'.mode n = plan.mode n
  owner : ∀ n owner, used n → plan.operator n = .nestedSource owner → used owner

namespace Redirected

variable (redirected : Redirected used old new plan plan')

include redirected

/-- If the one node takes the place of the other one, nodes in use keep their outlines. -/
theorem padded (place : TakesPlace used plan plan' old new)
    (schema : ∀ n, used n → (plan'.node n).schema = (plan.node n).schema)
    (child : ∀ n c, used n → c ∈ plan.children n → c ∈ plan'.children n → used c) :
    Padded used plan plan' := by
  have same : ∀ n c, used n → c ∈ plan.children n → c ∈ plan'.children n →
      TakesPlace used plan plan' c c := fun n c isUsed member member' =>
    have isUsed := child n c isUsed member member'
    ⟨schema c isUsed, .inl ⟨isUsed, .refl⟩⟩
  refine ⟨fun n isUsed => ?_, redirected.physical, redirected.mode, fun n isUsed => ?_,
    fun n isUsed => ?_⟩
  · obtain ⟨nested, changed, _⟩ := redirected.operator n isUsed
    rw [changed]
    cases plan.operator n <;> rfl
  · exact forall₂_takesPlace place (fun c member member' => same n c isUsed
      (List.mem_append_left _ member) (List.mem_append_left _ member')) (redirected.inputs n isUsed)
  · exact forall₂_nested_takesPlace place (fun c member member' => same n c isUsed
      (List.mem_append_right _ member) (List.mem_append_right _ member'))
      (redirected.operator n isUsed).nested

theorem nestedSource_iff {owner : NodeId} (isUsed : used n) :
    plan'.operator n = .nestedSource owner ↔ plan.operator n = .nestedSource owner := by
  obtain ⟨nested, changed, _⟩ := redirected.operator n isUsed
  rw [changed]
  cases plan.operator n <;> simp [Operator.mapNested]

/-- A node gets the schema that it had, if its sources have the schemas of those that they replace. -/
theorem schemaFromChildren {vs : List Var} (isUsed : used n)
    (each : ∀ c ∈ plan.sources n, ∀ c' ∈ plan'.sources n, Replaces old new c c' →
      (plan'.node c').schema = (plan.node c).schema)
    (computed : plan.schemaFromChildren n = .ok vs) : plan'.schemaFromChildren n = .ok vs := by
  obtain ⟨nested, changed, _⟩ := redirected.operator n isUsed
  by_cases source : ∃ owner, plan.operator n = .nestedSource owner
  · obtain ⟨owner, isSource⟩ := source
    have isSource' := (redirected.nestedSource_iff isUsed).mpr isSource
    obtain ⟨input, found, stored⟩ := schemaFromChildren_of_nestedSource isSource computed
    have found := input_ok_iff.mp found
    obtain ⟨input', found', replaced⟩ := getElem?_replaced
      (redirected.inputs owner (redirected.owner n owner isUsed isSource)) found
    have same := each input (mem_sources_iff.mpr (.inr ⟨owner, isSource, found⟩)) input'
      (mem_sources_iff.mpr (.inr ⟨owner, isSource', found'⟩)) replaced
    unfold Plan.schemaFromChildren
    rw [isSource']
    exact bind_ok_iff.mpr ⟨input', input_ok_iff.mpr found',
      schema_ok_iff.mpr (same.trans (schema_ok_iff.mp stored))⟩
  · have other : ∀ owner, plan.operator n ≠ .nestedSource owner := fun owner isSource =>
      source ⟨owner, isSource⟩
    have pass : ∀ {ids ids'}, (∀ c ∈ ids, c ∈ plan.children n) → (∀ c ∈ ids', c ∈ plan'.children n) →
        List.Forall₂ (Replaces old new) ids ids' → ∀ {schemas}, ids.mapM plan.schema = .ok schemas →
        ids'.mapM plan'.schema = .ok schemas := fun inside inside' replaced _ =>
      mapM_schema_of_replaced replaced fun c member c' member' =>
        each c (mem_sources_of_child (inside c member)) c' (mem_sources_of_child (inside' c' member'))
    rw [schemaFromChildren_eq other] at computed
    rw [schemaFromChildren_eq fun owner isSource => other owner
      ((redirected.nestedSource_iff isUsed).mp isSource)]
    obtain ⟨schemas, fromInputs, computed⟩ := bind_ok_iff.mp computed
    obtain ⟨schemas', fromRoots, computed⟩ := bind_ok_iff.mp computed
    refine bind_ok_iff.mpr ⟨schemas, ?_, bind_ok_iff.mpr ⟨schemas', ?_, ?_⟩⟩
    · exact pass (fun _ => List.mem_append_left _) (fun _ => List.mem_append_left _)
        (redirected.inputs n isUsed) fromInputs
    · exact pass (fun _ => List.mem_append_right _) (fun _ => List.mem_append_right _)
        (forall₂_flatten (redirected.operator n isUsed).nested) fromRoots
    · rw [changed, Operator.schema_mapNested]
      exact computed

end Redirected

/-! ## Operators on edges, and without them -/

/-- Whether another plan has the same outline and the same schema. -/
structure SameOutline (plan plan' : Plan) : Prop where
  outline : ∀ outline, plan.HasOutline plan.root outline → plan'.HasOutline plan'.root outline
  schema : (plan'.node plan'.root).schema = (plan.node plan.root).schema

theorem SameOutline.refl (plan : Plan) : plan.SameOutline plan := ⟨fun _ has => has, rfl⟩

theorem SameOutline.trans {plan'' : Plan} (first : plan.SameOutline plan')
    (second : plan'.SameOutline plan'') : plan.SameOutline plan'' :=
  ⟨fun outline has => second.outline outline (first.outline outline has),
    second.schema.trans first.schema⟩

theorem below?_of_passes (passes : (plan.operator n).Passes) : plan.below? n = (plan.inputs n)[0]? := by
  unfold Plan.below?
  rcases passes with same | ⟨columns, same⟩ <;> rw [same]

/-- A node that passes on the tuples of its input has the schema of the input. -/
theorem schema_of_passes (passes : (plan.operator n).Passes) (inputs : plan.inputs n = [c])
    (current : plan.Current n) : (plan.node n).schema = (plan.node c).schema := by
  obtain ⟨vs, stored, computed⟩ := current
  obtain ⟨noRoots, noSource⟩ := passes.plain.simple
  rw [schemaFromChildren_eq noSource, inputs, show plan.nestedRoots n = [] from noRoots] at computed
  obtain ⟨schemas, fromInputs, computed⟩ := bind_ok_iff.mp computed
  obtain ⟨ws, _, known, rest, rfl⟩ := mapM_cons_ok_iff.mp fromInputs
  cases mapM_nil_ok_iff.mp rest
  obtain ⟨_, none, computed⟩ := bind_ok_iff.mp computed
  cases mapM_nil_ok_iff.mp none
  have same := pure_ok_iff.mp computed
  rw [passes.schema] at same
  rw [schema_ok_iff.mp stored, schema_ok_iff.mp known, same]

namespace Inserted

variable {parent input : NodeId} {index : Nat} {node : Node}
  (inserted : plan.Inserted parent index input new node plan') (wellFormed : plan.WellFormed)
  (reached : plan.Reaches parent) (passes : node.operator.Passes) (current : plan.SchemasCurrent)

include inserted wellFormed

theorem redirected : Redirected plan.Reaches input new plan plan' where
  operator n reached := by
    rw [inserted.operator n (inserted.ne_new wellFormed reached)]
    exact .refl _ _ _
  inputs n reached := by
    by_cases isParent : n = parent
    · rw [isParent, inserted.inputs]
      exact forall₂_replaces_set inserted.found
    · rw [inserted.others n (inserted.ne_new wellFormed reached) isParent]
      exact forall₂_replaces_self _ _ _
  physical n reached := inserted.physical n (inserted.ne_new wellFormed reached)
  mode n reached := inserted.mode n (inserted.ne_new wellFormed reached)
  owner _ _ reached isSource := (wellFormed.reaches_of_reads reached (.source isSource)).1

include reached passes

/-- The new node has the schema of its input. -/
theorem schema_new : (plan'.node new).schema = (plan.node input).schema := by
  obtain ⟨rank, falls⟩ := wellFormed.acyclic
  have reachedInput := inserted.reaches_input reached
  have apart : input ≠ parent := by
    rintro rfl
    exact Nat.lt_irrefl _ (falls input reached input
      (mem_sources_of_input (List.mem_of_getElem? inserted.found)))
  rw [← inserted.schema input (inserted.ne_new wellFormed reachedInput) apart]
  exact schema_of_passes (inserted.stands.operator ▸ passes) inserted.inputs_new inserted.newCurrent

include current

theorem schema_old (reachedN : plan.Reaches n) : (plan'.node n).schema = (plan.node n).schema := by
  by_cases isParent : n = parent
  · subst isParent
    obtain ⟨rank, falls⟩ := wellFormed.acyclic
    obtain ⟨vs, stored, computed⟩ := current n reached
    obtain ⟨vs', stored', computed'⟩ := inserted.parentCurrent
    have again := (inserted.redirected wellFormed).schemaFromChildren reached
      (fun c source c' _ replaced => ?_) computed
    · cases computed'.symm.trans again
      rw [schema_ok_iff.mp stored', schema_ok_iff.mp stored]
    · rcases replaced with rfl | ⟨rfl, rfl⟩
      · have apart : c' ≠ n := by
          rintro rfl
          exact Nat.lt_irrefl _ (falls c' reached c' source)
        exact inserted.schema c'
          (inserted.ne_new wellFormed (wellFormed.reaches_source reached source)) apart
      · exact inserted.schema_new wellFormed reached passes
  · exact inserted.schema n (inserted.ne_new wellFormed reachedN) isParent

theorem schemasCurrent : plan'.SchemasCurrent := by
  intro n reached'
  rcases inserted.reaches_cases reached passes reached' with rfl | reachedN
  · exact inserted.newCurrent
  obtain ⟨vs, stored, computed⟩ := current n reachedN
  refine ⟨vs, ?_, ?_⟩
  · rw [schema_ok_iff, inserted.schema_old wellFormed reached passes current reachedN]
    exact schema_ok_iff.mp stored
  · refine (inserted.redirected wellFormed).schemaFromChildren reachedN (fun c source c' _ replaced => ?_)
      computed
    rcases replaced with rfl | ⟨rfl, rfl⟩
    · exact inserted.schema_old wellFormed reached passes current
        (wellFormed.reaches_source reachedN source)
    · exact inserted.schema_new wellFormed reached passes

theorem sameOutline : plan.SameOutline plan' := by
  have schema : ∀ n, plan.Reaches n → (plan'.node n).schema = (plan.node n).schema :=
    fun n => inserted.schema_old wellFormed reached passes current
  have below : plan'.below? new = some input := by
    rw [below?_of_passes (inserted.stands.operator ▸ passes), inserted.inputs_new]
    rfl
  have padded := (inserted.redirected wellFormed).padded
    ⟨inserted.schema_new wellFormed reached passes, .inr ⟨inserted.reaches_input reached, below⟩⟩ schema
    fun n c reached member _ => reached.child member
  refine ⟨fun outline has => ?_, ?_⟩
  · rw [inserted.root]
    exact padded.hasOutline .refl has
  · rw [inserted.root]
    exact schema _ .refl

end Inserted

section Dropped

variable {slot : Slot} {id below : NodeId} (reworked : plan.Reworked slot id below [] [below] plan mid)
  (refreshed : mid.refreshSchemas = .ok plan') (current : plan.SchemasCurrent)
  (same : (plan.node below).schema = (plan.node id).schema)

include reworked refreshed

theorem Reworked.wellFormed_refreshed : plan'.WellFormed :=
  (refreshSchemas_only refreshed).redrawn.wellFormed reworked.wellFormed

theorem Reworked.redirected : Redirected plan'.Reaches id below plan plan' := by
  have only := refreshSchemas_only refreshed
  have rewired := reworked.rewired
  have operator : ∀ n, (plan.operator n).Rewires id below (plan'.operator n) := fun n =>
    only.operator n ▸ rewired.operator n
  refine ⟨fun n _ => operator n, fun n _ => only.inputs n ▸ rewired.inputs n,
    fun n _ => (only.physical n).trans (rewired.physical n),
    fun n _ => (only.mode n).trans (rewired.mode n), fun n owner reached isSource => ?_⟩
  have isSource' : plan'.operator n = .nestedSource owner :=
    (only.operator n).trans (rewired.nestedSource_iff.mpr isSource)
  exact ((reworked.wellFormed_refreshed refreshed).reaches_of_reads reached (.source isSource')).1

theorem Reworked.reaches_refreshed (reached : plan'.Reaches n) : plan.Reaches n :=
  (reworked.reaches_cases ((refreshSchemas_only refreshed).reaches_iff.mp reached)).resolve_left
    List.not_mem_nil

include current same

/-- Nodes keep their schemas when a node is dropped for one with the same schema. -/
theorem Reworked.schema_refreshed (reached : plan'.Reaches n) :
    (plan'.node n).schema = (plan.node n).schema := by
  have wellFormed := reworked.wellFormed_refreshed refreshed
  have current' := reworked.wellFormed.current_refreshed refreshed
  obtain ⟨rank, falls⟩ := wellFormed.acyclic
  induction known : rank n using Nat.strong_induction_on generalizing n with
  | _ k ih =>
    subst known
    obtain ⟨vs, stored, computed⟩ := current n (reworked.reaches_refreshed refreshed reached)
    obtain ⟨vs', stored', computed'⟩ := current' n reached
    have again := (reworked.redirected refreshed).schemaFromChildren reached
      (fun c _ c' source' replaced => ?_) computed
    · cases computed'.symm.trans again
      rw [schema_ok_iff.mp stored', schema_ok_iff.mp stored]
    · have kept := ih (rank c') (falls n reached c' source') (wellFormed.reaches_source reached source')
        rfl
      rcases replaced with rfl | ⟨rfl, rfl⟩
      · exact kept
      · exact kept.trans same

/-- A node that is left out of outlines may be dropped. -/
theorem Reworked.sameOutline (leads : plan.Leads id below) : plan.SameOutline plan' := by
  have only := refreshSchemas_only refreshed
  have schema : ∀ n, plan'.Reaches n → (plan'.node n).schema = (plan.node n).schema := fun n =>
    reworked.schema_refreshed refreshed current same
  have reached : plan'.Reaches below :=
    only.reaches_iff.mpr ((reworked.holds.retained reworked.retains).reaches reworked.rewired.here)
  have place : TakesPlace plan'.Reaches plan plan' id below :=
    ⟨(schema below reached).trans same, .inl ⟨reached, leads⟩⟩
  have padded := (reworked.redirected refreshed).padded place schema
    fun n c reached _ member => reached.child member
  rcases reworked.rewired.root with kept | ⟨isOld, isNew⟩
  · have root : plan'.root = plan.root := only.root.trans kept
    refine ⟨fun outline has => padded.hasOutline .refl (root ▸ has), ?_⟩
    rw [← root]
    exact schema _ .refl
  · have root : plan'.root = below := only.root.trans isNew
    refine ⟨fun outline has => ?_, by rw [root, isOld]; exact place.1⟩
    rw [isOld] at has
    rw [root]
    obtain ⟨fuel, found⟩ := has
    exact TakesPlace.hasOutline (fun n outline isUsed found => padded.hasOutline isUsed ⟨fuel, found⟩) place
      found

end Dropped

end Plan

end QueryOptimizer
