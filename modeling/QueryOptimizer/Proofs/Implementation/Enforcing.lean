import Mathlib
import QueryOptimizer.Proofs.Derivation.Fresh
import QueryOptimizer.Proofs.Implementation.Choice
import QueryOptimizer.Proofs.Plan.Spared
import QueryOptimizer.Proofs.Transform.Changes

/-! # What enforcement does

Enforcement starts with deriving facts about the whole plan. After that the facts of all nodes are
known, and it consists of few things: notes, operators that are put on edges, and sorts that are taken
out of their slots.
-/

namespace QueryOptimizer

namespace Session

variable {s s' : Session} {id parent input new n : NodeId} {slot : Slot} {index fuel removed : Nat}
  {isNested changed : Bool} {physical : Physical} {operator : Operator} {mode : Mode}

/-- A well-formed plan with facts about all of its nodes. -/
structure Ready (s : Session) : Prop where
  wellFormed : s.plan.WellFormed
  noted : ∀ n, s.plan.Reaches n → s.context.facts.get? n = some (s.note n)
  present : ∀ n facts, s.context.facts.get? n = some facts → s.plan.contains n = true

theorem ensureFacts_of_noted {facts : Facts} (noted : s.context.facts.get? id = some facts) :
    s.ensureFacts id = .ok s := by
  unfold ensureFacts depth ensureFactsWithin
  rw [noted]
  rfl

namespace Ready

theorem ensureFacts (ready : s.Ready) (reached : s.plan.Reaches n) : s.ensureFacts n = .ok s :=
  ensureFacts_of_noted (ready.noted n reached)

theorem facts (ready : s.Ready) (reached : s.plan.Reaches n) : s.facts n = .ok (s, s.note n) :=
  bind_ok_iff.mpr ⟨s, ready.ensureFacts reached, bind_ok_iff.mpr
    ⟨s.note n, knownFacts_ok_iff.mpr (ready.noted n reached), rfl⟩⟩

end Ready

/-! ## Notes -/

/-- The session after it was noted that a node delivers a layout. -/
def record (s : Session) (id : NodeId) (layout : Layout) : Session :=
  s.mapContext fun context => (context.setDelivered id layout).setApplied .enforceLayouts id

theorem deliver_ok_iff : s.deliver id physical = .ok s' ↔
    ∃ layout, physical.delivered (s.surroundings id) = .ok layout ∧ s.record id layout = s' := by
  unfold deliver
  rw [bind_ok_iff]
  exact exists_congr fun layout => and_congr_right fun _ => pure_ok_iff

/-- A session with other layouts, marks and warnings. -/
structure Agrees (s s' : Session) : Prop where
  plan : s'.plan = s.plan
  catalog : s'.context.catalog = s.context.catalog
  config : s'.context.config = s.context.config
  facts : s'.context.facts = s.context.facts
  types : s'.context.types = s.context.types
  sizes : s'.context.sizes = s.context.sizes

namespace Agrees

theorem refl (s : Session) : s.Agrees s := ⟨rfl, rfl, rfl, rfl, rfl, rfl⟩

theorem trans {s'' : Session} (first : s.Agrees s') (second : s'.Agrees s'') : s.Agrees s'' :=
  ⟨second.plan.trans first.plan, second.catalog.trans first.catalog, second.config.trans first.config,
    second.facts.trans first.facts, second.types.trans first.types, second.sizes.trans first.sizes⟩

theorem record (s : Session) (id : NodeId) (layout : Layout) : s.Agrees (s.record id layout) :=
  ⟨rfl, rfl, rfl, rfl, rfl, rfl⟩

theorem clear (s : Session) (id : NodeId) :
    s.Agrees (s.mapContext (·.clearApplied .enforceLayouts id)) :=
  ⟨rfl, rfl, rfl, rfl, rfl, rfl⟩

end Agrees

/-- The domain of the inputs is found with a warning at most. -/
theorem sharedDomain_frame {known : Option Domain} {ids : List NodeId} {domain : Domain}
    (done : s.sharedDomain id known ids = .ok (s', domain)) : ∃ warnings, s' = { s with warnings } := by
  induction ids generalizing known with
  | nil =>
    cases done
    exact ⟨s.warnings, rfl⟩
  | cons input ids ih =>
    obtain ⟨layout, _, done⟩ := bind_ok_iff.mp done
    split at done
    · exact ih done
    · exact ih done
    · split at done
      · exact ih done
      · cases pure_ok_iff.mp done
        exact ⟨_, rfl⟩

/-! ## Operators on edges -/

/-- A node that is put on an edge. -/
def enforcer (operator : Operator) (physical : Physical) (mode : Mode) (input : NodeId) : Node :=
  { Node.above operator [input] with mode := mode, physical := some physical }

/-- The session with a plan in which a node passes on the tuples of another one. -/
def passing (s : Session) (plan : Plan) (new input : NodeId) : Session :=
  (s.withPlan plan).mapContext (·.setFacts new (s.note input))

theorem facts_passing {plan : Plan} (m : NodeId) : (s.passing plan new input).context.facts.get? m =
    if m = new then some (s.note input) else s.context.facts.get? m :=
  NodeTable.get?_insert _ _ _ _

/-- A node that passes its input on has the facts of the input. -/
theorem Ready.ensureFacts_new {plan : Plan} {node : Node} (ready : s.Ready)
    (inserted : s.plan.Inserted parent index input new node plan) (passes : node.operator.Passes)
    (reached : s.plan.Reaches parent) (done : (s.withPlan plan).ensureFacts new = .ok s') :
    s' = s.passing plan new input := by
  have wedged := inserted.toWedged
  have unknown : s.context.facts.get? new = none := by
    by_contra known
    obtain ⟨facts, known⟩ := Option.ne_none_iff_exists'.mp known
    exact Bool.noConfusion (wedged.fresh.symm.trans (ready.present new facts known))
  have noted : (s.withPlan plan).context.facts.get? input = some (s.note input) :=
    ready.noted input (wedged.reaches_input reached)
  have operator : plan.operator new = node.operator := wedged.stands.operator
  have inputs : plan.inputs new = [input] := wedged.inputs_new
  rcases ensureFactsWithin_cases done with ⟨known, _⟩ |
    ⟨s₁, s₂, s₃, s₄, facts, _, fromInputs, owner, simplified, nested, derived, rfl⟩
  · rw [show (s.withPlan plan).context.facts.get? new = none from unknown] at known
    cases known
  obtain rfl : s.withPlan plan = s₁ := by
    rw [show (s.withPlan plan).plan.inputs new = [input] from inputs] at fromInputs
    obtain ⟨_, first, rest⟩ := foldlM_cons_ok_iff.mp fromInputs
    cases foldlM_nil_ok_iff.mp rest
    have fuel : ∃ k, (s.withPlan plan).plan.nodes.length = k + 1 := by
      obtain ⟨entry, found⟩ := Plan.contains_iff.mp wedged.stands.contains
      refine Nat.exists_eq_succ_of_ne_zero fun empty => ?_
      have none : plan.nodes = [] := List.length_eq_zero_iff.mp empty
      unfold Plan.node? at found
      rw [none] at found
      cases found
    obtain ⟨k, fuel⟩ := fuel
    rw [fuel] at first
    unfold ensureFactsWithin at first
    rw [noted] at first
    cases first
    rfl
  have notSource : ∀ owner, (s.withPlan plan).plan.operator new ≠ .nestedSource owner := fun owner same =>
    (wedged.operator_source passes same).1 rfl
  rcases owner with ⟨owner, _, same, _⟩ | ⟨_, rfl⟩
  · exact absurd same (notSource owner)
  have shape : (s.withPlan plan).plan.operator new = node.operator := operator
  obtain rfl : s.withPlan plan = s₃ := by
    unfold simplifyGroupBy at simplified
    rw [shape] at simplified
    rcases passes with same | ⟨columns, same⟩ <;> rw [same] at simplified <;> cases simplified <;> rfl
  rw [show (s.withPlan plan).plan.nestedRoots new = [] from wedged.nestedRoots_new passes] at nested
  cases foldlM_nil_ok_iff.mp nested
  have derived : (s.withPlan plan).inputFacts new 0 = .ok facts := by
    unfold factsFromInputs at derived
    rw [shape] at derived
    rcases passes with same | ⟨columns, same⟩ <;> rw [same] at derived <;> exact derived
  obtain ⟨input', found, known⟩ := inputFacts_ok derived
  rw [show (s.withPlan plan).plan.inputs new = [input] from inputs] at found
  cases found
  cases noted.symm.trans known
  rfl

theorem Ready.insertEnforcer (ready : s.Ready) (reached : s.plan.Reaches parent)
    (passes : operator.Passes) (done : s.insertEnforcer parent index operator physical mode = .ok s') :
    ∃ input new plan layout,
      s.plan.Inserted parent index input new (enforcer operator physical mode input) plan ∧
      physical.delivered ((s.passing plan new input).surroundings new) = .ok layout ∧
      s' = (s.passing plan new input).record new layout := by
  obtain ⟨input, found, done⟩ := bind_ok_iff.mp done
  obtain ⟨plan₁, first, done⟩ := bind_ok_iff.mp done
  obtain ⟨plan₂, second, done⟩ := bind_ok_iff.mp done
  obtain ⟨s₁, derived, done⟩ := bind_ok_iff.mp done
  have inserted := Plan.inserted_addNode (enforcer operator physical mode input)
    ready.wellFormed reached (Plan.input_ok_iff.mp found) rfl passes first second
  obtain rfl := ready.ensureFacts_new inserted passes reached derived
  obtain ⟨layout, delivered, rfl⟩ := deliver_ok_iff.mp done
  exact ⟨input, _, plan₂, layout, inserted, delivered, rfl⟩

theorem Ready.passing {plan : Plan} {node : Node} (ready : s.Ready) (reached : s.plan.Reaches parent)
    (inserted : s.plan.Inserted parent index input new node plan) (passes : node.operator.Passes) :
    (s.passing plan new input).Ready where
  wellFormed := inserted.wellFormed ready.wellFormed reached passes
  noted n reached' := by
    unfold note
    rw [facts_passing]
    split
    · rfl
    · rename_i old
      have reachedN := (inserted.reaches_cases reached passes reached').resolve_left old
      rw [ready.noted n reachedN]
      rfl
  present n facts noted := by
    rw [facts_passing] at noted
    split at noted
    · rename_i isNew
      exact isNew ▸ inserted.stands.contains
    · rename_i old
      exact (inserted.contains n old).trans (ready.present n facts noted)

theorem delivered_ok_iff {layout : Layout} :
    s.delivered id = .ok layout ↔ s.context.delivered.get? id = some layout := by
  unfold delivered
  cases s.context.delivered.get? id with
  | some known => simp
  | none =>
    simp only [reduceCtorEq, iff_false]
    exact bind_throw_ne_ok

/-- An operator that sorts by columns. -/
def sorting (order : List OrderColumn) : Operator :=
  .order (order.map fun c => (c.direction, Expr.var c.column)) none

theorem sorting_admits {order : List OrderColumn} (sorts : physical.sortOrder? = some order) :
    (sorting order).Admits physical := by
  refine ⟨order, ?_, sorts⟩
  refine mapM_some_iff_forall₂.mpr (List.forall₂_map_left_iff.mpr ?_)
  exact List.forall₂_same.mpr fun _ _ => rfl

/-- A sort is put on an edge if the tuples do not have the properties. -/
theorem Ready.sortIfUnmet {properties : List LocalProperty} (ready : s.Ready)
    (reached : s.plan.Reaches parent) (done : s.sortIfUnmet parent index properties isNested = .ok s') :
    s' = s ∧ (properties = [] ∨ ∃ input layout, (s.plan.inputs parent)[index]? = some input ∧
        s.context.delivered.get? input = some layout ∧
        LocalProperty.isMatch (s.note input) properties layout.properties = true) ∨
    ∃ input layout sizes sort, (s.plan.inputs parent)[index]? = some input ∧
      s.context.delivered.get? input = some layout ∧
      LocalProperty.isMatch (s.note input) properties layout.properties = false ∧
      sort.sortOrder? = some (LocalProperty.sortColumns properties) ∧
      (s.withSizes sizes).insertEnforcer parent index (sorting (LocalProperty.sortColumns properties)) sort
        .local = .ok s' := by
  unfold Session.sortIfUnmet at done
  split at done
  · rename_i empty
    cases done
    exact .inl ⟨rfl, .inl (List.isEmpty_iff.mp empty)⟩
  obtain ⟨input, found, done⟩ := bind_ok_iff.mp done
  have found := Plan.input_ok_iff.mp found
  obtain ⟨layout, delivered, done⟩ := bind_ok_iff.mp done
  have delivered := delivered_ok_iff.mp delivered
  rw [ready.facts (reached.input (List.mem_of_getElem? found))] at done
  obtain ⟨_, same, done⟩ := bind_ok_iff.mp done
  cases same
  dsimp only at done
  split at done
  · rename_i isMatch
    cases pure_ok_iff.mp done
    exact .inl ⟨rfl, .inr ⟨input, layout, found, delivered, isMatch⟩⟩
  · rename_i unmet
    obtain ⟨⟨s₁, sort⟩, chosen, done⟩ := bind_ok_iff.mp done
    obtain ⟨⟨frames, estimated⟩, sorts⟩ := chooseSort_cases chosen
    obtain ⟨sizes, rfl⟩ := frames?_frame estimated
    exact .inr ⟨input, layout, sizes, sort, found, delivered, by simpa using unmet, sorts, done⟩

end Session

/-! ## Sorts that are taken out -/

/-- Whether a node shows up when a sort is taken out: the input of the sort, or what is below a project
    that keeps every variable. -/
def Plan.Uncovers (plan : Plan) (id below : NodeId) : Prop :=
  (plan.inputs id)[0]? = some below ∨ ∃ project vars, (plan.inputs id)[0]? = some project ∧
    plan.operator project = .project vars ∧ (plan.inputs project)[0]? = some below ∧
    plan.schema below = .ok vars

theorem Plan.Uncovers.feeds {plan : Plan} {id below : NodeId} (uncovers : plan.Uncovers id below) :
    plan.Feeds id below := by
  rcases uncovers with found | ⟨project, vars, found, _, found', _⟩
  · exact .single (List.mem_of_getElem? found)
  · exact .two (List.mem_of_getElem? found) (List.mem_of_getElem? found')

namespace Session

variable {s s' : Session} {id below n : NodeId} {slot : Slot} {fuel removed : Nat}
  {isNested changed : Bool} {physical : Physical}

theorem removeSort_cases (done : s.removeSort slot id = .ok (s', below)) :
    ∃ plan plan', s.plan.Uncovers id below ∧ s.plan.setSlot slot below = .ok plan ∧
      plan.refreshSchemas = .ok plan' ∧ s' = s.withPlan plan' := by
  unfold removeSort at done
  dsimp only at done
  obtain ⟨input, found, done⟩ := bind_ok_iff.mp done
  have found := Plan.input_ok_iff.mp found
  have finish : ∀ {x : Except Failure NodeId}, (do
      let below ← x
      let s ← (s.withPlan (← s.plan.setSlot slot below)).refreshSchemas
      return (s, below)) = Except.ok (s', below) → ∃ plan plan', x = .ok below ∧
        s.plan.setSlot slot below = .ok plan ∧ plan.refreshSchemas = .ok plan' ∧
        s' = s.withPlan plan' := by
    intro x done
    obtain ⟨below', chosen, done⟩ := bind_ok_iff.mp done
    obtain ⟨plan, placed, done⟩ := bind_ok_iff.mp done
    obtain ⟨s₁, refreshed, done⟩ := bind_ok_iff.mp done
    cases pure_ok_iff.mp done
    obtain ⟨plan', computed, rfl⟩ := refreshSchemas_ok refreshed
    exact ⟨plan, plan', chosen, placed, computed, rfl⟩
  split at done
  · rename_i vars operator
    obtain ⟨next, found', done⟩ := bind_ok_iff.mp done
    obtain ⟨schema, stored, done⟩ := bind_ok_iff.mp done
    obtain ⟨plan, plan', chosen, placed, refreshed, rfl⟩ := finish done
    refine ⟨plan, plan', ?_, placed, refreshed, rfl⟩
    have chosen := pure_ok_iff.mp chosen
    split at chosen
    · rename_i same
      subst chosen
      exact .inr ⟨input, vars, found, operator, Plan.input_ok_iff.mp found', same ▸ stored⟩
    · exact .inl (chosen ▸ found)
  · obtain ⟨plan, plan', chosen, placed, refreshed, rfl⟩ := finish done
    exact ⟨plan, plan', .inl (pure_ok_iff.mp chosen ▸ found), placed, refreshed, rfl⟩

/-- The layout of a child is enforced. -/
def enforceChild (fuel : Nat) (isNested : Bool) (acc : Session × Bool) (child : Slot) :
    Except Failure (Session × Bool) := do
  let (s, fired) ← enforceWithin fuel acc.1 child isNested 0
  return (s, acc.2 || fired)

/-- Whether a node is a sort that is not needed. -/
def checkSort (s : Session) (id : NodeId) (physical : Physical) : Except Failure (Session × Bool) :=
  match physical.sortOrder? with
  | some order => s.isRedundantSort id order
  | none => pure (s, false)

/-- Enforcement of a slot goes through the children of the node, enforces the requirements on the
    inputs, goes through the nested plans, and then takes out a sort or notes what is delivered. -/
theorem enforceWithin_cases (done : enforceWithin (fuel + 1) s slot isNested removed = .ok (s', changed)) :
    ∃ id, s.plan.nodeAt slot = .ok id ∧
      (s.context.isApplied .enforceLayouts id = true ∧ s' = s ∧ changed = false ∨
      s.context.isApplied .enforceLayouts id = false ∧
        ∃ s₁ physical s₂ c₂ s₃ domain s₄ facts s₅ c₅ s₆ c₆ s₇ isRedundant,
          s.ensureFacts id = .ok s₁ ∧ s₁.physicalOf id = .ok physical ∧
          (s₁.plan.inputSlots id).foldlM (enforceChild fuel isNested) (s₁, false) = .ok (s₂, c₂) ∧
          s₂.inputsDomain id = .ok (s₃, domain) ∧ s₃.facts id = .ok (s₄, facts) ∧
          (List.range (s₄.plan.inputs id).length).foldlM (enforceInput id
            (physical.requirements (s₁.plan.mode id) (s₁.plan.inputs id).length) domain facts isNested)
            (s₄, c₂) = .ok (s₅, c₅) ∧
          (s₅.plan.nestedSlots id).foldlM (enforceChild fuel true) (s₅, c₅) = .ok (s₆, c₆) ∧
          s₆.checkSort id physical = .ok (s₇, isRedundant) ∧
          (isRedundant = true ∧ removed < s₇.context.config.maxSortRemovals ∧ changed = true ∧
              (∃ s₈ below c₉, s₇.removeSort slot id = .ok (s₈, below) ∧
                enforceWithin fuel (s₈.mapContext (·.clearApplied .enforceLayouts below)) slot isNested
                  (removed + 1) = .ok (s', c₉)) ∨
            isRedundant = false ∧ changed = c₆ ∧ s₇.deliver id physical = .ok s')) := by
  obtain ⟨id, here, done⟩ := bind_ok_iff.mp done
  refine ⟨id, here, ?_⟩
  split at done
  · rename_i applied
    cases pure_ok_iff.mp done
    exact .inl ⟨applied, rfl, rfl⟩
  rename_i notApplied
  refine .inr ⟨by simpa using notApplied, ?_⟩
  obtain ⟨s₁, derived, done⟩ := bind_ok_iff.mp done
  obtain ⟨physical, chosen, done⟩ := bind_ok_iff.mp done
  obtain ⟨⟨s₂, c₂⟩, children, done⟩ := bind_ok_iff.mp done
  obtain ⟨⟨s₃, domain⟩, shared, done⟩ := bind_ok_iff.mp done
  obtain ⟨⟨s₄, facts⟩, known, done⟩ := bind_ok_iff.mp done
  obtain ⟨⟨s₅, c₅⟩, edges, done⟩ := bind_ok_iff.mp done
  obtain ⟨⟨s₆, c₆⟩, nested, done⟩ := bind_ok_iff.mp done
  have check : ∃ s₇ isRedundant, s₆.checkSort id physical = .ok (s₇, isRedundant) ∧
      (if isRedundant then
        if removed ≥ s₇.context.config.maxSortRemovals then throw (.sortRemovalCascade removed)
        else do
          let taken ← s₇.removeSort slot id
          let again ← enforceWithin fuel
            (taken.1.mapContext (·.clearApplied .enforceLayouts taken.2)) slot isNested (removed + 1)
          return (again.1, true)
      else do return (← s₇.deliver id physical, c₆)) = Except.ok (s', changed) := by
    dsimp only at done
    split at done
    · rename_i order sorts
      obtain ⟨⟨s₇, isRedundant⟩, checked, done⟩ := bind_ok_iff.mp done
      exact ⟨s₇, isRedundant, by rw [checkSort, sorts]; exact checked, done⟩
    · rename_i other
      obtain ⟨⟨s₇, isRedundant⟩, checked, done⟩ := bind_ok_iff.mp done
      exact ⟨s₇, isRedundant, by rw [checkSort, other]; exact checked, done⟩
  obtain ⟨s₇, isRedundant, checked, done⟩ := check
  refine ⟨s₁, physical, s₂, c₂, s₃, domain, s₄, facts, s₅, c₅, s₆, c₆, s₇, isRedundant, derived, chosen,
    children, shared, known, edges, nested, checked, ?_⟩
  cases isRedundant with
  | true =>
    simp only [if_true] at done
    split at done
    · exact absurd done throw_ne_ok
    · rename_i allowed
      obtain ⟨⟨s₈, below⟩, taken, done⟩ := bind_ok_iff.mp done
      obtain ⟨⟨s₉, c₉⟩, again, done⟩ := bind_ok_iff.mp done
      cases pure_ok_iff.mp done
      exact .inl ⟨rfl, by omega, rfl, s₈, below, c₉, taken, again⟩
  | false =>
    obtain ⟨s₈, delivered, done⟩ := bind_ok_iff.mp done
    cases pure_ok_iff.mp done
    exact .inr ⟨rfl, rfl, delivered⟩

end Session

end QueryOptimizer
