import Mathlib
import QueryOptimizer.Proofs.Plan.Graph

/-! # Refreshing schemas

The walk that refreshes the schemas of a well-formed plan finishes every node after its sources. A
child is finished before its parent. The input of an owner is finished before anything in the nested
plans of the owner, so also before the nested sources that pass on its tuples. Hence each schema is
computed once, from schemas that do not change any more.
-/

namespace QueryOptimizer

namespace Plan

variable {plan plan' : Plan} {ids : List NodeId} {id n c : NodeId}

/-- Lists in which each node stands once and after its sources. -/
inductive Ordered (plan : Plan) : List NodeId → Prop where
  | nil : Ordered plan []
  | snoc {ids : List NodeId} {n : NodeId} (ordered : Ordered plan ids)
      (known : ∀ c ∈ plan.sources n, c ∈ ids) (new : n ∉ ids) : Ordered plan (ids ++ [n])

theorem Ordered.sources_mem (ordered : plan.Ordered ids) (member : n ∈ ids)
    (source : c ∈ plan.sources n) : c ∈ ids := by
  induction ordered with
  | nil => cases member
  | snoc _ known _ ih =>
    rcases List.mem_append.mp member with old | new
    · exact List.mem_append_left _ (ih old)
    · cases List.mem_singleton.mp new
      exact List.mem_append_left _ (known c source)

/-- Whether a nested source of the owner can be reached from a node, though not through the nested plans
    of the owner. -/
inductive Leaks (plan : Plan) (owner : NodeId) : NodeId → Prop where
  | source {n : NodeId} (operator : plan.operator n = .nestedSource owner) : Leaks plan owner n
  | input {n c : NodeId} (member : c ∈ plan.inputs n) (leaks : Leaks plan owner c) : Leaks plan owner n
  | nested {n c : NodeId} (other : owner ≠ n) (member : c ∈ plan.nestedRoots n)
      (leaks : Leaks plan owner c) : Leaks plan owner n

/-! ## Computing schemas in order -/

theorem OnlySchemas.reaches_iff (only : plan.OnlySchemas plan') : plan'.Reaches n ↔ plan.Reaches n := by
  unfold Reaches Below
  simp only [only.root, only.children]

/-- A schema is computed if the schemas of all sources are there. -/
theorem exists_schemaFromChildren
    (fed : ∀ owner, plan.operator n = .nestedSource owner →
      ∃ input, (plan.inputs owner)[0]? = some input)
    (known : ∀ c ∈ plan.sources n, ∃ vs, plan.schema c = .ok vs) :
    ∃ vs, plan.schemaFromChildren n = .ok vs := by
  by_cases source : ∃ owner, plan.operator n = .nestedSource owner
  · obtain ⟨owner, operator⟩ := source
    obtain ⟨input, found⟩ := fed owner operator
    obtain ⟨vs, schema⟩ := known input (mem_sources_iff.mpr (.inr ⟨owner, operator, found⟩))
    refine ⟨vs, ?_⟩
    unfold schemaFromChildren
    rw [operator]
    exact bind_ok_iff.mpr ⟨input, input_ok_iff.mpr found, schema⟩
  · have other : ∀ owner, plan.operator n ≠ .nestedSource owner := fun owner operator =>
      source ⟨owner, operator⟩
    have child : ∀ c ∈ plan.children n, ∃ vs, plan.schema c = .ok vs := fun c member =>
      known c (mem_sources_of_child member)
    obtain ⟨inputs, fromInputs⟩ := exists_mapM_ok_iff.mpr fun c (member : c ∈ plan.inputs n) =>
      child c (List.mem_append_left _ member)
    obtain ⟨nested, fromNested⟩ := exists_mapM_ok_iff.mpr fun c (member : c ∈ plan.nestedRoots n) =>
      child c (List.mem_append_right _ member)
    rw [schemaFromChildren_eq other]
    exact ⟨_, bind_ok_iff.mpr ⟨inputs, fromInputs, bind_ok_iff.mpr ⟨nested, fromNested, rfl⟩⟩⟩

theorem mapM_schema_congr {ids : List NodeId}
    (same : ∀ c ∈ ids, (plan'.node c).schema = (plan.node c).schema) {schemas : List (List Var)}
    (computed : ids.mapM plan.schema = .ok schemas) : ids.mapM plan'.schema = .ok schemas := by
  have each := mapM_ok_iff_forall₂.mp computed
  refine mapM_ok_iff_forall₂.mpr ?_
  clear computed
  induction each with
  | nil => exact .nil
  | cons first _ ih =>
    refine .cons ?_ (ih fun c member => same c (List.mem_cons_of_mem _ member))
    rw [schema_ok_iff, same _ List.mem_cons_self]
    exact schema_ok_iff.mp first

/-- A computed schema only changes with the operator, the sources and their schemas. -/
theorem schemaFromChildren_congr (operator : plan'.operator n = plan.operator n)
    (inputs : plan'.inputs n = plan.inputs n)
    (owners : ∀ owner, plan.operator n = .nestedSource owner →
      (plan'.inputs owner)[0]? = (plan.inputs owner)[0]?)
    (same : ∀ c ∈ plan.sources n, (plan'.node c).schema = (plan.node c).schema) {vs : List Var}
    (computed : plan.schemaFromChildren n = .ok vs) : plan'.schemaFromChildren n = .ok vs := by
  by_cases source : ∃ owner, plan.operator n = .nestedSource owner
  · obtain ⟨owner, isSource⟩ := source
    obtain ⟨input, found, schema⟩ := schemaFromChildren_of_nestedSource isSource computed
    rw [input_ok_iff] at found
    unfold Plan.schemaFromChildren
    rw [operator, isSource]
    refine bind_ok_iff.mpr ⟨input, input_ok_iff.mpr ((owners owner isSource).trans found), ?_⟩
    rw [schema_ok_iff, same input (mem_sources_iff.mpr (.inr ⟨owner, isSource, found⟩))]
    exact schema_ok_iff.mp schema
  · have other : ∀ owner, plan.operator n ≠ .nestedSource owner := fun owner isSource =>
      source ⟨owner, isSource⟩
    have child : ∀ c ∈ plan.children n, (plan'.node c).schema = (plan.node c).schema :=
      fun c member => same c (mem_sources_of_child member)
    have roots : plan'.nestedRoots n = plan.nestedRoots n := by
      unfold nestedRoots
      rw [operator]
    rw [schemaFromChildren_eq other] at computed
    obtain ⟨schemas, fromInputs, computed⟩ := bind_ok_iff.mp computed
    obtain ⟨nested, fromNested, computed⟩ := bind_ok_iff.mp computed
    rw [schemaFromChildren_eq fun owner => operator ▸ other owner, inputs, roots, operator]
    refine bind_ok_iff.mpr ⟨schemas, mapM_schema_congr (fun c member =>
      child c (List.mem_append_left _ member)) fromInputs, ?_⟩
    exact bind_ok_iff.mpr ⟨nested, mapM_schema_congr (fun c member =>
      child c (List.mem_append_right _ member)) fromNested, computed⟩

theorem OnlySchemas.schemaFromChildren (only : plan.OnlySchemas plan')
    (same : ∀ c ∈ plan.sources n, (plan'.node c).schema = (plan.node c).schema) {vs : List Var}
    (computed : plan.schemaFromChildren n = .ok vs) : plan'.schemaFromChildren n = .ok vs :=
  schemaFromChildren_congr (only.operator n) (only.inputs n)
    (fun owner _ => by rw [only.inputs owner]) same computed

/-- Schemas that are computed in order all succeed, and stay those that follow from their
    sources. -/
theorem Ordered.recompute (ordered : plan.Ordered ids) (present : ∀ n ∈ ids, plan.contains n = true)
    (fed : ∀ n ∈ ids, ∀ owner, plan.operator n = .nestedSource owner →
      ∃ input, (plan.inputs owner)[0]? = some input) :
    ∃ plan', ids.foldlM recomputeSchema plan = .ok plan' ∧ plan.OnlySchemas plan' ∧
      ∀ n ∈ ids, ∃ vs, plan'.schema n = .ok vs ∧ plan'.schemaFromChildren n = .ok vs := by
  induction ordered with
  | nil => exact ⟨plan, rfl, .refl plan, fun n impossible => by cases impossible⟩
  | @snoc ids n ordered known new ih =>
    have before : ∀ {m}, m ∈ ids → m ∈ ids ++ [n] := fun member => List.mem_append_left _ member
    have last : n ∈ ids ++ [n] := List.mem_append_right _ List.mem_cons_self
    obtain ⟨mid, done, only, current⟩ := ih (fun m member => present m (before member))
      fun m member => fed m (before member)
    have sources : ∀ m, mid.sources m = plan.sources m := by
      intro m
      unfold Plan.sources
      rw [only.children, only.operator]
      split
      · rw [only.inputs]
      · rfl
    obtain ⟨vs, computed⟩ : ∃ vs, mid.schemaFromChildren n = .ok vs := by
      refine exists_schemaFromChildren ?_ fun c source => ?_
      · intro owner operator
        rw [only.inputs]
        exact fed n last owner (only.operator n ▸ operator)
      · obtain ⟨vs, stored, _⟩ := current c (known c (sources n ▸ source))
        exact ⟨vs, stored⟩
    have changed : mid.OnlySchemas (mid.modify n fun node => { node with schema := some vs }) :=
      onlySchemas_modify n (some vs)
    -- The schema that changes is not a source of what was computed before.
    have kept : ∀ m ∈ ids, ((mid.modify n fun node => { node with schema := some vs }).node m).schema =
        (mid.node m).schema := by
      intro m member
      have different : m ≠ n := fun same => new (same ▸ member)
      rw [node_modify_of_ne different]
    refine ⟨_, ?_, only.trans changed, fun m member => ?_⟩
    · rw [List.foldlM_append]
      refine bind_ok_iff.mpr ⟨mid, done, ?_⟩
      exact foldlM_cons_ok_iff.mpr ⟨_, bind_ok_iff.mpr ⟨vs, computed, rfl⟩, rfl⟩
    · rcases List.mem_append.mp member with old | here
      · obtain ⟨ws, stored, fromSources⟩ := current m old
        refine ⟨ws, schema_ok_iff.mpr ((kept m old).trans (schema_ok_iff.mp stored)), ?_⟩
        exact changed.schemaFromChildren (fun c source =>
          kept c (ordered.sources_mem old (sources m ▸ source))) fromSources
      · cases List.mem_singleton.mp here
        refine ⟨vs, schema_ok_iff.mpr ?_, changed.schemaFromChildren (fun c source =>
          kept c (known c (sources n ▸ source))) computed⟩
        rw [node_modify_self ((only.contains n).trans (present n last))]

end Plan

/-! ## The order of a walk -/

namespace Walk

variable {plan : Plan} {rank : NodeId → Nat} {stack : List NodeId} {walk walk' walk'' : Walk}
  {id : NodeId}

/-- A walk that finished nodes in order. -/
structure Sorted (plan : Plan) (stack : List NodeId) (walk : Walk) : Prop
    extends Inside plan.children stack walk where
  ordered : plan.Ordered walk.finished
  reached : ∀ n ∈ walk.finished, plan.Reaches n
  isOpen : ∀ n ∈ stack, n ∈ walk.entered ∧ n ∉ walk.finished

/-- What a walk did stays done, and what it finishes later it had not entered. -/
structure Advances (walk walk' : Walk) : Prop where
  finished : ∀ n ∈ walk.finished, n ∈ walk'.finished
  entered : ∀ n ∈ walk.entered, n ∈ walk'.entered
  fresh : ∀ n ∈ walk'.finished, n ∈ walk.finished ∨ n ∉ walk.entered

theorem Advances.refl (walk : Walk) : Advances walk walk :=
  ⟨fun _ member => member, fun _ member => member, fun _ member => .inl member⟩

theorem Advances.trans (first : Advances walk walk') (second : Advances walk' walk'') :
    Advances walk walk'' where
  finished n member := second.finished n (first.finished n member)
  entered n member := second.entered n (first.entered n member)
  fresh n member := by
    rcases second.fresh n member with earlier | new
    · exact first.fresh n earlier
    · exact .inr fun old => new (first.entered n old)

theorem Sorted.foldl {f : Walk → NodeId → Walk} {ids : List NodeId}
    (sorted : Sorted plan stack walk)
    (each : ∀ child ∈ ids, ∀ walk', Advances walk walk' → Sorted plan stack walk' →
      Sorted plan stack (f walk' child) ∧ Advances walk' (f walk' child) ∧
        child ∈ (f walk' child).finished) :
    Sorted plan stack (ids.foldl f walk) ∧ Advances walk (ids.foldl f walk) ∧
      ∀ child ∈ ids, child ∈ (ids.foldl f walk).finished := by
  induction ids generalizing walk with
  | nil => exact ⟨sorted, .refl walk, fun child impossible => by cases impossible⟩
  | cons id ids ih =>
    obtain ⟨first, advanced, here⟩ := each id List.mem_cons_self walk (.refl walk) sorted
    obtain ⟨last, further, rest⟩ := ih first fun child member walk' later =>
      each child (List.mem_cons_of_mem _ member) walk' (advanced.trans later)
    refine ⟨last, advanced.trans further, fun child member => ?_⟩
    rcases List.mem_cons.mp member with rfl | member
    · exact further.finished child here
    · exact rest child member

/-- A visit of a node finishes it, after everything that it has to come after. The owners whose
    nested sources it gets to from outside have to be fed before. -/
theorem visit_sorted (falls : plan.Descends rank)
    {ids : List NodeId} (known : ∀ n, plan.children n ≠ [] → n ∈ ids) {fuel : Nat}
    (sorted : Sorted plan stack walk) (once : stack.Nodup)
    (parents : ∀ n ∈ stack, plan.children n ≠ [] ∧ rank id < rank n)
    (enough : ids.length < stack.length + fuel) (reached : plan.Reaches id)
    (ready : ∀ owner input, plan.Leaks owner id → (plan.inputs owner)[0]? = some input →
      input ∈ walk.finished) :
    Sorted plan stack (visit plan.children fuel walk id) ∧
      Advances walk (visit plan.children fuel walk id) ∧
      id ∈ (visit plan.children fuel walk id).finished := by
  induction fuel generalizing walk stack id with
  | zero =>
    have few : stack.length ≤ ids.length :=
      (once.subperm fun n member => known n (parents n member).1).length_le
    omega
  | succ fuel ih =>
    unfold visit
    split
    · rename_i old
      refine ⟨sorted, .refl walk, (sorted.open_or_done id old).resolve_left fun onStack => ?_⟩
      exact Nat.lt_irrefl _ (parents id onStack).2
    · rename_i new
      have notDone : id ∉ walk.finished := fun done => new (sorted.entered id done)
      have fresh : (id :: stack).Nodup :=
        List.nodup_cons.mpr ⟨fun member => new (sorted.isOpen id member).1, once⟩
      have entering : Advances walk { walk with entered := walk.entered ++ [id] } :=
        ⟨fun _ member => member, fun _ member => List.mem_append_left _ member,
          fun _ member => .inl member⟩
      have start : Sorted plan (id :: stack) { walk with entered := walk.entered ++ [id] } := by
        refine ⟨sorted.toInside.push id, sorted.ordered, sorted.reached, fun n member => ?_⟩
        rcases List.mem_cons.mp member with rfl | member
        · exact ⟨List.mem_append_right _ List.mem_cons_self, notDone⟩
        · exact ⟨entering.entered n (sorted.isOpen n member).1, (sorted.isOpen n member).2⟩
      have below : ∀ child ∈ plan.children id, ∀ n ∈ id :: stack,
          plan.children n ≠ [] ∧ rank child < rank n := by
        intro child isChild n member
        have lower := falls id reached child isChild
        rcases List.mem_cons.mp member with rfl | member
        · exact ⟨List.ne_nil_of_mem isChild, lower⟩
        · exact ⟨(parents n member).1, lower.trans (parents n member).2⟩
      have enough' : ids.length < (id :: stack).length + fuel := by
        rw [List.length_cons]
        omega
      -- The inputs get to what the node gets to.
      obtain ⟨afterInputs, toInputs, inputsDone⟩ := start.foldl (f := visit plan.children fuel)
        fun child (isInput : child ∈ plan.inputs id) walk' later sorted' =>
          ih sorted' fresh (below child (List.mem_append_left _ isInput)) enough'
            (reached.input isInput) fun owner input leaks found =>
              later.finished input (ready owner input (.input isInput leaks) found)
      -- The nested plans also get to the sources of the node itself, whose inputs are done.
      obtain ⟨afterRoots, toRoots, rootsDone⟩ := afterInputs.foldl (f := visit plan.children fuel)
        fun child (isRoot : child ∈ plan.nestedRoots id) walk' later sorted' =>
          ih sorted' fresh (below child (List.mem_append_right _ isRoot)) enough'
            (reached.nestedRoot isRoot) fun owner input leaks found => by
              refine later.finished input ?_
              by_cases own : owner = id
              · exact inputsDone input (List.mem_of_getElem? (own ▸ found))
              · exact toInputs.finished input (ready owner input (.nested own isRoot leaks) found)
      have split : (plan.children id).foldl (visit plan.children fuel)
            { walk with entered := walk.entered ++ [id] } =
          (plan.nestedRoots id).foldl (visit plan.children fuel)
            ((plan.inputs id).foldl (visit plan.children fuel)
              { walk with entered := walk.entered ++ [id] }) := List.foldl_append
      rw [split]
      generalize (plan.nestedRoots id).foldl (visit plan.children fuel)
        ((plan.inputs id).foldl (visit plan.children fuel)
          { walk with entered := walk.entered ++ [id] }) = done at *
      have advanced : Advances walk done := entering.trans (toInputs.trans toRoots)
      have children : ∀ child ∈ plan.children id, child ∈ done.finished := by
        intro child member
        rcases List.mem_append.mp member with isInput | isRoot
        · exact toRoots.finished child (inputsDone child isInput)
        · exact rootsDone child isRoot
      have sources : ∀ c ∈ plan.sources id, c ∈ done.finished := by
        intro c source
        rcases Plan.mem_sources_iff.mp source with child | ⟨owner, operator, found⟩
        · exact children c child
        · exact advanced.finished c (ready owner c (.source operator) found)
      obtain ⟨here, unfinished⟩ := afterRoots.isOpen id List.mem_cons_self
      refine ⟨⟨afterRoots.toInside.pop (fun child member =>
          afterRoots.entered child (children child member)) here,
        afterRoots.ordered.snoc sources unfinished, ?_, ?_⟩, ⟨?_, advanced.entered, ?_⟩,
        List.mem_append_right _ List.mem_cons_self⟩
      · intro n member
        rcases List.mem_append.mp member with old | last
        · exact afterRoots.reached n old
        · exact List.mem_singleton.mp last ▸ reached
      · intro n member
        obtain ⟨isEntered, notFinished⟩ := afterRoots.isOpen n (List.mem_cons_of_mem _ member)
        refine ⟨isEntered, fun finished => ?_⟩
        rcases List.mem_append.mp finished with old | last
        · exact notFinished old
        · exact (List.nodup_cons.mp fresh).1 (List.mem_singleton.mp last ▸ member)
      · exact fun n member => List.mem_append_left _ (advanced.finished n member)
      · intro n member
        rcases List.mem_append.mp member with old | last
        · exact advanced.fresh n old
        · exact .inr (List.mem_singleton.mp last ▸ new)

end Walk

namespace Plan

variable {plan : Plan} {rank : NodeId → Nat}

/-- The nodes are listed after their sources, if nested sources can only be reached through the nested
    plans of their owners. -/
theorem Descends.bottomUp_ordered (falls : plan.Descends rank) (owned : ∀ owner, ¬ plan.Leaks owner plan.root) :
    plan.Ordered (plan.bottomUp plan.root) ∧ ∀ n ∈ plan.bottomUp plan.root, plan.Reaches n := by
  have known : ∀ n, plan.children n ≠ [] → n ∈ List.range plan.nodes.length := fun n some =>
    List.mem_range.mpr (lt_of_children some)
  have none : ∀ {P : NodeId → Prop}, ∀ n ∈ ([] : List NodeId), P n := fun n impossible => by
    cases impossible
  have start : Walk.Sorted plan [] {} := ⟨.start plan.children, .nil, none, none⟩
  have sorted : Walk.Sorted plan []
      (Walk.visit plan.children (plan.nodes.length + 1) {} plan.root) :=
    (Walk.visit_sorted falls known start List.nodup_nil none (by simp) .refl
      fun owner _ leaks => absurd leaks (owned owner)).1
  exact ⟨sorted.ordered, sorted.reached⟩

theorem WellFormed.not_leaks (wellFormed : plan.WellFormed) (owner : NodeId) :
    ¬ plan.Leaks owner plan.root := by
  have reads : ∀ {n}, plan.Leaks owner n → plan.Reaches n → plan.Reads owner n := by
    intro n leaks reached
    induction leaks with
    | source operator => exact .source operator
    | input member _ ih => exact .input member (ih (reached.input member))
    | nested other member _ ih =>
      exact absurd (wellFormed.innermost _ _ owner reached member (ih (reached.nestedRoot member))) other
  exact fun leaks => wellFormed.top owner (reads leaks .refl)

/-- The schemas of a well-formed plan can be computed again, and are then those that follow from
    their sources. -/
theorem WellFormed.refreshSchemas (wellFormed : plan.WellFormed) :
    ∃ plan', plan.refreshSchemas = .ok plan' ∧ plan.OnlySchemas plan' ∧ plan'.SchemasCurrent := by
  obtain ⟨rank, falls⟩ := wellFormed.acyclic
  obtain ⟨ordered, reached⟩ := falls.descends.bottomUp_ordered wellFormed.not_leaks
  obtain ⟨plan', done, only, current⟩ := ordered.recompute
    (fun n member => wellFormed.present n (reached n member))
    fun n member owner => wellFormed.exists_source (reached n member)
  exact ⟨plan', done, only, fun n reached' => current n (mem_bottomUp (only.reaches_iff.mp reached'))⟩

theorem WellFormed.current_refreshed (wellFormed : plan.WellFormed)
    (done : plan.refreshSchemas = .ok plan') : plan'.SchemasCurrent := by
  obtain ⟨_, again, _, current⟩ := wellFormed.refreshSchemas
  cases done.symm.trans again
  exact current

end Plan

end QueryOptimizer
