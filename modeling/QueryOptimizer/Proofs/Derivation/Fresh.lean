import Mathlib
import QueryOptimizer.Proofs.Derivation.Found

/-! # Derivations without notes

What is found on a plan is also derived there by a session that knows nothing yet, and the derivation
leaves the plan as it is.
-/

namespace QueryOptimizer

/-- Whether the schemas of all reachable nodes are computed. -/
def Plan.HasSchemas (plan : Plan) : Prop := ∀ n, plan.Reaches n → ∃ vs, plan.schema n = .ok vs

namespace Session

variable {s s' : Session} {columns : NodeId → VarSet} {id n : NodeId} {facts : Facts} {fuel : Nat}

theorem inputFacts_of {index : Nat} {input : NodeId} (found : (s.plan.inputs id)[index]? = some input)
    (noted : s.context.facts.get? input = some facts) : s.inputFacts id index = .ok facts :=
  bind_ok_iff.mpr ⟨input, Plan.input_ok_iff.mpr found, knownFacts_ok_iff.mpr noted⟩

/-- Facts follow from the inputs if these have notes and schemas. -/
theorem exists_factsFromInputs (columns : NodeId → VarSet) (schema : s.plan.HasSchemas)
    (reached : s.plan.Reaches id)
    (noted : ∀ c ∈ s.plan.tupleSources id, ∃ facts, s.context.facts.get? c = some facts)
    (follow : (s.plan.operator id).facts? s.context.catalog (columns id)
      (s.plan.ins columns s.note id) = some facts) : ∃ facts, s.factsFromInputs id = .ok facts := by
  unfold factsFromInputs
  cases operator : s.plan.operator id with
  | nestedSource owner =>
    rw [operator] at follow
    obtain ⟨entry, first, _⟩ := Option.map_eq_some_iff.mp follow
    unfold Plan.ins at first
    rw [Plan.tupleSources_nestedSource operator] at first noted
    cases found : (s.plan.inputs owner)[0]? with
    | none => rw [found] at first; cases first
    | some input =>
      obtain ⟨facts, known⟩ := noted input (by rw [found]; exact List.mem_singleton_self _)
      exact ⟨facts, inputFacts_of found known⟩
  | _ => ?_
  all_goals
    have other : ∀ owner, s.plan.operator id ≠ .nestedSource owner := by
      intro owner same
      cases operator.symm.trans same
    have input : ∀ {index entry}, (s.plan.ins columns s.note id)[index]? = some entry →
        ∃ input facts, (s.plan.inputs id)[index]? = some input ∧ s.plan.Reaches input ∧
          s.inputFacts id index = .ok facts := by
      intro index entry found
      unfold Plan.ins at found
      rw [Plan.tupleSources_eq_inputs other] at found noted
      obtain ⟨input, isInput, _⟩ := Option.map_eq_some_iff.mp ((List.getElem?_map ..).symm.trans found)
      have member := List.mem_of_getElem? isInput
      obtain ⟨facts, known⟩ := noted input member
      exact ⟨input, facts, isInput, reached.input member, inputFacts_of isInput known⟩
    rw [operator] at follow
  case emptySource | write | insertDelete | sink | unionAll | script | aggregate => exact ⟨_, rfl⟩
  case scan source vars =>
    obtain ⟨ds, known, _⟩ := Option.map_eq_some_iff.mp follow
    cases dependencies : s.context.catalog.dependencies source vars with
    | error => rw [dependencies] at known; cases known
    | ok ds => exact ⟨_, bind_ok_iff.mpr ⟨ds, dependencies, rfl⟩⟩
  case exchange | order | limit | replicate | runningAggregate | unnest =>
    obtain ⟨entry, first, _⟩ := Option.map_eq_some_iff.mp follow
    obtain ⟨_, known, _, _, isKnown⟩ := input first
    exact ⟨known, isKnown⟩
  case select | assign | project | distinct =>
    obtain ⟨entry, first, _⟩ := Option.map_eq_some_iff.mp follow
    obtain ⟨_, known, _, _, isKnown⟩ := input first
    exact ⟨_, bind_ok_iff.mpr ⟨known, isKnown, rfl⟩⟩
  case join kind condition =>
    obtain ⟨left, first, follow⟩ := Option.bind_eq_some_iff.mp follow
    obtain ⟨right, second, _⟩ := Option.map_eq_some_iff.mp follow
    obtain ⟨l, leftFacts, isLeft, reachedLeft, knownLeft⟩ := input first
    obtain ⟨r, rightFacts, isRight, reachedRight, knownRight⟩ := input second
    cases kind with
    | inner => exact ⟨_, bind_ok_iff.mpr ⟨_, knownLeft, bind_ok_iff.mpr ⟨_, knownRight, rfl⟩⟩⟩
    | leftOuter =>
      obtain ⟨vs, leftSchema⟩ := schema l reachedLeft
      obtain ⟨ws, rightSchema⟩ := schema r reachedRight
      exact ⟨_, bind_ok_iff.mpr ⟨_, knownLeft, bind_ok_iff.mpr ⟨_, knownRight,
        bind_ok_iff.mpr ⟨l, Plan.input_ok_iff.mpr isLeft, bind_ok_iff.mpr ⟨vs, leftSchema,
          bind_ok_iff.mpr ⟨r, Plan.input_ok_iff.mpr isRight,
            bind_ok_iff.mpr ⟨ws, rightSchema, rfl⟩⟩⟩⟩⟩⟩⟩
  case groupBy keys decor nested =>
    obtain ⟨entry, first, _⟩ := Option.map_eq_some_iff.mp follow
    obtain ⟨_, known, _, _, isKnown⟩ := input first
    obtain ⟨vs, stored⟩ := schema id reached
    exact ⟨_, bind_ok_iff.mpr ⟨known, isKnown, bind_ok_iff.mpr ⟨vs, stored, rfl⟩⟩⟩
  case subplan nested =>
    obtain ⟨entry, first, _⟩ := Option.map_eq_some_iff.mp follow
    obtain ⟨x, known, isInput, reachedInput, isKnown⟩ := input first
    obtain ⟨ws, storedInput⟩ := schema x reachedInput
    obtain ⟨vs, stored⟩ := schema id reached
    exact ⟨_, bind_ok_iff.mpr ⟨known, isKnown, bind_ok_iff.mpr ⟨x, Plan.input_ok_iff.mpr isInput,
      bind_ok_iff.mpr ⟨ws, storedInput, bind_ok_iff.mpr ⟨vs, stored, rfl⟩⟩⟩⟩⟩

theorem simplifyGroupBy_of (simplified : s.Simplified id) : s.simplifyGroupBy id = .ok s := by
  unfold simplifyGroupBy
  split
  · rename_i keys decor nested shape
    obtain ⟨facts, known, none⟩ := simplified keys decor nested shape
    refine bind_ok_iff.mpr ⟨facts, known, ?_⟩
    split
    · rfl
    · rename_i kept moved some split
      rw [split] at none
      exact absurd none some
  · rfl

/-- A session that differs in notes about facts, all of which are found on the plan. -/
def Renotes (s : Session) (columns : NodeId → VarSet) (t : Session) : Prop :=
  t.plan = s.plan ∧ t.context.catalog = s.context.catalog ∧ t.Accurate columns

/-- What is found on a plan is derived there, and the plan stays. -/
theorem Accurate.exists_ensureFactsWithin {rank : NodeId → Nat} (accurate : s.Accurate columns)
    (schemas : s.plan.HasSchemas) (falls : s.plan.RankedBy rank) (reached : s.plan.Reaches id)
    (finds : s.plan.Finds s.context.catalog columns id facts) (enough : rank id < fuel) :
    ∃ s', Session.ensureFactsWithin fuel s id = .ok s' ∧ s'.plan = s.plan := by
  induction fuel generalizing s id facts with
  | zero => omega
  | succ fuel ih =>
    by_cases known : (s.context.facts.get? id).isSome
    · refine ⟨s, ?_, rfl⟩
      unfold Session.ensureFactsWithin
      rw [if_pos known]
    have known' : s.context.facts.get? id = none := by simpa using known
    cases finds with
    | @node _ notes _ found follow =>
      have each : ∀ c ∈ s.plan.sources id, ∀ t, s.Renotes columns t →
          ∃ t', Session.ensureFactsWithin fuel t c = .ok t' ∧ s.Renotes columns t' := by
        rintro c source t ⟨plan, catalog, accurate'⟩
        have reached' := accurate.wellFormed.reaches_source reached source
        have lower := falls id reached c source
        rw [← plan] at reached'
        obtain ⟨t', done, same⟩ := ih (s := t) accurate'
          (plan ▸ schemas) (plan ▸ falls) reached' (by rw [plan, catalog]; exact found c source)
          (by omega)
        obtain ⟨accurate'', grows, _⟩ := accurate'.ensureFactsWithin reached' done
        exact ⟨t', done, same.trans plan, grows.catalog.trans catalog, accurate''⟩
      obtain ⟨s₁, inputs, renotes₁⟩ := exists_foldlM_ok (s.Renotes columns)
        (fun n member => each n (Plan.mem_sources_of_input member)) ⟨rfl, rfl, accurate⟩
      obtain ⟨_, _, notedInputs⟩ := accurate.foldlM (fun _ _ _ _ accurate reached =>
        accurate.ensureFactsWithin reached) (fun _ => reached.input) inputs
      have plan₁ := renotes₁.1
      obtain ⟨s₂, owner, renotes₂, grows₂, notedTuples⟩ : ∃ s₂,
          ((∃ owner input, s₁.plan.operator id = .nestedSource owner ∧
            (s₁.plan.inputs owner)[0]? = some input ∧
            Session.ensureFactsWithin fuel s₁ input = .ok s₂) ∨
          (∀ owner, s₁.plan.operator id ≠ .nestedSource owner) ∧ s₂ = s₁) ∧
          s.Renotes columns s₂ ∧ s₁.Grows s₂ columns ∧
          ∀ c ∈ s.plan.tupleSources id, ∃ facts, s₂.context.facts.get? c = some facts := by
        rw [plan₁]
        by_cases source : ∃ owner, s.plan.operator id = .nestedSource owner
        · obtain ⟨owner, operator⟩ := source
          obtain ⟨input, isInput⟩ := accurate.wellFormed.exists_source reached operator
          have source := Plan.mem_sources_iff.mpr (.inr ⟨owner, operator, isInput⟩)
          obtain ⟨s₂, done, renotes₂⟩ := each input source s₁ renotes₁
          obtain ⟨_, grows₂, noted⟩ := renotes₁.2.2.ensureFactsWithin
            (plan₁ ▸ accurate.wellFormed.reaches_source reached source) done
          refine ⟨s₂, .inl ⟨owner, input, operator, isInput, done⟩, renotes₂, grows₂,
            fun c member => ?_⟩
          rw [Plan.tupleSources_nestedSource operator, isInput] at member
          cases List.mem_singleton.mp member
          exact noted
        · have other : ∀ owner, s.plan.operator id ≠ .nestedSource owner := fun owner operator =>
            source ⟨owner, operator⟩
          refine ⟨s₁, .inr ⟨other, rfl⟩, renotes₁, .refl _ _, fun c member => ?_⟩
          rw [Plan.tupleSources_eq_inputs other] at member
          exact notedInputs c member
      have same : ∀ {t c known}, s.Renotes columns t → c ∈ s.plan.sources id →
          t.context.facts.get? c = some known → known = notes c := by
        rintro t c known ⟨plan, catalog, accurate'⟩ source noted
        have reached' := accurate.wellFormed.reaches_source reached source
        have finds := accurate'.found c known (plan ▸ reached') noted
        rw [plan, catalog] at finds
        exact Plan.Finds.unique finds (found c source)
      have plan₂ := renotes₂.1
      have simplified : s₂.Simplified id := by
        intro keys decor nested shape
        rw [plan₂] at shape
        have arity := accurate.wellFormed.arity id reached
        rw [shape] at arity
        obtain ⟨input, single⟩ := List.length_eq_one_iff.mp arity
        have first : (s.plan.inputs id)[0]? = some input := by rw [single]; rfl
        have source := Plan.mem_sources_of_input (List.mem_of_getElem? first)
        obtain ⟨facts, noted⟩ := notedInputs input (List.mem_of_getElem? first)
        have noted := grows₂.noted input facts noted
        refine ⟨facts, inputFacts_of (plan₂ ▸ first) noted, ?_⟩
        rw [same renotes₂ source noted]
        exact follow.simple keys decor nested input shape first
      obtain ⟨s₄, roots, renotes₄⟩ := exists_foldlM_ok (s.Renotes columns)
        (fun n (member : n ∈ s₂.plan.nestedRoots id) => each n (Plan.mem_sources_of_child
          (List.mem_append_right _ (plan₂ ▸ member)))) renotes₂
      obtain ⟨_, grows₄, notedRoots⟩ := renotes₂.2.2.foldlM (fun _ _ _ _ accurate reached =>
        accurate.ensureFactsWithin reached) (fun _ => (plan₂ ▸ reached : s₂.plan.Reaches id).nestedRoot)
        roots
      have plan₄ := renotes₄.1
      have sources : ∀ c ∈ s₄.plan.sources id, s₄.note c = notes c := by
        intro c source
        rw [plan₄] at source
        obtain ⟨known, noted⟩ : ∃ facts, s₄.context.facts.get? c = some facts := by
          rcases Plan.source_cases source with isInput | isRoot | isTuple
          · obtain ⟨facts, noted⟩ := notedInputs c isInput
            exact ⟨facts, (grows₂.trans grows₄).noted c facts noted⟩
          · exact notedRoots c (plan₂ ▸ isRoot)
          · obtain ⟨facts, noted⟩ := notedTuples c isTuple
            exact ⟨facts, grows₄.noted c facts noted⟩
        rw [note_eq noted]
        exact same renotes₄ source noted
      have follow : (s₄.plan.operator id).facts? s₄.context.catalog (columns id)
          (s₄.plan.ins columns s₄.note id) = some facts := by
        rw [Plan.ins_congr sources, plan₄, renotes₄.2.1]
        exact follow.follow
      obtain ⟨known, derived⟩ := exists_factsFromInputs columns (plan₄ ▸ schemas)
        (plan₄ ▸ reached) (fun c member => by
          obtain ⟨facts, noted⟩ := notedTuples c (plan₄ ▸ member)
          exact ⟨facts, grows₄.noted c facts noted⟩) follow
      exact ⟨_, ensureFactsWithin_of known' inputs owner (simplifyGroupBy_of simplified) roots derived,
        plan₄⟩

end Session

end QueryOptimizer
