import Mathlib
import QueryOptimizer.Proofs.Implementation.Enforcing

/-! # Steps of enforcement

What enforcement does to a plan is made of few steps: an operator is put on an edge, or a sort is taken
out of its slot. Everything else are notes. What each of the steps keeps, a whole run keeps.
-/

namespace QueryOptimizer.Session

variable {s s' s'' : Session} {id parent input new n : NodeId} {slot : Slot} {index fuel removed : Nat}
  {isNested changed changed' : Bool} {physical : Physical} {operator : Operator} {mode : Mode}
  {top : Option NodeId}

/-- One step of enforcement. -/
inductive Step (s : Session) : Session → Prop where
  | note {s' : Session} (sizes : NodeTable Size) (agrees : (s.withSizes sizes).Agrees s') : Step s s'
  | insert {parent : NodeId} {index : Nat} {input new : NodeId} {node : Node} {plan : Plan}
      (reached : s.plan.Reaches parent) (passes : node.operator.Passes)
      (fits : ∃ physical, node.physical = some physical ∧ node.operator.Admits physical)
      (inserted : s.plan.Inserted parent index input new node plan) : Step s (s.passing plan new input)
  | remove {slot : Slot} {id below : NodeId} {physical : Physical} {order : List OrderColumn}
      {plan plan' : Plan} (holds : s.plan.HoldsReachable slot) (here : s.plan.nodeAt slot = .ok id)
      (chosen : (s.plan.node id).physical = some physical) (sorts : physical.sortOrder? = some order)
      (notTop : ∀ columns k, s.plan.operator id ≠ .order columns (some k))
      (uncovers : s.plan.Uncovers id below) (placed : s.plan.setSlot slot below = .ok plan)
      (refreshed : plan.refreshSchemas = .ok plan') : Step s (s.withPlan plan')

theorem Agrees.step (agrees : s.Agrees s') : s.Step s' := .note s.context.sizes agrees

theorem Agrees.ready (agrees : s.Agrees s') (ready : s.Ready) : s'.Ready := by
  have same : ∀ n, s'.note n = s.note n := fun n => by
    unfold note
    rw [agrees.facts]
  exact ⟨agrees.plan ▸ ready.wellFormed, fun n reached => by
      rw [same, agrees.facts]
      exact ready.noted n (agrees.plan ▸ reached),
    fun n facts noted => agrees.plan ▸ ready.present n facts (agrees.facts ▸ noted)⟩

theorem Ready.withSizes (ready : s.Ready) (sizes : NodeTable Size) : (s.withSizes sizes).Ready :=
  ⟨ready.wellFormed, ready.noted, ready.present⟩

/-- The plan stays well formed, and all facts are known. -/
theorem Step.ready (step : s.Step s') (ready : s.Ready) : s'.Ready := by
  cases step with
  | note sizes agrees => exact agrees.ready (ready.withSizes sizes)
  | insert reached passes _ inserted => exact ready.passing reached inserted passes
  | @remove _ _ _ _ _ plan plan' holds here _ _ _ uncovers placed refreshed =>
    have reworked := Plan.drop_reworked ready.wellFormed holds here uncovers.feeds placed
    have only := Plan.refreshSchemas_only refreshed
    refine ⟨only.redrawn.wellFormed reworked.wellFormed, fun n reached => ?_, fun n facts noted => ?_⟩
    · have old := (reworked.reaches_cases (only.reaches_iff.mp reached)).resolve_left List.not_mem_nil
      exact ready.noted n old
    · exact (only.contains n).trans ((reworked.rewired.contains n).trans (ready.present n facts noted))

/-- No node is lost or gets other properties. -/
theorem Step.kept (step : s.Step s') (ready : s.Ready) (present : s.plan.contains n = true) :
    s'.plan.contains n = true ∧ (s'.plan.node n).physical = (s.plan.node n).physical ∧
      s'.plan.mode n = s.plan.mode n := by
  cases step with
  | note sizes agrees =>
    have plan : s'.plan = s.plan := agrees.plan
    rw [plan]
    exact ⟨present, rfl, rfl⟩
  | @insert _ _ _ new _ plan _ _ _ inserted =>
    have old : n ≠ new := by
      rintro rfl
      exact Bool.noConfusion (inserted.fresh.symm.trans present)
    exact ⟨(inserted.contains n old).trans present, inserted.physical n old, inserted.mode n old⟩
  | remove holds here _ _ _ uncovers placed refreshed =>
    have rewired := (Plan.drop_reworked ready.wellFormed holds here uncovers.feeds placed).rewired
    have only := Plan.refreshSchemas_only refreshed
    exact ⟨(only.contains n).trans ((rewired.contains n).trans present),
      (only.physical n).trans (rewired.physical n), (only.mode n).trans (rewired.mode n)⟩

/-- A run of enforcement that leaves alone what is really above a node. -/
structure Moves (top : Option NodeId) (s s' : Session) : Prop where
  steps : Relation.ReflTransGen Step s s'
  spares : Plan.Spares top s.plan s'.plan

namespace Moves

theorem refl (top : Option NodeId) (s : Session) : Moves top s s := ⟨.refl, .refl _ _⟩

theorem ready (moves : Moves top s s') (ready : s.Ready) : s'.Ready :=
  Relation.ReflTransGen.head_induction_on
    (motive := fun s _ => s.Ready → s'.Ready) moves.steps id (fun step _ ih ready => ih (step.ready ready)) ready

theorem trans (first : Moves top s s') (second : Moves top s' s'') (ready : s.Ready) : Moves top s s'' :=
  ⟨first.steps.trans second.steps, first.spares.trans second.spares ready.wellFormed⟩

theorem reaches (moves : Moves (some id) s s') (ready : s.Ready) (reached : s.plan.Reaches id) :
    s'.plan.Reaches id :=
  (moves.spares.retains ready.wellFormed).reaches reached

end Moves

theorem Agrees.moves (agrees : s.Agrees s') : Moves top s s' :=
  ⟨.single agrees.step, agrees.plan ▸ .refl _ _⟩

namespace Ready

variable (ready : s.Ready) (reached : s.plan.Reaches parent)

include ready reached

theorem moves_insertEnforcer (passes : operator.Passes) (admits : operator.Admits physical)
    (done : s.insertEnforcer parent index operator physical mode = .ok s') :
    Moves (some parent) s s' := by
  obtain ⟨input, new, plan, layout, inserted, _, rfl⟩ := ready.insertEnforcer reached passes done
  refine ⟨.tail (.single (.insert reached passes ⟨physical, rfl, admits⟩ inserted))
    (Agrees.record _ _ _).step, ?_⟩
  exact inserted.spares ready.wellFormed

theorem moves_sortIfUnmet {properties : List LocalProperty}
    (done : s.sortIfUnmet parent index properties isNested = .ok s') : Moves (some parent) s s' := by
  rcases ready.sortIfUnmet reached done with ⟨rfl, _⟩ | ⟨_, _, sizes, _, _, _, _, sorts, done⟩
  · exact .refl _ _
  · have moves := (ready.withSizes sizes).moves_insertEnforcer reached (.inr ⟨_, rfl⟩)
      (sorting_admits sorts) done
    exact ⟨.head (.note sizes (.refl _)) moves.steps, moves.spares⟩

omit ready reached in
theorem isExchange_of_exchange {partitioning : Partitioning} {exchange : Physical}
    (chosen : partitioning.exchange = .ok exchange) : exchange.isExchange = true := by
  unfold Partitioning.exchange at chosen
  split at chosen <;> cases chosen <;> rfl

theorem moves_enforceEdge {required missing : Layout}
    (done : s.enforceEdge parent index required missing isNested = .ok s') : Moves (some parent) s s' := by
  unfold enforceEdge at done
  split at done
  · obtain ⟨s₁, sorted, done⟩ := bind_ok_iff.mp done
    obtain ⟨input, _, done⟩ := bind_ok_iff.mp done
    obtain ⟨layout, _, done⟩ := bind_ok_iff.mp done
    have first := ready.moves_sortIfUnmet reached sorted
    have second := (first.ready ready).moves_insertEnforcer (first.reaches ready reached) (.inl rfl) (by
      show Physical.isExchange _ = true
      split <;> rfl) done
    exact first.trans second ready
  · obtain ⟨exchange, chosen, done⟩ := bind_ok_iff.mp done
    obtain ⟨s₁, exchanged, done⟩ := bind_ok_iff.mp done
    have first := ready.moves_insertEnforcer reached (.inl rfl) (isExchange_of_exchange chosen) exchanged
    have second := (first.ready ready).moves_sortIfUnmet (first.reaches ready reached) done
    exact first.trans second ready
  · exact ready.moves_sortIfUnmet reached done

/-- Enforcing the requirement on an input changes something, or nothing at all. -/
theorem moves_enforceInput {requirements : Requirements} {domain : Domain} {facts : Facts}
    (done : enforceInput parent requirements domain facts isNested (s, changed) index =
      .ok (s', changed')) :
    Moves (some parent) s s' ∧ (changed' = false → changed = false ∧ s' = s) := by
  unfold enforceInput at done
  dsimp only at done
  split at done
  · cases done
    exact ⟨.refl _ _, fun same => ⟨same, rfl⟩⟩
  · obtain ⟨required, _, done⟩ := bind_ok_iff.mp done
    obtain ⟨input, found, done⟩ := bind_ok_iff.mp done
    obtain ⟨layout, _, done⟩ := bind_ok_iff.mp done
    have isInput := List.mem_of_getElem? (Plan.input_ok_iff.mp found)
    rw [ready.facts (reached.input isInput)] at done
    obtain ⟨_, same, done⟩ := bind_ok_iff.mp done
    cases same
    dsimp only at done
    split at done
    · obtain ⟨s₁, enforced, done⟩ := bind_ok_iff.mp done
      cases pure_ok_iff.mp done
      exact ⟨ready.moves_enforceEdge reached enforced, fun impossible => by cases impossible⟩
    · cases pure_ok_iff.mp done
      exact ⟨.refl _ _, fun same => ⟨same, rfl⟩⟩

theorem moves_enforceInputs {requirements : Requirements} {domain : Domain} {facts : Facts}
    {indices : List Nat} (done : indices.foldlM (enforceInput parent requirements domain facts isNested)
      (s, changed) = .ok (s', changed')) :
    Moves (some parent) s s' ∧ (changed' = false → changed = false ∧ s' = s) := by
  induction indices generalizing s changed with
  | nil =>
    cases foldlM_nil_ok_iff.mp done
    exact ⟨.refl _ _, fun same => ⟨same, rfl⟩⟩
  | cons index indices ih =>
    obtain ⟨⟨s₁, c₁⟩, first, done⟩ := foldlM_cons_ok_iff.mp done
    obtain ⟨moves, kept⟩ := ready.moves_enforceInput reached first
    obtain ⟨moves', kept'⟩ := ih (moves.ready ready) (moves.reaches ready reached) done
    refine ⟨moves.trans moves' ready, fun same => ?_⟩
    obtain ⟨same, rfl⟩ := kept' same
    exact kept same

/-- The children of a node, one after the other. -/
theorem moves_enforceChildren {slots : List Slot} (held : ∀ slot ∈ slots, slot.holder? = some parent)
    (each : ∀ {s s' slot fired}, s.Ready → s.plan.HoldsReachable slot →
      enforceWithin fuel s slot isNested 0 = .ok (s', fired) →
      Moves slot.holder? s s' ∧ (fired = false → s.Agrees s'))
    (done : slots.foldlM (enforceChild fuel isNested) (s, changed) = .ok (s', changed')) :
    Moves (some parent) s s' ∧ (changed' = false → changed = false ∧ s.Agrees s') := by
  induction slots generalizing s changed with
  | nil =>
    cases foldlM_nil_ok_iff.mp done
    exact ⟨.refl _ _, fun same => ⟨same, .refl _⟩⟩
  | cons slot slots ih =>
    obtain ⟨⟨s₁, c₁⟩, first, done⟩ := foldlM_cons_ok_iff.mp done
    obtain ⟨⟨s₂, fired⟩, enforced, first⟩ := bind_ok_iff.mp first
    cases pure_ok_iff.mp first
    have holder := held slot List.mem_cons_self
    have holds : s.plan.HoldsReachable slot := fun h isHolder => by
      cases holder.symm.trans isHolder
      exact reached
    obtain ⟨moves, kept⟩ := each ready holds enforced
    rw [holder] at moves
    obtain ⟨moves', kept'⟩ := ih (moves.ready ready) (moves.reaches ready reached)
      (fun slot member => held slot (List.mem_cons_of_mem _ member)) done
    refine ⟨moves.trans moves' ready, fun same => ?_⟩
    obtain ⟨same, agrees⟩ := kept' same
    obtain ⟨same, notFired⟩ := Bool.or_eq_false_iff.mp same
    exact ⟨same, (kept notFired).trans agrees⟩

end Ready

theorem mem_inputSlots {plan : Plan} (member : slot ∈ plan.inputSlots id) :
    ∃ index < (plan.inputs id).length, slot = .input id index := by
  obtain ⟨index, small, rfl⟩ := List.mem_map.mp member
  exact ⟨index, List.mem_range.mp small, rfl⟩

theorem mem_nestedSlots {plan : Plan} (member : slot ∈ plan.nestedSlots id) :
    ∃ p index, slot = .nestedRoot id p index := by
  obtain ⟨entry, _, found⟩ := List.mem_flatMap.mp member
  obtain ⟨index, _, rfl⟩ := List.mem_map.mp found
  exact ⟨_, index, rfl⟩

theorem Moves.kept (moves : Moves top s s') (ready : s.Ready) (present : s.plan.contains n = true) :
    (s'.plan.node n).physical = (s.plan.node n).physical ∧ s'.plan.mode n = s.plan.mode n := by
  refine (Relation.ReflTransGen.head_induction_on
    (motive := fun s _ => s.Ready → s.plan.contains n = true →
      (s'.plan.node n).physical = (s.plan.node n).physical ∧ s'.plan.mode n = s.plan.mode n)
    moves.steps (fun _ _ => ⟨rfl, rfl⟩) (fun step _ ih ready present => ?_)) ready present
  obtain ⟨present', physical, mode⟩ := step.kept ready present
  obtain ⟨physical', mode'⟩ := ih (step.ready ready) present'
  exact ⟨physical'.trans physical, mode'.trans mode⟩

/-- A sort is not needed if its input is in order, and it keeps all tuples. -/
theorem Ready.checkSort {isRedundant : Bool} (ready : s.Ready) (reached : s.plan.Reaches id)
    (done : s.checkSort id physical = .ok (s', isRedundant)) :
    s' = s ∧ (isRedundant = true → ∃ order input layout, physical.sortOrder? = some order ∧
      (∀ columns k, s.plan.operator id ≠ .order columns (some k)) ∧
      (s.plan.inputs id)[0]? = some input ∧ s.context.delivered.get? input = some layout ∧
      LocalProperty.isMatch (s.note input) (order.map .order) layout.properties = true) := by
  unfold Session.checkSort at done
  split at done
  · rename_i order sorts
    unfold isRedundantSort at done
    split at done
    · cases done
      exact ⟨rfl, fun impossible => by cases impossible⟩
    · rename_i notTop
      obtain ⟨input, found, done⟩ := bind_ok_iff.mp done
      have found := Plan.input_ok_iff.mp found
      obtain ⟨layout, delivered, done⟩ := bind_ok_iff.mp done
      rw [ready.facts (reached.input (List.mem_of_getElem? found))] at done
      obtain ⟨_, same, done⟩ := bind_ok_iff.mp done
      cases same
      cases pure_ok_iff.mp done
      exact ⟨rfl, fun isMatch => ⟨order, input, layout, sorts, notTop, found,
        delivered_ok_iff.mp delivered, isMatch⟩⟩
  · cases pure_ok_iff.mp done
    exact ⟨rfl, fun impossible => by cases impossible⟩

/-- A run of enforcement on a slot moves in steps, and changes nothing above the slot. A run that
    reports no change leaves notes only. -/
theorem Ready.moves_enforceWithin (ready : s.Ready) (holds : s.plan.HoldsReachable slot)
    (done : enforceWithin fuel s slot isNested removed = .ok (s', changed)) :
    Moves slot.holder? s s' ∧ (changed = false → s.Agrees s') := by
  induction fuel generalizing s s' slot isNested removed changed with
  | zero => cases done
  | succ fuel ih =>
    obtain ⟨id, here, ⟨_, rfl, rfl⟩ | ⟨_, s₁, physical, s₂, c₂, s₃, domain, s₄, facts, s₅, c₅, s₆, c₆, s₇,
      isRedundant, derived, chosen, children, shared, known, edges, nested, checked, last⟩⟩ :=
      enforceWithin_cases done
    · exact ⟨.refl _ _, fun _ => .refl s'⟩
    have reached := holds.reaches here
    rw [ready.ensureFacts reached] at derived
    cases derived
    obtain ⟨moves₂, kept₂⟩ := ready.moves_enforceChildren reached (fun slot member => by
      obtain ⟨_, _, rfl⟩ := mem_inputSlots member
      rfl) (fun ready holds done => ih ready holds done) children
    have ready₂ := moves₂.ready ready
    have reached₂ := moves₂.reaches ready reached
    obtain ⟨warnings, rfl⟩ := sharedDomain_frame shared
    have warned : s₂.Agrees { s₂ with warnings } := ⟨rfl, rfl, rfl, rfl, rfl, rfl⟩
    rw [(warned.ready ready₂).facts reached₂] at known
    cases known
    obtain ⟨moves₅, kept₅⟩ := (warned.ready ready₂).moves_enforceInputs reached₂ edges
    have first : Moves (some id) s s₅ :=
      moves₂.trans (warned.moves.trans moves₅ ready₂) ready
    have ready₅ := first.ready ready
    have reached₅ := first.reaches ready reached
    obtain ⟨moves₆, kept₆⟩ := ready₅.moves_enforceChildren reached₅ (fun slot member => by
      obtain ⟨_, _, rfl⟩ := mem_nestedSlots member
      rfl) (fun ready holds done => ih ready holds done) nested
    have below := first.trans moves₆ ready
    have ready₆ := below.ready ready
    have reached₆ := below.reaches ready reached
    have above := below.spares.lift ready.wellFormed holds here
    have holds₆ := holds.retained (above.retains ready.wellFormed)
    have here₆ := below.spares.nodeAt ready.wellFormed holds here
    obtain ⟨rfl, redundant⟩ := ready₆.checkSort reached₆ checked
    rcases last with ⟨rfl, _, rfl, s₈, next, c₉, taken, again⟩ | ⟨rfl, rfl, delivered⟩
    · obtain ⟨order, _, _, sorts, notTop, _⟩ := redundant rfl
      obtain ⟨plan, plan', uncovers, placed, refreshed, rfl⟩ := removeSort_cases taken
      have chosen' : (s₇.plan.node id).physical = some physical := by
        rw [(below.kept ready (ready.wellFormed.present id reached)).1]
        unfold physicalOf at chosen
        split at chosen
        · rename_i found
          rw [found]
          exact congrArg some (Except.ok.inj chosen)
        · cases chosen
      have step : s₇.Step (s₇.withPlan plan') :=
        .remove holds₆ here₆ chosen' sorts notTop uncovers placed refreshed
      have only := Plan.refreshSchemas_only refreshed
      have reworked := Plan.drop_reworked ready₆.wellFormed holds₆ here₆ uncovers.feeds placed
      have removal : Moves slot.holder? s₇ (s₇.withPlan plan') := ⟨.single step,
        reworked.rewired.spares.trans (only.spares _) ready₆.wellFormed⟩
      have cleared := Agrees.clear (s₇.withPlan plan') next
      have ready₈ := cleared.ready (step.ready ready₆)
      have holds₈ := holds₆.retained (removal.spares.retains ready₆.wellFormed)
      obtain ⟨moves₉, _⟩ := ih ready₈ holds₈ again
      have toSlot : Moves slot.holder? s s₇ := ⟨below.steps, above⟩
      refine ⟨toSlot.trans (removal.trans (cleared.moves.trans moves₉ (step.ready ready₆)) ready₆) ready,
        fun impossible => by cases impossible⟩
    · obtain ⟨layout, _, rfl⟩ := deliver_ok_iff.mp delivered
      have noted := Agrees.record s₇ id layout
      have toSlot : Moves slot.holder? s s₇ := ⟨below.steps, above⟩
      refine ⟨toSlot.trans noted.moves ready, fun same => ?_⟩
      obtain ⟨same, agrees₆⟩ := kept₆ same
      obtain ⟨same, rfl⟩ := kept₅ same
      obtain ⟨_, agrees₂⟩ := kept₂ same
      exact (agrees₂.trans (warned.trans agrees₆)).trans noted

/-! ## The whole plan -/

variable {columns : NodeId → VarSet} {facts : Facts}

/-- If the facts of the root are known, those of everything below are. -/
theorem Accurate.ready (accurate : s.Accurate columns)
    (known : s.context.facts.get? s.plan.root = some facts) : s.Ready := by
  refine ⟨accurate.wellFormed, fun n reached => ?_, accurate.present⟩
  obtain ⟨facts, noted⟩ : ∃ facts, s.context.facts.get? n = some facts := by
    induction reached with
    | refl => exact ⟨facts, known⟩
    | @tail n m reached child ih =>
      obtain ⟨facts, noted⟩ := ih
      exact accurate.closed n facts reached noted m (Plan.mem_sources_of_child child)
  rw [noted, note_eq noted]

/-- Deriving the facts of the root comes first. -/
theorem enforceWithin_derived (derived : s.ensureFacts s.plan.root = .ok s')
    (known : s'.context.facts.get? s.plan.root = some facts)
    (notApplied : s.context.isApplied .enforceLayouts s.plan.root = false) :
    enforceWithin (fuel + 1) s .root isNested removed =
      enforceWithin (fuel + 1) s' .root isNested removed := by
  obtain ⟨plan, table, rfl, regrouped⟩ := ensureFacts_derives derived
  have here : plan.nodeAt .root = .ok s.plan.root := congrArg Except.ok regrouped.root
  have again : (s.withFacts plan table).ensureFacts s.plan.root = .ok (s.withFacts plan table) :=
    ensureFacts_of_noted known
  have notApplied' : (s.withFacts plan table).context.isApplied .enforceLayouts s.plan.root = false :=
    notApplied
  unfold enforceWithin
  rw [show (s.withFacts plan table).plan.nodeAt .root = .ok s.plan.root from here,
    show s.plan.nodeAt .root = .ok s.plan.root from rfl]
  simp only [bind, Except.bind, notApplied, notApplied', derived, again]
  rfl

theorem Accurate.enforceLayouts (accurate : s.Accurate columns)
    (done : s.enforceLayouts = .ok (s', changed)) :
    s' = s ∧ changed = false ∨ ∃ s₁ fuel, s.context.isApplied .enforceLayouts s.plan.root = false ∧
      s.ensureFacts s.plan.root = .ok s₁ ∧ s₁.Accurate columns ∧ s.Grows s₁ columns ∧ s₁.Ready ∧
      enforceWithin (fuel + 1) s₁ .root false 0 = .ok (s', changed) := by
  have fuel : ∃ k, s.enforcementDepth = k + 1 := ⟨_, rfl⟩
  obtain ⟨fuel, enough⟩ := fuel
  unfold Session.enforceLayouts at done
  rw [enough] at done
  obtain ⟨id, here, ⟨_, rfl, rfl⟩ | ⟨notApplied, s₁, _, _, _, _, _, _, _, _, _, _, _, _, _, derived, _⟩⟩ :=
    enforceWithin_cases done
  · exact .inl ⟨rfl, rfl⟩
  cases here
  obtain ⟨accurate₁, grows, facts, known⟩ := accurate.ensureFacts .refl derived
  have ready : s₁.Ready := accurate₁.ready (grows.regrouped.root ▸ known)
  rw [enforceWithin_derived derived known notApplied] at done
  exact .inr ⟨s₁, fuel, notApplied, derived, accurate₁, grows, ready, done⟩

end QueryOptimizer.Session
