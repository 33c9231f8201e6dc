import Mathlib
import QueryOptimizer.Proofs.Batch.Offers
import QueryOptimizer.Proofs.Derivation.Sized
import QueryOptimizer.Proofs.Implementation.Steps

/-! # Notes stay coherent

Rules derive facts, types and sizes, and change the plan. Whatever a session notes can be found on its
plan at any time: deriving something only adds what is found there, and a rule that changes the plan
makes the session forget.
-/

namespace QueryOptimizer

namespace Plan

variable {plan plan' mid : Plan} {slot : Slot} {old new : NodeId} {layer base : List NodeId}

/-- A join of a node with itself stays the same when its sides change places, but for its schema. -/
theorem onlySchemas_swapInputs {n a : NodeId} (wellFormed : plan.WellFormed) (reached : plan.Reaches n)
    (sides : plan.inputs n = [a, a]) (done : plan.swapInputs n 0 1 = .ok plan') :
    plan.OnlySchemas plan' ∧
      ∀ m, (plan'.node m).schema = (plan.node m).schema ∨ (plan'.node m).schema = none := by
  obtain ⟨⟨root, length, contains, tidy⟩, edges, here, others⟩ :=
    swapInputs_spec wellFormed reached sides done
  rw [← edges] at here
  refine ⟨⟨fun m => ?_, root, length, contains, tidy⟩, fun m => ?_⟩
  · by_cases same : m = n
    · subst same
      exact ⟨none, here⟩
    · exact ⟨_, others m same⟩
  · by_cases same : m = n
    · subst same
      exact .inr (congrArg Node.schema here)
    · exact .inl (congrArg Node.schema (others m same))

/-! ## Names of group-bys -/

theorem Redrawn.groupsApart (redrawn : plan.Redrawn plan') (apart : plan.GroupsApart) :
    plan'.GroupsApart := fun n reached =>
  (redrawn.operator n).outputs.nodup_iff.mpr (apart n (redrawn.reaches_iff.mp reached))

theorem Reworked.groupsApart (reworked : plan.Reworked slot old new layer base mid plan')
    (apart : plan.GroupsApart) : plan'.GroupsApart := by
  have outputs : ∀ n, (plan'.operator n).groupOutputs = (mid.operator n).groupOutputs := by
    intro n
    obtain ⟨nested, same, _⟩ := reworked.rewired.operator n
    rw [same]
    cases mid.operator n <;> rfl
  intro n reached
  rw [outputs]
  by_cases inside : n ∈ layer
  · have plain := (reworked.fit n inside).plain
    generalize mid.operator n = op at plain ⊢
    cases op with
    | groupBy => exact plain.elim
    | _ => exact List.nodup_nil
  · have reachedN := (reworked.reaches_cases reached).resolve_left inside
    unfold Plan.operator
    rw [reworked.node inside]
    exact apart n reachedN

theorem Changed.groupsApart (changed : Changed slot plan plan') (apart : plan.GroupsApart) :
    plan'.GroupsApart := by
  cases changed with
  | redrawn redrawn => exact redrawn.groupsApart apart
  | reworked reworked redrawn => exact redrawn.groupsApart (reworked.groupsApart apart)

end Plan

namespace Session

variable {s s' x : Session} {id n : NodeId} {slot : Slot} {columns : NodeId → VarSet} {changed fired : Bool}

theorem Step.groupsApart (step : s.Step s') (ready : s.Ready) (apart : s.plan.GroupsApart) :
    s'.plan.GroupsApart := by
  cases step with
  | note sizes agrees =>
    have plan : s'.plan = s.plan := agrees.plan
    rw [plan]
    exact apart
  | @insert _ _ _ new node plan reached passes _ inserted =>
    intro n reached'
    replace reached' : plan.Reaches n := reached'
    change (plan.operator n).groupOutputs.Nodup
    rcases inserted.reaches_cases reached passes reached' with rfl | reachedN
    · rw [inserted.stands.operator]
      rcases passes with same | ⟨columns, same⟩ <;> rw [same] <;> exact List.nodup_nil
    · rw [inserted.operator n (inserted.ne_new ready.wellFormed reachedN)]
      exact apart n reachedN
  | remove holds here _ _ _ uncovers placed refreshed =>
    have reworked := Plan.drop_reworked ready.wellFormed holds here uncovers.feeds placed
    exact (Plan.refreshSchemas_only refreshed).redrawn.groupsApart (reworked.groupsApart apart)

theorem Moves.groupsApart {top : Option NodeId} (moves : Moves top s s') (ready : s.Ready)
    (apart : s.plan.GroupsApart) : s'.plan.GroupsApart :=
  (Relation.ReflTransGen.head_induction_on
    (motive := fun s _ => s.Ready → s.plan.GroupsApart → s'.plan.GroupsApart) moves.steps
    (fun _ apart => apart)
    fun step _ ih ready apart => ih (step.ready ready) (step.groupsApart ready apart)) ready apart

/-! ## Notes about facts -/

namespace Accurate

/-- A session without notes about a plan whose schemas were just computed. -/
theorem of_refreshed {plan : Plan} (wellFormed : plan.WellFormed) (has : plan.HasColumns columns)
    (refreshed : plan.refreshSchemas = .ok s.plan) (facts : s.context.facts = {}) : s.Accurate columns := by
  have only := Plan.refreshSchemas_only refreshed
  have unnoted : ∀ n known, s.context.facts.get? n ≠ some known := by
    intro n known noted
    rw [facts] at noted
    cases noted
  exact ⟨only.redrawn.wellFormed wellFormed, has.onlySchemas only,
    wellFormed.stores_refreshed has refreshed, fun n known noted => absurd noted (unnoted n known),
    fun n known _ noted => absurd noted (unnoted n known),
    fun n known _ noted => absurd noted (unnoted n known)⟩

variable (accurate : s.Accurate columns)

include accurate

/-- Schemas may be computed or lost. -/
theorem of_onlySchemas {plan : Plan} (only : s.plan.OnlySchemas plan) (stores : plan.Stores columns) :
    (s.withPlan plan).Accurate columns := by
  have regrouped := only.regrouped
  refine ⟨regrouped.redrawn.wellFormed accurate.wellFormed, accurate.has.onlySchemas only, stores,
    fun n facts noted => ?_, fun n facts reached noted => ?_, fun n facts reached noted c source => ?_⟩
  · exact (only.contains n).trans (accurate.present n facts noted)
  · exact (accurate.found n facts (only.reaches_iff.mp reached) noted).regrouped regrouped
      fun n _ _ => only.operator n
  · exact accurate.closed n facts (only.reaches_iff.mp reached) noted c (regrouped.sources n ▸ source)

theorem withSizes (sizes : NodeTable Size) : (s.withSizes sizes).Accurate columns :=
  ⟨accurate.wellFormed, accurate.has, accurate.stores, accurate.present, accurate.found, accurate.closed⟩

end Accurate

/-- If no side of a join changes, a choice loses schemas at most, and estimates sizes. -/
theorem Picks.onlySchemas (picks : s.Picks id s') (wellFormed : s.plan.WellFormed)
    (reached : s.plan.Reaches id) (same : s'.plan.inputs id = s.plan.inputs id) :
    ∃ plan, s.plan.OnlySchemas plan ∧ (∀ columns, s.plan.Stores columns → plan.Stores columns) ∧
      (s' = s.withPlan plan ∨
        ∃ input frames, input ∈ plan.inputs id ∧ (s.withPlan plan).frames? input = .ok (s', frames)) := by
  obtain ⟨plan, swapped, later⟩ := picks
  have unchanged := plan_of_estimated later
  have kept : s.plan.OnlySchemas plan ∧
      ∀ n, (plan.node n).schema = (s.plan.node n).schema ∨ (plan.node n).schema = none := by
    rcases swapped with rfl | ⟨swapped, condition, operator, _⟩
    · exact ⟨.refl _, fun _ => .inl rfl⟩
    · obtain ⟨a, b, sides⟩ := wellFormed.inputs_pair reached (by rw [operator]; rfl)
      obtain ⟨_, sides', _⟩ := Plan.Redrawn.swapInputs wellFormed reached sides swapped
      rw [unchanged, sides', sides] at same
      cases same
      exact Plan.onlySchemas_swapInputs wellFormed reached sides swapped
  obtain ⟨only, schemas⟩ := kept
  refine ⟨plan, only, fun columns stores n vs reachedN stored => ?_, later⟩
  refine stores n vs (only.reaches_iff.mp reachedN) ?_
  rw [Plan.schema_ok_iff] at stored ⊢
  rcases schemas n with kept | lost
  · exact kept ▸ stored
  · cases lost.symm.trans stored

/-! ## What is noted -/

/-- Whether everything that is noted can be found on the plan. -/
structure Coherent (s : Session) : Prop where
  accurate : ∃ columns, s.Accurate columns
  types : s.TypesFound
  sizes : s.SizesFound
  apart : s.plan.GroupsApart

namespace Coherent

theorem wellFormed (coherent : s.Coherent) : s.plan.WellFormed := by
  obtain ⟨columns, accurate⟩ := coherent.accurate
  exact accurate.wellFormed

/-- A session without notes about a plan whose schemas were just computed. -/
theorem of_refreshed {plan : Plan} (wellFormed : plan.WellFormed) (apart : plan.GroupsApart)
    (refreshed : plan.refreshSchemas = .ok s.plan) (facts : s.context.facts = {})
    (types : s.context.types = {}) (sizes : s.context.sizes = {}) : s.Coherent := by
  have none : ∀ {α : Type} {n : NodeId} {value : α}, ({} : NodeTable α).get? n ≠ some value := by
    intro α n value impossible
    cases impossible
  obtain ⟨columns, has⟩ := wellFormed.exists_columns
  refine ⟨⟨columns, .of_refreshed wellFormed has refreshed facts⟩, fun n env _ noted => ?_,
    fun n size _ noted => ?_, (Plan.refreshSchemas_only refreshed).redrawn.groupsApart apart⟩
  · rw [types] at noted
    exact absurd noted none
  · rw [sizes] at noted
    exact absurd noted none

variable (coherent : s.Coherent)

include coherent

/-- Notes about types and sizes are still found on a plan that was regrouped. -/
theorem of_regrouped (accurate : ∃ columns, s'.Accurate columns)
    (regrouped : s.plan.Regrouped s'.plan) (catalog : s'.context.catalog = s.context.catalog)
    (types : s'.context.types = s.context.types) (sizes : s'.context.sizes = s.context.sizes) :
    s'.Coherent where
  accurate := accurate
  types n env reached noted := by
    have reached := regrouped.redrawn.reaches_iff.mp reached
    rw [catalog]
    exact (coherent.types n env reached (types ▸ noted)).regrouped coherent.wellFormed coherent.apart
      regrouped reached
  sizes n size reached noted := by
    rw [catalog]
    exact (coherent.sizes n size (regrouped.redrawn.reaches_iff.mp reached) (sizes ▸ noted)).regrouped
      regrouped
  apart := regrouped.redrawn.groupsApart coherent.apart

theorem of_grows (accurate : s'.Accurate columns) (grows : s.Grows s' columns) :
    s'.Coherent := by
  have regrouped := grows.regrouped
  obtain ⟨plan, facts, rfl, _⟩ := grows.derives
  exact coherent.of_regrouped ⟨columns, accurate⟩ regrouped rfl rfl rfl

/-- Schemas may be computed or lost. -/
theorem of_onlySchemas {plan : Plan} (only : s.plan.OnlySchemas plan)
    (stores : ∀ columns, s.plan.HasColumns columns → s.plan.Stores columns → plan.Stores columns) :
    (s.withPlan plan).Coherent := by
  obtain ⟨columns, accurate⟩ := coherent.accurate
  exact coherent.of_regrouped
    ⟨columns, accurate.of_onlySchemas only (stores columns accurate.has accurate.stores)⟩ only.regrouped
    rfl rfl rfl

theorem refreshSchemas {plan : Plan}
    (refreshed : s.plan.refreshSchemas = .ok plan) : (s.withPlan plan).Coherent :=
  coherent.of_onlySchemas (Plan.refreshSchemas_only refreshed) fun _ has _ =>
    coherent.wellFormed.stores_refreshed has refreshed

theorem ensureFacts (reached : s.plan.Reaches id)
    (done : s.ensureFacts id = .ok s') : s'.Coherent := by
  obtain ⟨columns, accurate⟩ := coherent.accurate
  obtain ⟨accurate', grows, _⟩ := accurate.ensureFacts reached done
  exact coherent.of_grows accurate' grows

theorem inferTypes {env : TypeEnv} (reached : s.plan.Reaches id)
    (done : s.types id = .ok (s', env)) : s'.Coherent := by
  obtain ⟨retypes, _⟩ := coherent.types.typesWithin
    (fun _ => Plan.reaches_typeSource coherent.wellFormed) reached done
  obtain ⟨types, rfl⟩ := typesWithin_frame done
  obtain ⟨columns, accurate⟩ := coherent.accurate
  exact ⟨⟨columns, accurate.wellFormed, accurate.has, accurate.stores, accurate.present, accurate.found,
    accurate.closed⟩, retypes.found, coherent.sizes, coherent.apart⟩

theorem frames? {frames : Option Nat} (reached : s.plan.Reaches id)
    (done : s.frames? id = .ok (s', frames)) : s'.Coherent := by
  obtain ⟨⟨s₁, size⟩, estimated, done⟩ := bind_ok_iff.mp done
  cases pure_ok_iff.mp done
  obtain ⟨found, _⟩ := coherent.sizes.sizeWithin reached estimated
  obtain ⟨sizes, rfl⟩ := sizeWithin_frame estimated
  obtain ⟨columns, accurate⟩ := coherent.accurate
  exact ⟨⟨columns, accurate.withSizes sizes⟩, coherent.types, found, coherent.apart⟩

theorem inlineAt {vars : VarSet} (holds : s.plan.HoldsReachable slot)
    (done : s.inlineAt vars slot = .ok (s', false)) : s'.Coherent := by
  obtain ⟨columns, accurate⟩ := coherent.accurate
  have kept := inlineAt_ok (P := fun t => t.Accurate columns ∧ s.Grows t columns)
    ⟨accurate, .refl s columns⟩ (fun {id input} here member {t t' facts} known derived => by
      have reached := (holds.reaches here).input member
      have reached' := known.2.regrouped.redrawn.reaches_iff.mpr reached
      obtain ⟨accurate', grows, _⟩ := known.1.ensureFacts reached' (facts_ok derived).1
      exact ⟨accurate', known.2.trans grows⟩) done
  rcases kept with ⟨_, accurate', grows⟩ | ⟨impossible, _⟩
  · exact coherent.of_grows accurate' grows
  · cases impossible

/-- If no side of a join changes, a choice only derives something. -/
theorem picks (reached : s.plan.Reaches id) (picks : s.Picks id s')
    (same : s'.plan.inputs id = s.plan.inputs id) : s'.Coherent := by
  obtain ⟨plan, only, stores, later⟩ := picks.onlySchemas coherent.wellFormed reached same
  have coherent' := coherent.of_onlySchemas only fun columns _ => stores columns
  rcases later with rfl | ⟨input, frames, member, estimated⟩
  · exact coherent'
  · exact coherent'.frames? ((only.reaches_iff.mpr reached).input member) estimated

theorem choosePhysical {nodes : List NodeId} (holds : s.plan.HoldsReachable slot)
    (done : s.choosePhysical nodes slot = .ok (s', false)) : s'.Coherent := by
  obtain ⟨id, s₁, physical, here, ⟨s₂, derived, picks⟩, _, ⟨_, rfl, _, inputs⟩ | ⟨impossible, _⟩⟩ :=
    choosePhysical_cases done
  · have reached := holds.reaches here
    rcases derived with ⟨rfl, _⟩ | derived
    · exact coherent.picks reached picks inputs
    · have coherent₂ := coherent.ensureFacts reached derived
      obtain ⟨plan, facts, rfl, regrouped⟩ := ensureFacts_derives derived
      refine coherent₂.picks (regrouped.redrawn.reaches_iff.mpr reached) picks (inputs.trans ?_)
      exact (regrouped.inputs id).symm
  · cases impossible

/-- A rule that reports no change leaves everything coherent. -/
theorem learns (holds : s.plan.HoldsReachable slot) (learns : s.Learns slot s') :
    s'.Coherent := by
  cases learns with
  | nothing same => exact same ▸ coherent
  | types here done => exact coherent.inferTypes (holds.reaches here) done
  | facts done => exact coherent.inlineAt holds done
  | choice done => exact coherent.choosePhysical holds done

theorem agrees (agrees : s.Agrees s') : s'.Coherent := by
  obtain ⟨columns, accurate⟩ := coherent.accurate
  obtain ⟨plan, catalog, _, facts, types, sizes⟩ := agrees
  refine ⟨⟨columns, plan ▸ accurate.wellFormed, plan ▸ accurate.has, plan ▸ accurate.stores, ?_, ?_, ?_⟩,
    ?_, ?_, plan ▸ coherent.apart⟩
  · rw [plan, facts]
    exact accurate.present
  · rw [plan, facts, catalog]
    exact accurate.found
  · rw [plan, facts]
    exact accurate.closed
  · unfold TypesFound
    rw [plan, types, catalog]
    exact coherent.types
  · unfold SizesFound
    rw [plan, sizes, catalog]
    exact coherent.sizes

/-- Enforcement that reports no change leaves everything coherent. In any case the plan stays well
    formed. -/
theorem enforceLayouts (done : s.enforceLayouts = .ok (s', changed)) :
    s'.plan.WellFormed ∧ s'.plan.GroupsApart ∧ (changed = false → s'.Coherent) := by
  obtain ⟨columns, accurate⟩ := coherent.accurate
  rcases accurate.enforceLayouts done with ⟨rfl, _⟩ | ⟨s₁, fuel, _, _, accurate₁, grows, ready, done⟩
  · exact ⟨coherent.wellFormed, coherent.apart, fun _ => coherent⟩
  · have coherent₁ := coherent.of_grows accurate₁ grows
    obtain ⟨moves, kept⟩ := ready.moves_enforceWithin (fun _ impossible => by cases impossible) done
    exact ⟨(moves.ready ready).wellFormed, moves.groupsApart ready coherent₁.apart,
      fun same => coherent₁.agrees (kept same)⟩

end Coherent

end Session

end QueryOptimizer
