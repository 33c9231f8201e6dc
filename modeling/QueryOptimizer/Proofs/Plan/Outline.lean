import Mathlib
import QueryOptimizer.Proofs.Outcome
import QueryOptimizer.Proofs.Plan.Graph

/-! # Outlines of plans

The outline of a plan shows what is computed, without the operators that only move or sort tuples.
-/

namespace QueryOptimizer

/-- An operator with its algorithm and mode, over the outlines of its inputs and nested plans. -/
inductive Outline where
  | node (operator : Operator) (physical : Option Physical) (mode : Mode) (inputs : List Outline)
      (nested : List (List Outline))

namespace Outline

def operator : Outline → Operator
  | node operator .. => operator

def inputs : Outline → List Outline
  | node _ _ _ inputs _ => inputs

end Outline

namespace Plan

variable {plan plan' : Plan} {n c c' : NodeId} {fuel : Nat} {outline outline' : Outline}

/-- The input of a node that is left out: an exchange, an order that keeps all tuples, or a project to
    exactly the schema of its input. -/
def below? (plan : Plan) (n : NodeId) : Option NodeId :=
  match plan.operator n with
  | .exchange | .order _ none => (plan.inputs n)[0]?
  | .project vars => (plan.inputs n)[0]?.filter fun c => decide ((plan.node c).schema = some vars)
  | _ => none

/-- The outline of a node, if its paths are not too long. -/
def outlineWithin (plan : Plan) : Nat → NodeId → Option Outline
  | 0, _ => none
  | fuel + 1, n =>
    match plan.below? n with
    | some c => plan.outlineWithin fuel c
    | none => do
        let inputs ← (plan.inputs n).mapM (plan.outlineWithin fuel)
        let nested ← (plan.operator n).nested.mapM fun roots => roots.mapM (plan.outlineWithin fuel)
        return .node ((plan.operator n).mapNested fun _ => []) (plan.node n).physical (plan.mode n)
          inputs nested

/-- The outline of a plan. -/
def outline? (plan : Plan) : Option Outline := plan.outlineWithin (plan.nodes.length + 1) plan.root

theorem outlineWithin_of_below? (skips : plan.below? n = some c) :
    plan.outlineWithin (fuel + 1) n = plan.outlineWithin fuel c := by
  rw [outlineWithin, skips]

theorem outlineWithin_some_iff (stays : plan.below? n = none) :
    plan.outlineWithin (fuel + 1) n = some outline ↔ ∃ inputs nested,
      List.Forall₂ (fun c t => plan.outlineWithin fuel c = some t) (plan.inputs n) inputs ∧
      List.Forall₂ (List.Forall₂ fun c t => plan.outlineWithin fuel c = some t)
        (plan.operator n).nested nested ∧
      outline = .node ((plan.operator n).mapNested fun _ => []) (plan.node n).physical (plan.mode n)
        inputs nested := by
  rw [outlineWithin, stays]
  simp only [bind, Option.bind_eq_some_iff, mapM_some_iff_forall₂, pure, Option.some.injEq]
  constructor
  · rintro ⟨inputs, fromInputs, nested, fromNested, rfl⟩
    exact ⟨inputs, nested, fromInputs, fromNested, rfl⟩
  · rintro ⟨inputs, nested, fromInputs, fromNested, rfl⟩
    exact ⟨inputs, fromInputs, nested, fromNested, rfl⟩

theorem outlineWithin_succ (found : plan.outlineWithin fuel n = some outline) :
    plan.outlineWithin (fuel + 1) n = some outline := by
  induction fuel generalizing n outline with
  | zero => cases found
  | succ fuel ih =>
    cases skips : plan.below? n with
    | some c =>
      rw [outlineWithin_of_below? skips] at found ⊢
      exact ih found
    | none =>
      obtain ⟨inputs, nested, fromInputs, fromNested, rfl⟩ := (outlineWithin_some_iff skips).mp found
      exact (outlineWithin_some_iff skips).mpr ⟨inputs, nested, fromInputs.imp fun _ _ => ih,
        fromNested.imp fun _ _ roots => roots.imp fun _ _ => ih, rfl⟩

theorem outlineWithin_mono {more : Nat} (enough : fuel ≤ more)
    (found : plan.outlineWithin fuel n = some outline) : plan.outlineWithin more n = some outline := by
  induction enough with
  | refl => exact found
  | step _ ih => exact outlineWithin_succ ih

/-- Whether a node has an outline. -/
def HasOutline (plan : Plan) (n : NodeId) (outline : Outline) : Prop :=
  ∃ fuel, plan.outlineWithin fuel n = some outline

namespace HasOutline

theorem unique (first : plan.HasOutline n outline) (second : plan.HasOutline n outline') :
    outline = outline' := by
  obtain ⟨fuel, found⟩ := first
  obtain ⟨fuel', found'⟩ := second
  have found := outlineWithin_mono (Nat.le_max_left fuel fuel') found
  have found' := outlineWithin_mono (Nat.le_max_right fuel fuel') found'
  exact Option.some.inj (found.symm.trans found')

theorem of_below? (skips : plan.below? n = some c) (has : plan.HasOutline c outline) :
    plan.HasOutline n outline := by
  obtain ⟨fuel, found⟩ := has
  exact ⟨fuel + 1, (outlineWithin_of_below? skips).trans found⟩

end HasOutline

/-- A bound that is large enough for one node after the other is large enough for all. -/
theorem exists_bound {α β : Type} {P : Nat → α → β → Prop} {as : List α} {bs : List β}
    (mono : ∀ {k m a b}, k ≤ m → P k a b → P m a b) (each : List.Forall₂ (fun a b => ∃ k, P k a b) as bs) :
    ∃ k, List.Forall₂ (P k) as bs := by
  induction each with
  | nil => exact ⟨0, .nil⟩
  | cons first _ ih =>
    obtain ⟨k, first⟩ := first
    obtain ⟨m, rest⟩ := ih
    exact ⟨max k m, .cons (mono (Nat.le_max_left k m) first)
      (rest.imp fun _ _ => mono (Nat.le_max_right k m))⟩

theorem HasOutline.exists_bound {ids : List NodeId} {outlines : List Outline}
    (each : List.Forall₂ plan.HasOutline ids outlines) :
    ∃ k, List.Forall₂ (fun c t => plan.outlineWithin k c = some t) ids outlines :=
  Plan.exists_bound (P := fun k c t => plan.outlineWithin k c = some t) outlineWithin_mono each

theorem HasOutline.of_children {inputs : List Outline} {nested : List (List Outline)}
    (stays : plan.below? n = none)
    (fromInputs : List.Forall₂ plan.HasOutline (plan.inputs n) inputs)
    (fromNested : List.Forall₂ (List.Forall₂ plan.HasOutline) (plan.operator n).nested nested) :
    plan.HasOutline n (.node ((plan.operator n).mapNested fun _ => []) (plan.node n).physical (plan.mode n)
      inputs nested) := by
  obtain ⟨k, fromInputs⟩ := exists_bound fromInputs
  obtain ⟨m, fromNested⟩ := Plan.exists_bound (P := fun m => List.Forall₂ fun c t =>
      plan.outlineWithin m c = some t) (fun enough roots => roots.imp fun _ _ => outlineWithin_mono enough)
    (fromNested.imp fun _ _ => exists_bound)
  refine ⟨max k m + 1, (outlineWithin_some_iff stays).mpr ⟨inputs, nested, ?_, ?_, rfl⟩⟩
  · exact fromInputs.imp fun _ _ => outlineWithin_mono (Nat.le_max_left k m)
  · exact fromNested.imp fun _ _ roots => roots.imp fun _ _ => outlineWithin_mono (Nat.le_max_right k m)

theorem mem_inputs_of_below? (skips : plan.below? n = some c) : c ∈ plan.inputs n := by
  unfold below? at skips
  split at skips
  · exact List.mem_of_getElem? skips
  · exact List.mem_of_getElem? skips
  · exact List.mem_of_getElem? (Option.filter_eq_some_iff.mp skips).1
  · cases skips

theorem forall₂_of_forall_mem {α β : Type} {P : α → β → Prop} {as : List α}
    (each : ∀ a ∈ as, ∃ b, P a b) : ∃ bs, List.Forall₂ P as bs := by
  induction as with
  | nil => exact ⟨[], .nil⟩
  | cons a as ih =>
    obtain ⟨b, first⟩ := each a List.mem_cons_self
    obtain ⟨bs, rest⟩ := ih fun a member => each a (List.mem_cons_of_mem _ member)
    exact ⟨b :: bs, .cons first rest⟩

/-- Reachable nodes of a plan without cycles have outlines. -/
theorem RankedBy.exists_outline {rank : NodeId → Nat} (falls : plan.RankedBy rank)
    (reached : plan.Reaches n) (enough : rank n < fuel) : ∃ outline, plan.outlineWithin fuel n = some outline := by
  induction fuel generalizing n with
  | zero => omega
  | succ fuel ih =>
    have child : ∀ c ∈ plan.children n, ∃ outline, plan.outlineWithin fuel c = some outline := by
      intro c member
      have lower := falls n reached c (mem_sources_of_child member)
      exact ih (reached.child member) (by omega)
    cases skips : plan.below? n with
    | some c =>
      rw [outlineWithin_of_below? skips]
      exact child c (List.mem_append_left _ (mem_inputs_of_below? skips))
    | none =>
      obtain ⟨inputs, fromInputs⟩ := forall₂_of_forall_mem fun c member =>
        child c (List.mem_append_left _ member)
      obtain ⟨nested, fromNested⟩ := forall₂_of_forall_mem fun roots (listed : roots ∈ _) =>
        forall₂_of_forall_mem fun c member =>
          child c (List.mem_append_right _ (List.mem_flatten_of_mem listed member))
      exact ⟨_, (outlineWithin_some_iff skips).mpr ⟨inputs, nested, fromInputs, fromNested, rfl⟩⟩

theorem WellFormed.outline?_eq_some_iff (wellFormed : plan.WellFormed) :
    plan.outline? = some outline ↔ plan.HasOutline plan.root outline := by
  refine ⟨fun found => ⟨_, found⟩, fun has => ?_⟩
  obtain ⟨rank, falls, low⟩ := wellFormed.exists_height
  obtain ⟨outline', found⟩ := falls.exists_outline .refl (Nat.lt_succ_of_le (low plan.root))
  rw [has.unique ⟨_, found⟩]
  exact found

theorem WellFormed.exists_outline (wellFormed : plan.WellFormed) (reached : plan.Reaches n) :
    ∃ outline, plan.HasOutline n outline := by
  obtain ⟨rank, falls, _⟩ := wellFormed.exists_height
  obtain ⟨outline, found⟩ := falls.exists_outline reached (Nat.lt_succ_self _)
  exact ⟨outline, _, found⟩

end Plan

end QueryOptimizer
