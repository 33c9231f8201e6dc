import Mathlib
import QueryOptimizer.Proofs.Plan.Refresh

/-! # Local changes of plans

A rule changes a few nodes at and below the node of its slot, adds some, and puts one of them into
the slot. The nodes that it changes or adds form a layer between what is below, which stays, and the
slot. A plan stays well formed under such a change, and the schemas of what is below stay too.
-/

namespace QueryOptimizer.Plan

variable {plan mid plan' : Plan} {slot : Slot} {old new n m b owner : NodeId}
  {layer base : List NodeId} {rank : NodeId → Nat}

/-- Whether a node gets tuples of another one, through inputs alone. -/
def Feeds (plan : Plan) : NodeId → NodeId → Prop :=
  Relation.TransGen fun parent input => input ∈ plan.inputs parent

theorem Feeds.reads (feeds : plan.Feeds n m) (reads : plan.Reads owner m) : plan.Reads owner n := by
  induction feeds with
  | single member => exact .input member reads
  | tail _ member ih => exact ih (.input member reads)

theorem Feeds.reaches (feeds : plan.Feeds n m) (reached : plan.Reaches n) : plan.Reaches m := by
  induction feeds with
  | single member => exact reached.input member
  | tail _ member ih => exact ih.input member

theorem RankedBy.feeds (falls : plan.RankedBy rank) (reached : plan.Reaches n)
    (feeds : plan.Feeds n m) : rank m < rank n := by
  induction feeds with
  | single member => exact falls n reached _ (mem_sources_of_input member)
  | tail earlier member ih =>
    exact (falls _ (Feeds.reaches earlier reached) _ (mem_sources_of_input member)).trans ih

/-- What a changed or added node has to be like. -/
structure Fit (plan : Plan) (n : NodeId) : Prop where
  present : plan.contains n = true
  numbered : (plan.node n).inputs.map (·.1) = List.range (plan.node n).inputs.length
  arity : (plan.inputs n).length = (plan.operator n).arity
  plain : (plan.operator n).IsPlain

/-- A plan in which the nodes of a layer were changed or added. The nodes of the layer are listed
    from below, `base` is what they stand on. -/
structure Reworks (plan : Plan) (old new : NodeId) (layer base : List NodeId) (mid : Plan) : Prop where
  root : mid.root = plan.root
  tidy : mid.Tidy
  others : ∀ n, n ∉ layer → mid.node? n = plan.node? n
  /-- The base was below the old node, and below what was changed. -/
  under : ∀ b ∈ base, plan.Feeds old b
  changed : ∀ n ∈ layer, plan.contains n = true →
    (n = old ∨ plan.Feeds old n) ∧ (∀ b ∈ base, plan.Feeds n b) ∧ plan.nestedRoots n = []
  fit : ∀ n ∈ layer, mid.Fit n
  inputs : ∀ n ∈ layer, ∀ c ∈ mid.inputs n, c ∈ base ∨ c ∈ layer ∧ layer.idxOf c < layer.idxOf n
  /-- Nothing but the new node is left without a parent. -/
  covers : ∀ n, n ∈ layer ∨ n ∈ base → n = new ∨ ∃ parent ∈ layer, n ∈ mid.inputs parent
  inside : new ∈ layer ∨ new ∈ base

/-- The nodes below a layer, nested sources and what they pass on included. -/
def Foundation (plan : Plan) (base : List NodeId) (n : NodeId) : Prop :=
  ∃ b ∈ base, Relation.ReflTransGen (fun m c => c ∈ plan.sources m) b n

theorem Foundation.source (below : plan.Foundation base n) {c : NodeId} (source : c ∈ plan.sources n) :
    plan.Foundation base c := by
  obtain ⟨b, member, path⟩ := below
  exact ⟨b, member, path.tail source⟩

theorem Foundation.of_mem (member : b ∈ base) : plan.Foundation base b := ⟨b, member, .refl⟩

/-- The node that holds a slot can be reached. -/
def HoldsReachable (plan : Plan) (slot : Slot) : Prop :=
  ∀ holder, slot.holder? = some holder → plan.Reaches holder

theorem mem_children_of_nodeAt (here : plan.nodeAt slot = .ok old) {holder : NodeId}
    (holds : slot.holder? = some holder) : old ∈ plan.children holder := by
  cases slot with
  | root => cases holds
  | input parent index =>
    cases holds
    exact List.mem_append_left _ (List.mem_of_getElem? (input_ok_iff.mp here))
  | nestedRoot owner p index =>
    cases holds
    obtain ⟨roots, atPlan, atIndex⟩ := Option.bind_eq_some_iff.mp (nodeAt_nestedRoot_ok_iff.mp here)
    exact List.mem_append_right _ (List.mem_flatten.mpr
      ⟨roots, List.mem_of_getElem? atPlan, List.mem_of_getElem? atIndex⟩)

theorem HoldsReachable.reaches (holds : plan.HoldsReachable slot) (here : plan.nodeAt slot = .ok old) :
    plan.Reaches old := by
  cases held : slot.holder? with
  | some holder => exact (holds holder held).child (mem_children_of_nodeAt here held)
  | none =>
    cases slot with
    | root => cases here; exact .refl
    | _ => cases held

theorem Rewired.same (here : plan.nodeAt slot = .ok old) : plan.Rewired slot old old plan where
  here := here
  elsewhere _ _ _ := Iff.rfl
  root := .refl _ _ _
  sameRoot _ := rfl
  others _ _ := rfl
  inputs n := forall₂_replaces_self _ _ (plan.inputs n)
  positions _ := rfl
  operator n := .refl _ _ (plan.operator n)
  physical _ := rfl
  mode _ := rfl
  schema _ := .inl rfl
  contains _ := rfl
  tidy tidy := tidy

theorem Rewired.child_kept (rewired : plan.Rewired slot old new plan') (member : m ∈ plan.children n)
    (different : m ≠ old) : m ∈ plan'.children n := by
  rcases List.mem_append.mp member with isInput | isRoot
  · obtain ⟨y, kept, rfl | ⟨same, _⟩⟩ := exists_replacing (rewired.inputs n) isInput
    · exact List.mem_append_left _ kept
    · exact absurd same different
  · obtain ⟨y, kept, rfl | ⟨same, _⟩⟩ := exists_replacing (rewired.nestedRoots n) isRoot
    · exact List.mem_append_right _ kept
    · exact absurd same different

namespace Reworks

variable (reworks : plan.Reworks old new layer base mid)

include reworks

theorem node (outside : n ∉ layer) : mid.node n = plan.node n :=
  node_eq_of_node?_eq (reworks.others n outside)

section Ranks

variable (wellFormed : plan.WellFormed) (falls : plan.RankedBy rank) (reached : plan.Reaches old)

include wellFormed falls reached

/-- What is above the old node is not in the layer. -/
theorem not_mem_of_lt (reached' : plan.Reaches n) (above : rank old < rank n) : n ∉ layer := by
  intro member
  rcases (reworks.changed n member (wellFormed.present n reached')).1 with rfl | feeds
  · exact Nat.lt_irrefl _ above
  · exact Nat.lt_asymm above (falls.feeds reached feeds)

/-- What is below the layer is reachable, and not in the layer. -/
theorem foundation_lower (below : plan.Foundation base n) :
    plan.Reaches n ∧ rank n < rank old ∧ n ∉ layer := by
  obtain ⟨b, member, path⟩ := below
  have reachedBase : plan.Reaches b := (reworks.under b member).reaches reached
  have lower : plan.Reaches n ∧ rank n ≤ rank b := by
    induction path with
    | refl => exact ⟨reachedBase, le_rfl⟩
    | tail _ source ih =>
      exact ⟨wellFormed.reaches_source ih.1 source, (falls _ ih.1 _ source).le.trans ih.2⟩
  have belowOld := falls.feeds reached (reworks.under b member)
  refine ⟨lower.1, by omega, fun inLayer => ?_⟩
  have present := wellFormed.present n lower.1
  have fed := (reworks.changed n inLayer present).2.1 b member
  have := falls.feeds lower.1 fed
  omega

end Ranks

variable (wellFormed : plan.WellFormed) (holds : plan.HoldsReachable slot)
  (here : plan.nodeAt slot = .ok old)

include wellFormed holds here

theorem holder_not_mem {holder : NodeId} (held : slot.holder? = some holder) : holder ∉ layer := by
  obtain ⟨rank, falls⟩ := wellFormed.acyclic
  have reachedHolder := holds holder held
  exact reworks.not_mem_of_lt wellFormed falls (holds.reaches here) reachedHolder
    (falls holder reachedHolder old (mem_sources_of_child (mem_children_of_nodeAt here held)))

theorem nodeAt_mid : mid.nodeAt slot = .ok old := by
  refine (nodeAt_congr reworks.root fun holder held => ?_).mpr here
  unfold Plan.inputs Plan.operator
  rw [reworks.node (reworks.holder_not_mem wellFormed holds here held)]
  exact ⟨rfl, rfl⟩

theorem rewired (done : mid.setSlot slot new = .ok plan') : mid.Rewired slot old new plan' := by
  refine setSlot_rewired (fun parent index held => ?_)
    (reworks.nodeAt_mid wellFormed holds here) done
  subst held
  rw [reworks.node (reworks.holder_not_mem wellFormed holds here rfl)]
  exact wellFormed.numbered parent (holds parent rfl)

end Reworks

/-! ## Well-formedness -/

/-- A well-formed plan in which a layer was changed, and then the slot. -/
structure Reworked (plan : Plan) (slot : Slot) (old new : NodeId) (layer base : List NodeId)
    (mid plan' : Plan) : Prop extends Reworks plan old new layer base mid where
  before : plan.WellFormed
  holds : plan.HoldsReachable slot
  here : plan.nodeAt slot = .ok old
  rewired : mid.Rewired slot old new plan'

namespace Reworked

variable (reworked : plan.Reworked slot old new layer base mid plan')

include reworked

theorem reaches_old : plan.Reaches old := reworked.holds.reaches reworked.here

theorem holder_not_mem {holder : NodeId} (held : slot.holder? = some holder) : holder ∉ layer :=
  reworked.toReworks.holder_not_mem reworked.before reworked.holds reworked.here held

theorem lower (falls : plan.RankedBy rank) (below : plan.Foundation base n) :
    plan.Reaches n ∧ rank n < rank old ∧ n ∉ layer :=
  reworked.foundation_lower reworked.before falls reworked.reaches_old below

theorem base_not_mem (member : b ∈ base) : b ∉ layer := by
  obtain ⟨rank, falls⟩ := reworked.before.acyclic
  exact (reworked.lower falls (.of_mem member)).2.2

theorem reaches_base (member : b ∈ base) : plan.Reaches b :=
  (reworked.under b member).reaches reworked.reaches_old

/-- Only the holder of the slot is changed outside of the layer. -/
theorem final_node (outside : n ∉ layer) (other : slot.holder? ≠ some n) :
    plan'.node n = plan.node n :=
  (reworked.rewired.others n other).trans (reworked.node outside)

theorem final_layer (member : n ∈ layer) : plan'.node n = mid.node n :=
  reworked.rewired.others n fun held => reworked.holder_not_mem held member

/-- The children of a node outside of the layer are those that it had, up to the slot. -/
theorem child_cases (outside : n ∉ layer) {c : NodeId} (member : c ∈ plan'.children n) :
    c ∈ plan.children n ∨ slot.holder? = some n ∧ old ∈ plan.children n ∧ c = new := by
  have same := children_congr (reworked.node outside)
  rcases reworked.rewired.child member with kept | ⟨held, had, isNew⟩
  · exact .inl (same ▸ kept)
  · exact .inr ⟨held, same ▸ had, isNew⟩

theorem layer_children (member : n ∈ layer) :
    plan'.children n = mid.inputs n ∧ plan'.nestedRoots n = [] ∧
      ∀ owner, plan'.operator n ≠ .nestedSource owner := by
  have same := reworked.final_layer member
  obtain ⟨noRoots, noSource⟩ := (reworked.fit n member).plain.simple
  have roots : plan'.nestedRoots n = [] := (nestedRoots_congr same).trans noRoots
  refine ⟨?_, roots, fun owner operator => noSource owner ?_⟩
  · rw [children, roots, List.append_nil, inputs_congr same]
  · exact (congrArg Node.operator same).symm.trans operator

/-- What can be reached afterwards is in the layer, or could be reached before. -/
theorem reaches_cases (reached : plan'.Reaches n) : n ∈ layer ∨ plan.Reaches n := by
  have newReached : new ∈ layer ∨ plan.Reaches new :=
    reworked.inside.imp_right reworked.reaches_base
  refine Below.of_closed (P := fun n => n ∈ layer ∨ plan.Reaches n) ?_ ?_ reached
  · rcases reworked.rewired.root with kept | ⟨_, replaced⟩
    · rw [kept, reworked.root]
      exact .inr .refl
    · exact replaced ▸ newReached
  · intro parent known child member
    by_cases inLayer : parent ∈ layer
    · rw [(reworked.layer_children inLayer).1] at member
      rcases reworked.inputs parent inLayer child member with isBase | ⟨isLayer, _⟩
      · exact .inr (reworked.reaches_base isBase)
      · exact .inl isLayer
    · have reachedParent := known.resolve_left inLayer
      rcases reworked.child_cases inLayer member with kept | ⟨_, _, rfl⟩
      · exact .inr (reachedParent.child kept)
      · exact newReached

/-- The first input of an owner is what it was, up to the slot. -/
theorem owner_input (outside : owner ∉ layer) {c : NodeId}
    (found : (plan'.inputs owner)[0]? = some c) :
    (plan.inputs owner)[0]? = some c ∨ (plan.inputs owner)[0]? = some old ∧ c = new := by
  have same := inputs_congr (reworked.node outside)
  obtain ⟨x, before, rfl | ⟨rfl, rfl⟩⟩ := getElem?_replacing (reworked.rewired.inputs owner) found
  · exact .inl (same ▸ before)
  · exact .inr ⟨same ▸ before, rfl⟩

theorem operator_source (outside : n ∉ layer)
    (operator : plan'.operator n = .nestedSource owner) : plan.operator n = .nestedSource owner := by
  have before := reworked.rewired.nestedSource_iff.mp operator
  unfold Plan.operator at before ⊢
  rwa [reworked.node outside] at before

/-- An owner of reachable nested sources is not in the layer. -/
theorem owner_not_mem (reached : plan.Reaches n)
    (operator : plan.operator n = .nestedSource owner) : owner ∉ layer := by
  obtain ⟨reachedOwner, nested⟩ := reworked.before.reaches_of_reads reached (.source operator)
  have present := reworked.before.present owner reachedOwner
  exact fun member => nested (reworked.changed owner member present).2.2

/-- The sources of a node outside of the layer are those that it had, up to the slot. -/
theorem source_cases (outside : n ∉ layer) (reached : plan.Reaches n) {c : NodeId}
    (source : c ∈ plan'.sources n) : c ∈ plan.sources n ∨ old ∈ plan.sources n ∧ c = new := by
  rcases mem_sources_iff.mp source with child | ⟨owner, operator, found⟩
  · rcases reworked.child_cases outside child with kept | ⟨_, had, isNew⟩
    · exact .inl (mem_sources_of_child kept)
    · exact .inr ⟨mem_sources_of_child had, isNew⟩
  · have operator := reworked.operator_source outside operator
    have outside' := reworked.owner_not_mem reached operator
    rcases reworked.owner_input outside' found with kept | ⟨had, isNew⟩
    · exact .inl (mem_sources_iff.mpr (.inr ⟨owner, operator, kept⟩))
    · exact .inr ⟨mem_sources_iff.mpr (.inr ⟨owner, operator, had⟩), isNew⟩

/-- The ranks of what is below stay. The layer comes above it, and everything else above the
    layer. -/
theorem acyclic : ∃ rank, plan'.RankedBy rank := by
  classical
  obtain ⟨rank, falls⟩ := reworked.before.acyclic
  have lower : ∀ {n}, plan.Foundation base n → plan.Reaches n ∧ rank n < rank old ∧ n ∉ layer :=
    reworked.lower falls
  let rank' : NodeId → Nat := fun n =>
    if plan.Foundation base n then rank n
    else if n ∈ layer then rank old + layer.idxOf n
    else rank old + layer.length + rank n
  have atFoundation : ∀ {n}, plan.Foundation base n → rank' n = rank n := fun below => if_pos below
  have atLayer : ∀ {n}, n ∈ layer → rank' n = rank old + layer.idxOf n := by
    intro n member
    have above : ¬ plan.Foundation base n := fun below => (lower below).2.2 member
    simp only [rank', if_neg above, if_pos member]
  have elsewhere : ∀ {n}, ¬ plan.Foundation base n → n ∉ layer →
      rank' n = rank old + layer.length + rank n := by
    intro n above outside
    simp only [rank', if_neg above, if_neg outside]
  have layerOrLower : ∀ {n}, n ∈ layer ∨ n ∈ base → rank' n < rank old + layer.length := by
    rintro n (isLayer | isBase)
    · rw [atLayer isLayer]
      have := List.idxOf_lt_length_iff.mpr isLayer
      omega
    · have below : plan.Foundation base n := .of_mem isBase
      rw [atFoundation below]
      have := (lower below).2.1
      omega
  refine ⟨rank', fun n reached c source => ?_⟩
  by_cases below : plan.Foundation base n
  · obtain ⟨reachedN, lowerN, outside⟩ := lower below
    rcases reworked.source_cases outside reachedN source with kept | ⟨had, _⟩
    · rw [atFoundation below, atFoundation (below.source kept)]
      exact falls n reachedN c kept
    · have := falls n reachedN old had
      omega
  · by_cases isLayer : n ∈ layer
    · obtain ⟨children, _, noSource⟩ := reworked.layer_children isLayer
      have child : c ∈ plan'.children n := (mem_sources_iff.mp source).resolve_right
        fun ⟨owner, operator, _⟩ => noSource owner operator
      rw [children] at child
      rw [atLayer isLayer]
      rcases reworked.inputs n isLayer c child with isBase | ⟨inLayer, earlier⟩
      · have belowC : plan.Foundation base c := .of_mem isBase
        rw [atFoundation belowC]
        have := (lower belowC).2.1
        omega
      · rw [atLayer inLayer]
        omega
    · have reachedN := (reworked.reaches_cases reached).resolve_left isLayer
      rw [elsewhere below isLayer]
      rcases reworked.source_cases isLayer reachedN source with kept | ⟨_, rfl⟩
      · have falling := falls n reachedN c kept
        by_cases belowC : plan.Foundation base c
        · rw [atFoundation belowC]
          omega
        · by_cases layerC : c ∈ layer
          · have := layerOrLower (.inl layerC)
            omega
          · rw [elsewhere belowC layerC]
            omega
      · have := layerOrLower reworked.inside
        omega

/-- The layer reads what the base reads, all else what it read before. -/
theorem reads_cases (reads : plan'.Reads owner n) :
    (n ∈ layer → ∃ b ∈ base, plan.Reads owner b) ∧
      (n ∉ layer → plan.Reaches n → plan.Reads owner n) := by
  have oldReads : ∀ b ∈ base, plan.Reads owner b → plan.Reads owner old := fun b member reads =>
    (reworked.under b member).reads reads
  have baseReads : ∀ b ∈ base,
      (b ∉ layer → plan.Reaches b → plan.Reads owner b) → plan.Reads owner b := fun b member ih =>
    ih (reworked.base_not_mem member) (reworked.reaches_base member)
  induction reads with
  | @source n operator =>
    refine ⟨fun member => ?_, fun outside _ =>
      .source (reworked.operator_source outside operator)⟩
    exact absurd operator ((reworked.layer_children member).2.2 owner)
  | @input n c member reads ih =>
    have child : c ∈ plan'.children n := List.mem_append_left _ member
    refine ⟨fun isLayer => ?_, fun outside reached => ?_⟩
    · rw [(reworked.layer_children isLayer).1] at child
      rcases reworked.inputs n isLayer c child with isBase | ⟨inLayer, _⟩
      · exact ⟨c, isBase, baseReads c isBase ih.2⟩
      · exact ih.1 inLayer
    · have same := inputs_congr (reworked.node outside)
      obtain ⟨x, had, replaced⟩ := exists_replaced (reworked.rewired.inputs n) member
      rw [same] at had
      refine .input had ?_
      rcases replaced with rfl | ⟨rfl, rfl⟩
      · by_cases isLayer : c ∈ layer
        · obtain ⟨b, isBase, reads⟩ := ih.1 isLayer
          have present := reworked.before.present c (reached.input had)
          exact ((reworked.changed c isLayer present).2.1 b isBase).reads reads
        · exact ih.2 isLayer (reached.input had)
      · rcases reworked.inside with isLayer | isBase
        · obtain ⟨b, isBase, reads⟩ := ih.1 isLayer
          exact oldReads b isBase reads
        · exact oldReads c isBase (baseReads c isBase ih.2)

/-- What stands in the place of a node reads no more than the node. -/
theorem reads_replaced (reached : plan.Reaches n) (replaced : Replaces old new n m)
    (reads : plan'.Reads owner m) : plan.Reads owner n := by
  have cases' := reworked.reads_cases reads
  rcases replaced with rfl | ⟨rfl, rfl⟩
  · by_cases isLayer : m ∈ layer
    · obtain ⟨b, isBase, reads⟩ := cases'.1 isLayer
      have present := reworked.before.present m reached
      exact ((reworked.changed m isLayer present).2.1 b isBase).reads reads
    · exact cases'.2 isLayer reached
  · rcases reworked.inside with isLayer | isBase
    · obtain ⟨b, isBase, reads⟩ := cases'.1 isLayer
      exact (reworked.under b isBase).reads reads
    · exact (reworked.under m isBase).reads
        (cases'.2 (reworked.base_not_mem isBase) (reworked.reaches_base isBase))

theorem wellFormed : plan'.WellFormed where
  tidy := reworked.rewired.tidy reworked.tidy
  present n reached := by
    rw [reworked.rewired.contains]
    by_cases isLayer : n ∈ layer
    · exact (reworked.fit n isLayer).present
    · unfold contains
      rw [reworked.others n isLayer]
      exact reworked.before.present n
        ((reworked.reaches_cases reached).resolve_left isLayer)
  numbered n reached := by
    have positions := reworked.rewired.positions n
    have length := congrArg List.length positions
    simp only [List.length_map] at length
    rw [positions, length]
    by_cases isLayer : n ∈ layer
    · exact (reworked.fit n isLayer).numbered
    · rw [reworked.node isLayer]
      exact reworked.before.numbered n
        ((reworked.reaches_cases reached).resolve_left isLayer)
  arity n reached := by
    have same : (mid.inputs n).length = (mid.operator n).arity := by
      by_cases isLayer : n ∈ layer
      · exact (reworked.fit n isLayer).arity
      · unfold inputs operator
        rw [reworked.node isLayer]
        exact reworked.before.arity n
          ((reworked.reaches_cases reached).resolve_left isLayer)
    rw [← (reworked.rewired.inputs n).length_eq, same]
    obtain ⟨nested, changed, _⟩ := reworked.rewired.operator n
    rw [changed]
    cases mid.operator n <;> rfl
  acyclic := reworked.acyclic
  top owner reads := by
    refine reworked.before.top owner (reworked.reads_replaced .refl ?_ reads)
    rw [← reworked.root]
    exact reworked.rewired.root
  innermost n r owner reached isRoot reads := by
    by_cases isLayer : n ∈ layer
    · rw [(reworked.layer_children isLayer).2.1] at isRoot
      cases isRoot
    · have reachedN := (reworked.reaches_cases reached).resolve_left isLayer
      obtain ⟨x, had, replaced⟩ := exists_replaced (reworked.rewired.nestedRoots n) isRoot
      have same := nestedRoots_congr (reworked.node isLayer)
      rw [same] at had
      exact reworked.before.innermost n x owner reachedN had
        (reworked.reads_replaced (reachedN.nestedRoot had) replaced reads)

/-! ## What is below the layer -/

/-- The nodes above the old one can still be reached. -/
theorem reaches_above (falls : plan.RankedBy rank) (reached : plan.Reaches n)
    (above : rank old < rank n) : plan'.Reaches n := by
  induction reached with
  | refl =>
    have other : slot ≠ .root := by
      rintro rfl
      cases reworked.here
      exact Nat.lt_irrefl _ above
    have root := (reworked.rewired.sameRoot other).trans reworked.root
    exact root ▸ .refl
  | @tail parent n reached member ih =>
    have lower := falls parent reached n (mem_sources_of_child member)
    have higher : rank old < rank parent := above.trans lower
    have outside := reworked.not_mem_of_lt reworked.before falls reworked.reaches_old reached higher
    have different : n ≠ old := by
      rintro rfl
      exact Nat.lt_irrefl _ above
    refine (ih higher).child ?_
    rw [← children_congr (reworked.node outside)] at member
    exact reworked.rewired.child_kept member different

theorem reaches_new : plan'.Reaches new := by
  obtain ⟨rank, falls⟩ := reworked.before.acyclic
  have holds : plan'.HoldsReachable slot := by
    intro holder held
    have reached := reworked.holds holder held
    exact reworked.reaches_above falls reached (falls holder reached old
      (mem_sources_of_child (mem_children_of_nodeAt reworked.here held)))
  exact holds.reaches reworked.rewired.here

/-- Going up from a node of the layer ends at the new node. -/
theorem reaches_layer (member : n ∈ layer) : plan'.Reaches n := by
  induction index : layer.length - layer.idxOf n using Nat.strong_induction_on generalizing n with
  | _ k ih =>
    rcases reworked.covers n (.inl member) with rfl | ⟨parent, isLayer, isInput⟩
    · exact reworked.reaches_new
    · have small := List.idxOf_lt_length_iff.mpr member
      rcases reworked.inputs parent isLayer n isInput with isBase | ⟨_, lower⟩
      · exact absurd member (reworked.base_not_mem isBase)
      · have reached := ih (layer.length - layer.idxOf parent) (by omega) isLayer rfl
        refine reached.child ?_
        rw [(reworked.layer_children isLayer).1]
        exact isInput

theorem reaches_base' (member : b ∈ base) : plan'.Reaches b := by
  rcases reworked.covers b (.inr member) with rfl | ⟨parent, isLayer, isInput⟩
  · exact reworked.reaches_new
  · refine (reworked.reaches_layer isLayer).child ?_
    rw [(reworked.layer_children isLayer).1]
    exact isInput

/-- What is below the layer does not change, and has the sources that it had. -/
theorem foundation_same (below : plan.Foundation base n) : plan'.node n = plan.node n ∧
    ∀ owner, plan.operator n = .nestedSource owner →
      (plan'.inputs owner)[0]? = (plan.inputs owner)[0]? := by
  obtain ⟨rank, falls⟩ := reworked.before.acyclic
  obtain ⟨reached, lower, outside⟩ := reworked.lower falls below
  have notOld : old ∉ plan.sources n := fun source => Nat.lt_asymm lower (falls n reached old source)
  refine ⟨reworked.final_node outside fun held => notOld (mem_sources_of_child
    (mem_children_of_nodeAt reworked.here held)), fun owner operator => ?_⟩
  have outside' := reworked.owner_not_mem reached operator
  obtain ⟨input, found⟩ := reworked.before.exists_source reached operator
  have found' : (mid.inputs owner)[0]? = some input := by
    unfold Plan.inputs at found ⊢
    rwa [reworked.node outside']
  obtain ⟨y, after, rfl | ⟨rfl, _⟩⟩ := getElem?_replaced (reworked.rewired.inputs owner) found'
  · rw [after, found]
  · exact absurd (mem_sources_iff.mpr (.inr ⟨owner, operator, found⟩)) notOld

theorem sources_foundation (below : plan.Foundation base n) : plan'.sources n = plan.sources n := by
  obtain ⟨node, owners⟩ := reworked.foundation_same below
  have operator : plan'.operator n = plan.operator n := congrArg Node.operator node
  unfold Plan.sources
  rw [children_congr node, operator]
  split
  · rename_i owner isSource
    rw [owners owner isSource]
  · rfl

theorem reaches_foundation (below : plan.Foundation base n) : plan'.Reaches n := by
  obtain ⟨b, member, path⟩ := below
  induction path with
  | refl => exact reworked.reaches_base' member
  | @tail parent n path source ih =>
    refine reworked.wellFormed.reaches_source ih ?_
    rwa [reworked.sources_foundation ⟨b, member, path⟩]

/-- After a refresh, what is below the layer has the schemas that it had. -/
theorem foundation_node {plan'' : Plan} (only : plan'.OnlySchemas plan'')
    (current : plan.SchemasCurrent) (current' : plan''.SchemasCurrent)
    (below : plan.Foundation base n) : plan''.node n = plan.node n := by
  obtain ⟨rank, falls⟩ := reworked.before.acyclic
  induction height : rank n using Nat.strong_induction_on generalizing n with
  | _ k ih =>
    have reached := (reworked.lower falls below).1
    obtain ⟨node, owners⟩ := reworked.foundation_same below
    obtain ⟨schema, changed⟩ := only.node n
    rw [node] at changed
    obtain ⟨vs, stored, computed⟩ := current n reached
    obtain ⟨ws, stored', computed'⟩ := current' n
      (only.reaches_iff.mpr (reworked.reaches_foundation below))
    have operator : plan''.operator n = plan.operator n :=
      (only.operator n).trans (congrArg Node.operator node)
    have inputs := (only.inputs n).trans (inputs_congr node)
    have again : plan''.schemaFromChildren n = .ok vs := by
      refine schemaFromChildren_congr operator inputs (fun owner isSource => ?_)
        (fun c source => ?_) computed
      · rw [only.inputs]
        exact owners owner isSource
      · have lower := falls n reached c source
        rw [ih (rank c) (by omega) (below.source source) rfl]
    have same : ws = vs := Except.ok.inj (computed'.symm.trans again)
    subst same
    have schemas : (plan''.node n).schema = (plan.node n).schema :=
      (schema_ok_iff.mp stored').trans (schema_ok_iff.mp stored).symm
    rw [changed] at schemas ⊢
    dsimp only at schemas
    rw [schemas]

end Reworked

end QueryOptimizer.Plan
