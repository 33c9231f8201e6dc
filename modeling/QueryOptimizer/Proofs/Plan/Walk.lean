import Mathlib
import QueryOptimizer.Proofs.Plan.Node
import QueryOptimizer.Proofs.Plan.Reach

/-! # Walks

A walk reaches every node below its start: as long as it goes down, it enters new nodes, and there
are no more nodes than it has fuel.
-/

namespace QueryOptimizer

namespace Walk

variable {next : NodeId → List NodeId} {walk : Walk} {stack : List NodeId} {id n : NodeId}

/-- A walk inside the nodes of a stack: every node that was entered is on the stack, or done
    together with its children. -/
structure Inside (next : NodeId → List NodeId) (stack : List NodeId) (walk : Walk) : Prop where
  open_or_done : ∀ n ∈ walk.entered, n ∈ stack ∨ n ∈ walk.finished
  children : ∀ n ∈ walk.finished, ∀ child ∈ next n, child ∈ walk.entered
  entered : ∀ n ∈ walk.finished, n ∈ walk.entered

theorem Inside.push (inside : Inside next stack walk) (id : NodeId) :
    Inside next (id :: stack) { walk with entered := walk.entered ++ [id] } where
  open_or_done n member := by
    rcases List.mem_append.mp member with old | new
    · rcases inside.open_or_done n old with isOpen | done
      · exact .inl (List.mem_cons_of_mem _ isOpen)
      · exact .inr done
    · rw [List.mem_singleton.mp new]
      exact .inl List.mem_cons_self
  children n done child member := List.mem_append_left _ (inside.children n done child member)
  entered n done := List.mem_append_left _ (inside.entered n done)

theorem Inside.pop (inside : Inside next (id :: stack) walk)
    (children : ∀ child ∈ next id, child ∈ walk.entered) (here : id ∈ walk.entered) :
    Inside next stack { walk with finished := walk.finished ++ [id] } where
  open_or_done n member := by
    rcases inside.open_or_done n member with isOpen | done
    · rcases List.mem_cons.mp isOpen with rfl | isOpen
      · exact .inr (List.mem_append_right _ List.mem_cons_self)
      · exact .inl isOpen
    · exact .inr (List.mem_append_left _ done)
  children n done child member := by
    rcases List.mem_append.mp done with done | new
    · exact inside.children n done child member
    · rw [List.mem_singleton.mp new] at member
      exact children child member
  entered n done := by
    rcases List.mem_append.mp done with done | new
    · exact inside.entered n done
    · rw [List.mem_singleton.mp new]
      exact here

/-- What a visit of a node achieves. -/
structure Visited (next : NodeId → List NodeId) (stack : List NodeId) (id : NodeId)
    (walk walk' : Walk) : Prop where
  inside : Inside next stack walk'
  here : id ∈ walk'.entered
  more : ∀ n ∈ walk.entered, n ∈ walk'.entered

theorem Inside.start (next : NodeId → List NodeId) : Inside next [] {} := by
  constructor <;> intro n impossible <;> cases impossible

theorem Visited.foldl (f : Walk → NodeId → Walk) (ids : List NodeId)
    (each : ∀ child ∈ ids, ∀ walk, Inside next stack walk → (∀ n ∈ stack, n ∈ walk.entered) →
      Visited next stack child walk (f walk child))
    (inside : Inside next stack walk) (onStack : ∀ n ∈ stack, n ∈ walk.entered) :
    Inside next stack (ids.foldl f walk) ∧ (∀ n ∈ walk.entered, n ∈ (ids.foldl f walk).entered) ∧
      ∀ child ∈ ids, child ∈ (ids.foldl f walk).entered := by
  induction ids generalizing walk with
  | nil => exact ⟨inside, fun n member => member, fun child impossible => by cases impossible⟩
  | cons id ids ih =>
    have first := each id List.mem_cons_self walk inside onStack
    obtain ⟨last, more, rest⟩ := ih (fun child member => each child (List.mem_cons_of_mem _ member))
      first.inside fun n member => first.more n (onStack n member)
    refine ⟨last, fun n member => more n (first.more n member), fun child member => ?_⟩
    rcases List.mem_cons.mp member with rfl | member
    · exact more child first.here
    · exact rest child member

/-- The nodes on the stack have children and differ, so that the walk is out of fuel only after
    more nodes than there are. -/
theorem visit_visited {ids : List NodeId} (known : ∀ n, next n ≠ [] → n ∈ ids) {fuel : Nat}
    (inside : Inside next stack walk) (once : stack.Nodup)
    (onStack : ∀ n ∈ stack, next n ≠ [] ∧ n ∈ walk.entered)
    (enough : ids.length < stack.length + fuel) :
    Visited next stack id walk (visit next fuel walk id) := by
  induction fuel generalizing walk stack id with
  | zero =>
    have few : stack.length ≤ ids.length :=
      (once.subperm fun n member => known n (onStack n member).1).length_le
    omega
  | succ fuel ih =>
    unfold visit
    split
    · rename_i here
      exact ⟨inside, here, fun n member => member⟩
    · rename_i new
      have fresh : (id :: stack).Nodup :=
        List.nodup_cons.mpr ⟨fun member => new (onStack id member).2, once⟩
      have entered : ∀ n ∈ id :: stack, n ∈ walk.entered ++ [id] := by
        intro n member
        rcases List.mem_cons.mp member with rfl | member
        · exact List.mem_append_right _ List.mem_cons_self
        · exact List.mem_append_left _ (onStack n member).2
      obtain ⟨below, more, children⟩ := Visited.foldl (visit next fuel) (next id)
        (fun child member walk inside onStack' => ih inside fresh
          (fun n isOpen => by
            refine ⟨?_, onStack' n isOpen⟩
            rcases List.mem_cons.mp isOpen with rfl | isOpen
            · exact List.ne_nil_of_mem member
            · exact (onStack n isOpen).1)
          (by rw [List.length_cons]; omega))
        (inside.push id) entered
      have here := more id (entered id List.mem_cons_self)
      exact ⟨below.pop children here, here, fun n member => more n (List.mem_append_left _ member)⟩

/-- What holds at a node and goes on to the next nodes holds at all nodes of a walk. -/
theorem visit_of_closed {P : NodeId → Prop} (closed : ∀ n, P n → ∀ child ∈ next n, P child)
    {fuel : Nat} (start : P id) (before : ∀ n ∈ walk.entered, P n) :
    ∀ n ∈ (visit next fuel walk id).entered, P n := by
  induction fuel generalizing walk id with
  | zero => exact before
  | succ fuel ih =>
    unfold visit
    split
    · exact before
    · refine List.foldlRecOn (motive := fun walk : Walk => ∀ n ∈ walk.entered, P n) (next id)
        (visit next fuel) (fun n member => ?_)
        fun walk before child member => ih (closed id start child member) before
      rcases List.mem_append.mp member with old | new
      · exact before n old
      · rw [List.mem_singleton.mp new]
        exact start

/-- No node is entered twice. -/
theorem visit_nodup {fuel : Nat} (once : walk.entered.Nodup) :
    (visit next fuel walk id).entered.Nodup := by
  induction fuel generalizing walk id with
  | zero => exact once
  | succ fuel ih =>
    unfold visit
    split
    · exact once
    · rename_i new
      refine List.foldlRecOn (motive := fun walk : Walk => walk.entered.Nodup) (next id)
        (visit next fuel) ?_ fun walk once child _ => ih once
      exact List.nodup_append.mpr ⟨once, List.nodup_singleton id, fun n old m here same =>
        new (List.mem_singleton.mp here ▸ same ▸ old)⟩

end Walk

namespace Plan

variable {plan : Plan} {id n : NodeId}

theorem lt_of_children (some : plan.children n ≠ []) : n < plan.nodes.length := by
  by_contra outside
  refine some ?_
  unfold children inputs nestedRoots operator node
  rw [node?_eq_none (Nat.le_of_not_lt outside)]
  rfl

/-- The walk from some nodes enters and finishes everything below them. -/
theorem walkAlong_covers {starts : List NodeId} (start : id ∈ starts) (below : plan.Below id n) :
    n ∈ (plan.walkAlong plan.children starts).entered ∧
      n ∈ (plan.walkAlong plan.children starts).finished := by
  have known : ∀ n, plan.children n ≠ [] → n ∈ List.range plan.nodes.length := fun n some =>
    List.mem_range.mpr (lt_of_children some)
  have none : ∀ n ∈ ([] : List NodeId), n ∈ ({} : Walk).entered := fun n impossible => by
    cases impossible
  obtain ⟨inside, _, entered⟩ := Walk.Visited.foldl
    (Walk.visit plan.children (plan.nodes.length + 1)) starts
    (fun child _ walk inside _ => Walk.visit_visited known inside List.nodup_nil
      (fun n impossible => by cases impossible) (by simp))
    (Walk.Inside.start plan.children) none
  have done : ∀ n ∈ (plan.walkAlong plan.children starts).entered,
      n ∈ (plan.walkAlong plan.children starts).finished := by
    intro n member
    rcases inside.open_or_done n member with impossible | done
    · cases impossible
    · exact done
  have reached : n ∈ (plan.walkAlong plan.children starts).entered :=
    Below.of_closed (P := fun n => n ∈ (plan.walkAlong plan.children starts).entered)
      (entered id start) (fun parent member => inside.children parent (done parent member)) below
  exact ⟨reached, done n reached⟩

theorem mem_reachable (reached : plan.Reaches n) : n ∈ plan.reachable :=
  (walkAlong_covers List.mem_cons_self reached).1

theorem reaches_of_mem_reachable (member : n ∈ plan.reachable) : plan.Reaches n :=
  Walk.visit_of_closed (fun _ reached _ isChild => Reaches.child reached isChild) .refl
    (fun _ impossible => by cases impossible) n member

theorem mem_bottomUp (below : plan.Below id n) : n ∈ plan.bottomUp id :=
  (walkAlong_covers List.mem_cons_self below).2

end Plan

end QueryOptimizer
