import Mathlib
import QueryOptimizer.Derivation.Types
import QueryOptimizer.Implementation.Choice
import QueryOptimizer.Proofs.Plan.Regrouped
import QueryOptimizer.Proofs.Transform.Inlining

/-! # What derivations leave alone

Deriving types and sizes notes them and changes nothing else. Deriving facts also regroups the plan.
-/

namespace QueryOptimizer

/-- The session with other notes about types. -/
def Session.withTypes (s : Session) (types : NodeTable TypeEnv) : Session :=
  s.mapContext fun context => { context with types := types }

/-- The session with other notes about sizes. -/
def Session.withSizes (s : Session) (sizes : NodeTable Size) : Session :=
  s.mapContext fun context => { context with sizes := sizes }

/-- The session with another plan and other notes about facts. -/
def Session.withFacts (s : Session) (plan : Plan) (facts : NodeTable Facts) : Session :=
  (s.withPlan plan).mapContext fun context => { context with facts := facts }

theorem Operator.Resembles.rename (op : Operator) (renames : Renaming) :
    op.Resembles (op.rename renames) := by
  have pairs : ∀ entries : List (Var × Expr),
      (Operator.rename.pairs renames entries).map (·.1) = entries.map (·.1) := by
    intro entries
    simp [Operator.rename.pairs, Function.comp_def]
  cases op with
  | groupBy keys decor nested =>
    refine ⟨rfl, rfl, fun owner => by simp [Operator.rename], ?_⟩
    simp only [Operator.rename, groupOutputs, List.map_append, pairs]
    exact .refl _
  | project | distinct =>
    simp only [Operator.rename]
    split
    · exact ⟨rfl, rfl, fun owner => by simp, .refl _⟩
    · exact .refl _
  | nestedSource => exact .refl _
  | _ => exact ⟨rfl, rfl, fun owner => by simp [Operator.rename], .refl _⟩

namespace Session

variable {s s' : Session} {id : NodeId} {fuel : Nat}

/-- An inference is done already, or it infers the types of what the node gets its tuples from and
    of the nested roots, and then those of the node. -/
theorem typesWithin_cases {env : TypeEnv} (done : typesWithin (fuel + 1) s id = .ok (s', env)) :
    s.context.types.get? id = some env ∧ s' = s ∨
    ∃ s₁ s₂ outer inner produced, s.context.types.get? id = none ∧
      (∀ owner, s.plan.operator id = .nestedSource owner → (s.plan.inputs owner)[0]?.isSome) ∧
      collectTypes (typesWithin fuel) s (s.plan.tupleSources id) = .ok (s₁, outer) ∧
      collectTypes (typesWithin fuel) s₁ (s₁.plan.nestedRoots id) = .ok (s₂, inner) ∧
      producedTypes s₂.context.catalog outer (s₂.plan.operator id) = .ok produced ∧
      env = (outer.extend inner).insertAll produced ∧ s' = s₂.mapContext (·.setTypes id env) := by
  unfold typesWithin at done
  split at done
  · rename_i known
    cases done
    exact .inl ⟨known, rfl⟩
  rename_i unknown
  refine .inr ?_
  dsimp only at done
  split at done
  · rename_i owner shape
    obtain ⟨input, found, done⟩ := bind_ok_iff.mp done
    obtain ⟨sources, same, done⟩ := bind_ok_iff.mp done
    cases pure_ok_iff.mp same
    obtain ⟨⟨s₁, outer⟩, inputs, done⟩ := bind_ok_iff.mp done
    obtain ⟨⟨s₂, inner⟩, nested, done⟩ := bind_ok_iff.mp done
    obtain ⟨produced, typed, done⟩ := bind_ok_iff.mp done
    cases pure_ok_iff.mp done
    have found := Plan.input_ok_iff.mp found
    refine ⟨s₁, s₂, outer, inner, produced, unknown, fun owner' shape' => ?_, ?_, nested, typed, rfl,
      rfl⟩
    · cases shape.symm.trans shape'
      rw [found]
      rfl
    · unfold Plan.tupleSources
      rw [shape]
      dsimp only
      rw [found]
      exact inputs
  · rename_i other
    obtain ⟨sources, same, done⟩ := bind_ok_iff.mp done
    cases pure_ok_iff.mp same
    obtain ⟨⟨s₁, outer⟩, inputs, done⟩ := bind_ok_iff.mp done
    obtain ⟨⟨s₂, inner⟩, nested, done⟩ := bind_ok_iff.mp done
    obtain ⟨produced, typed, done⟩ := bind_ok_iff.mp done
    cases pure_ok_iff.mp done
    refine ⟨s₁, s₂, outer, inner, produced, unknown, fun owner shape => absurd shape (other owner), ?_,
      nested, typed, rfl, rfl⟩
    unfold Plan.tupleSources
    split
    · rename_i owner shape
      exact absurd shape (other owner)
    · exact inputs

theorem typesWithin_frame {env : TypeEnv} (done : typesWithin fuel s id = .ok (s', env)) :
    ∃ types, s' = s.withTypes types := by
  induction fuel generalizing s s' id env with
  | zero => cases done
  | succ fuel ih =>
    have collect : ∀ {s s' : Session} {ids : List NodeId} {env : TypeEnv},
        collectTypes (typesWithin fuel) s ids = .ok (s', env) → ∃ types, s' = s.withTypes types := by
      intro s s' ids env done
      refine foldlM_keeps (fun acc : Session × TypeEnv => ∃ types, acc.1 = s.withTypes types)
        (fun acc n acc' _ kept step => ?_) ⟨s.context.types, rfl⟩ done
      obtain ⟨⟨s₁, types⟩, inferred, step⟩ := bind_ok_iff.mp step
      cases pure_ok_iff.mp step
      obtain ⟨first, kept⟩ := kept
      obtain ⟨second, later⟩ := ih inferred
      exact ⟨second, by rw [later, kept]; rfl⟩
    rcases typesWithin_cases done with ⟨_, rfl⟩ |
      ⟨s₁, s₂, outer, inner, produced, _, _, inputs, nested, _, _, rfl⟩
    · exact ⟨s'.context.types, rfl⟩
    · obtain ⟨first, rfl⟩ := collect inputs
      obtain ⟨second, rfl⟩ := collect nested
      exact ⟨_, rfl⟩

theorem sizeWithin_frame {size : Size} (done : sizeWithin fuel s id = .ok (s', size)) :
    ∃ sizes, s' = s.withSizes sizes := by
  induction fuel generalizing s s' id size with
  | zero => cases done
  | succ fuel ih =>
    unfold sizeWithin at done
    split at done
    · cases done
      exact ⟨s.context.sizes, rfl⟩
    obtain ⟨⟨s₁, inputs⟩, collected, done⟩ := bind_ok_iff.mp done
    obtain ⟨size, _, done⟩ := bind_ok_iff.mp done
    cases pure_ok_iff.mp done
    obtain ⟨sizes, kept⟩ := foldlM_keeps
      (fun acc : Session × List Size => ∃ sizes, acc.1 = s.withSizes sizes)
      (fun acc n acc' _ kept step => by
        obtain ⟨⟨s₂, size⟩, estimated, step⟩ := bind_ok_iff.mp step
        cases pure_ok_iff.mp step
        obtain ⟨first, kept⟩ := kept
        obtain ⟨second, later⟩ := ih estimated
        exact ⟨second, by rw [later, kept]; rfl⟩) ⟨s.context.sizes, rfl⟩ collected
    obtain rfl : s₁ = s.withSizes sizes := kept
    exact ⟨_, rfl⟩

theorem frames?_frame {frames : Option Nat} (done : s.frames? id = .ok (s', frames)) :
    ∃ sizes, s' = s.withSizes sizes := by
  obtain ⟨⟨s₁, size⟩, estimated, done⟩ := bind_ok_iff.mp done
  cases pure_ok_iff.mp done
  exact sizeWithin_frame estimated

/-- Deriving facts regroups the plan and notes facts. -/
def Derives (s s' : Session) : Prop :=
  ∃ plan facts, s' = s.withFacts plan facts ∧ s.plan.Regrouped plan

theorem Derives.refl (s : Session) : s.Derives s := ⟨s.plan, s.context.facts, rfl, .refl _⟩

theorem Derives.trans {s'' : Session} (first : s.Derives s') (second : s'.Derives s'') :
    s.Derives s'' := by
  obtain ⟨plan, facts, rfl, regrouped⟩ := first
  obtain ⟨plan', facts', rfl, regrouped'⟩ := second
  exact ⟨plan', facts', rfl, regrouped.trans regrouped'⟩

theorem staysWithFacts_derives (s : Session) : StaysWithFacts s.Derives where
  schemas := by
    rintro _ plan' only ⟨plan, facts, rfl, regrouped⟩
    exact ⟨plan', facts, rfl, regrouped.trans only.regrouped⟩
  regroup := by
    rintro _ id keys decor nested keys' decor' shape perm ⟨plan, facts, rfl, regrouped⟩
    exact ⟨_, facts, rfl, regrouped.trans (.setOperator shape perm)⟩
  note := by
    rintro _ id facts ⟨plan, table, rfl, regrouped⟩
    exact ⟨plan, _, rfl, regrouped⟩

theorem ensureFacts_derives (done : s.ensureFacts id = .ok s') : s.Derives s' :=
  s.staysWithFacts_derives.ensureFactsWithin (.refl s) done

end Session

end QueryOptimizer
