import Mathlib
import QueryOptimizer.Derivation.Facts
import QueryOptimizer.Proofs.Context
import QueryOptimizer.Proofs.Plan.Graph

/-! # Steps of the derivation of facts

What a successful derivation did: each step of it by what it was given and what it returned.
-/

namespace QueryOptimizer

/-- Splitting keys drops none and adds none. -/
theorem Facts.perm_splitKeys {facts : Facts} {kept rest : List (Var × Expr)} :
    ((facts.splitKeys kept rest).1 ++ (facts.splitKeys kept rest).2).Perm (kept ++ rest) := by
  induction rest generalizing kept with
  | nil => exact .refl _
  | cons key rest ih =>
    have stays : (kept ++ [key] ++ rest).Perm (kept ++ key :: rest) := by
      rw [List.append_assoc]
      exact .refl _
    unfold splitKeys
    split
    · exact ih.trans stays
    · dsimp only
      split
      · exact List.perm_middle.trans ((ih.cons key).trans List.perm_middle.symm)
      · exact ih.trans stays

/-- The entries of a group-by stay the same when keys become decorations. -/
theorem Facts.perm_splitKeys_decor (facts : Facts) (keys decor : List (Var × Expr)) :
    ((facts.splitKeys [] keys).1 ++ (decor ++ (facts.splitKeys [] keys).2)).Perm (keys ++ decor) :=
  (List.perm_append_comm_assoc _ _ _).trans
    ((facts.perm_splitKeys.append_left decor).trans List.perm_append_comm)

namespace Session

variable {s s' : Session} {id : NodeId} {facts : Facts}

theorem knownFacts_ok_iff : s.knownFacts id = .ok facts ↔ s.context.facts.get? id = some facts := by
  unfold knownFacts
  cases s.context.facts.get? id with
  | none => simp
  | some known => simp

theorem inputFacts_ok {index : Nat} (known : s.inputFacts id index = .ok facts) :
    ∃ input, (s.plan.inputs id)[index]? = some input ∧ s.context.facts.get? input = some facts := by
  obtain ⟨input, found, known⟩ := bind_ok_iff.mp known
  exact ⟨input, Plan.input_ok_iff.mp found, knownFacts_ok_iff.mp known⟩

theorem facts_ok (derived : s.facts id = .ok (s', facts)) :
    ensureFactsWithin s.depth s id = .ok s' ∧ s'.context.facts.get? id = some facts := by
  obtain ⟨s₁, ensured, derived⟩ := bind_ok_iff.mp derived
  obtain ⟨facts₁, known, derived⟩ := bind_ok_iff.mp derived
  cases pure_ok_iff.mp derived
  exact ⟨ensured, knownFacts_ok_iff.mp known⟩

theorem refreshSchemas_ok (done : s.refreshSchemas = .ok s') :
    ∃ plan, s.plan.refreshSchemas = .ok plan ∧ s' = s.withPlan plan := by
  obtain ⟨plan, refreshed, done⟩ := bind_ok_iff.mp done
  exact ⟨plan, refreshed, (pure_ok_iff.mp done).symm⟩

/-- Whether no key of a group-by follows from the others, by the facts that are noted. -/
def Simplified (s : Session) (id : NodeId) : Prop :=
  ∀ keys decor nested, s.plan.operator id = .groupBy keys decor nested →
    ∃ facts, s.inputFacts id 0 = .ok facts ∧ (facts.splitKeys [] keys).2 = []

/-- A group-by is left as it is, or some of its keys become decorations. -/
theorem simplifyGroupBy_cases (done : s.simplifyGroupBy id = .ok s') :
    s' = s ∧ s.Simplified id ∨
    ∃ keys decor nested facts, s.plan.operator id = .groupBy keys decor nested ∧
      s.inputFacts id 0 = .ok facts ∧ (facts.splitKeys [] keys).2 ≠ [] ∧
      (s.withPlan (s.plan.setOperator id (.groupBy (facts.splitKeys [] keys).1
        (decor ++ (facts.splitKeys [] keys).2) nested))).refreshSchemas = .ok s' := by
  unfold simplifyGroupBy at done
  split at done
  · rename_i keys decor nested shape
    obtain ⟨facts, known, done⟩ := bind_ok_iff.mp done
    split at done
    · rename_i kept split
      refine .inl ⟨(pure_ok_iff.mp done).symm, fun keys' decor' nested' shape' => ?_⟩
      cases shape.symm.trans shape'
      exact ⟨facts, known, by rw [split]⟩
    · rename_i kept moved some split
      refine .inr ⟨keys, decor, nested, facts, shape, known, ?_, ?_⟩
      · rw [split]
        exact some
      · rw [split]
        exact done
  · rename_i other
    cases done
    exact .inl ⟨rfl, fun keys decor nested shape => absurd shape (other keys decor nested)⟩

/-- A derivation is done already, or it derives the facts of the inputs, of the input of the owner
    of a nested source, and of the nested roots, and then those of the node. -/
theorem ensureFactsWithin_cases {fuel : Nat} (done : ensureFactsWithin (fuel + 1) s id = .ok s') :
    (s.context.facts.get? id).isSome ∧ s' = s ∨
    ∃ s₁ s₂ s₃ s₄ facts, s.context.facts.get? id = none ∧
      (s.plan.inputs id).foldlM (ensureFactsWithin fuel) s = .ok s₁ ∧
      ((∃ owner input, s₁.plan.operator id = .nestedSource owner ∧
        (s₁.plan.inputs owner)[0]? = some input ∧ ensureFactsWithin fuel s₁ input = .ok s₂) ∨
        (∀ owner, s₁.plan.operator id ≠ .nestedSource owner) ∧ s₂ = s₁) ∧
      s₂.simplifyGroupBy id = .ok s₃ ∧
      (s₃.plan.nestedRoots id).foldlM (ensureFactsWithin fuel) s₃ = .ok s₄ ∧
      s₄.factsFromInputs id = .ok facts ∧ s' = s₄.mapContext (·.setFacts id facts) := by
  unfold ensureFactsWithin at done
  split at done
  · rename_i known
    cases done
    exact .inl ⟨known, rfl⟩
  rename_i unknown
  have unknown : s.context.facts.get? id = none := by simpa using unknown
  obtain ⟨s₁, inputs, done⟩ := bind_ok_iff.mp done
  dsimp only at done
  split at done
  · rename_i owner shape
    obtain ⟨input, found, done⟩ := bind_ok_iff.mp done
    obtain ⟨s₂, owned, done⟩ := bind_ok_iff.mp done
    obtain ⟨s₃, simplified, done⟩ := bind_ok_iff.mp done
    obtain ⟨s₄, nested, done⟩ := bind_ok_iff.mp done
    obtain ⟨facts, derived, done⟩ := bind_ok_iff.mp done
    exact .inr ⟨s₁, s₂, s₃, s₄, facts, unknown, inputs,
      .inl ⟨owner, input, shape, Plan.input_ok_iff.mp found, owned⟩, simplified, nested, derived,
      (pure_ok_iff.mp done).symm⟩
  · rename_i other
    obtain ⟨s₂, same, done⟩ := bind_ok_iff.mp done
    obtain ⟨s₃, simplified, done⟩ := bind_ok_iff.mp done
    obtain ⟨s₄, nested, done⟩ := bind_ok_iff.mp done
    obtain ⟨facts, derived, done⟩ := bind_ok_iff.mp done
    exact .inr ⟨s₁, s₂, s₃, s₄, facts, unknown, inputs,
      .inr ⟨fun owner shape => other owner shape, (pure_ok_iff.mp same).symm⟩, simplified, nested,
      derived, (pure_ok_iff.mp done).symm⟩

/-- A derivation succeeds if all its parts do. -/
theorem ensureFactsWithin_of {fuel : Nat} {s₁ s₂ s₃ s₄ : Session}
    (unknown : s.context.facts.get? id = none)
    (inputs : (s.plan.inputs id).foldlM (ensureFactsWithin fuel) s = .ok s₁)
    (owner : (∃ owner input, s₁.plan.operator id = .nestedSource owner ∧
        (s₁.plan.inputs owner)[0]? = some input ∧ ensureFactsWithin fuel s₁ input = .ok s₂) ∨
      (∀ owner, s₁.plan.operator id ≠ .nestedSource owner) ∧ s₂ = s₁)
    (simplified : s₂.simplifyGroupBy id = .ok s₃)
    (nested : (s₃.plan.nestedRoots id).foldlM (ensureFactsWithin fuel) s₃ = .ok s₄)
    (derived : s₄.factsFromInputs id = .ok facts) :
    ensureFactsWithin (fuel + 1) s id = .ok (s₄.mapContext (·.setFacts id facts)) := by
  have rest : (do
      let s ← s₂.simplifyGroupBy id
      let s ← (s.plan.nestedRoots id).foldlM (ensureFactsWithin fuel) s
      let facts ← s.factsFromInputs id
      return s.mapContext (·.setFacts id facts) : Except Failure Session) =
      .ok (s₄.mapContext (·.setFacts id facts)) :=
    bind_ok_iff.mpr ⟨s₃, simplified, bind_ok_iff.mpr ⟨s₄, nested,
      bind_ok_iff.mpr ⟨facts, derived, rfl⟩⟩⟩
  unfold ensureFactsWithin
  rw [if_neg (by simp [unknown])]
  refine bind_ok_iff.mpr ⟨s₁, inputs, ?_⟩
  dsimp only
  rcases owner with ⟨owner, input, shape, found, ensured⟩ | ⟨other, rfl⟩
  · rw [shape]
    exact bind_ok_iff.mpr ⟨input, Plan.input_ok_iff.mpr found, bind_ok_iff.mpr ⟨s₂, ensured, rest⟩⟩
  · split
    · rename_i owner shape
      exact absurd shape (other owner)
    · exact rest

/-- What simplifying a group-by and noting the facts of a node keep, a derivation keeps. `R` is true of
    the nodes that it visits. -/
theorem ensureFactsWithin_keeps {P : Session → Prop} {R : NodeId → Prop} {fuel : Nat}
    (next : ∀ {s n}, P s → R n → ∀ c ∈ s.plan.sources n, R c)
    (simplify : ∀ {s s' n}, P s → R n → s.simplifyGroupBy n = .ok s' → P s')
    (note : ∀ {s n facts}, P s → R n → s.factsFromInputs n = .ok facts →
      P (s.mapContext (·.setFacts n facts)))
    (holds : P s) (visits : R id) (done : ensureFactsWithin fuel s id = .ok s') : P s' := by
  induction fuel generalizing s s' id with
  | zero => cases done
  | succ fuel ih =>
    rcases ensureFactsWithin_cases done with ⟨_, rfl⟩ |
      ⟨s₁, s₂, s₃, s₄, facts, _, inputs, owner, simplified, nested, derived, rfl⟩
    · exact holds
    have first : P s₁ := foldlM_keeps P (fun n member _ _ holds' =>
      ih holds' (next holds visits n (Plan.mem_sources_of_input member))) holds inputs
    have second : P s₂ := by
      rcases owner with ⟨owner, input, operator, found, ensured⟩ | ⟨_, rfl⟩
      · exact ih first (next first visits input
          (Plan.mem_sources_iff.mpr (.inr ⟨owner, operator, found⟩))) ensured
      · exact first
    have third := simplify second visits simplified
    have fourth : P s₄ := foldlM_keeps P (fun n member _ _ holds' =>
      ih holds' (next third visits n (Plan.mem_sources_of_child (List.mem_append_right _ member))))
      third nested
    exact note fourth visits derived

end Session

end QueryOptimizer
