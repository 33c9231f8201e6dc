import Mathlib
import QueryOptimizer.Optimizer

/-! # Failures of transformations

A batch that does not come to rest fails because it found no fixpoint. No transformation fails for
this reason: it is the sweeps alone that are counted.
-/

namespace QueryOptimizer

/-- Whether a computation does not fail for want of a fixpoint. -/
def Settles {α : Type} (x : Except Failure α) : Prop :=
  ∀ name sweeps, x ≠ .error (.noFixpoint name sweeps)

variable {α β : Type} {x : Except Failure α} {f : α → Except Failure β}

@[simp]
theorem settles_ok (a : α) : Settles (.ok a) := fun _ _ impossible => by cases impossible

@[simp]
theorem settles_pure (a : α) : Settles (pure a) := settles_ok a

@[simp]
theorem settles_error_iff {e : Failure} : Settles (Except.error e : Except Failure α) ↔
    ∀ name sweeps, e ≠ .noFixpoint name sweeps := by
  simp [Settles]

@[simp]
theorem settles_throw_iff {e : Failure} : Settles (throw e : Except Failure α) ↔
    ∀ name sweeps, e ≠ .noFixpoint name sweeps := settles_error_iff

@[simp]
theorem settles_bind_iff : Settles (x >>= f) ↔ Settles x ∧ ∀ a, x = .ok a → Settles (f a) := by
  cases x with
  | error e => simp [bind, Except.bind]
  | ok a => simp [bind, Except.bind]

theorem settles_bind_of_ok (first : Settles x) (second : ∀ a, x = .ok a → Settles (f a)) :
    Settles (x >>= f) :=
  settles_bind_iff.mpr ⟨first, second⟩

theorem settles_bind (first : Settles x) (second : ∀ a, Settles (f a)) : Settles (x >>= f) :=
  settles_bind_of_ok first fun a _ => second a

@[simp]
theorem settles_map_iff {f : α → β} : Settles (f <$> x) ↔ Settles x := by
  cases x with
  | error e => exact settles_error_iff.trans settles_error_iff.symm
  | ok a => exact iff_of_true (settles_ok (f a)) (settles_ok a)

@[simp]
theorem settles_ite_iff {p : Prop} [Decidable p] {x y : Except Failure α} :
    Settles (if p then x else y) ↔ (p → Settles x) ∧ (¬p → Settles y) := by
  split <;> simp [*]

theorem settles_foldlM {f : β → α → Except Failure β} (each : ∀ b a, Settles (f b a)) (l : List α) :
    ∀ b, Settles (l.foldlM f b) := by
  induction l with
  | nil => exact fun b => settles_pure b
  | cons a l ih =>
    intro b
    rw [List.foldlM_cons]
    exact settles_bind (each b a) ih

theorem settles_mapM (each : ∀ a, Settles (f a)) (l : List α) : Settles (l.mapM f) := by
  induction l with
  | nil => exact settles_pure []
  | cons a l ih =>
    rw [List.mapM_cons]
    exact settles_bind (each a) fun b => settles_bind ih fun bs => settles_pure (b :: bs)

/-! ## Plans -/

namespace Plan

variable (plan : Plan) (slot : Slot) (id : NodeId)

@[simp]
theorem settles_operatorName : Settles (plan.operatorName id) := by
  unfold operatorName
  split <;> simp

@[simp]
theorem settles_input (index : Nat) : Settles (plan.input id index) := by
  unfold input
  split <;> simp

@[simp]
theorem settles_nodeAt : Settles (plan.nodeAt slot) := by
  cases slot with
  | root | input => simp [nodeAt]
  | nestedRoot =>
    rw [nodeAt]
    split <;> simp

@[simp]
theorem settles_setSlot : Settles (plan.setSlot slot id) := by
  cases slot with
  | root | input => simp [setSlot]
  | nestedRoot =>
    rw [setSlot]
    split <;> simp

@[simp]
theorem settles_schema : Settles (plan.schema id) := by
  unfold schema
  split <;> simp

theorem settles_refreshSchemas : Settles plan.refreshSchemas := by
  refine settles_foldlM (fun plan id => settles_bind ?_ fun _ => settles_pure _) _ plan
  unfold schemaFromChildren
  split
  · exact settles_bind (plan.settles_input _ 0) plan.settles_schema
  · have schemas := settles_mapM plan.settles_schema
    exact settles_bind (schemas _) fun _ => settles_bind (schemas _) fun _ => settles_pure _

/-! ## Transformations of plans -/

theorem settles_splitSelect : Settles (plan.splitSelect slot) := by
  refine settles_bind (plan.settles_nodeAt slot) fun id => ?_
  split
  · split <;> simp
  · simp

@[simp]
theorem settles_movableSelect : Settles (plan.movableSelect id) := by
  unfold movableSelect
  split <;> simp

@[simp]
theorem settles_swapWithInput (child : NodeId) : Settles (plan.swapWithInput slot id child) := by
  simp [swapWithInput]

@[simp]
theorem settles_selectJoinInput (condition : Expr) (sides : List Nat) :
    Settles (plan.selectJoinInput slot id condition sides) := by
  induction sides with
  | nil => simp [selectJoinInput]
  | cons side sides ih => simp [selectJoinInput, ih]

theorem settles_pushSelect : Settles (plan.pushSelect slot) := by
  refine settles_bind (plan.settles_nodeAt slot) fun id => ?_
  refine settles_bind (plan.settles_movableSelect id) fun movable => ?_
  split
  · simp
  · split <;> simp

theorem settles_mergeSelectIntoJoin : Settles (plan.mergeSelectIntoJoin slot) := by
  refine settles_bind (plan.settles_nodeAt slot) fun id => ?_
  refine settles_bind (plan.settles_movableSelect id) fun movable => ?_
  split
  · simp
  · split <;> simp

theorem settles_mergeSelects : Settles (plan.mergeSelects slot) := by
  refine settles_bind (plan.settles_nodeAt slot) fun outer => ?_
  refine settles_bind (plan.settles_input outer 0) fun inner => ?_
  split <;> simp

theorem settles_mergeLimits : Settles (plan.mergeLimits slot) := by
  refine settles_bind (plan.settles_nodeAt slot) fun outer => ?_
  refine settles_bind (plan.settles_input outer 0) fun inner => ?_
  split <;> simp

theorem settles_pushLimit : Settles (plan.pushLimit slot) := by
  simp [pushLimit]

theorem settles_neededVars : Settles plan.neededVars := by
  unfold neededVars
  dsimp only
  split <;> simp

theorem settles_dropUnusedAssigns (needed : VarSet) :
    Settles (plan.dropUnusedAssigns needed slot) := by
  refine settles_bind (plan.settles_nodeAt slot) fun id => ?_
  split
  · split
    · simp
    · split <;> simp
  · simp

theorem settles_mergeAssigns : Settles (plan.mergeAssigns slot) := by
  refine settles_bind (plan.settles_nodeAt slot) fun outer => ?_
  refine settles_bind (plan.settles_input outer 0) fun inner => ?_
  split <;> simp

theorem settles_dropRedundantProject : Settles (plan.dropRedundantProject slot) := by
  refine settles_bind (plan.settles_nodeAt slot) fun id => ?_
  refine settles_bind (plan.settles_input id 0) fun input => ?_
  split
  · refine settles_bind (plan.settles_schema input) fun _ => ?_
    split
    · simp
    · split <;> simp
  · simp

end Plan

/-! ## Facts -/

@[simp]
theorem Catalog.settles_dependencies (catalog : Catalog) (name : String) (vs : List Var) :
    Settles (catalog.dependencies name vs) := by
  have find : Settles (catalog.find name) := by
    unfold Catalog.find
    split <;> simp
  have column : ∀ (source : Source) column, Settles (source.columnVar vs column) := by
    intro source column
    unfold Source.columnVar
    split <;> simp
  have keys : ∀ source : Source, Settles (source.keyVars vs) := by
    intro source
    refine settles_bind ?_ fun _ => settles_mapM (column source) _
    unfold Source.checkArity
    split <;> simp
  refine settles_bind find fun source => settles_bind (keys source) fun keys => ?_
  split <;> simp

namespace Session

variable (s : Session) (id : NodeId)

@[simp]
theorem settles_refreshSchemas : Settles s.refreshSchemas :=
  settles_bind s.plan.settles_refreshSchemas fun _ => settles_pure _

@[simp]
theorem settles_knownFacts : Settles (s.knownFacts id) := by
  unfold knownFacts
  split <;> simp

@[simp]
theorem settles_inputFacts (index : Nat) : Settles (s.inputFacts id index) :=
  settles_bind (s.plan.settles_input id index) s.settles_knownFacts

@[simp]
theorem settles_joinFacts (kind : JoinKind) (condition : Expr) :
    Settles (s.joinFacts id kind condition) := by
  refine settles_bind (s.settles_inputFacts id 0) fun _ => ?_
  refine settles_bind (s.settles_inputFacts id 1) fun _ => ?_
  cases kind <;> simp

theorem settles_factsFromInputs : Settles (s.factsFromInputs id) := by
  unfold factsFromInputs
  cases s.plan.operator id <;> simp

theorem settles_simplifyGroupBy : Settles (s.simplifyGroupBy id) := by
  unfold simplifyGroupBy
  split
  · refine settles_bind (s.settles_inputFacts id 0) fun _ => ?_
    split <;> simp
  · simp

theorem settles_ensureFactsWithin (fuel : Nat) :
    ∀ s id, Settles (ensureFactsWithin fuel s id) := by
  induction fuel with
  | zero => exact fun _ _ => settles_error_iff.mpr (by simp)
  | succ fuel ih =>
    intro s id
    unfold ensureFactsWithin
    split
    · exact settles_ok _
    · refine settles_bind (settles_foldlM ih _ s) fun s => ?_
      have rest : ∀ s : Session, Settles (do
          let s ← s.simplifyGroupBy id
          let s ← (s.plan.nestedRoots id).foldlM (ensureFactsWithin fuel) s
          let facts ← s.factsFromInputs id
          return s.mapContext (·.setFacts id facts)) := fun s =>
        settles_bind (s.settles_simplifyGroupBy id) fun s =>
          settles_bind (settles_foldlM ih _ s) fun s =>
            settles_bind (s.settles_factsFromInputs id) fun _ => settles_pure _
      dsimp only
      split
      · exact settles_bind (s.plan.settles_input _ 0) fun input => settles_bind (ih s input) rest
      · exact settles_bind (settles_pure s) rest

theorem settles_facts : Settles (s.facts id) :=
  settles_bind (settles_ensureFactsWithin _ s id) fun s =>
    settles_bind (s.settles_knownFacts id) fun _ => settles_pure _

theorem settles_inlineAt (inlineable : VarSet) (slot : Slot) :
    Settles (s.inlineAt inlineable slot) := by
  have renames : ∀ used acc input, Settles (inputRenames inlineable used acc input) := by
    rintro used ⟨s, renames⟩ input
    refine settles_bind (s.plan.settles_schema input) fun visible => ?_
    dsimp only
    split
    · simp
    · exact settles_bind (s.settles_facts input) fun _ => settles_pure _
  unfold inlineAt
  split
  · simp
  · refine settles_bind (s.plan.settles_nodeAt slot) fun id => ?_
    dsimp only
    split
    · simp
    · refine settles_bind (settles_foldlM (renames _) _ _) fun _ => ?_
      split <;> simp

end Session

end QueryOptimizer
