import Mathlib
import QueryOptimizer.Proofs.Derivation.Typed

/-! # Sizes that are found on a plan

The size of a node is estimated from those of its inputs. Estimates leave the plan as it is, and do not
depend on how it is grouped.
-/

namespace QueryOptimizer

namespace Plan

variable {plan plan' : Plan} {catalog : Catalog} {n : NodeId}

/-- Whether the size of a node follows from those of its inputs. -/
def SizeFollows (plan : Plan) (catalog : Catalog) (n : NodeId) (notes : NodeId → Size) (size : Size) :
    Prop :=
  Session.sizeFromInputs { plan := plan, context := { catalog := catalog } } n
    ((plan.inputs n).map notes) = .ok size

/-- The estimated size of a node. -/
def HasSize (plan : Plan) (catalog : Catalog) : NodeId → Size → Prop :=
  Grounded plan.inputs (plan.SizeFollows catalog)

theorem HasSize.unique {size size' : Size} (first : plan.HasSize catalog n size)
    (second : plan.HasSize catalog n size') : size = size' := by
  refine Grounded.unique (fun same follow follow' => ?_) first second
  unfold SizeFollows at follow
  rw [List.map_congr_left same] at follow
  exact Except.ok.inj (follow.symm.trans follow')

/-- Which entries of a group-by are keys makes no difference to sizes. -/
theorem HasSize.regrouped {size : Size} (regrouped : plan.Regrouped plan')
    (sizes : plan.HasSize catalog n size) : plan'.HasSize catalog n size := by
  refine Grounded.transfer (fun _ => True) sizes trivial (fun _ _ _ _ => trivial)
    (fun n _ => regrouped.inputs n) fun {n notes size} _ _ follow => ?_
  unfold SizeFollows Session.sizeFromInputs at follow ⊢
  have same := regrouped.operator n
  dsimp only at follow ⊢
  rw [regrouped.inputs]
  generalize plan.operator n = op, plan'.operator n = op' at same follow ⊢
  cases same with
  | same => exact follow
  | groupBy => exact follow

end Plan

namespace Session

variable {s s' : Session} {id : NodeId} {fuel : Nat} {size : Size}

/-- Whether the noted sizes are found on the plan. -/
def SizesFound (s : Session) : Prop := ∀ n size, s.plan.Reaches n →
  s.context.sizes.get? n = some size → s.plan.HasSize s.context.catalog n size

/-- A session that differs in notes about sizes, all of which are found on the plan. -/
def Resizes (s t : Session) : Prop :=
  t.plan = s.plan ∧ t.context.catalog = s.context.catalog ∧ t.SizesFound

/-- The size of a node, unknown if it is not noted. -/
def sizeAt (s : Session) (n : NodeId) : Size := (s.context.sizes.get? n).getD .unknown

theorem sizeWithin_cases (done : sizeWithin (fuel + 1) s id = .ok (s', size)) :
    s.context.sizes.get? id = some size ∧ s' = s ∨
    ∃ s₁ sizes, s.context.sizes.get? id = none ∧
      (s.plan.inputs id).foldlM (fun (acc : Session × List Size) n => do
        let (s, size) ← sizeWithin fuel acc.1 n
        return (s, acc.2 ++ [size])) (s, []) = .ok (s₁, sizes) ∧
      s₁.sizeFromInputs id sizes = .ok size ∧ s' = s₁.mapContext (·.setSize id size) := by
  unfold sizeWithin at done
  split at done
  · rename_i known
    cases done
    exact .inl ⟨known, rfl⟩
  · rename_i unknown
    obtain ⟨⟨s₁, sizes⟩, collected, done⟩ := bind_ok_iff.mp done
    obtain ⟨size, estimated, done⟩ := bind_ok_iff.mp done
    cases pure_ok_iff.mp done
    exact .inr ⟨s₁, sizes, unknown, collected, estimated, rfl⟩

theorem foldl_snoc {α : Type} (l : List α) (start : List α) :
    l.foldl (fun sizes size => sizes ++ [size]) start = start ++ l := by
  induction l generalizing start with
  | nil => rw [List.foldl_nil, List.append_nil]
  | cons a l ih => rw [List.foldl_cons, ih, List.append_assoc, List.singleton_append]

/-- An estimate notes what is found on the plan. -/
theorem SizesFound.sizeWithin (found : s.SizesFound) (reached : s.plan.Reaches id)
    (done : Session.sizeWithin fuel s id = .ok (s', size)) :
    s'.SizesFound ∧ (∀ m u, s.context.sizes.get? m = some u → s'.context.sizes.get? m = some u) ∧
      s'.context.sizes.get? id = some size := by
  induction fuel generalizing s s' id size with
  | zero => cases done
  | succ fuel ih =>
    rcases sizeWithin_cases done with ⟨known, rfl⟩ | ⟨s₁, sizes, _, collected, estimated, rfl⟩
    · exact ⟨found, fun _ _ known => known, known⟩
    obtain ⟨⟨plan, catalog, found₁⟩, kept, known, rfl⟩ := foldlM_notes
      (fun s => s.context.sizes.get?) (fun sizes size => sizes ++ [size]) .unknown
      (fun n member {t t' v} (resizes : s.Resizes t) done => by
        obtain ⟨plan, catalog, found⟩ := resizes
        obtain ⟨found', kept, noted⟩ := ih found (plan ▸ reached.input member) done
        obtain ⟨sizes, rfl⟩ := sizeWithin_frame done
        exact ⟨⟨plan, catalog, found'⟩, kept, noted⟩) ⟨rfl, rfl, found⟩ collected
    rw [foldl_snoc, List.nil_append] at estimated
    have sized : s₁.plan.HasSize s₁.context.catalog id size := by
      refine @Grounded.node _ _ _ _ s₁.sizeAt _ (fun c member => ?_) ?_
      · rw [plan] at member
        obtain ⟨size, noted⟩ := known c member
        have here : s₁.sizeAt c = size := by
          unfold sizeAt
          rw [noted]
          rfl
        rw [here]
        exact found₁ c size (plan ▸ reached.input member) noted
      · rw [← plan] at estimated
        exact estimated
    obtain ⟨found', kept', noted⟩ :=
      NodeTable.insert_found found₁ (plan ▸ reached) sized fun other => other.unique sized
    exact ⟨found', fun m size noted => kept' m size (kept m size noted), noted⟩

/-- Sizes that are found on a plan are estimated there. -/
theorem SizesFound.exists_sizeWithin {rank : NodeId → Nat} (found : s.SizesFound)
    (falls : s.plan.RankedBy rank) (reached : s.plan.Reaches id)
    (sized : s.plan.HasSize s.context.catalog id size) (enough : rank id < fuel) :
    ∃ s', Session.sizeWithin fuel s id = .ok (s', size) := by
  suffices ∃ s' size', Session.sizeWithin fuel s id = .ok (s', size') by
    obtain ⟨s', size', done⟩ := this
    obtain ⟨found', _, noted⟩ := found.sizeWithin reached done
    obtain ⟨table, rfl⟩ := sizeWithin_frame done
    rw [sized.unique (found' id size' reached noted)]
    exact ⟨_, done⟩
  induction fuel generalizing s id size with
  | zero => omega
  | succ fuel ih =>
    unfold Session.sizeWithin
    split
    · exact ⟨s, _, rfl⟩
    cases sized with
    | @node _ notes _ sources follow =>
      have sound : ∀ n ∈ s.plan.inputs id, ∀ {t t' v}, s.Resizes t →
          Session.sizeWithin fuel t n = .ok (t', v) → s.Resizes t' ∧
            (∀ m u, t.context.sizes.get? m = some u → t'.context.sizes.get? m = some u) ∧
            t'.context.sizes.get? n = some v := by
        rintro n member t t' v ⟨plan, catalog, found⟩ done
        obtain ⟨found', kept, noted⟩ := found.sizeWithin (plan ▸ reached.input member) done
        obtain ⟨sizes, rfl⟩ := sizeWithin_frame done
        exact ⟨⟨plan, catalog, found'⟩, kept, noted⟩
      obtain ⟨s₁, sizes, collected, resizes⟩ := exists_foldlM_notes
        (Session.sizeWithin fuel) (fun sizes size => sizes ++ [size])
        (fun n (member : n ∈ s.plan.inputs id) {t} (resizes : s.Resizes t) => by
          have ⟨plan, catalog, found'⟩ := resizes
          have lower := falls _ reached n (Plan.mem_sources_of_input member)
          obtain ⟨t', v, done⟩ := ih (s := t) found' (plan ▸ falls)
            (plan ▸ reached.input member) (by rw [plan, catalog]; exact sources n member) (by omega)
          exact ⟨t', v, done, (sound n member resizes done).1⟩) ⟨rfl, rfl, found⟩ []
      obtain ⟨⟨plan, catalog, found₁⟩, _, known, rfl⟩ := foldlM_notes
        (fun s => s.context.sizes.get?) (fun sizes size => sizes ++ [size]) .unknown
        sound ⟨rfl, rfl, found⟩ collected
      have same : (s.plan.inputs id).map s₁.sizeAt = (s.plan.inputs id).map notes := by
        refine List.map_congr_left fun c member => ?_
        obtain ⟨size, noted⟩ := known c member
        have sized := found₁ c size (plan ▸ reached.input member) noted
        rw [plan, catalog] at sized
        unfold sizeAt
        rw [noted, Plan.HasSize.unique sized (sources c member)]
        rfl
      refine ⟨_, size, bind_ok_iff.mpr ⟨_, collected, bind_ok_iff.mpr ⟨size, ?_, rfl⟩⟩⟩
      rw [← plan, ← catalog] at follow
      unfold sizeAt at same
      rw [foldl_snoc, List.nil_append, same, ← plan]
      exact follow

end Session

end QueryOptimizer
