import Mathlib
import QueryOptimizer.Failure

/-! # Computations that succeed

A computation that may fail is opened from its result: what a successful sequence, fold or list of
computations says about its parts.
-/

namespace QueryOptimizer

variable {ε α β γ : Type} {l : List α} {f : α → Except ε β}

theorem bind_ok_iff {x : Except ε α} {b : β} : (x >>= f) = .ok b ↔ ∃ a, x = .ok a ∧ f a = .ok b := by
  cases x with
  | error e => simp [bind, Except.bind]
  | ok a => simp [bind, Except.bind]

theorem pure_ok_iff {a b : α} : (pure a : Except ε α) = .ok b ↔ a = b := by
  simp [pure, Except.pure]

theorem toOption_eq_some_iff {x : Except ε α} {a : α} : x.toOption = some a ↔ x = .ok a := by
  cases x <;> simp [Except.toOption]

theorem throw_ne_ok {e : ε} {a : α} : (throw e : Except ε α) ≠ .ok a := by
  intro impossible
  cases impossible

theorem bind_throw_ne_ok {x : Except ε α} {e : α → ε} {b : β} :
    (x >>= fun a => throw (e a)) ≠ .ok b := by
  intro impossible
  obtain ⟨_, _, impossible⟩ := bind_ok_iff.mp impossible
  exact throw_ne_ok impossible

theorem foldlM_nil_ok_iff {f : β → α → Except ε β} {b b' : β} :
    [].foldlM f b = .ok b' ↔ b = b' := by
  rw [List.foldlM_nil, pure_ok_iff]

theorem foldlM_cons_ok_iff {f : β → α → Except ε β} {b b' : β} {a : α} :
    (a :: l).foldlM f b = .ok b' ↔ ∃ c, f b a = .ok c ∧ l.foldlM f c = .ok b' := by
  rw [List.foldlM_cons, bind_ok_iff]

/-- What every step of a fold keeps, the fold keeps. -/
theorem foldl_keeps (P : β → Prop) {f : β → α → β} {b : β} (step : ∀ a ∈ l, ∀ c, P c → P (f c a))
    (start : P b) : P (l.foldl f b) :=
  List.foldlRecOn l f start fun c h a member => step a member c h

/-- What every step of a fold that may fail keeps, the fold keeps. -/
theorem foldlM_keeps (P : β → Prop) {f : β → α → Except ε β} {b b' : β}
    (step : ∀ a ∈ l, ∀ c c', P c → f c a = .ok c' → P c') (start : P b) (done : l.foldlM f b = .ok b') :
    P b' := by
  induction l generalizing b with
  | nil => exact foldlM_nil_ok_iff.mp done ▸ start
  | cons a l ih =>
    obtain ⟨c, first, rest⟩ := foldlM_cons_ok_iff.mp done
    exact ih (fun a' member => step a' (List.mem_cons_of_mem _ member))
      (step a List.mem_cons_self b c start first) rest

/-- A loop each of whose steps succeeds and keeps an invariant. -/
theorem exists_foldlM_ok (P : β → Prop) {f : β → α → Except ε β} {b : β}
    (step : ∀ a ∈ l, ∀ c, P c → ∃ c', f c a = .ok c' ∧ P c') (start : P b) :
    ∃ b', l.foldlM f b = .ok b' ∧ P b' := by
  induction l generalizing b with
  | nil => exact ⟨b, rfl, start⟩
  | cons a l ih =>
    obtain ⟨c, first, kept⟩ := step a List.mem_cons_self b start
    obtain ⟨b', rest, last⟩ := ih (fun a member => step a (List.mem_cons_of_mem _ member)) kept
    exact ⟨b', foldlM_cons_ok_iff.mpr ⟨c, first, rest⟩, last⟩

theorem mapM_nil_ok_iff {bs : List β} : [].mapM f = .ok bs ↔ bs = [] := by
  rw [List.mapM_nil, pure_ok_iff, eq_comm]

theorem mapM_cons_ok_iff {a : α} {bs : List β} :
    (a :: l).mapM f = .ok bs ↔ ∃ b bs', f a = .ok b ∧ l.mapM f = .ok bs' ∧ bs = b :: bs' := by
  rw [List.mapM_cons, bind_ok_iff]
  constructor
  · rintro ⟨b, first, rest⟩
    obtain ⟨bs', rest, last⟩ := bind_ok_iff.mp rest
    exact ⟨b, bs', first, rest, (pure_ok_iff.mp last).symm⟩
  · rintro ⟨b, bs', first, rest, rfl⟩
    exact ⟨b, first, bind_ok_iff.mpr ⟨bs', rest, rfl⟩⟩

/-- A list of computations succeeds exactly if each of them does. -/
theorem mapM_ok_iff_forall₂ {bs : List β} :
    l.mapM f = .ok bs ↔ List.Forall₂ (fun a b => f a = .ok b) l bs := by
  induction l generalizing bs with
  | nil => rw [mapM_nil_ok_iff, List.forall₂_nil_left_iff]
  | cons a l ih =>
    rw [mapM_cons_ok_iff, List.forall₂_cons_left_iff]
    constructor
    · rintro ⟨b, bs', first, rest, rfl⟩
      exact ⟨b, bs', first, ih.mp rest, rfl⟩
    · rintro ⟨b, bs', first, rest, rfl⟩
      exact ⟨b, bs', first, ih.mpr rest, rfl⟩

/-- A list of optional values is there exactly if each of them is. -/
theorem mapM_some_iff_forall₂ {f : α → Option β} {bs : List β} :
    l.mapM f = some bs ↔ List.Forall₂ (fun a b => f a = some b) l bs := by
  induction l generalizing bs with
  | nil => simp [eq_comm]
  | cons a l ih =>
    simp only [List.mapM_cons, List.forall₂_cons_left_iff, ← ih, Option.bind_eq_bind,
      Option.bind_eq_some_iff]
    constructor
    · rintro ⟨b, here, bs', rest, same⟩
      exact ⟨b, bs', here, rest, (Option.some.inj same).symm⟩
    · rintro ⟨b, bs', here, rest, rfl⟩
      exact ⟨b, here, bs', rest, rfl⟩

/-- Some results are returned exactly if each computation has one. -/
theorem exists_mapM_ok_iff : (∃ bs, l.mapM f = .ok bs) ↔ ∀ a ∈ l, ∃ b, f a = .ok b := by
  induction l with
  | nil => exact ⟨fun _ a impossible => (nomatch impossible), fun _ => ⟨[], rfl⟩⟩
  | cons a l ih =>
    rw [List.forall_mem_cons, ← ih]
    constructor
    · rintro ⟨_, done⟩
      obtain ⟨b, bs, first, rest, _⟩ := mapM_cons_ok_iff.mp done
      exact ⟨⟨b, first⟩, bs, rest⟩
    · rintro ⟨⟨b, first⟩, bs, rest⟩
      exact ⟨b :: bs, mapM_cons_ok_iff.mpr ⟨b, bs, first, rest, rfl⟩⟩

end QueryOptimizer
