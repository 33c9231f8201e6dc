import Mathlib
import QueryOptimizer.Proofs.Relational.Plan

/-! # Sifting

A select decides about every tuple by itself, and a condition may be true or not true of a tuple
with several outcomes. Selects therefore compose and commute item by item. The same holds for values
that are attached to tuples, such as the keys of a sort: to attach them and then to filter is to
filter and then to attach them, if every tuple has some.
-/

namespace QueryOptimizer

/-! ## Lists -/

section Lists

variable {α β : Type} {V W : α → Bool → Prop} {as bs cs : List α} {p : α → Bool}

/-- The items that are left if each one is kept or dropped as it may be. -/
inductive Sifted (V : α → Bool → Prop) : List α → List α → Prop where
  | nil : Sifted V [] []
  | keep {a : α} {as bs : List α} (verdict : V a true) (rest : Sifted V as bs) :
      Sifted V (a :: as) (a :: bs)
  | drop {a : α} {as bs : List α} (verdict : V a false) (rest : Sifted V as bs) :
      Sifted V (a :: as) bs

theorem Sifted.congr (sifted : Sifted V as bs) (same : ∀ a ∈ as, ∀ b, V a b → W a b) :
    Sifted W as bs := by
  induction sifted with
  | nil => exact .nil
  | keep verdict _ ih =>
    exact .keep (same _ List.mem_cons_self _ verdict)
      (ih fun a member => same a (List.mem_cons_of_mem _ member))
  | drop verdict _ ih =>
    exact .drop (same _ List.mem_cons_self _ verdict)
      (ih fun a member => same a (List.mem_cons_of_mem _ member))

theorem sifted_congr (same : ∀ a ∈ as, ∀ b, V a b ↔ W a b) : Sifted V as bs ↔ Sifted W as bs :=
  ⟨fun sifted => sifted.congr fun a member b => (same a member b).mp,
    fun sifted => sifted.congr fun a member b => (same a member b).mpr⟩

theorem sifted_map {f : β → α} {bs : List β} :
    Sifted V (bs.map f) cs ↔ ∃ kept, Sifted (fun b => V (f b)) bs kept ∧ cs = kept.map f := by
  constructor
  · intro sifted
    induction bs generalizing cs with
    | nil => cases sifted; exact ⟨[], .nil, rfl⟩
    | cons b bs ih =>
      cases sifted with
      | keep verdict rest =>
        obtain ⟨kept, sifted, rfl⟩ := ih rest
        exact ⟨b :: kept, .keep verdict sifted, rfl⟩
      | drop verdict rest =>
        obtain ⟨kept, sifted, rfl⟩ := ih rest
        exact ⟨kept, .drop verdict sifted, rfl⟩
  · rintro ⟨kept, sifted, rfl⟩
    induction sifted with
    | nil => exact .nil
    | keep verdict _ ih => exact .keep verdict ih
    | drop verdict _ ih => exact .drop verdict ih

/-- The second verdict counts where the first one is favourable. -/
def andThen (V W : α → Bool → Prop) (a : α) (b : Bool) : Prop :=
  V a true ∧ W a b ∨ V a false ∧ b = false

theorem sifted_sifted : (∃ bs, Sifted V as bs ∧ Sifted W bs cs) ↔ Sifted (andThen V W) as cs := by
  constructor
  · rintro ⟨bs, first, second⟩
    induction first generalizing cs with
    | nil => cases second; exact .nil
    | keep verdict _ ih =>
      cases second with
      | keep verdict' rest => exact .keep (.inl ⟨verdict, verdict'⟩) (ih rest)
      | drop verdict' rest => exact .drop (.inl ⟨verdict, verdict'⟩) (ih rest)
    | drop verdict _ ih => exact .drop (.inr ⟨verdict, rfl⟩) (ih second)
  · intro sifted
    induction sifted with
    | nil => exact ⟨[], .nil, .nil⟩
    | @keep a as cs verdict _ ih =>
      obtain ⟨bs, first, second⟩ := ih
      rcases verdict with ⟨here, later⟩ | ⟨_, impossible⟩
      · exact ⟨a :: bs, .keep here first, .keep later second⟩
      · cases impossible
    | @drop a as cs verdict _ ih =>
      obtain ⟨bs, first, second⟩ := ih
      rcases verdict with ⟨here, later⟩ | ⟨here, _⟩
      · exact ⟨a :: bs, .keep here first, .drop later second⟩
      · exact ⟨bs, .drop here first, second⟩

/-- Where every item has some verdict, the order of two siftings does not matter. -/
theorem sifted_comm (totalV : ∀ a ∈ as, ∃ b, V a b) (totalW : ∀ a ∈ as, ∃ b, W a b) :
    (∃ bs, Sifted V as bs ∧ Sifted W bs cs) ↔ ∃ bs, Sifted W as bs ∧ Sifted V bs cs := by
  have half : ∀ {V W : α → Bool → Prop} {a : α} {b : Bool}, (∃ b, W a b) →
      andThen V W a b → andThen W V a b := by
    rintro V W a b ⟨other, total⟩ (⟨first, second⟩ | ⟨first, rfl⟩)
    · cases b with
      | true => exact .inl ⟨second, first⟩
      | false => exact .inr ⟨second, rfl⟩
    · cases other with
      | true => exact .inl ⟨total, first⟩
      | false => exact .inr ⟨total, rfl⟩
  rw [sifted_sifted, sifted_sifted]
  exact sifted_congr fun a member b => ⟨half (totalW a member), half (totalV a member)⟩

theorem Sifted.exists (total : ∀ a ∈ as, ∃ b, V a b) : ∃ bs, Sifted V as bs := by
  induction as with
  | nil => exact ⟨[], .nil⟩
  | cons a as ih =>
    obtain ⟨bs, rest⟩ := ih fun a member => total a (List.mem_cons_of_mem _ member)
    obtain ⟨b, verdict⟩ := total a List.mem_cons_self
    cases b with
    | true => exact ⟨a :: bs, .keep verdict rest⟩
    | false => exact ⟨bs, .drop verdict rest⟩

theorem sifted_iff_filter (only : ∀ a ∈ as, ∀ b, V a b ↔ b = p a) :
    Sifted V as bs ↔ bs = as.filter p := by
  induction as generalizing bs with
  | nil => exact ⟨fun sifted => by cases sifted; rfl, fun same => by rw [same]; exact .nil⟩
  | cons a as ih =>
    have here := only a List.mem_cons_self
    have rest : ∀ {bs}, Sifted V as bs ↔ bs = as.filter p :=
      ih fun a member => only a (List.mem_cons_of_mem _ member)
    constructor
    · intro sifted
      cases sifted with
      | keep verdict later =>
        rw [List.filter_cons_of_pos ((here true).mp verdict).symm, rest.mp later]
      | drop verdict later =>
        rw [List.filter_cons_of_neg (by rw [← (here false).mp verdict]; decide), rest.mp later]
    · rintro rfl
      cases verdict : p a with
      | true =>
        rw [List.filter_cons_of_pos verdict]
        exact .keep ((here true).mpr verdict.symm) (rest.mpr rfl)
      | false =>
        rw [List.filter_cons_of_neg (by rw [verdict]; decide)]
        exact .drop ((here false).mpr verdict.symm) (rest.mpr rfl)

/-- Where all items that come from one item pass a test or none, the test can be made before. -/
theorem filter_flatMap_of_uniform {f : β → List α} {q : β → Bool} {bs : List β}
    (uniform : ∀ b ∈ bs, ∀ a ∈ f b, p a = q b) :
    (bs.flatMap f).filter p = (bs.filter q).flatMap f := by
  induction bs with
  | nil => rfl
  | cons b bs ih =>
    have here := uniform b List.mem_cons_self
    rw [List.flatMap_cons, List.filter_append,
      ih fun b member => uniform b (List.mem_cons_of_mem _ member)]
    cases verdict : q b with
    | true =>
      have all : (f b).filter p = f b :=
        List.filter_eq_self.mpr fun a member => (here a member).trans verdict
      rw [all, List.filter_cons_of_pos verdict, List.flatMap_cons]
    | false =>
      have none : (f b).filter p = [] := by
        refine List.filter_eq_nil_iff.mpr fun a member => ?_
        rw [here a member, verdict]
        decide
      rw [none, List.nil_append, List.filter_cons_of_neg (by rw [verdict]; decide)]

variable {R : α → β → Prop} {labels : List β}

/-- The labels of the items that pass a filter. -/
theorem forall₂_filter (each : List.Forall₂ R as labels) :
    ∃ kept, List.Forall₂ R (as.filter p) kept ∧
      (as.filter p).zip kept = (as.zip labels).filter fun entry => p entry.1 := by
  induction each with
  | nil => exact ⟨[], .nil, rfl⟩
  | @cons a label as labels here _ ih =>
    obtain ⟨kept, rest, zipped⟩ := ih
    cases verdict : p a with
    | true => exact ⟨label :: kept, by simpa [verdict] using ⟨here, rest⟩, by simp [verdict, zipped]⟩
    | false => exact ⟨kept, by simpa [verdict] using rest, by simp [verdict, zipped]⟩

/-- Labels of some items are those of all, if every item may have one. -/
theorem exists_forall₂_of_filter (total : ∀ a ∈ as, ∃ b, R a b) {kept : List β}
    (each : List.Forall₂ R (as.filter p) kept) :
    ∃ labels, List.Forall₂ R as labels ∧
      (as.filter p).zip kept = (as.zip labels).filter fun entry => p entry.1 := by
  induction as generalizing kept with
  | nil => cases each; exact ⟨[], .nil, rfl⟩
  | cons a as ih =>
    have total' : ∀ a ∈ as, ∃ b, R a b := fun a member => total a (List.mem_cons_of_mem _ member)
    cases verdict : p a with
    | true =>
      rw [List.filter_cons_of_pos verdict] at each ⊢
      cases each with
      | @cons _ label _ kept here rest =>
        obtain ⟨labels, rest, zipped⟩ := ih total' rest
        exact ⟨label :: labels, .cons here rest, by simp [verdict, zipped]⟩
    | false =>
      rw [List.filter_cons_of_neg (by rw [verdict]; decide)] at each ⊢
      obtain ⟨labels, rest, zipped⟩ := ih total' each
      obtain ⟨label, here⟩ := total a List.mem_cons_self
      exact ⟨label :: labels, .cons here rest, by simp [verdict, zipped]⟩

/-- To label items and to filter them is to filter them and to label what is left. -/
theorem exists_labels_filter_iff {γ : Type} (total : ∀ a ∈ as, ∃ b, R a b)
    (g : List (α × β) → γ) (c : γ) :
    (∃ labels, List.Forall₂ R as labels ∧ c = g ((as.zip labels).filter fun entry => p entry.1)) ↔
      ∃ labels, List.Forall₂ R (as.filter p) labels ∧ c = g ((as.filter p).zip labels) := by
  constructor
  · rintro ⟨labels, each, rfl⟩
    obtain ⟨kept, each', zipped⟩ := forall₂_filter (p := p) each
    exact ⟨kept, each', by rw [zipped]⟩
  · rintro ⟨kept, each, rfl⟩
    obtain ⟨labels, each', zipped⟩ := exists_forall₂_of_filter total each
    exact ⟨labels, each', by rw [zipped]⟩

/-- Labels of a part of a list are those of all of it, if every item may have one. -/
theorem exists_forall₂_of_window (total : ∀ a ∈ as, ∃ b, R a b) {skip count : Nat} {kept : List β}
    (each : List.Forall₂ R ((as.drop skip).take count) kept) :
    ∃ labels, List.Forall₂ R as labels ∧ (labels.drop skip).take count = kept := by
  induction as generalizing skip count kept with
  | nil =>
    rw [List.drop_nil, List.take_nil] at each
    cases each
    exact ⟨[], .nil, by simp⟩
  | cons a as ih =>
    obtain ⟨label, here⟩ := total a List.mem_cons_self
    have total' : ∀ a ∈ as, ∃ b, R a b := fun a member => total a (List.mem_cons_of_mem _ member)
    match skip, count with
    | skip + 1, count =>
      obtain ⟨labels, rest, window⟩ := ih total' each
      exact ⟨label :: labels, .cons here rest, window⟩
    | 0, 0 =>
      cases each
      have none : List.Forall₂ R ((as.drop 0).take 0) [] := .nil
      obtain ⟨labels, rest, _⟩ := ih total' none
      exact ⟨label :: labels, .cons here rest, rfl⟩
    | 0, count + 1 =>
      cases each with
      | @cons _ first _ kept here rest =>
        have part : List.Forall₂ R ((as.drop 0).take count) kept := rest
        obtain ⟨labels, all, rfl⟩ := ih total' part
        exact ⟨first :: labels, .cons here all, rfl⟩

/-- A list splits in one way into items that pass a test and items that do not. -/
theorem append_eq_append_split {q : α → Bool} {xs ys xs' ys' : List α}
    (pass : ∀ a ∈ xs, q a = true) (fail : ∀ a ∈ ys, q a = false)
    (pass' : ∀ a ∈ xs', q a = true) (fail' : ∀ a ∈ ys', q a = false)
    (same : xs ++ ys = xs' ++ ys') : xs = xs' ∧ ys = ys' := by
  have first : ∀ {ys : List α}, (∀ a ∈ ys, q a = false) → ys.takeWhile q = [] := by
    intro ys fail
    cases ys with
    | nil => rfl
    | cons y ys => exact List.takeWhile_cons_of_neg (by rw [fail y List.mem_cons_self]; decide)
  have taken := congrArg (List.takeWhile q) same
  rw [List.takeWhile_append_of_pos pass, List.takeWhile_append_of_pos pass', first fail, first fail',
    List.append_nil, List.append_nil] at taken
  exact ⟨taken, List.append_cancel_left (taken ▸ same)⟩

/-- A stable sort of a filtered list is the filtered sort. -/
theorem filter_mergeSort {le : α → α → Bool} (trans : ∀ a b c, le a b = true → le b c = true →
      le a c = true) (total : ∀ a b, (le a b || le b a) = true) (as : List α) :
    (as.mergeSort le).filter p = (as.filter p).mergeSort le := by
  induction as with
  | nil => simp
  | cons a as ih =>
    obtain ⟨before, after, sorted, rest, smaller⟩ := List.mergeSort_cons trans total a as
    cases verdict : p a with
    | false =>
      rw [List.filter_cons_of_neg (by rw [verdict]; decide), ← ih, sorted, rest]
      simp [verdict]
    | true =>
      rw [List.filter_cons_of_pos verdict]
      obtain ⟨before', after', sorted', rest', smaller'⟩ :=
        List.mergeSort_cons trans total a (as.filter p)
      rw [sorted, sorted', List.filter_append, List.filter_cons_of_pos verdict]
      -- In both lists the item stands before the first one that it may precede.
      have larger : ∀ b ∈ after, (!le a b) = false := by
        have ordered := List.pairwise_mergeSort trans total (a :: as)
        rw [sorted] at ordered
        intro b member
        rw [(List.pairwise_cons.mp (List.pairwise_append.mp ordered).2.1).1 b member]
        rfl
      have larger' : ∀ b ∈ after', (!le a b) = false := by
        have ordered := List.pairwise_mergeSort trans total (a :: as.filter p)
        rw [sorted'] at ordered
        intro b member
        rw [(List.pairwise_cons.mp (List.pairwise_append.mp ordered).2.1).1 b member]
        rfl
      have same : before.filter p ++ after.filter p = before' ++ after' := by
        rw [← List.filter_append, ← rest, ih, rest']
      obtain ⟨first, last⟩ := append_eq_append_split
        (fun b member => smaller b (List.mem_filter.mp member).1)
        (fun b member => larger b (List.mem_filter.mp member).1) smaller' larger' same
      rw [first, last]

end Lists

end QueryOptimizer
