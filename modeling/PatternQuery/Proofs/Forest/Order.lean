import Mathlib.Data.List.Sort
import PatternQuery.Graph.Forest

/-!
# The canonical order of forests

`Forest.canonical` sorts every level of a forest. Trees are compared by their labels and then, level by
level, by the forests below them, and trees that compare equal keep their order.

`compareBy` orders forests as soon as its comparison orders labels: the instances below carry
orientation and lawful equality over from labels to forests, and `chained_compareBy` does so for
transitivity. With them

* `canonical_canonical`: a forest in canonical order is left alone, trees that compare equal
  included, because a tree is put in front of the first one that is not smaller;
* `canonical_eq_canonical_iff`: two forests have the same canonical form iff their trees, each with
  its own canonical form below the root, are the same up to order;
* `map_canonical`: a relabelling that respects the comparison commutes with sorting.

The second one goes through `trees_canonical`: on the list of trees, `canonical` is insertion sort.
-/

namespace PatternQuery

open Std

/-- **The canonical order.** Sorts the forests below the roots first and then the trees, the last
tree first, so that trees which compare equal keep their order. -/
def Forest.canonical {α : Type} (cmp : α → α → Ordering) : Forest α → Forest α
  | nil => nil
  | cons a below rest => insertBy cmp a (below.canonical cmp) (rest.canonical cmp)

/-! ### Chains of comparisons -/

/-- What transitivity says of the three comparisons among `a`, `b` and `c`: two steps up are a step
up, and end level only if both of them were level. Unlike transitivity of one comparison function,
this survives `Ordering.then` with outcomes that come from elsewhere. -/
def Chained (ab bc ac : Ordering) : Prop :=
  ab.isLE → bc.isLE → ac.isLE ∧ (ac = .eq → ab = .eq ∧ bc = .eq)

theorem Chained.then {ab bc ac ab' bc' ac' : Ordering} (h : Chained ab bc ac)
    (h' : Chained ab' bc' ac') : Chained (ab.then ab') (bc.then bc') (ac.then ac') := by
  cases ab <;> cases bc <;> cases ac <;> simp_all [Chained]

theorem chained_of_transCmp {α : Type} {cmp : α → α → Ordering} [TransCmp cmp] (a b c : α) :
    Chained (cmp a b) (cmp b c) (cmp a c) := by
  intro hab hbc
  refine ⟨TransCmp.isLE_trans hab hbc, fun hac => ?_⟩
  have hca : (cmp c a).isLE := Ordering.isLE_of_eq_eq (OrientedCmp.eq_symm hac)
  exact ⟨OrientedCmp.isLE_antisymm hab (TransCmp.isLE_trans hbc hca),
    OrientedCmp.isLE_antisymm hbc (TransCmp.isLE_trans hca hab)⟩

namespace Forest

variable {α β : Type} {cmp : α → α → Ordering}

/-! ### Forests are ordered -/

instance [OrientedCmp cmp] : OrientedCmp (compareBy cmp) where
  eq_swap {f g} := by
    induction f generalizing g with
    | nil => cases g <;> rfl
    | cons a below rest ihb ihr =>
      cases g with
      | nil => rfl
      | cons b below' rest' =>
        rw [compareBy, compareBy, @OrientedCmp.eq_swap _ cmp _ a b, ihb, ihr,
          Ordering.swap_then, Ordering.swap_then]

/-- **Transitivity** goes over from labels to forests. -/
theorem chained_compareBy [TransCmp cmp] (f g h : Forest α) :
    Chained (compareBy cmp f g) (compareBy cmp g h) (compareBy cmp f h) := by
  induction f generalizing g h with
  | nil => cases g <;> cases h <;> simp [compareBy, Chained]
  | cons a below rest ihb ihr =>
    cases g with
    | nil => simp [compareBy, Chained]
    | cons b below' rest' =>
      cases h with
      | nil => simp [compareBy, Chained]
      | cons c below'' rest'' =>
        exact (chained_of_transCmp a b c).then ((ihb below' below'').then (ihr rest' rest''))

instance [OrientedCmp cmp] [LawfulEqCmp cmp] : LawfulEqCmp (compareBy cmp) where
  eq_of_compare {f g} h := by
    induction f generalizing g with
    | nil => cases g with
      | nil => rfl
      | cons => exact absurd h (by simp [compareBy])
    | cons a below rest ihb ihr =>
      cases g with
      | nil => exact absurd h (by simp [compareBy])
      | cons b below' rest' =>
        rw [compareBy, Ordering.then_eq_eq, Ordering.then_eq_eq] at h
        obtain ⟨ha, hb, hr⟩ := h
        rw [LawfulEqCmp.eq_of_compare ha, ihb hb, ihr hr]

/-! ### Trees are ordered -/

/-- Compares two trees by their root labels and then by the forests below. -/
def compareTrees (cmp : α → α → Ordering) (s t : α × Forest α) : Ordering :=
  (cmp s.1 t.1).then (compareBy cmp s.2 t.2)

/-- A tree may stand in front of another. -/
def TreeLE (cmp : α → α → Ordering) (s t : α × Forest α) : Prop :=
  (compareTrees cmp s t).isLE = true

instance : DecidableRel (TreeLE cmp) := fun _ _ => inferInstanceAs (Decidable (_ = true))

instance [OrientedCmp cmp] : OrientedCmp (compareTrees cmp) where
  eq_swap {s t} := by
    rw [compareTrees, compareTrees, @OrientedCmp.eq_swap _ cmp _ s.1 t.1,
      @OrientedCmp.eq_swap _ (compareBy cmp) _ s.2 t.2, Ordering.swap_then]

instance [TransCmp cmp] : TransCmp (compareTrees cmp) where
  isLE_trans {s t u} hst htu :=
    ((chained_of_transCmp s.1 t.1 u.1).then (chained_compareBy s.2 t.2 u.2) hst htu).1

instance [OrientedCmp cmp] : Std.Total (TreeLE cmp) where
  total s t := by
    by_cases h : (compareTrees cmp s t).isLE
    · exact .inl h
    · exact .inr (Ordering.isLE_of_eq_lt (OrientedCmp.lt_of_not_isLE h))

instance [TransCmp cmp] : IsTrans (α × Forest α) (TreeLE cmp) where
  trans _ _ _ hst htu := TransCmp.isLE_trans hst htu

instance [OrientedCmp cmp] [LawfulEqCmp cmp] : Std.Antisymm (TreeLE cmp) where
  antisymm s t hst hts := by
    have h : compareTrees cmp s t = .eq := OrientedCmp.isLE_antisymm hst hts
    rw [compareTrees, Ordering.then_eq_eq] at h
    exact Prod.ext (LawfulEqCmp.eq_of_compare h.1) (LawfulEqCmp.eq_of_compare h.2)

/-! ### Sorting is insertion sort on trees -/

theorem trees_injective : Function.Injective (trees : Forest α → List (α × Forest α)) := by
  intro f g h
  induction f generalizing g with
  | nil => cases g with
    | nil => rfl
    | cons => simp [trees] at h
  | cons a below rest _ ihr =>
    cases g with
    | nil => simp [trees] at h
    | cons b below' rest' =>
      simp only [trees, List.cons.injEq, Prod.mk.injEq] at h
      rw [h.1.1, h.1.2, ihr h.2]

theorem insertBy_of_le {a b : α} {below below' : Forest α} (rest : Forest α)
    (h : TreeLE cmp (a, below) (b, below')) :
    insertBy cmp a below (cons b below' rest) = cons a below (cons b below' rest) :=
  if_pos h

theorem insertBy_of_not_le {a b : α} {below below' : Forest α} (rest : Forest α)
    (h : ¬ TreeLE cmp (a, below) (b, below')) :
    insertBy cmp a below (cons b below' rest) = cons b below' (insertBy cmp a below rest) :=
  if_neg h

theorem trees_insertBy (a : α) (below f : Forest α) :
    (insertBy cmp a below f).trees = f.trees.orderedInsert (TreeLE cmp) (a, below) := by
  induction f with
  | nil => rfl
  | cons b below' rest _ ihr =>
    by_cases h : TreeLE cmp (a, below) (b, below')
    · rw [insertBy_of_le _ h, trees, trees, List.orderedInsert_cons_of_le _ _ h]
    · rw [insertBy_of_not_le _ h, trees, trees, List.orderedInsert_of_not_le _ _ h, ihr]

/-- On the trees of a forest, `sortBy` is insertion sort. -/
theorem trees_sortBy (f : Forest α) :
    (f.sortBy cmp).trees = f.trees.insertionSort (TreeLE cmp) := by
  induction f with
  | nil => rfl
  | cons a below rest _ ihr =>
    rw [sortBy, trees_insertBy, ihr, trees, List.insertionSort_cons]

/-- **On its trees, `canonical` is insertion sort.** Below every root it has been applied first. -/
theorem trees_canonical (f : Forest α) :
    (f.canonical cmp).trees =
      (f.trees.map fun t => (t.1, t.2.canonical cmp)).insertionSort (TreeLE cmp) := by
  induction f with
  | nil => rfl
  | cons a below rest _ ihr =>
    rw [canonical, trees_insertBy, ihr, trees, List.map_cons, List.insertionSort_cons]

/-- **Forests with the same canonical form** are those whose trees are the same up to order, each
with its own canonical form below the root. -/
theorem canonical_eq_canonical_iff [TransCmp cmp] [LawfulEqCmp cmp] {f g : Forest α} :
    f.canonical cmp = g.canonical cmp ↔
      (f.trees.map fun t => (t.1, t.2.canonical cmp)).Perm
        (g.trees.map fun t => (t.1, t.2.canonical cmp)) := by
  constructor
  · intro h
    have ht := congrArg trees h
    rw [trees_canonical, trees_canonical] at ht
    refine (List.perm_insertionSort (TreeLE cmp) _).symm.trans ?_
    rw [ht]
    exact List.perm_insertionSort _ _
  · intro h
    apply trees_injective
    rw [trees_canonical, trees_canonical]
    refine List.Perm.eq_of_pairwise' (r := TreeLE cmp) (List.pairwise_insertionSort _ _)
      (List.pairwise_insertionSort _ _) ?_
    exact (List.perm_insertionSort _ _).trans (h.trans (List.perm_insertionSort _ _).symm)

/-! ### Sorted forests -/

/-- Every level of the forest ascends. -/
def Sorted (cmp : α → α → Ordering) : Forest α → Prop
  | nil => True
  | cons a below rest =>
    below.Sorted cmp ∧ rest.Sorted cmp ∧ ∀ t ∈ rest.trees, TreeLE cmp (a, below) t

theorem Sorted.insertBy [TransCmp cmp] {a : α} {below f : Forest α} (hb : below.Sorted cmp)
    (hf : f.Sorted cmp) : (insertBy cmp a below f).Sorted cmp := by
  induction f with
  | nil => exact ⟨hb, trivial, by simp [trees]⟩
  | cons b below' rest _ ihr =>
    obtain ⟨hb', hr, hle⟩ := hf
    by_cases h : TreeLE cmp (a, below) (b, below')
    · rw [insertBy_of_le _ h]
      refine ⟨hb, ⟨hb', hr, hle⟩, fun t ht => ?_⟩
      rcases List.mem_cons.mp ht with rfl | ht
      · exact h
      · exact IsTrans.trans _ _ _ h (hle t ht)
    · rw [insertBy_of_not_le _ h]
      refine ⟨hb', ihr hr, fun t ht => ?_⟩
      rw [trees_insertBy, List.mem_orderedInsert] at ht
      rcases ht with rfl | ht
      · exact (total_of (TreeLE cmp) _ _).resolve_left h
      · exact hle t ht

theorem sorted_canonical [TransCmp cmp] (f : Forest α) : (f.canonical cmp).Sorted cmp := by
  induction f with
  | nil => trivial
  | cons a below rest ihb ihr => exact ihb.insertBy ihr

/-- Sorting leaves a sorted forest alone. -/
theorem Sorted.canonical_eq {f : Forest α} (h : f.Sorted cmp) : f.canonical cmp = f := by
  induction f with
  | nil => rfl
  | cons a below rest ihb ihr =>
    obtain ⟨hb, hr, hle⟩ := h
    rw [canonical, ihb hb, ihr hr]
    cases rest with
    | nil => rfl
    | cons b below' rest' => exact insertBy_of_le rest' (hle (b, below') (by simp [trees]))

theorem Sorted.pairwise_trees {f : Forest α} (h : f.Sorted cmp) : f.trees.Pairwise (TreeLE cmp) := by
  induction f with
  | nil => exact List.Pairwise.nil
  | cons a below rest _ ihr =>
    obtain ⟨-, hrest, hle⟩ := h
    exact List.pairwise_cons.mpr ⟨hle, ihr hrest⟩

/-- The trees of a sorted forest are sorted below their roots. -/
theorem Sorted.map_trees_canonical {f : Forest α} (h : f.Sorted cmp) :
    (f.trees.map fun t => (t.1, t.2.canonical cmp)) = f.trees := by
  induction f with
  | nil => rfl
  | cons a below rest _ ihr =>
    obtain ⟨hbelow, hrest, -⟩ := h
    rw [trees, List.map_cons, ihr hrest, hbelow.canonical_eq]

/-- **Sorting twice is sorting once.** -/
theorem canonical_canonical [TransCmp cmp] (f : Forest α) :
    (f.canonical cmp).canonical cmp = f.canonical cmp :=
  (sorted_canonical f).canonical_eq

/-! ### Relabelling -/

section Map

variable {cmp' : β → β → Ordering} {r : α → β}

theorem map_map {γ : Type} (s : β → γ) (f : Forest α) : (f.map r).map s = f.map (s ∘ r) := by
  induction f with
  | nil => rfl
  | cons a below rest ihb ihr => rw [map, map, map, ihb, ihr, Function.comp]

theorem compareBy_map (hr : ∀ a b, cmp' (r a) (r b) = cmp a b) (f g : Forest α) :
    compareBy cmp' (f.map r) (g.map r) = compareBy cmp f g := by
  induction f generalizing g with
  | nil => cases g <;> rfl
  | cons a below rest ihb ihr =>
    cases g with
    | nil => rfl
    | cons b below' rest' => rw [map, map, compareBy, compareBy, hr, ihb, ihr]

theorem map_insertBy (hr : ∀ a b, cmp' (r a) (r b) = cmp a b) (a : α) (below f : Forest α) :
    (insertBy cmp a below f).map r = insertBy cmp' (r a) (below.map r) (f.map r) := by
  induction f with
  | nil => rfl
  | cons b below' rest _ ihr =>
    rw [map, insertBy, insertBy, hr, compareBy_map hr, apply_ite (map r), map, map, map, ihr]

theorem trees_map (f : Forest α) : (f.map r).trees = f.trees.map fun t => (r t.1, t.2.map r) := by
  induction f with
  | nil => rfl
  | cons a below rest _ ihr => rw [map, trees, trees, ihr, List.map_cons]

/-- **A relabelling keeps sorted forests sorted,** if the labels compare the same before and after. -/
theorem Sorted.map (hr : ∀ a b, cmp' (r a) (r b) = cmp a b) {f : Forest α} (h : f.Sorted cmp) :
    (f.map r).Sorted cmp' := by
  induction f with
  | nil => trivial
  | cons a below rest ihb ihr =>
    obtain ⟨hbelow, hrest, hle⟩ := h
    refine ⟨ihb hbelow, ihr hrest, fun t ht => ?_⟩
    rw [trees_map] at ht
    obtain ⟨s, hs, rfl⟩ := List.mem_map.mp ht
    have hle := hle s hs
    rw [TreeLE, compareTrees] at hle ⊢
    rwa [hr, compareBy_map hr]

/-- **Sorting does not look at what a relabelling forgets,** if the labels compare the same before
and after. -/
theorem map_canonical (hr : ∀ a b, cmp' (r a) (r b) = cmp a b) (f : Forest α) :
    (f.canonical cmp).map r = (f.map r).canonical cmp' := by
  induction f with
  | nil => rfl
  | cons a below rest ihb ihr => rw [canonical, map_insertBy hr, ihb, ihr, map, canonical]

end Map

end Forest

end PatternQuery
