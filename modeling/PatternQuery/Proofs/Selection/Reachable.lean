import PatternQuery.Proofs.Selection.Edits
import PatternQuery.Proofs.Selection.Selectors

/-!
# Sets of columns that can be reached

A set of columns starts empty or is taken in from a list, and is edited from then on. Edits that fail
count: they leave a set behind as well. Every set that can be reached is ordered
(`Reachable.ordered`), because each edit takes an ordered set to the set of an arrangement
(`Ordered.after_cases`), as long as there are places left for one more column.

So the places have no gaps, the test for that does not fail, and none of the additions on places that
the next edit will make wraps around (`places_of_reachable`).
-/

namespace PatternQuery

namespace ColumnSet

variable {s : ColumnSet}

/-! ### Edits of ordered sets -/

theorem map_id_subset (order : List (Fin s.columns.length)) :
    (order.map fun i => (s.columns.get i).id) ⊆ s.arrangement.selected := by
  intro id hid
  obtain ⟨i, -, rfl⟩ := List.mem_map.mp hid
  exact List.mem_map_of_mem (List.getElem_mem i.isLt)

namespace Ordered

variable (h : s.Ordered)
include h

theorem run_add (id : ColumnId) : (add id).run s =
    if id ∈ s.arrangement.selected then .error (.duplicateColumn id) s
    else .ok (s.lastOrder + 1)
      (Arrangement.mk (s.arrangement.selected ++ [id]) s.arrangement.grouped).toColumnSet := by
  have hcontains : s.contains id = true ↔ id ∈ s.arrangement.selected := by
    simp [contains, arrangement]
  rw [ColumnSet.run_add]
  by_cases hid : id ∈ s.arrangement.selected
  · rw [if_pos (hcontains.mpr hid), if_pos hid]
  · rw [if_neg (mt hcontains.mp hid), if_neg hid, h.append_eq hid]

theorem run_remove (selector : Selector) : (remove selector).run s =
    match s.resolve selector with
    | .ok i => .ok (s.columns.get i) (Arrangement.mk (s.arrangement.selected.erase (s.columns.get i).id)
        (s.arrangement.grouped.erase (s.columns.get i).id)).toColumnSet
    | .error e => .error e s := by
  rw [ColumnSet.run_remove]
  cases s.resolve selector with
  | ok i => exact congrArg _ (h.densify_eraseIdx_eq i)
  | error e => rfl

theorem run_clearGroup : clearGroup.run s =
    .ok () (Arrangement.mk s.arrangement.selected []).toColumnSet := by
  rw [ColumnSet.run_clearGroup, h.clear_eq]

theorem nodup_ids_of_resolveAll {selectors : List Selector} {order : List (Fin s.columns.length)}
    (horder : s.resolveAll [] selectors = .ok order) :
    (order.map fun i => (s.columns.get i).id).Nodup :=
  (resolveAll_eq_ok_iff.mp horder).2.1.map_on fun _ _ _ _ heq => (id_inj_iff h.nodup).mp heq

theorem run_group (selectors : List Selector) : (group selectors).run s =
    match s.resolveAll [] selectors with
    | .ok order => .ok () (Arrangement.mk s.arrangement.selected
        (order.map fun i => (s.columns.get i).id)).toColumnSet
    | .error e => .error e s := by
  rw [ColumnSet.run_group]
  cases horder : s.resolveAll [] selectors with
  | ok order =>
    have heq := h.renumber_clear_eq (map_id_subset order) (h.nodup_ids_of_resolveAll horder)
    rw [← map_val_eq h.nodup] at heq
    exact congrArg _ heq
  | error e => rfl

theorem perm_of_resolveAll {selectors : List Selector} {order : List (Fin s.columns.length)}
    (horder : s.resolveAll [] selectors = .ok order) (hlength : order.length = s.size) :
    (order.map fun i => (s.columns.get i).id).Perm s.arrangement.selected := by
  refine (List.subperm_of_subset (h.nodup_ids_of_resolveAll horder)
    (map_id_subset order)).perm_of_length_le ?_
  rw [s.length_selected, List.length_map, hlength]

theorem run_reorder (selectors : List Selector) : (reorder selectors).run s =
    match s.resolveAll [] selectors with
    | .ok order =>
      if order.length ≠ s.size then .error (.notAPermutation s.size order.length) s
      else .ok () (Arrangement.mk (order.map fun i => (s.columns.get i).id)
        s.arrangement.grouped).toColumnSet
    | .error e => .error e s := by
  rw [ColumnSet.run_reorder]
  cases horder : s.resolveAll [] selectors with
  | ok order =>
    dsimp only
    by_cases hlength : order.length = s.size
    · have heq := h.inSelectOrder_renumber_eq (h.perm_of_resolveAll horder hlength)
      rw [← map_val_eq h.nodup] at heq
      rw [if_neg (not_not.mpr hlength), if_neg (not_not.mpr hlength), heq]
    · rw [if_pos hlength, if_pos hlength]
  | error e => rfl

end Ordered

/-! ### Edits of all kinds -/

/-- The set that an edit leaves behind, whether it fails or not. -/
def leftBy {α : Type} (edit : EditM α) (s : ColumnSet) : ColumnSet :=
  match edit.run s with
  | .ok _ t => t
  | .error _ t => t

/-- An edit with its arguments. -/
inductive Edit where
  | add (id : ColumnId)
  | remove (selector : Selector)
  | reorder (selectors : List Selector)
  | group (selectors : List Selector)
  | clearGroup
  deriving Repr, DecidableEq

/-- The set that an edit of some kind leaves behind. -/
def Edit.after (s : ColumnSet) : Edit → ColumnSet
  | .add id => leftBy (ColumnSet.add id) s
  | .remove selector => leftBy (ColumnSet.remove selector) s
  | .reorder selectors => leftBy (ColumnSet.reorder selectors) s
  | .group selectors => leftBy (ColumnSet.group selectors) s
  | .clearGroup => leftBy ColumnSet.clearGroup s

/-- **What an edit does:** it leaves an ordered set as it is, or takes it to the set of a proper
arrangement with at most one more column. -/
theorem Ordered.after_cases (h : s.Ordered) (e : Edit) : e.after s = s ∨
    ∃ a : Arrangement, e.after s = a.toColumnSet ∧ a.Proper ∧ a.selected.length ≤ s.size + 1 := by
  have hlength := s.length_selected
  cases e with
  | add id =>
    rw [Edit.after, leftBy, h.run_add]
    by_cases hid : id ∈ s.arrangement.selected
    · rw [if_pos hid]
      exact .inl rfl
    · rw [if_neg hid]
      exact .inr ⟨_, rfl, h.proper.append hid, by simp [hlength]⟩
  | remove selector =>
    rw [Edit.after, leftBy, h.run_remove]
    cases s.resolve selector with
    | error e => exact .inl rfl
    | ok i =>
      exact .inr ⟨_, rfl, h.proper.erase _, (List.length_erase_le ..).trans (by omega)⟩
  | reorder selectors =>
    rw [Edit.after, leftBy, h.run_reorder]
    cases horder : s.resolveAll [] selectors with
    | error e => exact .inl rfl
    | ok order =>
      dsimp only
      by_cases hsize : order.length = s.size
      · rw [if_neg (not_not.mpr hsize)]
        refine .inr ⟨_, rfl, h.proper.of_perm (h.perm_of_resolveAll horder hsize), ?_⟩
        rw [List.length_map, hsize]
        exact Nat.le_succ _
      · rw [if_pos hsize]
        exact .inl rfl
  | group selectors =>
    rw [Edit.after, leftBy, h.run_group]
    cases horder : s.resolveAll [] selectors with
    | error e => exact .inl rfl
    | ok order =>
      exact .inr ⟨_, rfl, h.proper.regroup (h.nodup_ids_of_resolveAll horder) (map_id_subset order),
        hlength.le.trans (Nat.le_succ _)⟩
  | clearGroup =>
    rw [Edit.after, leftBy, h.run_clearGroup]
    exact .inr ⟨_, rfl, h.proper.regroup List.nodup_nil (List.nil_subset _),
      hlength.le.trans (Nat.le_succ _)⟩

/-- **An edit keeps a set ordered** while there is a place left for one more column. -/
theorem Ordered.after (h : s.Ordered) (hsize : s.size + 1 < UInt32.size) (e : Edit) :
    (e.after s).Ordered := by
  obtain heq | ⟨a, heq, hproper, hlength⟩ := h.after_cases e
  · rwa [heq]
  · rw [heq]
    exact hproper.ordered_toColumnSet (by omega)

/-! ### Runs of edits -/

/-- A set that can be reached, from the empty set or one that was taken in, by edits that may fail,
with fewer than `2 ^ 32 - 1` columns all the way. -/
inductive Reachable : ColumnSet → Prop
  | empty : Reachable .empty
  | ofColumns {cs : List Column} {s : ColumnSet} (h : ofColumns cs = .ok s)
      (hsize : s.size < UInt32.size - 1) : Reachable s
  | edit {s : ColumnSet} (h : Reachable s) (e : Edit)
      (hsize : (e.after s).size < UInt32.size - 1) : Reachable (e.after s)

theorem Reachable.size_lt (h : s.Reachable) : s.size + 1 < UInt32.size := by
  have hlimit : UInt32.size = 4294967296 := rfl
  cases h with
  | empty => decide
  | ofColumns h hsize => omega
  | edit h e hsize => omega

/-- **Every set that can be reached is ordered.** -/
theorem Reachable.ordered (h : s.Reachable) : s.Ordered := by
  induction h with
  | empty => exact ordered_empty
  | ofColumns h hsize => exact (ofColumns_eq_ok_iff.mp h).2
  | edit h e hsize ih => exact ih.after h.size_lt e

/-- The places at the first `n` positions from `start` on are exact: neither a cast of a position nor an
addition wraps around. -/
def ExactFrom (start : UInt32) (n : Nat) : Prop :=
  ∀ position < n, (orderFrom start position).toNat = start.toNat + position

theorem exactFrom_of_le {start : UInt32} {n : Nat} (h : start.toNat + n ≤ UInt32.size) :
    ExactFrom start n :=
  fun _ hposition => toNat_orderFrom start (by omega)

/-- **No overflow:** every place that an edit of the set or the test for gaps computes is exact. -/
structure NoOverflow (s : ColumnSet) : Prop where
  check : ExactFrom 1 s.columns.length ∧ ExactFrom 0 (s.columns.filterMap (·.groupOrder)).length
  add : (s.lastOrder + 1).toNat = s.lastOrder.toNat + 1
  /-- What is left after a column is dropped is numbered in both orders. -/
  remove : ∀ i : Fin s.columns.length,
    ExactFrom 1 (inSelectOrder (s.columns.eraseIdx i)).length ∧
      ExactFrom 0 (groupIndices (densifySelect (s.columns.eraseIdx i))).length
  reorder : ∀ selectors order, s.resolveAll [] selectors = .ok order → ExactFrom 1 order.length
  group : ∀ selectors order, s.resolveAll [] selectors = .ok order → ExactFrom 0 order.length

theorem length_le_size {order : List (Fin s.columns.length)} (hnodup : order.Nodup) :
    order.length ≤ s.size := by
  have hsub : order ⊆ List.finRange s.columns.length := fun i _ => List.mem_finRange i
  have := (List.subperm_of_subset hnodup hsub).length_le
  rwa [List.length_finRange] at this

theorem length_groupIndices_le (cs : List Column) : (groupIndices cs).length ≤ cs.length := by
  unfold groupIndices
  rw [List.length_map, List.length_mergeSort]
  exact (List.length_filterMap_le ..).trans (List.length_zipIdx ..).le

theorem Reachable.noOverflow (h : s.Reachable) : s.NoOverflow := by
  have hsize : s.columns.length + 1 < UInt32.size := h.size_lt
  -- No list that is numbered is longer than the list of columns.
  have hexact {start : UInt32} {n : Nat} (hstart : start.toNat ≤ 1) (hn : n ≤ s.columns.length) :
      ExactFrom start n := exactFrom_of_le (by omega)
  have hone : (1 : UInt32).toNat ≤ 1 := le_rfl
  have hzero : (0 : UInt32).toNat ≤ 1 := Nat.zero_le 1
  refine ⟨⟨hexact hone le_rfl, hexact hzero (List.length_filterMap_le ..)⟩, ?_, fun i => ?_,
    fun selectors order horder => ?_, fun selectors order horder => ?_⟩
  · rw [UInt32.toNat_add, h.ordered.toNat_lastOrder]
    exact Nat.mod_eq_of_lt h.size_lt
  · have hlength : (inSelectOrder (s.columns.eraseIdx i)).length ≤ s.columns.length := by
      rw [inSelectOrder, List.length_mergeSort]
      exact List.length_eraseIdx_le ..
    refine ⟨hexact hone hlength, hexact hzero ((length_groupIndices_le _).trans ?_)⟩
    rw [densifySelect, List.length_mapIdx]
    exact hlength
  · exact hexact hone (length_le_size (resolveAll_eq_ok_iff.mp horder).2.1)
  · exact hexact hzero (length_le_size (resolveAll_eq_ok_iff.mp horder).2.1)

/-- **Places in every set that can be reached.** The columns stand in the order of their places of
display, which are `1, …, n`; the places of grouping are `0, …, m - 1`, each once; no column is there
twice; the test of all this succeeds; and no place that the next edit computes wraps around. -/
theorem places_of_reachable (s : ColumnSet) (h : s.Reachable) :
    s.columns.Pairwise (fun a b => a.selectOrder ≤ b.selectOrder) ∧
    (∀ i (hi : i < s.columns.length), s.columns[i].selectOrder.toNat = i + 1) ∧
    ((s.columns.filterMap (·.groupOrder)).map UInt32.toNat).Perm
      (List.range (s.columns.filterMap (·.groupOrder)).length) ∧
    s.columns.Pairwise (fun a b => (a.id.field, a.id.schema) ≠ (b.id.field, b.id.schema)) ∧
    s.checkInvariants = .ok () ∧
    s.NoOverflow := by
  have hordered := h.ordered
  have hids : s.columns.Pairwise fun a b => a.id ≠ b.id := List.pairwise_map.mp hordered.nodup
  refine ⟨?_, fun i hi => hordered.toNat_selectOrder hi, hordered.groupOrders, ?_,
    hordered.checkInvariants_eq, h.noOverflow⟩
  · exact hordered.pairwise_selectOrder.imp fun hlt => UInt32.le_iff_toNat_le.mpr hlt.le
  · refine hids.imp fun {a b} hne heq => hne ?_
    obtain ⟨hfield, hschema⟩ := Prod.mk.inj heq
    exact congrArg₂ ColumnId.mk hfield hschema

/-- The set with the two columns `name` and `total`, grouped by the second. An edit that fails is on
the way. -/
def twoColumns : ColumnSet :=
  [.add ⟨"name", "Customer"⟩, .add ⟨"total", "Order"⟩, .add ⟨"name", "Customer"⟩,
    .group [.field "total"]].foldl Edit.after empty

theorem reachable_twoColumns : twoColumns.Reachable := by
  refine .edit (.edit (.edit (.edit .empty (.add ⟨"name", "Customer"⟩) ?_)
    (.add ⟨"total", "Order"⟩) ?_) (.add ⟨"name", "Customer"⟩) ?_) (.group [.field "total"]) ?_
  all_goals decide

theorem places_of_twoColumns : twoColumns.Reachable ∧
    twoColumns.checkInvariants = .ok () ∧ twoColumns.NoOverflow ∧
      ∀ i (hi : i < twoColumns.columns.length),
        twoColumns.columns[i].selectOrder.toNat = i + 1 := by
  obtain ⟨-, hselect, -, -, hcheck, hoverflow⟩ :=
    places_of_reachable twoColumns reachable_twoColumns
  exact ⟨reachable_twoColumns, hcheck, hoverflow, hselect⟩

end ColumnSet

end PatternQuery
