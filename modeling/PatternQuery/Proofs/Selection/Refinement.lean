import PatternQuery.Proofs.Selection.Reachable

/-!
# A set of columns behaves as two lists

The places in a set of columns are bookkeeping. What an edit does can be said in terms of the two lists
of its arrangement alone: when it fails, what it gives, and what becomes of the lists (`Refines`). This
holds of every set that can be reached, and such a set is known once its arrangement is
(`refines_of_reachable`), so there is nothing else in it that a later edit could depend on.
-/

namespace PatternQuery.ColumnSet

variable {s : ColumnSet}

/-- **A set behaves as an arrangement:** every edit fails on the set when it makes no sense for the two
lists, and then leaves the set as it is, and otherwise changes the lists in the way it says. -/
structure Refines (s : ColumnSet) (a : Arrangement) : Prop where
  arrangement_eq : s.arrangement = a
  proper : a.Proper
  /-- Only a new column can be added, and its place is the new number of columns. -/
  add : ∀ id, match (ColumnSet.add id).run s with
    | .ok order t => id ∉ a.selected ∧ t.arrangement = ⟨a.selected ++ [id], a.grouped⟩ ∧
        order.toNat = (a.selected ++ [id]).length
    | .error _ t => id ∈ a.selected ∧ t = s
  /-- Only a column that is named alone can be removed, and it is given back. -/
  remove : ∀ selector, match (ColumnSet.remove selector).run s with
    | .ok c t => c ∈ s.columns ∧ selector.NamesOnly a.selected c.id ∧
        t.arrangement = ⟨a.selected.erase c.id, a.grouped.erase c.id⟩
    | .error _ t => (¬ ∃ id, selector.NamesOnly a.selected id) ∧ t = s
  /-- The columns are put in the order in which they are named, if they all are, once each. -/
  reorder : ∀ selectors, match (ColumnSet.reorder selectors).run s with
    | .ok () t => ∃ ids, List.Forall₂ (·.NamesOnly a.selected ·) selectors ids ∧
        ids.Perm a.selected ∧ t.arrangement = ⟨ids, a.grouped⟩
    | .error _ t => (¬ ∃ ids, List.Forall₂ (·.NamesOnly a.selected ·) selectors ids ∧
        ids.Perm a.selected) ∧ t = s
  /-- Rows are grouped by the columns that are named, if none of them is named twice. -/
  group : ∀ selectors, match (ColumnSet.group selectors).run s with
    | .ok () t => ∃ ids, List.Forall₂ (·.NamesOnly a.selected ·) selectors ids ∧
        ids.Nodup ∧ t.arrangement = ⟨a.selected, ids⟩
    | .error _ t => (¬ ∃ ids, List.Forall₂ (·.NamesOnly a.selected ·) selectors ids ∧
        ids.Nodup) ∧ t = s
  clearGroup : ∃ t, ColumnSet.clearGroup.run s = .ok () t ∧ t.arrangement = ⟨a.selected, []⟩
  /-- A field id alone names a column iff no other column has it. -/
  resolve_field : ∀ f, (∃ i, s.resolve (.field f) = .ok i) ↔
    s.columns.countP (·.id.field == f) = 1

theorem arrangement_of_length_le (hsize : s.size + 1 < UInt32.size) {a : Arrangement} (ha : a.Proper)
    (hlength : a.selected.length ≤ s.size + 1) : a.toColumnSet.arrangement = a :=
  arrangement_toColumnSet ha (hlength.trans_lt hsize)

namespace Ordered

variable (h : s.Ordered)
include h

theorem not_exists_names_of_resolve {selector : Selector} {e : ColumnError}
    (herror : s.resolve selector = .error e) :
    ¬ ∃ id, selector.NamesOnly s.arrangement.selected id := by
  intro hid
  obtain ⟨i, hi⟩ := (exists_resolve_iff h.nodup).mpr hid
  exact absurd (herror.symm.trans hi) (by simp)

theorem not_exists_names_of_resolveAll {selectors : List Selector} {e : ColumnError}
    (herror : s.resolveAll [] selectors = .error e) :
    ¬ ∃ ids, List.Forall₂ (·.NamesOnly s.arrangement.selected ·) selectors ids ∧ ids.Nodup := by
  rintro ⟨ids, hids⟩
  obtain ⟨order, hok, -⟩ := (exists_resolveAll_iff h.nodup).mpr hids
  exact absurd (herror.symm.trans hok) (by simp)

theorem names_of_resolveAll {selectors : List Selector} {order : List (Fin s.columns.length)}
    (horder : s.resolveAll [] selectors = .ok order) :
    List.Forall₂ (·.NamesOnly s.arrangement.selected ·) selectors
      (order.map fun i => (s.columns.get i).id) :=
  ((exists_resolveAll_iff h.nodup).mp ⟨order, horder, rfl⟩).1

/-- **An ordered set behaves as its arrangement** while there is a place left for one more column. -/
theorem refines (hsize : s.size + 1 < UInt32.size) : s.Refines s.arrangement where
  arrangement_eq := rfl
  proper := h.proper
  add id := by
    rw [h.run_add]
    by_cases hid : id ∈ s.arrangement.selected
    · rw [if_pos hid]
      exact ⟨hid, rfl⟩
    · have hlength : (s.arrangement.selected ++ [id]).length = s.size + 1 := by
        rw [List.length_append, s.length_selected, List.length_singleton]
      rw [if_neg hid]
      refine ⟨hid, arrangement_of_length_le hsize (h.proper.append hid) hlength.le, ?_⟩
      rw [hlength, UInt32.toNat_add, h.toNat_lastOrder]
      exact Nat.mod_eq_of_lt hsize
  remove selector := by
    rw [h.run_remove]
    cases hresolve : s.resolve selector with
    | error e => exact ⟨h.not_exists_names_of_resolve hresolve, rfl⟩
    | ok i =>
      refine ⟨List.getElem_mem i.isLt, (resolve_eq_ok_iff h.nodup).mp hresolve,
        arrangement_of_length_le hsize (h.proper.erase _) ?_⟩
      exact List.length_erase_le.trans (s.length_selected.le.trans (Nat.le_succ _))
  reorder selectors := by
    rw [h.run_reorder]
    cases horder : s.resolveAll [] selectors with
    | error e =>
      refine ⟨fun ⟨ids, hnames, hperm⟩ => ?_, rfl⟩
      exact h.not_exists_names_of_resolveAll horder ⟨ids, hnames, hperm.nodup_iff.mpr h.nodup⟩
    | ok order =>
      dsimp only
      by_cases hsame : order.length = s.size
      · have hperm := h.perm_of_resolveAll horder hsame
        rw [if_neg (not_not.mpr hsame)]
        refine ⟨_, h.names_of_resolveAll horder, hperm,
          arrangement_of_length_le hsize (h.proper.of_perm hperm) ?_⟩
        exact hperm.length_eq.le.trans (s.length_selected.le.trans (Nat.le_succ _))
      · rw [if_pos hsame]
        refine ⟨fun ⟨ids, hnames, hperm⟩ => hsame ?_, rfl⟩
        -- As many columns are found as there are selectors.
        have hfound := (h.names_of_resolveAll horder).length_eq
        rw [List.length_map] at hfound
        rw [← hfound, hnames.length_eq, hperm.length_eq, s.length_selected]
  group selectors := by
    rw [h.run_group]
    cases horder : s.resolveAll [] selectors with
    | error e => exact ⟨h.not_exists_names_of_resolveAll horder, rfl⟩
    | ok order =>
      have hnodup := h.nodup_ids_of_resolveAll horder
      exact ⟨_, h.names_of_resolveAll horder, hnodup, arrangement_of_length_le hsize
        (h.proper.regroup hnodup (map_id_subset order)) (s.length_selected.le.trans (Nat.le_succ _))⟩
  clearGroup := by
    have hproper := h.proper.regroup List.nodup_nil (List.nil_subset _)
    exact ⟨_, h.run_clearGroup, arrangement_of_length_le hsize hproper
      (s.length_selected.le.trans (Nat.le_succ _))⟩
  resolve_field _ := exists_resolve_field_iff

end Ordered

/-- **A set that can be reached behaves as its arrangement, and is known by it.** -/
theorem refines_of_reachable :
    (∀ s : ColumnSet, s.Reachable → s.Refines s.arrangement) ∧
    ∀ s t : ColumnSet, s.Reachable → t.Reachable → s.arrangement = t.arrangement → s = t :=
  ⟨fun _ hs => hs.ordered.refines hs.size_lt,
    fun _ _ hs ht h => hs.ordered.eq_of_arrangement_eq ht.ordered h⟩

theorem refines_twoColumns : twoColumns.Refines twoColumns.arrangement ∧
    ∀ t : ColumnSet, t.Reachable → t.arrangement = twoColumns.arrangement → t = twoColumns :=
  ⟨refines_of_reachable.1 twoColumns reachable_twoColumns,
    fun t ht h => refines_of_reachable.2 t twoColumns ht reachable_twoColumns h⟩

end PatternQuery.ColumnSet
