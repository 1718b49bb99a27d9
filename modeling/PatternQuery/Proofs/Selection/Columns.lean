import Mathlib.Data.List.Perm.Subperm
import PatternQuery.Proofs.Fallible
import PatternQuery.Proofs.Keyed
import PatternQuery.Proofs.Selection.Places

/-!
# Columns and their places

A set of columns is ordered when its columns stand in the order of display with the places
`1, …, n`, no column is there twice, and the places of grouping are `0, …, m - 1` up to order. This is
more than `ColumnSet.checkInvariants` tests, which sorts before it looks, and it is what
`ColumnSet.ofColumns` establishes (`ofColumns_eq_ok_iff`).

An ordered set is two lists of ids, an `Arrangement`: the columns in the order of display, and the
grouping columns in the order of grouping. The places can be computed from the lists, and an ordered
set is given back by its arrangement (`Ordered.toColumnSet_arrangement`). So to know what an edit does
to both lists is to know what it does, and an edit that leaves the columns of a proper arrangement
behind leaves an ordered set behind.
-/

namespace PatternQuery

/-- Which columns are selected, and by which of them rows are grouped. -/
structure Arrangement where
  /-- The columns in the order of display. -/
  selected : List ColumnId
  /-- The grouping columns in the order of grouping. -/
  grouped : List ColumnId
  deriving Repr, DecidableEq

/-- **A proper arrangement:** no id twice in either list, and all grouping columns selected. -/
structure Arrangement.Proper (a : Arrangement) : Prop where
  nodup_selected : a.selected.Nodup
  nodup_grouped : a.grouped.Nodup
  grouped_subset : a.grouped ⊆ a.selected

namespace Arrangement.Proper

variable {a : Arrangement} (h : a.Proper)
include h

theorem append {id : ColumnId} (hid : id ∉ a.selected) :
    (Arrangement.mk (a.selected ++ [id]) a.grouped).Proper :=
  ⟨List.concat_eq_append ▸ h.nodup_selected.concat hid, h.nodup_grouped,
    fun _ hid' => List.mem_append_left _ (h.grouped_subset hid')⟩

theorem erase (id : ColumnId) :
    (Arrangement.mk (a.selected.erase id) (a.grouped.erase id)).Proper := by
  refine ⟨h.nodup_selected.erase _, h.nodup_grouped.erase _, fun id' hid' => ?_⟩
  obtain ⟨hne, hmem⟩ := h.nodup_grouped.mem_erase_iff.mp hid'
  exact h.nodup_selected.mem_erase_iff.mpr ⟨hne, h.grouped_subset hmem⟩

theorem of_perm {ids : List ColumnId} (hperm : ids.Perm a.selected) :
    (Arrangement.mk ids a.grouped).Proper :=
  ⟨hperm.nodup_iff.mpr h.nodup_selected, h.nodup_grouped,
    fun _ hid => hperm.mem_iff.mpr (h.grouped_subset hid)⟩

theorem regroup {ids : List ColumnId} (hnodup : ids.Nodup) (hsub : ids ⊆ a.selected) :
    (Arrangement.mk a.selected ids).Proper :=
  ⟨h.nodup_selected, hnodup, hsub⟩

end Arrangement.Proper

namespace ColumnSet

variable {s : ColumnSet} {cs : List Column}

/-- **An ordered set of columns:** the columns stand in the order of display, no column is there twice,
and neither order has gaps. -/
structure Ordered (s : ColumnSet) : Prop where
  selectOrders : s.columns.map (·.selectOrder.toNat) = List.range' 1 s.size
  groupOrders : ((s.columns.filterMap (·.groupOrder)).map UInt32.toNat).Perm
    (List.range (s.columns.filterMap (·.groupOrder)).length)
  nodup : (s.columns.map (·.id)).Nodup

theorem ordered_empty : empty.Ordered := ⟨rfl, .nil, List.nodup_nil⟩

theorem Ordered.toNat_selectOrder (h : s.Ordered) {i : Nat} (hi : i < s.columns.length) :
    s.columns[i].selectOrder.toNat = i + 1 := by
  have := List.getElem_of_eq h.selectOrders (i := i) (by simpa using hi)
  rw [List.getElem_map, List.getElem_range'] at this
  omega

theorem Ordered.size_lt (h : s.Ordered) : s.size < UInt32.size := by
  cases hsize : s.size with
  | zero => decide
  | succ n =>
    have hn : n < s.columns.length := by
      rw [size] at hsize
      omega
    have := h.toNat_selectOrder hn
    have := s.columns[n].selectOrder.toNat_lt_size
    omega

/-! ### The order of grouping -/

theorem grouped_perm (s : ColumnSet) : s.grouped.Perm (s.columns.filter (·.groupOrder.isSome)) :=
  List.mergeSort_perm _ _

theorem mem_grouped_iff {c : Column} : c ∈ s.grouped ↔ c ∈ s.columns ∧ c.groupOrder.isSome := by
  rw [s.grouped_perm.mem_iff, List.mem_filter]

/-- The place of grouping, of a column that has one. -/
def groupPlace (c : Column) : Nat := (c.groupOrder.getD 0).toNat

theorem groupPlace_le_iff (a b : Column) :
    decide (a.groupOrder.getD 0 ≤ b.groupOrder.getD 0) = true ↔ groupPlace a ≤ groupPlace b := by
  rw [decide_eq_true_iff, UInt32.le_iff_toNat_le]
  rfl

theorem filterMap_groupOrder {β : Type} (f : Column → UInt32 → β) (cs : List Column) :
    (cs.filterMap fun c => c.groupOrder.map (f c)) =
      (cs.filter (·.groupOrder.isSome)).map fun c => f c (c.groupOrder.getD 0) := by
  induction cs with
  | nil => rfl
  | cons c cs ih => cases h : c.groupOrder <;> simp [h, ih]

theorem map_toNat_filterMap_groupOrder_perm (s : ColumnSet) :
    ((s.columns.filterMap (·.groupOrder)).map UInt32.toNat).Perm (s.grouped.map groupPlace) := by
  rw [List.map_filterMap, filterMap_groupOrder fun _ order => order.toNat]
  exact (s.grouped_perm.map groupPlace).symm

/-- The places of grouping have no gaps iff they are `0, …, m - 1` in the order of grouping. -/
theorem groupOrders_perm_iff (s : ColumnSet) :
    ((s.columns.filterMap (·.groupOrder)).map UInt32.toNat).Perm
      (List.range (s.columns.filterMap (·.groupOrder)).length) ↔
    s.grouped.map groupPlace = List.range s.grouped.length := by
  have hperm := s.map_toNat_filterMap_groupOrder_perm
  have hlength : (s.columns.filterMap (·.groupOrder)).length = s.grouped.length := by
    simpa using hperm.length_eq
  rw [hlength]
  constructor
  · intro h
    exact List.Perm.eq_of_pairwise (fun _ _ _ _ => le_antisymm)
      (List.pairwise_map.mpr (pairwise_mergeSort_key groupPlace_le_iff _))
      List.pairwise_le_range (hperm.symm.trans h)
  · intro h
    rw [← h]
    exact hperm

theorem Ordered.groupPlace_grouped (h : s.Ordered) {i : Nat} (hi : i < s.grouped.length) :
    groupPlace s.grouped[i] = i := by
  have := List.getElem_of_eq ((groupOrders_perm_iff s).mp h.groupOrders) (i := i) (by simpa using hi)
  simpa using this

/-! ### Checking and taking in -/

theorem firstRepeated?_eq_none_iff {seen : List ColumnId} : firstRepeated? seen cs = none ↔
    (cs.map (·.id)).Nodup ∧ ∀ c ∈ cs, c.id ∉ seen := by
  induction cs generalizing seen with
  | nil => simp [firstRepeated?]
  | cons c rest ih =>
    unfold firstRepeated?
    by_cases hseen : c.id ∈ seen
    · simp [hseen]
    · rw [if_neg (by simpa using hseen), ih, List.map_cons, List.nodup_cons]
      constructor
      · rintro ⟨hrest, hfresh⟩
        refine ⟨⟨fun hmem => ?_, hrest⟩, ?_⟩
        · obtain ⟨c', hc', hid⟩ := List.mem_map.mp hmem
          exact hfresh c' hc' (hid ▸ List.mem_cons_self)
        · intro c' hc'
          rcases List.mem_cons.mp hc' with rfl | hc'
          · exact hseen
          · exact fun hmem => hfresh c' hc' (List.mem_cons_of_mem _ hmem)
      · rintro ⟨⟨hnot, hrest⟩, hfresh⟩
        refine ⟨hrest, fun c' hc' hmem => ?_⟩
        rcases List.mem_cons.mp hmem with hid | hmem
        · exact hnot (hid ▸ List.mem_map_of_mem hc')
        · exact hfresh c' (List.mem_cons_of_mem _ hc') hmem

theorem isDenseFrom_selectOrders_iff (s : ColumnSet) :
    isDenseFrom 1 ((s.columns.map (·.selectOrder)).mergeSort (· ≤ ·)) = true ↔
      (s.columns.map (·.selectOrder.toNat)).Perm (List.range' 1 s.size) := by
  rw [isDenseFrom_mergeSort_iff, List.map_map, List.length_map]
  rfl

theorem isDenseFrom_groupOrders_iff (s : ColumnSet) :
    isDenseFrom 0 ((s.columns.filterMap (·.groupOrder)).mergeSort (· ≤ ·)) = true ↔
      ((s.columns.filterMap (·.groupOrder)).map UInt32.toNat).Perm
        (List.range (s.columns.filterMap (·.groupOrder)).length) := by
  rw [isDenseFrom_mergeSort_iff, List.range_eq_range']
  rfl

theorem checkInvariants_eq_ok_iff : s.checkInvariants = .ok () ↔ (s.columns.map (·.id)).Nodup ∧
    (s.columns.map (·.selectOrder.toNat)).Perm (List.range' 1 s.size) ∧
    ((s.columns.filterMap (·.groupOrder)).map UInt32.toNat).Perm
      (List.range (s.columns.filterMap (·.groupOrder)).length) := by
  have hfirst : firstRepeated? [] s.columns = none ↔ (s.columns.map (·.id)).Nodup := by
    rw [firstRepeated?_eq_none_iff]
    simp
  rw [← hfirst, ← s.isDenseFrom_selectOrders_iff, ← s.isDenseFrom_groupOrders_iff]
  unfold checkInvariants
  cases firstRepeated? [] s.columns with
  | some id => simp
  | none =>
    dsimp only
    cases isDenseFrom 1 ((s.columns.map (·.selectOrder)).mergeSort (· ≤ ·)) with
    | false => simp
    | true => cases isDenseFrom 0 _ <;> simp

theorem Ordered.checkInvariants_eq (h : s.Ordered) : s.checkInvariants = .ok () :=
  checkInvariants_eq_ok_iff.mpr ⟨h.nodup, .of_eq h.selectOrders, h.groupOrders⟩

theorem selectOrder_le_iff (a b : Column) : decide (a.selectOrder ≤ b.selectOrder) = true ↔
    a.selectOrder.toNat ≤ b.selectOrder.toNat := by
  rw [decide_eq_true_iff, UInt32.le_iff_toNat_le]

/-- **What is taken in is put in order,** and only what is then without gaps and repetition. -/
theorem ofColumns_eq_ok_iff : ofColumns cs = .ok s ↔ s.columns = inSelectOrder cs ∧ s.Ordered := by
  unfold ofColumns
  dsimp only
  rw [check_bind_eq_ok_iff, checkInvariants_eq_ok_iff]
  constructor
  · rintro ⟨⟨hnodup, hselect, hgroup⟩, hs⟩
    obtain rfl := Except.ok.inj hs
    refine ⟨rfl, ?_, hgroup, hnodup⟩
    -- The test sorted the places; here they are sorted already, so they are `1, …, n` as they stand.
    exact List.Perm.eq_of_pairwise (fun _ _ _ _ => le_antisymm)
      (List.pairwise_map.mpr (pairwise_mergeSort_key selectOrder_le_iff cs))
      ((List.pairwise_lt_range' 1).imp le_of_lt) hselect
  · rintro ⟨hcolumns, hordered⟩
    obtain rfl : s = ⟨inSelectOrder cs⟩ := congrArg ColumnSet.mk hcolumns
    exact ⟨⟨hordered.nodup, .of_eq hordered.selectOrders, hordered.groupOrders⟩, rfl⟩

theorem Ordered.pairwise_selectOrder (h : s.Ordered) :
    s.columns.Pairwise fun a b => a.selectOrder.toNat < b.selectOrder.toNat := by
  have hplaces : (s.columns.map (·.selectOrder.toNat)).Pairwise (· < ·) := by
    rw [h.selectOrders]
    exact List.pairwise_lt_range' 1
  exact List.pairwise_map.mp hplaces

theorem Ordered.inSelectOrder_columns (h : s.Ordered) : inSelectOrder s.columns = s.columns :=
  mergeSort_eq_of_perm _ selectOrder_le_iff (.refl _) h.pairwise_selectOrder

/-- **An ordered set is taken in as it is.** -/
theorem Ordered.ofColumns_columns (h : s.Ordered) : ofColumns s.columns = .ok s :=
  ofColumns_eq_ok_iff.mpr ⟨h.inSelectOrder_columns.symm, h⟩

end ColumnSet

/-! ### Arrangements -/

namespace Arrangement

variable {a : Arrangement}

/-- A selected column with its places. -/
def column (a : Arrangement) (id : ColumnId) : Column :=
  ⟨id, ColumnSet.orderFrom 1 (a.selected.idxOf id),
    (a.grouped.idxOf? id).map (ColumnSet.orderFrom 0)⟩

/-- The set with this arrangement. -/
def toColumnSet (a : Arrangement) : ColumnSet := ⟨a.selected.map a.column⟩

theorem map_id_map_column (a : Arrangement) (ids : List ColumnId) :
    (ids.map a.column).map (·.id) = ids := by
  rw [List.map_map]
  exact List.map_id _

theorem isSome_groupOrder_column (a : Arrangement) (id : ColumnId) :
    (a.column id).groupOrder.isSome = true ↔ id ∈ a.grouped := by
  rw [column, Option.isSome_map, List.isSome_idxOf?]

theorem groupPlace_column {id : ColumnId} (hid : id ∈ a.grouped)
    (hlt : a.grouped.length ≤ UInt32.size) :
    ColumnSet.groupPlace (a.column id) = a.grouped.idxOf id := by
  have hbound := List.idxOf_lt_length_of_mem hid
  rw [ColumnSet.groupPlace, column, idxOf?_eq_some_idxOf hid, Option.map_some, Option.getD_some,
    ColumnSet.toNat_orderFrom 0 (by rw [UInt32.toNat_zero]; omega), UInt32.toNat_zero, Nat.zero_add]

namespace Proper

variable (h : a.Proper) (hlt : a.selected.length < UInt32.size)
include h

theorem length_grouped_le : a.grouped.length ≤ a.selected.length :=
  (List.subperm_of_subset h.nodup_grouped h.grouped_subset).length_le

include hlt

theorem map_groupPlace : a.grouped.map (ColumnSet.groupPlace ∘ a.column) =
    List.range a.grouped.length := by
  have hle := h.length_grouped_le
  refine List.ext_getElem (by simp) fun i hi _ => ?_
  have hi : i < a.grouped.length := by simpa using hi
  rw [List.getElem_map, Function.comp_apply, List.getElem_range,
    groupPlace_column (List.getElem_mem hi) (by omega), h.nodup_grouped.idxOf_getElem]

/-- Sorting by the places of grouping gives the second list. -/
theorem grouped_toColumnSet : a.toColumnSet.grouped = a.grouped.map a.column := by
  refine mergeSort_eq_of_perm _ ColumnSet.groupPlace_le_iff ?_ ?_
  · rw [toColumnSet, List.filter_map]
    refine .map _ ((List.perm_ext_iff_of_nodup (h.nodup_selected.filter _) h.nodup_grouped).mpr ?_)
    intro id
    rw [List.mem_filter, Function.comp_apply, isSome_groupOrder_column]
    exact ⟨And.right, fun hid => ⟨h.grouped_subset hid, hid⟩⟩
  · have hplaces : (a.grouped.map (ColumnSet.groupPlace ∘ a.column)).Pairwise (· < ·) := by
      rw [h.map_groupPlace hlt]
      exact List.pairwise_lt_range
    rw [List.pairwise_map]
    exact List.pairwise_map.mp hplaces

theorem ordered_toColumnSet : a.toColumnSet.Ordered := by
  refine ⟨?_, ?_, ?_⟩
  · refine List.ext_getElem (by simp [toColumnSet, ColumnSet.size]) fun i hi _ => ?_
    have hi : i < a.selected.length := by simpa [toColumnSet] using hi
    have hplace := ColumnSet.toNat_orderFrom 1 (i := i) (by rw [UInt32.toNat_one]; omega)
    simp only [toColumnSet, List.getElem_map, column, h.nodup_selected.idxOf_getElem, hplace,
      List.getElem_range']
    simp
  · rw [ColumnSet.groupOrders_perm_iff, h.grouped_toColumnSet hlt, List.map_map, List.length_map]
    exact h.map_groupPlace hlt
  · rw [toColumnSet, map_id_map_column]
    exact h.nodup_selected

end Proper

end Arrangement

namespace ColumnSet

variable {s t : ColumnSet} {a : Arrangement}

/-- The two lists that a set stands for. -/
def arrangement (s : ColumnSet) : Arrangement := ⟨s.columns.map (·.id), s.grouped.map (·.id)⟩

theorem length_selected (s : ColumnSet) : s.arrangement.selected.length = s.size :=
  List.length_map ..

theorem arrangement_toColumnSet (h : a.Proper) (hlt : a.selected.length < UInt32.size) :
    a.toColumnSet.arrangement = a := by
  rw [arrangement, h.grouped_toColumnSet hlt, a.map_id_map_column, Arrangement.toColumnSet,
    a.map_id_map_column]

theorem proper_arrangement (hids : (s.columns.map (·.id)).Nodup) : s.arrangement.Proper := by
  have hperm := s.grouped_perm.map (·.id)
  have hsub : ((s.columns.filter (·.groupOrder.isSome)).map (·.id)).Sublist
      (s.columns.map (·.id)) := List.filter_sublist.map _
  exact ⟨hids, hperm.nodup_iff.mpr (hids.sublist hsub),
    fun id hid => hsub.subset (hperm.mem_iff.mp hid)⟩

namespace Ordered

variable (h : s.Ordered)
include h

theorem proper : s.arrangement.Proper := proper_arrangement h.nodup

theorem groupOrder_eq {c : Column} (hc : c ∈ s.columns) :
    c.groupOrder = (s.arrangement.grouped.idxOf? c.id).map (orderFrom 0) := by
  cases horder : c.groupOrder with
  | none =>
    have hnot : c.id ∉ s.arrangement.grouped := by
      intro hid
      obtain ⟨c', hc', heq⟩ := List.mem_map.mp hid
      obtain ⟨hmem, hsome⟩ := mem_grouped_iff.mp hc'
      obtain rfl := List.inj_on_of_nodup_map h.nodup hmem hc heq
      simp [horder] at hsome
    rw [List.idxOf?_eq_none_iff.mpr hnot, Option.map_none]
  | some order =>
    have hmem : c ∈ s.grouped := mem_grouped_iff.mpr ⟨hc, by rw [horder]; rfl⟩
    obtain ⟨i, hi, rfl⟩ := List.getElem_of_mem hmem
    have hplace := h.groupPlace_grouped hi
    rw [groupPlace, horder, Option.getD_some] at hplace
    have hidx : s.arrangement.grouped.idxOf s.grouped[i].id = i := by
      have := h.proper.nodup_grouped.idxOf_getElem i (by simpa [arrangement] using hi)
      simpa [arrangement] using this
    have hlt : i < UInt32.size := hplace ▸ order.toNat_lt_size
    have hid : s.grouped[i].id ∈ s.arrangement.grouped := List.mem_map_of_mem hmem
    rw [idxOf?_eq_some_idxOf hid, hidx, Option.map_some, Option.some_inj,
      ← UInt32.toNat_inj, hplace, toNat_orderFrom 0 (by rwa [UInt32.toNat_zero, Nat.zero_add]),
      UInt32.toNat_zero, Nat.zero_add]

theorem selectOrder_eq {c : Column} (hc : c ∈ s.columns) :
    c.selectOrder = orderFrom 1 (s.arrangement.selected.idxOf c.id) := by
  obtain ⟨i, hi, rfl⟩ := List.getElem_of_mem hc
  have hidx : s.arrangement.selected.idxOf s.columns[i].id = i := by
    have := h.nodup.idxOf_getElem i (by simpa using hi)
    rwa [List.getElem_map] at this
  have hlt := h.size_lt
  rw [size] at hlt
  rw [hidx, ← UInt32.toNat_inj, h.toNat_selectOrder hi,
    toNat_orderFrom 1 (by rw [UInt32.toNat_one]; omega), UInt32.toNat_one, Nat.add_comm]

theorem column_arrangement {c : Column} (hc : c ∈ s.columns) : s.arrangement.column c.id = c := by
  rw [Arrangement.column, ← h.selectOrder_eq hc, ← h.groupOrder_eq hc]

/-- **An ordered set is given back by its arrangement.** -/
theorem toColumnSet_arrangement : s.arrangement.toColumnSet = s := by
  refine congrArg ColumnSet.mk ?_
  calc (s.columns.map (·.id)).map s.arrangement.column
      = s.columns.map fun c => s.arrangement.column c.id := List.map_map
    _ = s.columns.map id := List.map_congr_left fun c hc => h.column_arrangement hc
    _ = s.columns := List.map_id _

end Ordered

theorem Ordered.eq_of_arrangement_eq (hs : s.Ordered) (ht : t.Ordered)
    (h : s.arrangement = t.arrangement) : s = t := by
  rw [← hs.toColumnSet_arrangement, h, ht.toColumnSet_arrangement]

/-! ### Renaming -/

/-- The set with other ids for its columns. -/
def rename (φ : ColumnId → ColumnId) (s : ColumnSet) : ColumnSet :=
  ⟨s.columns.map fun c => { c with id := φ c.id }⟩

/-- **Renamed columns keep their places.** -/
theorem Ordered.rename (h : s.Ordered) {φ : ColumnId → ColumnId}
    (hφ : Set.InjOn φ {id | id ∈ s.columns.map (·.id)}) : (s.rename φ).Ordered := by
  have hgroup : (s.rename φ).columns.filterMap (·.groupOrder) = s.columns.filterMap (·.groupOrder) :=
    List.filterMap_map
  refine ⟨?_, ?_, ?_⟩
  · rw [ColumnSet.rename, List.map_map, size, List.length_map]
    exact h.selectOrders
  · rw [hgroup]
    exact h.groupOrders
  · have hids : (s.rename φ).columns.map (·.id) = (s.columns.map (·.id)).map φ := by
      rw [ColumnSet.rename, List.map_map, List.map_map]
      rfl
    rw [hids]
    exact h.nodup.map_on fun a ha b hb heq => hφ ha hb heq

end ColumnSet

end PatternQuery
