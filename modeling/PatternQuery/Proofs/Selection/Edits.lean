import Mathlib.Data.Prod.Lex
import PatternQuery.Proofs.Selection.Columns

/-!
# What an edit does to the two lists

An edit works on columns with their places: it drops or adds one, renumbers and sorts. On an ordered
set each of these leaves the set of an arrangement behind that can be written down from the old one:
the lists with an id appended (`append_eq`), erased (`densify_eraseIdx_eq`), permuted
(`inSelectOrder_renumber_eq`), replaced (`renumber_clear_eq`) or emptied (`clear_eq`).

Where columns are renumbered, the place a column gets is the position of its position in a list of
positions, and ids take the place of positions because no id is there twice. Where the columns are
sorted by their places of grouping, only the pairs of an id and a place of grouping matter
(`map_groupView_grouped`), so a new order of display does not show.
-/

namespace PatternQuery.ColumnSet

variable {s : ColumnSet} {cs : List Column}

/-! ### Running an edit -/

@[simp]
theorem run_ofExcept {α : Type} (x : Except ColumnError α) (s : ColumnSet) :
    (MonadExcept.ofExcept x : EditM α).run s =
      match x with
      | .ok a => .ok a s
      | .error e => .error e s := by
  cases x <;> rfl

@[simp]
theorem run_map_set {α : Type} (f : PUnit → α) (s t : ColumnSet) :
    (f <$> set t : EditM α).run s = .ok (f ⟨⟩) t := rfl

theorem run_add (s : ColumnSet) (id : ColumnId) : (add id).run s =
    if s.contains id then .error (.duplicateColumn id) s
    else .ok (s.lastOrder + 1) ⟨s.columns ++ [⟨id, s.lastOrder + 1, none⟩]⟩ := by
  unfold add
  by_cases hid : s.contains id
  · simp [getThe, hid]
  · simp [getThe, hid]

theorem run_remove (s : ColumnSet) (selector : Selector) : (remove selector).run s =
    match s.resolve selector with
    | .ok index => .ok (s.columns.get index) (ColumnSet.mk (s.columns.eraseIdx index)).densify
    | .error e => .error e s := by
  unfold remove
  cases h : s.resolve selector with
  | ok index => simp [getThe, h]
  | error e => simp [getThe, h]

theorem run_reorder (s : ColumnSet) (selectors : List Selector) : (reorder selectors).run s =
    match s.resolveAll [] selectors with
    | .ok order =>
      if order.length ≠ s.size then .error (.notAPermutation s.size order.length) s
      else .ok () ⟨inSelectOrder (renumber (fun order c => { c with selectOrder := order }) 1
        (order.map (·.val)) s.columns)⟩
    | .error e => .error e s := by
  unfold reorder
  cases h : s.resolveAll [] selectors with
  | ok order =>
    by_cases hlength : order.length = s.size
    · simp [getThe, h, hlength]
    · simp [getThe, h, hlength]
  | error e => simp [getThe, h]

theorem run_clearGroup (s : ColumnSet) : clearGroup.run s =
    .ok () ⟨s.columns.map fun c => { c with groupOrder := none }⟩ := rfl

theorem run_group (s : ColumnSet) (selectors : List Selector) : (group selectors).run s =
    match s.resolveAll [] selectors with
    | .ok order => .ok () ⟨renumber (fun order c => { c with groupOrder := some order }) 0
        (order.map (·.val)) (s.columns.map fun c => { c with groupOrder := none })⟩
    | .error e => .error e s := by
  unfold group
  cases h : s.resolveAll [] selectors with
  | ok order => simp [getThe, h, run_clearGroup]
  | error e => simp [getThe, h]

/-! ### Sorting by the places of grouping -/

/-- What the order of grouping depends on. -/
def groupView (c : Column) : ColumnId × Option UInt32 := (c.id, c.groupOrder)

theorem map_groupView_grouped (s : ColumnSet) : s.grouped.map groupView =
    ((s.columns.map groupView).filter (·.2.isSome)).mergeSort fun a b => a.2.getD 0 ≤ b.2.getD 0 := by
  rw [List.filter_map]
  exact List.map_mergeSort fun a _ b _ => rfl

/-- The columns of a set whose places of grouping are all different. -/
def GroupsApart (s : ColumnSet) : Prop := s.grouped.Pairwise fun a b => groupPlace a < groupPlace b

theorem Ordered.groupsApart (h : s.Ordered) : s.GroupsApart := by
  have hplaces : (s.grouped.map groupPlace).Pairwise (· < ·) := by
    rw [(groupOrders_perm_iff s).mp h.groupOrders]
    exact List.pairwise_lt_range
  exact List.pairwise_map.mp hplaces

/-- **The order of grouping does not show the order of display.** -/
theorem GroupsApart.map_groupView_eq {t : ColumnSet} (h : s.GroupsApart)
    (hperm : (s.columns.map groupView).Perm (t.columns.map groupView)) :
    t.grouped.map groupView = s.grouped.map groupView := by
  rw [t.map_groupView_grouped]
  refine mergeSort_eq_of_perm (fun v : ColumnId × Option UInt32 => (v.2.getD 0).toNat)
    (fun a b => by rw [decide_eq_true_iff, UInt32.le_iff_toNat_le]) ?_ (List.pairwise_map.mpr h)
  have hviews := List.mergeSort_perm ((s.columns.map groupView).filter (·.2.isSome))
    fun a b => a.2.getD 0 ≤ b.2.getD 0
  rw [map_groupView_grouped]
  exact (hperm.symm.filter _).trans hviews.symm

theorem GroupsApart.of_perm {t : ColumnSet} (h : s.GroupsApart)
    (hperm : (s.columns.map groupView).Perm (t.columns.map groupView)) : t.GroupsApart := by
  have hviews : (s.grouped.map groupView).Pairwise fun a b =>
    (a.2.getD 0).toNat < (b.2.getD 0).toNat := List.pairwise_map.mpr h
  rw [← h.map_groupView_eq hperm, List.pairwise_map] at hviews
  exact hviews

theorem GroupsApart.map_id_eq {t : ColumnSet} (h : s.GroupsApart)
    (hperm : (s.columns.map groupView).Perm (t.columns.map groupView)) :
    t.grouped.map (·.id) = s.grouped.map (·.id) := by
  have := congrArg (List.map Prod.fst) (h.map_groupView_eq hperm)
  rwa [List.map_map, List.map_map] at this

theorem grouped_eraseIdx (h : s.Ordered) (i : Fin s.columns.length) :
    (ColumnSet.mk (s.columns.eraseIdx i)).grouped = s.grouped.erase (s.columns.get i) := by
  have hnodup : s.columns.Nodup := .of_map _ h.nodup
  refine mergeSort_eq_of_perm _ groupPlace_le_iff ?_ (h.groupsApart.sublist List.erase_sublist)
  have hfilter : (s.columns.eraseIdx i).filter (·.groupOrder.isSome) =
      (s.columns.filter (·.groupOrder.isSome)).erase (s.columns.get i) := by
    have herase := hnodup.erase_getElem i i.isLt
    rw [← herase, hnodup.erase_eq_filter, (hnodup.filter _).erase_eq_filter, List.filter_filter,
      List.filter_filter]
    exact List.filter_congr fun c _ => Bool.and_comm _ _
  show ((s.columns.eraseIdx i).filter (·.groupOrder.isSome)).Perm _
  rw [hfilter]
  exact s.grouped_perm.symm.erase _

theorem map_id_erase {c : Column} (hids : (s.columns.map (·.id)).Nodup) (hc : c ∈ s.columns)
    {l : List Column} (hl : l ⊆ s.columns) (hnodup : (l.map (·.id)).Nodup) :
    (l.erase c).map (·.id) = (l.map (·.id)).erase c.id := by
  rw [(List.Nodup.of_map _ hnodup).erase_eq_filter, hnodup.erase_eq_filter, List.filter_map]
  refine congrArg (List.map _) (List.filter_congr fun c' hc' => ?_)
  rw [Function.comp_apply, Bool.eq_iff_iff, bne_iff_ne, bne_iff_ne, not_iff_not]
  exact ⟨congrArg _, fun heq => List.inj_on_of_nodup_map hids (hl hc') hc heq⟩

/-! ### Giving places -/

/-- **Giving places to columns:** where no id is there twice, a column gets the place at the position
of its id among the ids of the columns that are named. -/
theorem renumber_map_idxOf {write : UInt32 → Column → Column} {start : UInt32}
    {known ids : List ColumnId} (hids : cs.map (·.id) = known) (hcs : known.Nodup)
    (hsub : ids ⊆ known) (hnodup : ids.Nodup) :
    renumber write start (ids.map known.idxOf) cs = cs.map fun c =>
      (ids.idxOf? c.id).elim c fun k => write (orderFrom start k) c := by
  subst hids
  have hindices : (ids.map (cs.map (·.id)).idxOf).Nodup :=
    hnodup.map_on fun a ha b _ heq => (List.idxOf_inj (hsub ha)).mp heq
  refine List.ext_getElem? fun i => ?_
  rw [getElem?_renumber hindices, List.getElem?_map]
  cases hi : cs[i]? with
  | none => rfl
  | some c =>
    obtain ⟨hlt, rfl⟩ := List.getElem?_eq_some_iff.mp hi
    have hpos : (ids.map (cs.map (·.id)).idxOf).idxOf? i = ids.idxOf? cs[i].id := by
      have hidx := hcs.idxOf_getElem i (by simpa using hlt)
      rw [List.getElem_map] at hidx
      rw [← idxOf?_map fun b hb heq => (List.idxOf_inj (hsub hb)).mp heq, hidx]
    rw [hpos, Option.map_some, Option.map_some]

theorem toColumnSet_eq_map {a : Arrangement} (h : cs.map (·.id) = a.selected) :
    a.toColumnSet = ⟨cs.map fun c => a.column c.id⟩ := by
  rw [Arrangement.toColumnSet, ← h, List.map_map]
  rfl

/-! ### Closing gaps -/

theorem groupPlaces_eq (hids : (s.columns.map (·.id)).Nodup) :
    groupPlaces s.columns = (s.columns.filter (·.groupOrder.isSome)).map fun c =>
      (c.groupOrder.getD 0, (s.columns.map (·.id)).idxOf c.id) := by
  rw [groupPlaces, zipIdx_eq_map_idxOf_key hids, List.filterMap_map]
  exact filterMap_groupOrder (fun c order => (order, (s.columns.map (·.id)).idxOf c.id)) _

/-- Sorting the places of grouping together with the positions of their columns gives the positions
of the grouping columns, in the order of grouping. -/
theorem groupIndices_eq (hids : (s.columns.map (·.id)).Nodup) (hapart : s.GroupsApart) :
    groupIndices s.columns = s.arrangement.grouped.map s.arrangement.selected.idxOf := by
  rw [groupIndices, groupPlaces_eq hids, mergeSort_eq_of_perm
    (fun v : UInt32 × Nat => toLex (v.1.toNat, v.2)) (fun a b => ?_)
    (s.grouped_perm.symm.map _) ?_, List.map_map, arrangement, List.map_map]
  · rfl
  · rw [List.pairwise_map]
    refine List.Pairwise.imp (fun {a b} (hlt : groupPlace a < groupPlace b) => ?_) hapart
    exact Prod.Lex.toLex_lt_toLex.mpr (.inl hlt)
  · rw [decide_eq_true_iff, Prod.Lex.toLex_le_toLex, UInt32.lt_iff_toNat_lt, ← UInt32.toNat_inj]

theorem groupOrder_eq_none {c : Column} (hc : c ∈ s.columns) (hid : c.id ∉ s.arrangement.grouped) :
    c.groupOrder = none := by
  by_contra hsome
  have hmem : c ∈ s.grouped := mem_grouped_iff.mpr ⟨hc, Option.isSome_iff_ne_none.mpr hsome⟩
  exact hid (List.mem_map_of_mem hmem)

theorem renumber_groupIndices_eq (hids : (s.columns.map (·.id)).Nodup) (hapart : s.GroupsApart) :
    renumber (fun order c => { c with groupOrder := some order }) 0 (groupIndices s.columns)
      s.columns = s.columns.map fun c =>
        { c with groupOrder := (s.arrangement.grouped.idxOf? c.id).map (orderFrom 0) } := by
  have hproper := proper_arrangement hids
  rw [groupIndices_eq hids hapart]
  refine (renumber_map_idxOf rfl hids hproper.grouped_subset hproper.nodup_grouped).trans
    (List.map_congr_left fun c hc => ?_)
  cases hk : s.arrangement.grouped.idxOf? c.id with
  | some k => rfl
  | none =>
    -- The column is not renumbered, and it has no place that could have a gap before it.
    have hnone := groupOrder_eq_none hc (List.idxOf?_eq_none_iff.mp hk)
    rw [Option.map_none, ← hnone]
    rfl

/-- **Closing gaps** keeps both lists. -/
theorem densify_eq (hids : (s.columns.map (·.id)).Nodup) (hapart : s.GroupsApart)
    (hsorted : s.columns.Pairwise fun a b => a.selectOrder.toNat < b.selectOrder.toNat) :
    s.densify = s.arrangement.toColumnSet := by
  -- The set between the two renumberings has new places of display and old places of grouping.
  obtain ⟨t, ht⟩ : ∃ t : ColumnSet, t.columns = densifySelect s.columns := ⟨⟨_⟩, rfl⟩
  have hcolumns : t.columns =
      s.columns.mapIdx fun i c => { c with selectOrder := orderFrom 1 i } := by
    rw [ht, densifySelect, inSelectOrder, mergeSort_eq_of_perm _ selectOrder_le_iff (.refl _) hsorted]
  have htids : t.columns.map (·.id) = s.columns.map (·.id) := by
    rw [hcolumns]
    exact List.ext_getElem (by simp) fun i _ _ => by simp
  have hviews : s.columns.map groupView = t.columns.map groupView := by
    rw [hcolumns]
    exact List.ext_getElem (by simp) fun i _ _ => by simp [groupView]
  have harrangement : t.arrangement = s.arrangement := by
    rw [arrangement, htids, hapart.map_id_eq (.of_eq hviews)]
    rfl
  have hdensify : s.densify = ⟨t.columns.map fun c =>
      { c with groupOrder := (s.arrangement.grouped.idxOf? c.id).map (orderFrom 0) }⟩ := by
    have hrenumber := renumber_groupIndices_eq (htids ▸ hids) (hapart.of_perm (.of_eq hviews))
    rw [harrangement] at hrenumber
    rw [← hrenumber, ht]
    rfl
  rw [hdensify, toColumnSet_eq_map (htids.trans rfl)]
  refine congrArg ColumnSet.mk (List.map_congr_left fun c hc => ?_)
  have hselect : c.selectOrder = orderFrom 1 (s.arrangement.selected.idxOf c.id) := by
    obtain ⟨i, hi, rfl⟩ := List.getElem_of_mem hc
    have hidx := hids.idxOf_getElem i (by simpa [hcolumns] using hi)
    rw [List.getElem_map] at hidx
    simp only [hcolumns, List.getElem_mapIdx, arrangement, hidx]
  rw [Arrangement.column, ← hselect]

/-! ### The set an edit leaves behind -/

namespace Ordered

variable (h : s.Ordered)
include h

theorem toNat_lastOrder : s.lastOrder.toNat = s.size := by
  rw [lastOrder, toNat_foldl_max, List.map_map]
  exact (congrArg (List.foldl max 0) h.selectOrders).trans (foldl_max_range' s.size)

theorem append_eq {id : ColumnId} (hid : id ∉ s.columns.map (·.id)) :
    ColumnSet.mk (s.columns ++ [⟨id, s.lastOrder + 1, none⟩]) =
      (Arrangement.mk (s.arrangement.selected ++ [id]) s.arrangement.grouped).toColumnSet := by
  have hlast : s.lastOrder + 1 = orderFrom 1 s.size := by
    rw [orderFrom, UInt32.add_comm, ← h.toNat_lastOrder]
    exact congrArg (1 + ·) UInt32.ofNat_toNat.symm
  have hgrouped : id ∉ s.arrangement.grouped := fun hmem => hid (h.proper.grouped_subset hmem)
  have hcolumns (id' : ColumnId) (hid' : id' ∈ s.arrangement.selected) :
      (Arrangement.mk (s.arrangement.selected ++ [id]) s.arrangement.grouped).column id' =
        s.arrangement.column id' := by
    simp only [Arrangement.column, List.idxOf_append_of_mem hid']
  have hadded : (Arrangement.mk (s.arrangement.selected ++ [id]) s.arrangement.grouped).column id =
      ⟨id, s.lastOrder + 1, none⟩ := by
    have hposition : (s.arrangement.selected ++ [id]).idxOf id = s.size := by
      rw [arrangement, List.idxOf_append_of_notMem hid, List.length_map]
      simp [size]
    rw [Arrangement.column, hposition, ← hlast, List.idxOf?_eq_none_iff.mpr hgrouped,
      Option.map_none]
  have hcolumnsEq : s.columns = s.arrangement.selected.map s.arrangement.column :=
    congrArg ColumnSet.columns h.toColumnSet_arrangement.symm
  unfold Arrangement.toColumnSet
  rw [List.map_append, List.map_congr_left hcolumns, List.map_singleton, hadded, ← hcolumnsEq]

theorem densify_eraseIdx_eq (i : Fin s.columns.length) :
    (ColumnSet.mk (s.columns.eraseIdx i)).densify =
      (Arrangement.mk (s.arrangement.selected.erase (s.columns.get i).id)
        (s.arrangement.grouped.erase (s.columns.get i).id)).toColumnSet := by
  have hsub : (s.columns.eraseIdx i).Sublist s.columns := List.eraseIdx_sublist ..
  have hselected : (s.columns.eraseIdx i).map (·.id) =
      s.arrangement.selected.erase (s.columns.get i).id := by
    have herase : s.columns.eraseIdx i = s.columns.erase (s.columns.get i) :=
      ((List.Nodup.of_map _ h.nodup).erase_getElem i i.isLt).symm
    rw [herase]
    exact map_id_erase h.nodup (List.getElem_mem i.isLt) (List.Subset.refl _) h.nodup
  have hgrouped : (ColumnSet.mk (s.columns.eraseIdx i)).grouped.map (·.id) =
      s.arrangement.grouped.erase (s.columns.get i).id := by
    rw [grouped_eraseIdx h]
    exact map_id_erase h.nodup (List.getElem_mem i.isLt) (fun c hc => (mem_grouped_iff.mp hc).1)
      h.proper.nodup_grouped
  have hapart : (ColumnSet.mk (s.columns.eraseIdx i)).GroupsApart := by
    rw [GroupsApart, grouped_eraseIdx h]
    exact h.groupsApart.sublist List.erase_sublist
  rw [densify_eq (h.nodup.sublist (hsub.map _)) hapart (h.pairwise_selectOrder.sublist hsub),
    arrangement, hselected, hgrouped]

theorem inSelectOrder_renumber_eq {ids : List ColumnId} (hperm : ids.Perm s.arrangement.selected) :
    ColumnSet.mk (inSelectOrder (renumber (fun order c => { c with selectOrder := order }) 1
      (ids.map s.arrangement.selected.idxOf) s.columns)) =
        (Arrangement.mk ids s.arrangement.grouped).toColumnSet := by
  have hnodup : ids.Nodup := hperm.nodup_iff.mpr h.nodup
  have hproper := h.proper.of_perm hperm
  have hlt : ids.length < UInt32.size := by
    rw [hperm.length_eq, s.length_selected]
    exact h.size_lt
  have hrenumber : renumber (fun order c => { c with selectOrder := order }) 1
      (ids.map s.arrangement.selected.idxOf) s.columns =
        s.columns.map fun c => (Arrangement.mk ids s.arrangement.grouped).column c.id := by
    refine (renumber_map_idxOf rfl h.nodup hperm.subset hnodup).trans
      (List.map_congr_left fun c hc => ?_)
    have hid : c.id ∈ ids := hperm.mem_iff.mpr (List.mem_map_of_mem hc)
    rw [idxOf?_eq_some_idxOf hid, Option.elim_some, Arrangement.column, ← h.groupOrder_eq hc]
  rw [hrenumber]
  refine congrArg ColumnSet.mk (mergeSort_eq_of_perm _ selectOrder_le_iff ?_
    (hproper.ordered_toColumnSet hlt).pairwise_selectOrder)
  have := hperm.symm.map (Arrangement.mk ids s.arrangement.grouped).column
  rwa [arrangement, List.map_map] at this

theorem renumber_clear_eq {ids : List ColumnId} (hsub : ids ⊆ s.arrangement.selected)
    (hnodup : ids.Nodup) :
    ColumnSet.mk (renumber (fun order c => { c with groupOrder := some order }) 0
      (ids.map s.arrangement.selected.idxOf) (s.columns.map fun c => { c with groupOrder := none })) =
        (Arrangement.mk s.arrangement.selected ids).toColumnSet := by
  have hids : (s.columns.map fun c => { c with groupOrder := none }).map (·.id) =
      s.arrangement.selected := List.map_map
  rw [toColumnSet_eq_map (a := ⟨s.arrangement.selected, ids⟩) hids]
  refine congrArg ColumnSet.mk ((renumber_map_idxOf hids h.nodup hsub hnodup).trans
    (List.map_congr_left fun c' hc' => ?_))
  obtain ⟨c, hc, rfl⟩ := List.mem_map.mp hc'
  have hselect := h.selectOrder_eq hc
  cases hk : ids.idxOf? c.id with
  | some k => simp only [Arrangement.column, hk, ← hselect, Option.elim_some, Option.map_some]
  | none => simp only [Arrangement.column, hk, ← hselect, Option.elim_none, Option.map_none]

theorem clear_eq : ColumnSet.mk (s.columns.map fun c => { c with groupOrder := none }) =
    (Arrangement.mk s.arrangement.selected []).toColumnSet := by
  have := h.renumber_clear_eq (List.nil_subset _) List.nodup_nil
  exact this

end Ordered

end PatternQuery.ColumnSet
