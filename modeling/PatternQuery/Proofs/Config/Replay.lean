import PatternQuery.Proofs.Config.Drafting
import PatternQuery.Proofs.Config.Valid
import PatternQuery.Proofs.Pattern.Isomorphism

/-!
# Drafting a configuration that is given

Every valid configuration can be drafted. The steps are read off it (`Config.replay`): its hops in their
order, the ids of its columns in the order of display, and one grouping that names the grouping columns in
the order of grouping. No place of a column is among them, so what has to be shown is that drafting gives
every place back. Selecting ids one after another makes the set of an arrangement (`selectAll_eq`),
grouping puts the other list of the arrangement beside it (`regroup_selectAll`), and a set that is ordered
is given back by its two lists.
-/

namespace PatternQuery

open ColumnSet (Edit)
open DraftStep

/-- The step that adds a hop. -/
def Hop.draftStep : Hop → DraftStep
  | .root o => .root o
  | .edge source relation target optional => .hop source relation target optional

/-- **The steps that draft a configuration:** its pattern hop by hop, its columns in the order of display,
the grouping columns in the order of grouping, each with its occurrence, the page, and the flag. -/
def Config.replay (c : Config) : List DraftStep :=
  c.pattern.map Hop.draftStep ++
    c.columns.columns.map (fun column => .column column.id) ++
    [.groupBy (c.columns.grouped.map fun column => .qualified column.id), .pagination c.pagination,
      .applyRBAC c.applyRBAC]

/-! ### Columns -/

namespace ConfigDraft

variable {ids groupIds : List ColumnId}

/-- **Columns that are selected one after another** stand in that order, and group nothing. -/
theorem selectAll_eq (h : ids.Nodup) (hlt : ids.length < UInt32.size) :
    selectAll ids = (Arrangement.mk ids []).toColumnSet := by
  induction ids using List.reverseRecOn with
  | nil => rfl
  | append_singleton ids id ih =>
    rw [List.nodup_append_comm, List.singleton_append, List.nodup_cons] at h
    rw [List.length_append] at hlt
    have hlt : ids.length < UInt32.size := by omega
    have hproper : (Arrangement.mk ids []).Proper := ⟨h.2, List.nodup_nil, List.nil_subset _⟩
    have hordered := hproper.ordered_toColumnSet hlt
    have harrangement := ColumnSet.arrangement_toColumnSet hproper hlt
    rw [selectAll_concat, ih h.2 hlt, Edit.after, ColumnSet.leftBy, hordered.run_add, harrangement,
      if_neg h.1]

/-- An id names itself among others. -/
theorem namesOnly_qualified {id : ColumnId} (hid : id ∈ ids) :
    (Selector.qualified id).NamesOnly ids id :=
  ⟨hid, fun _ _ => Iff.rfl⟩

/-- **Columns that are selected one after another and then grouped** have both lists as they were
asked for. -/
theorem regroup_selectAll (h : (Arrangement.mk ids groupIds).Proper) (hlt : ids.length < UInt32.size) :
    regroup (selectAll ids) (some (groupIds.map .qualified)) =
      .ok (Arrangement.mk ids groupIds).toColumnSet := by
  have hproper : (Arrangement.mk ids []).Proper := ⟨h.nodup_selected, List.nodup_nil, List.nil_subset _⟩
  have hordered := hproper.ordered_toColumnSet hlt
  have harrangement := ColumnSet.arrangement_toColumnSet hproper hlt
  have hnames : List.Forall₂ (·.NamesOnly (Arrangement.mk ids []).toColumnSet.arrangement.selected ·)
      (groupIds.map Selector.qualified) groupIds := by
    rw [harrangement, List.forall₂_map_left_iff, List.forall₂_same]
    exact fun id hid => namesOnly_qualified (h.grouped_subset hid)
  obtain ⟨order, horder, hids⟩ :=
    (ColumnSet.exists_resolveAll_iff hordered.nodup).mpr ⟨hnames, h.nodup_grouped⟩
  rw [selectAll_eq h.nodup_selected hlt, regroup, hordered.run_group, horder]
  dsimp only
  rw [hids, harrangement]

end ConfigDraft

/-! ### What the steps say -/

theorem Hop.columnId?_draftStep (hop : Hop) : columnId? hop.draftStep = none := by
  cases hop <;> rfl

theorem Hop.selectors?_draftStep (hop : Hop) : selectors? hop.draftStep = none := by
  cases hop <;> rfl

theorem Hop.applyRBAC?_draftStep (hop : Hop) : applyRBAC? hop.draftStep = none := by
  cases hop <;> rfl

/-- The hops that follow a root are given back as they are. -/
theorem Hop.root?_draftStep {hop : Hop} (h : hop.isRoot = false) : root? hop.draftStep = none := by
  cases hop with
  | root o => cases h
  | edge source relation target optional => rfl

theorem Hop.hop?_draftStep {hop : Hop} (h : hop.isRoot = false) : hop? hop.draftStep = some hop := by
  cases hop with
  | root o => cases h
  | edge source relation target optional => rfl

namespace Config

variable {c : Config}

/-- What is read off the steps is read off the hops, the columns and the last three steps. -/
theorem filterMap_replay {α : Type} (f : DraftStep → Option α) (c : Config) :
    c.replay.filterMap f = c.pattern.filterMap (fun hop => f hop.draftStep) ++
      c.columns.columns.filterMap (fun column => f (.column column.id)) ++
      [DraftStep.groupBy (c.columns.grouped.map fun column => .qualified column.id),
        .pagination c.pagination, .applyRBAC c.applyRBAC].filterMap f := by
  rw [replay, List.filterMap_append, List.filterMap_append, List.filterMap_map, List.filterMap_map]
  rfl

theorem filterMap_columnId?_replay (c : Config) :
    c.replay.filterMap columnId? = c.columns.arrangement.selected := by
  have hhops : c.pattern.filterMap (fun hop => columnId? hop.draftStep) = [] :=
    List.filterMap_eq_nil_iff.mpr fun hop _ => hop.columnId?_draftStep
  have hcolumns : c.columns.columns.filterMap (fun column => columnId? (.column column.id)) =
      c.columns.columns.map (·.id) := by
    simp only [columnId?, List.filterMap_eq_map']
  rw [filterMap_replay, hhops, hcolumns]
  exact List.append_nil _

/-- None of the hops and columns is about what the last three steps are about. -/
theorem filterMap_replay_of_last {α : Type} {f : DraftStep → Option α}
    (hhop : ∀ hop : Hop, f hop.draftStep = none) (hcolumn : ∀ id, f (.column id) = none) (c : Config) :
    c.replay.filterMap f =
      [DraftStep.groupBy (c.columns.grouped.map fun column => .qualified column.id),
        .pagination c.pagination, .applyRBAC c.applyRBAC].filterMap f := by
  have hhops : c.pattern.filterMap (fun hop => f hop.draftStep) = [] :=
    List.filterMap_eq_nil_iff.mpr fun hop _ => hhop hop
  have hcolumns : c.columns.columns.filterMap (fun column => f (.column column.id)) = [] :=
    List.filterMap_eq_nil_iff.mpr fun column _ => hcolumn column.id
  rw [filterMap_replay, hhops, hcolumns]
  rfl

theorem filterMap_selectors?_replay (c : Config) :
    c.replay.filterMap selectors? = [c.columns.arrangement.grouped.map .qualified] := by
  rw [filterMap_replay_of_last Hop.selectors?_draftStep fun _ => rfl, ColumnSet.arrangement, List.map_map]
  rfl

theorem filterMap_applyRBAC?_replay (c : Config) : c.replay.filterMap applyRBAC? = [c.applyRBAC] :=
  filterMap_replay_of_last Hop.applyRBAC?_draftStep (fun _ => rfl) c

theorem foldl_turn_replay (c : Config) (page : Pagination) : c.replay.foldl turn page = c.pagination := by
  simp [replay, turn]

variable {o : Occurrence} {rest : Pattern}

theorem filterMap_root?_replay (hpattern : c.pattern = .root o :: rest)
    (hrest : ∀ hop ∈ rest, hop.isRoot = false) : c.replay.filterMap root? = [o] := by
  have hhops : c.pattern.filterMap (fun hop => root? hop.draftStep) = [o] := by
    rw [hpattern]
    exact congrArg (o :: ·)
      (List.filterMap_eq_nil_iff.mpr fun hop hhop => Hop.root?_draftStep (hrest hop hhop))
  have hcolumns : c.columns.columns.filterMap (fun column => root? (.column column.id)) = [] :=
    List.filterMap_eq_nil_iff.mpr fun _ _ => rfl
  rw [filterMap_replay, hhops, hcolumns]
  rfl

theorem filterMap_hop?_replay (hpattern : c.pattern = .root o :: rest)
    (hrest : ∀ hop ∈ rest, hop.isRoot = false) : c.replay.filterMap hop? = rest := by
  have hhops : c.pattern.filterMap (fun hop => hop? hop.draftStep) = rest := by
    rw [hpattern]
    exact (List.filterMap_congr fun hop hhop => Hop.hop?_draftStep (hrest hop hhop)).trans
      List.filterMap_some
  have hcolumns : c.columns.columns.filterMap (fun column => hop? (.column column.id)) = [] :=
    List.filterMap_eq_nil_iff.mpr fun _ _ => rfl
  rw [filterMap_replay, hhops, hcolumns]
  exact (List.append_nil _).trans (List.append_nil _)

/-! ### Drafting -/

/-- The steps do not repeat one another: there is one root, and no column is there twice. -/
theorem Valid.noRepeats_replay (h : c.Valid) : NoRepeats c.replay := by
  obtain ⟨o, rest, hpattern, hrest⟩ := (Pattern.inOrder_of_check h.pattern_check).root_first
  refine ⟨?_, ?_⟩
  · rw [filterMap_root?_replay hpattern hrest]
    exact le_rfl
  · rw [filterMap_columnId?_replay]
    exact h.columns_ordered.nodup

/-- **The draft that the steps leave behind** has all of the configuration but the grouping. -/
theorem Valid.ofSteps_replay (h : c.Valid) : ConfigDraft.ofSteps c.replay =
    { pattern := c.pattern
      columns := ConfigDraft.selectAll c.columns.arrangement.selected
      group := some (c.columns.arrangement.grouped.map .qualified)
      applyRBAC := c.applyRBAC
      pagination := c.pagination
      failure := none } := by
  obtain ⟨o, rest, hpattern, hrest⟩ := (Pattern.inOrder_of_check h.pattern_check).root_first
  rw [ConfigDraft.ofSteps_eq h.noRepeats_replay, ConfigDraft.assembled,
    filterMap_root?_replay hpattern hrest, filterMap_hop?_replay hpattern hrest,
    filterMap_columnId?_replay, filterMap_selectors?_replay, filterMap_applyRBAC?_replay,
    foldl_turn_replay, hpattern]
  rfl

/-- **Every valid configuration can be drafted:** no step that is read off it fails, and what is built of
them is the configuration, with every place of its columns. -/
theorem build_replay (c : Config) (h : c.Valid) :
    (∀ n, (ConfigDraft.ofSteps (c.replay.take n)).failure = none) ∧
      (ConfigDraft.ofSteps c.replay).build = .ok c := by
  have hordered := h.columns_ordered
  have hlt : c.columns.arrangement.selected.length < UInt32.size := by
    rw [c.columns.length_selected]
    exact hordered.size_lt
  refine ⟨fun n => ?_, ?_⟩
  · rw [ConfigDraft.ofSteps_eq (h.noRepeats_replay.take n)]
    rfl
  · have hcolumns : ConfigDraft.regroup (ConfigDraft.selectAll c.columns.arrangement.selected)
        (some (c.columns.arrangement.grouped.map .qualified)) = .ok c.columns.arrangement.toColumnSet :=
      ConfigDraft.regroup_selectAll hordered.proper hlt
    rw [hordered.toColumnSet_arrangement] at hcolumns
    rw [h.ofSteps_replay, ConfigDraft.build_of_regroup rfl hcolumns, mapError_eq_ok_iff]
    exact make_eq_ok_iff.mpr ⟨rfl, h.check_eq⟩

/-- Persons with those they know, from a person to two others that carry tags, grouped by two columns in
another order than that of display. -/
def acquaintanceConfig : Config where
  columns := ⟨[⟨⟨"name", "Person#2"⟩, 1, some 1⟩, ⟨⟨"age", "Person"⟩, 2, none⟩,
    ⟨⟨"name", "Person"⟩, 3, some 0⟩]⟩
  pattern := [.root ⟨"Person", none⟩,
    .edge ⟨"Person", none⟩ "knows" ⟨"Person", some "Person#2"⟩ false,
    .edge ⟨"Person", some "Person#2"⟩ "knows" ⟨"Person", some "Person#3"⟩ true]
  applyRBAC := true
  pagination := ⟨10, 20, .cursor⟩

theorem build_replay_acquaintanceConfig : acquaintanceConfig.Valid ∧
    acquaintanceConfig.replay =
      [.root ⟨"Person", none⟩,
        .hop ⟨"Person", none⟩ "knows" ⟨"Person", some "Person#2"⟩ false,
        .hop ⟨"Person", some "Person#2"⟩ "knows" ⟨"Person", some "Person#3"⟩ true,
        .column ⟨"name", "Person#2"⟩, .column ⟨"age", "Person"⟩, .column ⟨"name", "Person"⟩,
        .groupBy [.qualified ⟨"name", "Person"⟩, .qualified ⟨"name", "Person#2"⟩],
        .pagination ⟨10, 20, .cursor⟩, .applyRBAC true] ∧
    (ConfigDraft.ofSteps acquaintanceConfig.replay).build = .ok acquaintanceConfig := by
  have hvalid : acquaintanceConfig.Valid :=
    ⟨by decide, ⟨by decide, by decide, by decide⟩, by decide, by decide⟩
  exact ⟨hvalid, by cbv, (build_replay acquaintanceConfig hvalid).2⟩

end Config

end PatternQuery
