import PatternQuery.Proofs.Payload.Grouping
import PatternQuery.Proofs.Payload.Table

/-!
# Hiding takes columns away and changes nothing else

A flat table without hidden fields is the table with all fields, less the columns of hidden fields, the cells
under them and the groups of which nothing is left (`FlatTable.ofRecord_eq_restrict`): sorting a group and
taking columns out of it can be done in either order (`Attribution.bind_restrict?_group?`). So nothing that
stands in a hidden cell can be told from the table.
-/

namespace PatternQuery

/-! ### Taking columns away -/

/-- The group with those columns only whose paths are kept; none when no column is left. -/
def ColumnGroup.restrict? (keep : CellPath → Prop) [DecidablePred keep] (g : ColumnGroup) :
    Option ColumnGroup :=
  let columns := g.columns.filter fun c => keep c.path
  if columns = [] then none else some { g with columns }

/-- **The table with those columns only whose paths are kept,** and in every row the cells under them. -/
def FlatTable.restrict (keep : CellPath → Prop) [DecidablePred keep] (t : FlatTable) : FlatTable where
  groups := t.groups.filterMap (·.restrict? keep)
  columns := t.columns.filter fun c => keep c.path
  rows := t.rows.map fun row =>
    ⟨row.root, ((t.columns.zip row.cells).filter fun entry => keep entry.1.path).map (·.2)⟩
  skipped := t.skipped

variable {keep : CellPath → Prop} [DecidablePred keep]

theorem ColumnGroup.columns_restrict? (keep : CellPath → Prop) [DecidablePred keep] (g : ColumnGroup) :
    (g.restrict? keep).toList.flatMap (·.columns) = g.columns.filter fun c => keep c.path := by
  unfold restrict?
  dsimp only
  split_ifs with hnil
  · exact hnil.symm
  · exact List.flatMap_singleton ..

theorem columns_filterMap_restrict? (keep : CellPath → Prop) [DecidablePred keep]
    (gs : List ColumnGroup) : (gs.filterMap (·.restrict? keep)).flatMap (·.columns) =
      (gs.flatMap (·.columns)).filter fun c => keep c.path := by
  rw [List.filterMap_eq_flatMap_toList, List.flatMap_assoc, List.filter_flatMap]
  exact List.flatMap_congr fun g _ => g.columns_restrict? keep

/-- Cells that are looked up by their columns are taken away with them. -/
theorem restrict_cells {α : Type} (columns : List ShapedColumn) (cell : ShapedColumn → α) :
    ((columns.zip (columns.map cell)).filter fun entry => keep entry.1.path).map (·.2) =
      (columns.filter fun c => keep c.path).map cell := by
  have hzip : columns.zip (columns.map cell) = columns.map fun c => (c, cell c) := by
    rw [← List.map_prod_left_eq_zip]
  rw [hzip, List.filter_map, List.map_map]
  rfl

namespace Attribution

/-- **Sorting a group and taking columns away** can be done in either order. -/
theorem filter_sort_column (schema : Option Schema) (paths : List CellPath) :
    (ShapedColumn.sort (paths.map (column schema))).filter (fun c => keep c.path) =
      ShapedColumn.sort ((paths.filter fun p => keep p).map (column schema)) := by
  refine ShapedColumn.eq_sort_of_perm ?_ ((ShapedColumn.pairwise_sort _).filter _)
    fun a ha b hb => eq_of_path_eq ha hb
  refine ((ShapedColumn.sort_perm _).filter _).trans (.of_eq ?_)
  rw [List.filter_map]
  rfl

theorem bind_restrict?_group? (schema : Option Schema) (paths : List CellPath) :
    (group? true schema paths).bind (·.restrict? keep) =
      group? true schema (paths.filter fun p => keep p) := by
  by_cases hpaths : paths = []
  · rw [hpaths, group?_eq_none_iff.mpr rfl]
    exact (group?_eq_none_iff.mpr rfl).symm
  · rw [group?_of_ne_nil hpaths, Option.bind_some, ColumnGroup.restrict?]
    dsimp only
    rw [filter_sort_column]
    -- The group goes exactly where no path is kept.
    by_cases hkept : (paths.filter fun p => keep p) = []
    · rw [group?_eq_none_iff.mpr hkept, if_pos]
      exact ShapedColumn.sort_eq_nil_iff.mpr (List.map_eq_nil_iff.mpr hkept)
    · rw [group?_of_ne_nil hkept, if_neg]
      intro hnil
      exact hkept (List.map_eq_nil_iff.mp (ShapedColumn.sort_eq_nil_iff.mp hnil))

/-- What is shown without hidden fields is what is shown with them, less the hidden paths. -/
theorem shownAt_false (schemas : List Schema) (paths : List CellPath) (k : Nat) :
    shownAt schemas false paths k =
      (shownAt schemas true paths k).filter fun p => Shown schemas false p := by
  rw [shownAt, shownAt, List.filter_filter]
  refine List.filter_congr fun p _ => ?_
  have hshown : decide (Shown schemas false p) = isShown schemas false p := by
    rw [Bool.eq_iff_iff, decide_eq_true_iff, isShown_iff]
  rw [hshown, isShown, isShown, Bool.true_or, Bool.and_true, Bool.and_comm]

/-- **Groups without hidden fields** are those with all fields, less the hidden columns. -/
theorem groups_false (schemas : List Schema) (paths : List CellPath) :
    groups schemas false paths =
      (groups schemas true paths).filterMap (·.restrict? (Shown schemas false)) := by
  rw [groups_eq_range, groups_eq_range, List.filterMap_filterMap]
  refine List.filterMap_congr fun k _ => ?_
  rw [shownAt_false, ← bind_restrict?_group?]

end Attribution

/-! ### What stands in hidden cells -/

/-- **Results that differ at most in what stands in hidden cells.** -/
structure FlatRecord.SameShown (schemas : List Schema) (r r' : FlatRecord) : Prop where
  columns_eq : r.columns = r'.columns
  skipped_eq : r.skipped = r'.skipped
  rows : List.Forall₂ (fun row row' => row.root = row'.root ∧
    List.Forall₂ (fun cell cell' => cell.1 = cell'.1 ∧
      (Attribution.Shown schemas false cell.1 → cell.2 = cell'.2)) row.cells row'.cells) r.rows r'.rows

namespace FlatTable

variable {r r' : FlatRecord} {schemas : List Schema} {includeHidden : Bool}

/-- The columns of a table are shown. -/
theorem shown_of_mem_columns {c : ShapedColumn} (hc : c ∈ (ofRecord r schemas includeHidden).columns) :
    Attribution.Shown schemas includeHidden c.path := by
  have hpath := (paths_perm r schemas includeHidden).mem_iff.mp (List.mem_map_of_mem hc)
  exact Attribution.isShown_iff.mp (List.mem_filter.mp hpath).2

theorem columns_eq (r : FlatRecord) (schemas : List Schema) (includeHidden : Bool) :
    (ofRecord r schemas includeHidden).columns =
      (ofRecord r schemas includeHidden).groups.flatMap (·.columns) := rfl

theorem ofRecord_eq_restrict (r : FlatRecord) (schemas : List Schema) :
    ofRecord r schemas false = (ofRecord r schemas true).restrict (Attribution.Shown schemas false) := by
  have hgroups : (ofRecord r schemas false).groups =
      (ofRecord r schemas true).groups.filterMap (·.restrict? (Attribution.Shown schemas false)) :=
    Attribution.groups_false schemas r.columns
  have hcolumns : (ofRecord r schemas false).columns =
      ((ofRecord r schemas true).columns).filter fun c => Attribution.Shown schemas false c.path := by
    rw [columns_eq, columns_eq, hgroups, columns_filterMap_restrict?]
  have hrows : (ofRecord r schemas false).rows =
      ((ofRecord r schemas true).restrict (Attribution.Shown schemas false)).rows := by
    rw [restrict, rows_eq, rows_eq, List.map_map, hcolumns]
    exact List.map_congr_left fun row _ => congrArg (TableRow.mk row.root) (restrict_cells _ _).symm
  exact (FlatTable.mk.injEq ..).mpr ⟨hgroups, hcolumns, hrows, rfl⟩

theorem ofRecord_eq_of_sameShown (h : r.SameShown schemas r') :
    ofRecord r' schemas false = ofRecord r schemas false := by
  have hgroups : (ofRecord r' schemas false).groups = (ofRecord r schemas false).groups :=
    congrArg (Attribution.groups schemas false) h.columns_eq.symm
  have hcolumns : (ofRecord r' schemas false).columns = (ofRecord r schemas false).columns := by
    rw [columns_eq, columns_eq, hgroups]
  have hrows : (ofRecord r' schemas false).rows = (ofRecord r schemas false).rows := by
    rw [rows_eq, rows_eq, hcolumns]
    refine (List.forall₂_eq_eq_eq ▸ List.forall₂_map_left_iff.mpr (List.forall₂_map_right_iff.mpr ?_))
    refine h.rows.flip.imp fun row' row ⟨hroot, hcells⟩ => ?_
    -- Cells are looked up under columns only, and those are shown.
    have hlookup : ∀ c ∈ (ofRecord r schemas false).columns,
        row'.cells.lookup c.path = row.cells.lookup c.path := fun c hc =>
      (lookup_eq_of_forall₂ (Attribution.Shown schemas false) hcells (shown_of_mem_columns hc)).symm
    rw [hroot, List.map_congr_left hlookup]
  exact (FlatTable.mk.injEq ..).mpr ⟨hgroups, hcolumns, hrows, h.skipped_eq.symm⟩

/-- **Hiding takes columns away and changes nothing else,** and what stands in hidden cells makes no
difference to the table. -/
theorem hidden_eq_restrict (r : FlatRecord) (schemas : List Schema) :
    ofRecord r schemas false = (ofRecord r schemas true).restrict (Attribution.Shown schemas false) ∧
    ∀ r', r.SameShown schemas r' → ofRecord r' schemas false = ofRecord r schemas false :=
  ⟨ofRecord_eq_restrict r schemas, fun _ => ofRecord_eq_of_sameShown⟩

/-- A schema of a hidden field and one that is shown. -/
def orderSchema : Schema := ⟨"Order", "", [⟨"cost", "", "", true⟩, ⟨"price", "", "", false⟩]⟩

/-- A result of one row of `orderSchema`. -/
def orderRecord (cost : Int) : FlatRecord where
  rows := [⟨0, [(⟨[], "cost"⟩, .int cost), (⟨[], "price"⟩, .int 3)]⟩]
  columns := [⟨[], "cost"⟩, ⟨[], "price"⟩]
  skipped := []
  rootSchema := some "Order"
  schemas := [orderSchema]

theorem hidden_eq_restrict_order : (orderRecord 1).SameShown [orderSchema] (orderRecord 2) ∧
    ofRecord (orderRecord 2) [orderSchema] false = ofRecord (orderRecord 1) [orderSchema] false := by
  have hcost : ¬ Attribution.Shown [orderSchema] false ⟨[], "cost"⟩ := by decide
  have hsame : (orderRecord 1).SameShown [orderSchema] (orderRecord 2) :=
    { columns_eq := rfl
      skipped_eq := rfl
      rows := .cons ⟨rfl, .cons ⟨rfl, fun hshown => absurd hshown hcost⟩ (.cons ⟨rfl, fun _ => rfl⟩ .nil)⟩
        .nil }
  exact ⟨hsame, (hidden_eq_restrict _ _).2 _ hsame⟩

end FlatTable

end PatternQuery
