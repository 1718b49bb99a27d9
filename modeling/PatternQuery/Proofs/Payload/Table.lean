import PatternQuery.Payload.FlatTable
import PatternQuery.Proofs.Payload.Attribution
import PatternQuery.Proofs.Payload.Rows

/-!
# Flat tables show every cell once and in place

The columns of a table are the paths that are shown, each once, group by group
(`Attribution.paths_groups_perm`), and every row is laid out along them. A cell of the table is looked up
by the path of its column (`FlatRow.cell?_eq_lookup`), so the order of the columns does not matter for
what stands in it.
-/

namespace PatternQuery

theorem FlatRow.cell?_eq_lookup (row : FlatRow) (path : CellPath) :
    row.cell? path = row.cells.lookup path := by
  rw [FlatRow.cell?]
  induction row.cells with
  | nil => rfl
  | cons cell cells ih =>
    rw [List.find?_cons, List.lookup_cons, ← ih, BEq.comm]
    cases path == cell.1 <;> rfl

namespace FlatTable

/-- **What a table says that lays a flattened result out:** its columns are those of its groups, the paths
that are shown, each once; its rows are those of the result, in their order; and every row has one cell for
every column, which holds the value of the row at the path of the column. -/
structure LaysOut (t : FlatTable) (r : FlatRecord) (schemas : List Schema) (includeHidden : Bool) :
    Prop where
  columns_eq : t.columns = t.groups.flatMap (·.columns)
  nodup_paths : (t.columns.map (·.path)).Nodup
  mem_paths : ∀ path, path ∈ t.columns.map (·.path) ↔
    path ∈ r.columns ∧ Attribution.Shown schemas includeHidden path
  roots : t.rows.map (·.root) = r.rows.map (·.root)
  roots_ascend : (t.rows.map (·.root)).Pairwise (· < ·)
  length_cells : ∀ row ∈ t.rows, row.cells.length = t.columns.length
  cells : ∀ (i j : Nat) (row : FlatRow) (shown : TableRow) (column : ShapedColumn) (value : Json),
    r.rows[i]? = some row → t.rows[i]? = some shown → t.columns[j]? = some column →
      (shown.cells[j]? = some (some value) ↔ row.cells.lookup column.path = some value)

theorem paths_perm (r : FlatRecord) (schemas : List Schema) (includeHidden : Bool) :
    ((ofRecord r schemas includeHidden).columns.map (·.path)).Perm
      (r.columns.filter (Attribution.isShown schemas includeHidden)) :=
  Attribution.paths_groups_perm schemas includeHidden r.columns

theorem rows_eq (r : FlatRecord) (schemas : List Schema) (includeHidden : Bool) :
    (ofRecord r schemas includeHidden).rows = r.rows.map fun row => ⟨row.root,
      (ofRecord r schemas includeHidden).columns.map fun column => row.cells.lookup column.path⟩ := by
  simp only [← FlatRow.cell?_eq_lookup]
  rfl

theorem map_root_rows (r : FlatRecord) (schemas : List Schema) (includeHidden : Bool) :
    (ofRecord r schemas includeHidden).rows.map (·.root) = r.rows.map (·.root) := by
  rw [rows_eq, List.map_map]
  rfl

/-- **Every visible cell of a flattened result is shown once and in place,** whatever the members of the
result are and whatever schemas its columns are attributed to. -/
theorem laysOut_ofRecord (members : List (String × Json)) (schemas : List Schema) (includeHidden : Bool) :
    (ofRecord (FlatRecord.ofMembers members) schemas includeHidden).LaysOut
      (FlatRecord.ofMembers members) schemas includeHidden where
  columns_eq := rfl
  nodup_paths := by
    have hcolumns := FlatRecord.nodup_columnsOf (members.filterMap FlatRecord.cell?)
    exact (paths_perm _ _ _).nodup_iff.mpr (hcolumns.filter _)
  mem_paths path := by
    rw [(paths_perm _ _ _).mem_iff, List.mem_filter, Attribution.isShown_iff]
  roots := map_root_rows _ _ _
  roots_ascend := by
    rw [map_root_rows]
    exact FlatRecord.roots_ascend _
  length_cells row hrow := by
    rw [rows_eq] at hrow
    obtain ⟨row, -, rfl⟩ := List.mem_map.mp hrow
    exact List.length_map _
  cells i j row shown column value hrow hshown hcolumn := by
    rw [rows_eq, List.getElem?_map, hrow, Option.map_some] at hshown
    obtain rfl := Option.some.inj hshown
    rw [List.getElem?_map, hcolumn, Option.map_some, Option.some_inj]

end FlatTable

end PatternQuery
