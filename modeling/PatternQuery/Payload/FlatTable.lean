import PatternQuery.Payload.FlatRecord
import PatternQuery.Payload.Attribution

/-!
# Flat tables

A flattened result laid out as a table: one row for each root row, and one column for each path,
group by group. A row has a cell for every column, which is empty where the row has no value.
-/

namespace PatternQuery

/-- A row of a flat table. -/
structure TableRow where
  root : Nat
  /-- One cell for every column of the table. -/
  cells : List (Option Json)

/-- A flattened result ready for display. -/
structure FlatTable where
  groups : List ColumnGroup
  /-- The columns of all groups, one group after another. -/
  columns : List ShapedColumn
  rows : List TableRow
  /-- The keys of the result that could not be read. -/
  skipped : List String

/-- The value of a row at a path. -/
def FlatRow.cell? (r : FlatRow) (p : CellPath) : Option Json :=
  (r.cells.find? (·.1 == p)).map (·.2)

/-- Writes the cells of a row; an empty cell is null. -/
def cellsToJson (cells : List (Option Json)) : Json :=
  .arr (cells.map (·.getD .null))

namespace FlatTable

/-- **Lays a flattened result out,** attributing its columns to the schemas. -/
def ofRecord (r : FlatRecord) (schemas : List Schema) (includeHidden : Bool) : FlatTable :=
  let groups := Attribution.groups schemas includeHidden r.columns
  let columns := groups.flatMap (·.columns)
  { groups
    columns
    rows := r.rows.map fun row => ⟨row.root, columns.map fun c => row.cell? c.path⟩
    skipped := r.skipped }

/-- Writes a table. -/
def toJson (t : FlatTable) : Json :=
  .obj [("groups", .arr (t.groups.map ColumnGroup.toJson)),
    ("columns", .arr (t.columns.map ShapedColumn.toJson)),
    ("rows", .arr (t.rows.map fun r =>
      .obj [("rootIndex", .nat r.root), ("cells", cellsToJson r.cells)])),
    ("skipped", .strings t.skipped)]

end FlatTable

end PatternQuery
