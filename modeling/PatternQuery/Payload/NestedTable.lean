import PatternQuery.Payload.Block
import PatternQuery.Payload.FlatTable
import PatternQuery.Schema.Matching

/-!
# Nested tables

A block laid out as a table, with a table for every child block under the row it belongs to. Each
block looks for its schema by itself among the schemas of the payload. A block that finds one has a
column for every field of it; a block that finds none has a column for every member that its rows
bring along.
-/

namespace PatternQuery

/-- What decides how a payload is laid out. -/
structure ShapeOptions where
  /-- Whether hidden fields are shown. -/
  includeHidden : Bool
  /-- How blocks find their schemas. -/
  matcher : Matcher

/-- Hidden fields left out, and the standard rules for finding schemas. -/
def ShapeOptions.standard : ShapeOptions := ⟨false, .standard⟩

/-- Whether a block has found its schema. -/
inductive BlockSchema where
  | resolved (index : Nat) (id : String) (rule : MatchRule)
  | notFound (requested : String)

/-- Whether no schema was found. -/
def BlockSchema.isPlaceholder : BlockSchema → Bool
  | resolved .. => false
  | notFound _ => true

/-- Writes what was found. -/
def BlockSchema.toJson : BlockSchema → Json
  | resolved _ id rule => .obj [("schemaId", .str id), ("strategy", .str rule.name)]
  | notFound requested => .obj [("requested", .str requested), ("placeholder", .bool true)]

/-- A column of a nested table. -/
structure NestedColumn where
  /-- The member of a row that is shown. -/
  field : String
  label : String
  /-- The member that is shown when a row does not have the first. -/
  fallback : Option String
  deriving Repr, DecidableEq

namespace NestedColumn

/-- The column of a field: its name, or else its id, which is also the fallback of a name that
differs from it. -/
def ofField (f : Field) : NestedColumn :=
  if f.name.isEmpty then ⟨f.id, f.displayLabel, none⟩
  else ⟨f.name, f.displayLabel, if f.name = f.id then none else some f.id⟩

/-- The column of a member that no field describes. -/
def ofMember (name : String) : NestedColumn := ⟨name, name, none⟩

/-- The cell of a row in the column. -/
def cell (c : NestedColumn) (members : List (String × Json)) : Option Json :=
  match members.lookup c.field with
  | some v => some v
  | none => c.fallback.bind fun name => members.lookup name

/-- Writes the head of a column. -/
def toJson (c : NestedColumn) : Json :=
  .obj [("field", .str c.field), ("label", .str c.label)]

end NestedColumn

/-- What stands above the rows of a table. -/
structure TableHead where
  /-- The id of the schema that the block asked for. -/
  requested : String
  /-- The number of entries of the block, rows or not. -/
  entries : Nat
  schema : BlockSchema
  label : String
  columns : List NestedColumn

namespace TableHead

/-- Adds the names of the members of a row that have not been seen. -/
def observeRow (seen : List String) (r : BlockRow) : List String :=
  (r.members.map (·.1)).foldl
    (fun seen name =>
      if name = Block.childrenMember || seen.contains name then seen else seen ++ [name])
    seen

/-- The names of the members of all rows, in the order in which they are first seen. -/
def observed (rows : List BlockRow) : List String :=
  rows.foldl observeRow []

/-- The columns of a schema. -/
def columnsOf (includeHidden : Bool) (s : Schema) : List NestedColumn :=
  (s.fields.filter fun f => includeHidden || !f.hidden).map NestedColumn.ofField

/-- The schema that a block finds, with the match. -/
def find? (options : ShapeOptions) (schemas : List Schema) (requested : String) :
    Option (SchemaMatch × Schema) := do
  let found ← options.matcher.resolve requested schemas
  return (found, ← schemas[found.index]?)

/-- The head of a block's table. -/
def ofBlock (options : ShapeOptions) (schemas : List Schema) (b : Block) : TableHead :=
  match find? options schemas b.requested with
  | some (found, s) =>
    ⟨b.requested, b.entries, .resolved found.index s.id found.rule, s.displayLabel,
      columnsOf options.includeHidden s⟩
  | none =>
    ⟨b.requested, b.entries, .notFound b.requested, schemaNotFound,
      (observed b.rows).map NestedColumn.ofMember⟩

end TableHead

mutual

/-- A block ready for display. -/
inductive NestedTable where
  | mk (head : TableHead) (rows : List NestedRow)

/-- A row of a nested table. -/
inductive NestedRow where
  /-- A row with one cell for every column, and the tables of its child blocks. -/
  | mk (cells : List (Option Json)) (children : List NestedTable)

end

/-- What stands above the rows. -/
def NestedTable.head : NestedTable → TableHead
  | mk h _ => h

/-- The rows. -/
def NestedTable.rows : NestedTable → List NestedRow
  | mk _ rows => rows

/-- The cells of a row. -/
def NestedRow.cells : NestedRow → List (Option Json)
  | mk cells _ => cells

/-- The tables under a row. -/
def NestedRow.children : NestedRow → List NestedTable
  | mk _ children => children

namespace NestedTable

mutual

/-- **Lays out a block** and all blocks below it. -/
def ofBlock (options : ShapeOptions) (schemas : List Schema) : Block → NestedTable
  | .mk requested entries rows =>
    let head := TableHead.ofBlock options schemas (.mk requested entries rows)
    mk head (ofRows options schemas head.columns rows)

/-- Lays out rows. -/
def ofRows (options : ShapeOptions) (schemas : List Schema) (columns : List NestedColumn) :
    List BlockRow → List NestedRow
  | [] => []
  | r :: rest => ofRow options schemas columns r :: ofRows options schemas columns rest

/-- Lays out a row. -/
def ofRow (options : ShapeOptions) (schemas : List Schema) (columns : List NestedColumn) :
    BlockRow → NestedRow
  | .mk members children => .mk (columns.map (·.cell members)) (ofBlocks options schemas children)

/-- Lays out the child blocks of a row. -/
def ofBlocks (options : ShapeOptions) (schemas : List Schema) : List Block → List NestedTable
  | [] => []
  | b :: rest => ofBlock options schemas b :: ofBlocks options schemas rest

end

mutual

/-- Writes a table; the tables under a row are written when there are any. -/
def toJson : NestedTable → Json
  | mk head rows =>
    .obj [("schema", head.schema.toJson), ("label", .str head.label),
      ("columns", .arr (head.columns.map NestedColumn.toJson)), ("rows", .arr (rowsToJson rows))]

/-- Writes rows. -/
def rowsToJson : List NestedRow → List Json
  | [] => []
  | r :: rest => rowToJson r :: rowsToJson rest

/-- Writes a row. -/
def rowToJson : NestedRow → Json
  | .mk cells [] => .obj [("cells", cellsToJson cells)]
  | .mk cells (t :: rest) =>
    .obj [("cells", cellsToJson cells), ("children", .arr (tablesToJson (t :: rest)))]

/-- Writes the tables under a row. -/
def tablesToJson : List NestedTable → List Json
  | [] => []
  | t :: rest => toJson t :: tablesToJson rest

end

mutual

/-- The number of tables in a table: itself, and those under its rows. -/
def count : NestedTable → Nat
  | mk _ rows => 1 + countRows rows

/-- The number of tables under rows. -/
def countRows : List NestedRow → Nat
  | [] => 0
  | r :: rest => countRow r + countRows rest

/-- The number of tables under a row. -/
def countRow : NestedRow → Nat
  | .mk _ children => countTables children

/-- The number of tables in a list of tables. -/
def countTables : List NestedTable → Nat
  | [] => 0
  | t :: rest => count t + countTables rest

end

/-- The table of a child block, by the position of its row and its own position there. -/
def child? (t : NestedTable) (row child : Nat) : Option NestedTable :=
  t.rows[row]?.bind (·.children[child]?)

/-- The tables met on a way down, each step of which names a row and one of the tables under it. The
second part tells whether every step led to a table; the way ends before the first that does
not. -/
def descend (t : NestedTable) : List (Nat × Nat) → List NestedTable × Bool
  | [] => ([], true)
  | (row, child) :: steps =>
    match t.child? row child with
    | none => ([], false)
    | some next =>
      let (tables, complete) := next.descend steps
      (next :: tables, complete)

end NestedTable

end PatternQuery
