import PatternQuery.Payload.CellPath
import PatternQuery.Schema.Basic
import PatternQuery.Ordered

/-!
# Flattened results

Taking a flattened result apart: its cells are sorted into rows by the index of their root row and,
within a row, by their paths. Keys that are neither cells nor reserved are skipped and reported; they
never stop the reading. Two keys can spell the same cell, with zeros in front of an index; then the
later one in the order of keys counts.
-/

namespace PatternQuery

/-- The cells below one root row, in the order of their paths. -/
structure FlatRow where
  root : Nat
  cells : List (CellPath × Json)

/-- A flattened result taken apart. -/
structure FlatRecord where
  /-- The rows in the order of their indices. -/
  rows : List FlatRow
  /-- Every path that occurs in some row, in order. -/
  columns : List CellPath
  /-- The keys that could not be read, in the order of the object. -/
  skipped : List String
  /-- The schema of the root rows, if the result names one. -/
  rootSchema : Option String
  /-- The schemas of the result, one for each depth; none if they cannot be read. -/
  schemas : List Schema

namespace FlatRecord

/-- A cell with the index of its root row. -/
structure Cell where
  root : Nat
  path : CellPath
  value : Json

/-- The cell that a member of the object gives, if its key is the key of one. -/
def cell? : String × Json → Option Cell
  | (key, value) =>
    match KeyRole.ofKey key with
    | .ok (.cell root path) => some ⟨root, path, value⟩
    | _ => none

/-- Whether the key of a member cannot be read. -/
def isSkipped (key : String) : Bool :=
  match KeyRole.ofKey key with
  | .ok _ => false
  | .error _ => true

/-- Puts a cell into its row. -/
def addCell (rows : List (Nat × List (CellPath × Json))) (c : Cell) :
    List (Nat × List (CellPath × Json)) :=
  Ordered.alter compare c.root
    (fun cells => Ordered.insert CellPath.compare c.path c.value (cells.getD [])) rows

/-- The rows made of the cells. -/
def rowsOf (cells : List Cell) : List FlatRow :=
  (cells.foldl addCell []).map fun (root, cells) => ⟨root, cells⟩

/-- The paths of the cells, in order and each once. -/
def columnsOf (cells : List Cell) : List CellPath :=
  (cells.foldl (fun paths c => Ordered.insert CellPath.compare c.path () paths) []).map (·.1)

/-- The schemas that a payload brings along; none if they are missing or cannot be read. -/
def schemasOf (members : List (String × Json)) : List Schema :=
  match (members.lookup "schemas").map Schema.listOfJson with
  | some (.ok schemas) => schemas
  | _ => []

/-- **Takes a flattened result apart.** -/
def ofMembers (members : List (String × Json)) : FlatRecord :=
  let cells := members.filterMap cell?
  { rows := rowsOf cells
    columns := columnsOf cells
    skipped := (members.map (·.1)).filter isSkipped
    rootSchema := (members.lookup "data.schema").bind Json.str?
    schemas := schemasOf members }

/-- Whether the result carries no data: no rows, and no schema for them. -/
def isEmpty (r : FlatRecord) : Bool :=
  r.rows.isEmpty && r.rootSchema.isNone

end FlatRecord

end PatternQuery
