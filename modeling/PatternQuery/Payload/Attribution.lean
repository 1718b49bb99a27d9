import PatternQuery.Payload.CellPath
import PatternQuery.Schema.Basic

/-!
# Attributing paths to schemas

The columns of a flattened result belong to schemas by depth: paths without steps to the first
schema, paths with one step to the second, and so on, and all deeper ones to the last. The columns
of one schema form a group, in which they follow the order of the schema's fields; fields that the
schema does not know come last.
-/

namespace PatternQuery

/-- The label of blocks and groups whose schema is not known. -/
def schemaNotFound : String := "schema not found"

/-- The place of a field in its schema. -/
inductive FieldOrder where
  | resolved (index : Nat)
  /-- The schema has no such field. -/
  | unresolved
  deriving Repr, DecidableEq

/-- The order of places, unresolved ones last. -/
def FieldOrder.compare : FieldOrder → FieldOrder → Ordering
  | resolved a, resolved b => Ord.compare a b
  | resolved _, unresolved => .lt
  | unresolved, resolved _ => .gt
  | unresolved, unresolved => .eq

/-- Writes a place. -/
def FieldOrder.toJson : FieldOrder → Json
  | resolved index => .obj [("resolved", .nat index)]
  | unresolved => .str "unresolved"

/-- A column ready for display. -/
structure ShapedColumn where
  path : CellPath
  label : String
  /-- The id of the schema the column belongs to. -/
  schema : Option String
  order : FieldOrder
  deriving Repr, DecidableEq

/-- The columns of one schema. -/
structure ColumnGroup where
  /-- The id of the schema; none when there are no schemas at all. -/
  schema : Option String
  label : String
  columns : List ShapedColumn
  deriving Repr, DecidableEq

namespace ShapedColumn

/-- The order of the columns of a group: by the place of the field, then by its name, then by the
whole path. -/
def compare (a b : ShapedColumn) : Ordering :=
  (a.order.compare b.order).then
    ((Ord.compare a.path.field b.path.field).then (a.path.compare b.path))

/-- Writes a column. -/
def toJson (c : ShapedColumn) : Json :=
  .obj [("path", c.path.toJson), ("label", .str c.label), ("schemaId", .ofOption c.schema),
    ("order", c.order.toJson)]

end ShapedColumn

/-- Writes a group. -/
def ColumnGroup.toJson (g : ColumnGroup) : Json :=
  .obj [("schemaId", .ofOption g.schema), ("label", .str g.label),
    ("columns", .arr (g.columns.map ShapedColumn.toJson))]

namespace Attribution

/-- The position of the schema for a depth; none when there are no schemas. -/
def indexForDepth (schemas : List Schema) (depth : Nat) : Option Nat :=
  if schemas.isEmpty then none else some (min depth (schemas.length - 1))

/-- The schema for a depth. -/
def schemaForDepth (schemas : List Schema) (depth : Nat) : Option Schema :=
  (indexForDepth schemas depth).bind (schemas[·]?)

/-- The place of a field in a schema. -/
def fieldOrder (s : Schema) (field : String) : FieldOrder :=
  match s.fieldIndex? field with
  | some index => .resolved index
  | none => .unresolved

/-- The field of a schema that a path names. -/
def fieldOf (schema : Option Schema) (p : CellPath) : Option Field :=
  schema.bind (·.field? p.field)

/-- Whether a path names a hidden field. -/
def isHidden (schema : Option Schema) (p : CellPath) : Bool :=
  ((fieldOf schema p).map (·.hidden)).getD false

/-- The column of a path that belongs to a schema. -/
def column (schema : Option Schema) (p : CellPath) : ShapedColumn :=
  ⟨p, ((fieldOf schema p).map Field.displayLabel).getD p.field, schema.map (·.id),
    (schema.map (fieldOrder · p.field)).getD .unresolved⟩

/-- The group of a schema, made of those paths that are not hidden; none when no path is left. -/
def group? (includeHidden : Bool) (schema : Option Schema) (paths : List CellPath) :
    Option ColumnGroup :=
  let shown := paths.filter fun p => includeHidden || !isHidden schema p
  if shown.isEmpty then none
  else
    let columns := (shown.map (column schema)).mergeSort fun a b => (a.compare b).isLE
    some ⟨schema.map (·.id), (schema.map Schema.displayLabel).getD schemaNotFound, columns⟩

/-- **Groups paths by schema,** the groups in the order of the schemas. Without schemas there is one
group for all paths. -/
def groups (schemas : List Schema) (includeHidden : Bool) (paths : List CellPath) :
    List ColumnGroup :=
  if schemas.isEmpty then (group? includeHidden none paths).toList
  else
    schemas.zipIdx.filterMap fun (s, i) =>
      group? includeHidden (some s)
        (paths.filter fun p => indexForDepth schemas p.depth == some i)

end Attribution

end PatternQuery
