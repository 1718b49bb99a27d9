import PatternQuery.Payload.NestedTable

/-!
# Views of a payload

A payload comes back flattened or nested, whichever was asked for, and is made ready for display as
a flat table or a nested one. A payload without data is no failure; its view says so.
-/

namespace PatternQuery

/-- A nested payload: its root block and the schemas it brings along. -/
structure NestedPayload where
  root : Block
  schemas : List Schema

/-- Reads a nested payload; none when its top level is no block. -/
def NestedPayload.ofJson? (payload : Json) : Option NestedPayload := do
  let root ← Block.ofJson? payload
  return ⟨root, FlatRecord.schemasOf (payload.members?.getD [])⟩

/-- The table of the root block. -/
def NestedPayload.table (p : NestedPayload) (options : ShapeOptions) : NestedTable :=
  .ofBlock options p.schemas p.root

/-- A payload ready for display. -/
inductive View where
  | noData
  | flat (table : FlatTable)
  | nested (table : NestedTable)

namespace View

/-- Whether there is nothing to display. -/
def isEmpty : View → Bool
  | noData => true
  | _ => false

/-- The view of a flattened payload, attributed to the schemas that `schemas` picks. -/
def ofFlat (members : List (String × Json)) (schemas : FlatRecord → List Schema)
    (options : ShapeOptions) : View :=
  let r := FlatRecord.ofMembers members
  if r.isEmpty then noData else flat (.ofRecord r (schemas r) options.includeHidden)

/-- **The view of a payload.** -/
def ofPayload (payload : Json) (flatten : Bool) (options : ShapeOptions) : View :=
  if flatten then
    match payload with
    | .obj members => ofFlat members (·.schemas) options
    | _ => noData
  else
    match NestedPayload.ofJson? payload with
    | some p => nested (p.table options)
    | none => noData

/-- The members under which a view is written. -/
def members : View → List (String × Json)
  | noData => [("kind", .str "noData")]
  | flat t => [("kind", .str "flattened"), ("table", t.toJson)]
  | nested t => [("kind", .str "nested"), ("table", t.toJson)]

/-- Writes a view. -/
def toJson (v : View) : Json := .obj v.members

end View

end PatternQuery
