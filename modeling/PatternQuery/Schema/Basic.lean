import PatternQuery.Json.Record

/-!
# Schemas and their fields

A schema describes one kind of record in a result: an id, a label for people, and its fields in
their natural order. A field answers to its id and to its name, and the first field of a schema that
answers to a text is the one the text refers to.
-/

namespace PatternQuery

/-- One field of a schema. -/
structure Field where
  id : String
  /-- The name under which the field appears in result rows; may be empty. -/
  name : String
  /-- The label for people; may be empty. -/
  label : String
  /-- Hidden fields are left out of tables unless they are asked for. -/
  hidden : Bool
  deriving Repr, DecidableEq

/-- A schema, with its fields in column order. -/
structure Schema where
  id : String
  /-- The label for people; may be empty. -/
  label : String
  fields : List Field
  deriving Repr, DecidableEq

namespace Field

/-- Whether a text refers to the field, by id or by name. -/
def answersTo (f : Field) (text : String) : Bool :=
  f.id == text || f.name == text

/-- The label to show: the label, else the name, else the id. -/
def displayLabel (f : Field) : String :=
  if !f.label.isEmpty then f.label else if !f.name.isEmpty then f.name else f.id

/-- What a field record holds while it is read. -/
structure Draft where
  id : Option String := none
  name : String := ""
  label : String := ""
  hidden : Bool := false

/-- Reads a field. -/
def ofJson (v : Json) : Except DecodeError Field := do
  let d ← v.toRecord ["id", "name", "label", "hidden"] ({} : Draft) fun d name v =>
    match name with
    | "id" => return { d with id := some (← v.toStr) }
    | "name" => return { d with name := ← v.toStr }
    | "label" => return { d with label := ← v.toStr }
    | "hidden" => return { d with hidden := ← v.toBool }
    | _ => return d
  return ⟨← Json.required d.id, d.name, d.label, d.hidden⟩

/-- Writes a field; `hidden` is written only when it holds. -/
def toJson (f : Field) : Json :=
  .obj ([("id", .str f.id), ("name", .str f.name), ("label", .str f.label)] ++
    if f.hidden then [("hidden", .bool true)] else [])

end Field

namespace Schema

/-- The first field that answers to a text. -/
def field? (s : Schema) (text : String) : Option Field :=
  s.fields.find? (·.answersTo text)

/-- The position of the first field that answers to a text. -/
def fieldIndex? (s : Schema) (text : String) : Option Nat :=
  s.fields.findIdx? (·.answersTo text)

/-- The label to show: the label, else the id. -/
def displayLabel (s : Schema) : String :=
  if s.label.isEmpty then s.id else s.label

/-- The first schema of a list with a given id. -/
def find? (schemas : List Schema) (id : String) : Option Schema :=
  schemas.find? (·.id == id)

/-- What a schema record holds while it is read. -/
structure Draft where
  id : Option String := none
  label : String := ""
  fields : List Field := []

/-- Reads a schema. -/
def ofJson (v : Json) : Except DecodeError Schema := do
  let d ← v.toRecord ["id", "label", "fields"] ({} : Draft) fun d name v =>
    match name with
    | "id" => return { d with id := some (← v.toStr) }
    | "label" => return { d with label := ← v.toStr }
    | "fields" => return { d with fields := ← v.toListOf Field.ofJson }
    | _ => return d
  return ⟨← Json.required d.id, d.label, d.fields⟩

/-- Reads a list of schemas. -/
def listOfJson (v : Json) : Except DecodeError (List Schema) :=
  v.toListOf ofJson

/-- Writes a schema. -/
def toJson (s : Schema) : Json :=
  .obj [("id", .str s.id), ("label", .str s.label), ("fields", .arr (s.fields.map Field.toJson))]

end Schema

end PatternQuery
