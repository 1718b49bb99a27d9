import PatternQuery.Json.Record

/-!
# Columns

A column of a result is a field of an occurrence. It has a place in the order of display, counted
from one, and, if rows are grouped by it, a place in the order of grouping, counted from zero.
Columns are named by selectors: a field id alone, when only one column has that field, or a field
id with the key of its occurrence.
-/

namespace PatternQuery

/-- What tells one column from another. -/
structure ColumnId where
  field : String
  /-- The key of the occurrence the field belongs to. -/
  schema : String
  deriving Repr, DecidableEq

/-- The id in one piece of text: the occurrence, a dot, the field. -/
def ColumnId.text (c : ColumnId) : String := c.schema ++ "." ++ c.field

/-- A column with its places in both orders. -/
structure Column where
  id : ColumnId
  /-- The place in the order of display, from one on. -/
  selectOrder : UInt32
  /-- The place in the order of grouping, from zero on. -/
  groupOrder : Option UInt32
  deriving Repr, DecidableEq

/-- A way to name a column. -/
inductive Selector where
  /-- The column with this field, if there is only one. -/
  | field (field : String)
  | qualified (id : ColumnId)
  deriving Repr, DecidableEq

/-- The selector in one piece of text. -/
def Selector.text : Selector → String
  | field f => f
  | qualified id => id.text

/-- Why a set of columns cannot be edited in some way, or a list of columns is not such a set. -/
inductive ColumnError where
  | duplicateColumn (id : ColumnId)
  | unknownColumn (selector : Selector)
  | ambiguousColumn (field : String) (candidates : Nat)
  | duplicateSelector (selector : Selector)
  | notAPermutation (expected found : Nat)
  | selectOrderNotDense (expected : Nat)
  | groupOrderNotDense (expected : Nat)
  deriving Repr, DecidableEq

namespace ColumnError

/-- The stable name of the error. -/
def code : ColumnError → String
  | duplicateColumn _ => "DuplicateColumn"
  | unknownColumn _ => "UnknownColumn"
  | ambiguousColumn .. => "AmbiguousColumn"
  | duplicateSelector _ => "DuplicateSelector"
  | notAPermutation .. => "NotAPermutation"
  | selectOrderNotDense _ => "SelectOrderNotDense"
  | groupOrderNotDense _ => "GroupOrderNotDense"

/-- The text of the error. -/
def message : ColumnError → String
  | duplicateColumn id =>
    "column '" ++ id.field ++ "' of '" ++ id.schema ++ "' is already selected"
  | unknownColumn selector => "unknown column '" ++ selector.text ++ "'"
  | ambiguousColumn field candidates =>
    s!"field '{field}' matches {candidates} columns; qualify it with a schema id"
  | duplicateSelector selector => "column '" ++ selector.text ++ "' listed more than once"
  | notAPermutation expected found => s!"reorder must list all {expected} columns (got {found})"
  | selectOrderNotDense expected =>
    s!"selectOrder values must be a dense 1..{expected} sequence"
  | groupOrderNotDense expected => s!"groupOrder values must be a dense 0..{expected} sequence"

end ColumnError

namespace Column

/-- What a column record holds while it is read. -/
structure Draft where
  field : Option String := none
  schema : Option String := none
  selectOrder : Option UInt32 := none
  groupOrder : Option UInt32 := none

/-- Reads a place. -/
def orderOfJson (v : Json) : Except DecodeError UInt32 :=
  return (← v.toNatBelow UInt32.size).toUInt32

/-- Reads a column. -/
def ofJson (v : Json) : Except DecodeError Column := do
  let declared := ["fieldId", "schemaId", "selectOrder", "groupOrder"]
  let d ← v.toRecord declared ({} : Draft) fun d name v =>
    match name with
    | "fieldId" => return { d with field := some (← v.toStr) }
    | "schemaId" => return { d with schema := some (← v.toStr) }
    | "selectOrder" => return { d with selectOrder := some (← orderOfJson v) }
    | "groupOrder" => return { d with groupOrder := ← v.toOptionOf orderOfJson }
    | _ => return d
  return ⟨⟨← Json.required d.field, ← Json.required d.schema⟩, ← Json.required d.selectOrder,
    d.groupOrder⟩

/-- Writes a column; its place in the order of grouping is written when it has one. -/
def toJson (c : Column) : Json :=
  .obj ([("fieldId", .str c.id.field), ("schemaId", .str c.id.schema),
    ("selectOrder", .nat c.selectOrder.toNat)] ++
    c.groupOrder.toList.map fun o => ("groupOrder", .nat o.toNat))

/-- The column in one line of text. -/
def describe (c : Column) : String :=
  toString c.selectOrder ++ ". " ++ c.id.text ++
    (match c.groupOrder with
      | some o => " group=" ++ toString o
      | none => "")

end Column

end PatternQuery
