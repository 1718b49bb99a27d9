import PatternQuery.Schema.Basic
import Std.Data.HashMap

/-!
# Catalogs

A catalog holds schemas in the order in which their ids first came in, each id once, and an index
from ids to positions. Inserting a schema whose id is known replaces the schema in its place.
-/

namespace PatternQuery

/-- Schemas with an index from their ids to their positions. -/
structure Catalog where
  schemas : Array Schema
  index : Std.HashMap String Nat

namespace Catalog

/-- The catalog without schemas. -/
def empty : Catalog := ⟨#[], ∅⟩

/-- Adds a schema, or replaces the one with its id. -/
def insert (c : Catalog) (s : Schema) : Catalog :=
  match c.index[s.id]? with
  | some i => { c with schemas := c.schemas.setIfInBounds i s }
  | none => ⟨c.schemas.push s, c.index.insert s.id c.schemas.size⟩

/-- The schema with an id. -/
def find? (c : Catalog) (id : String) : Option Schema := do
  c.schemas[← c.index[id]?]?

/-- The catalog that results from inserting schemas one after another. -/
def ofList (schemas : List Schema) : Catalog :=
  schemas.foldl insert empty

/-- The schemas in the order in which their ids first came in. -/
def toList (c : Catalog) : List Schema := c.schemas.toList

/-- How many schemas there are. -/
def size (c : Catalog) : Nat := c.schemas.size

/-- Whether there are no schemas. -/
def isEmpty (c : Catalog) : Bool := c.schemas.isEmpty

end Catalog

end PatternQuery
