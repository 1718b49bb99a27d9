import PatternQuery.Error

/-!
# Stored configurations

A configuration is stored as a JSON object with the members `columns`, `patterns`, `applyRBAC` and
`pagination`; all but `patterns` may be missing. There are two ways to read one back. `Config.ofJson`
folds every failure into one kind, and `Config.load` keeps the failures of the configuration's own
rules apart from those of the reading. Rules about a single member, such as the order of the columns
or the completeness of a hop, belong to the reading in both.
-/

namespace PatternQuery

namespace PageStrategy

/-- Reads a strategy: its name, or an object with the name and null. -/
def ofJson (v : Json) : Except DecodeError PageStrategy :=
  match v with
  | .str s => Json.required (ofName? s)
  | .obj [(s, .null)] => Json.required (ofName? s)
  | _ => .error .malformed

end PageStrategy

namespace Pagination

/-- What a pagination record holds while it is read. -/
structure Draft where
  limit : Option Nat := none
  offset : Nat := 0
  strategy : PageStrategy := .offset

/-- Reads a limit. -/
def limitOfJson (v : Json) : Except DecodeError Nat := v.toNatBelow 0x100000000

/-- Reads an offset. -/
def offsetOfJson (v : Json) : Except DecodeError Nat := v.toNatBelow 0x10000000000000000

/-- Reads a page. -/
def ofJson (v : Json) : Except DecodeError Pagination := do
  let d ← v.toRecord ["limit", "offset", "strategy"] ({} : Draft) fun d name v =>
    match name with
    | "limit" => return { d with limit := some (← limitOfJson v) }
    | "offset" => return { d with offset := ← offsetOfJson v }
    | "strategy" => return { d with strategy := ← PageStrategy.ofJson v }
    | _ => return d
  return ⟨← Json.required d.limit, d.offset, d.strategy⟩

/-- Writes a page. -/
def toJson (p : Pagination) : Json :=
  .obj [("limit", .nat p.limit), ("offset", .nat p.offset), ("strategy", .str p.strategy.name)]

end Pagination

namespace Config

/-- The parts of a configuration, before the whole is checked. -/
structure Record where
  columns : ColumnSet := .empty
  pattern : Option Pattern := none
  applyRBAC : Bool := false
  pagination : Pagination := .standard

/-- Reads the parts of a configuration. -/
def readRecord (v : Json) : Except DecodeError Record :=
  v.toRecord ["columns", "patterns", "applyRBAC", "pagination"] ({} : Record) fun r name v =>
    match name with
    | "columns" => return { r with columns := ← ColumnSet.ofJson v }
    | "patterns" => return { r with pattern := some (← Pattern.ofJson v) }
    | "applyRBAC" => return { r with applyRBAC := ← v.toBool }
    | "pagination" => return { r with pagination := ← Pagination.ofJson v }
    | _ => return r

/-- Reads a configuration; a configuration that is not valid is refused with the text of its
error. -/
def ofJson (v : Json) : Except DecodeError Config := do
  let r ← readRecord v
  match make r.columns (← Json.required r.pattern) r.applyRBAC r.pagination with
  | .ok c => return c
  | .error e => throw (.refused e.message)

/-- **Loads a stored configuration,** keeping the errors of a configuration that is not valid as
they are. -/
def load (v : Json) : Except QueryError Config := do
  let parts : Except DecodeError (Record × Pattern) := do
    let r ← readRecord v
    return (r, ← Json.required r.pattern)
  match parts with
  | .error e => throw (.serialization e)
  | .ok (r, pattern) =>
    match make r.columns pattern r.applyRBAC r.pagination with
    | .ok c => return c
    | .error e => throw (.config e)

/-- The members under which a configuration is stored. -/
def members (c : Config) : List (String × Json) :=
  [("columns", c.columns.toJson), ("patterns", c.pattern.toJson),
   ("applyRBAC", .bool c.applyRBAC), ("pagination", c.pagination.toJson)]

/-- Writes a configuration. -/
def toJson (c : Config) : Json := .obj c.members

end Config

end PatternQuery
