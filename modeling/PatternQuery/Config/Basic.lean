import PatternQuery.Pattern.Placement
import PatternQuery.Selection.ColumnSet

/-!
# Query configurations

A query configuration is what is stored for a query and sent to the backend: a pattern, the columns
that are selected from it, whether access control applies, and the page that is asked for. A
configuration is checked whenever one is made, by `Config.make`, and an edit makes a new one.
-/

namespace PatternQuery

/-- How one page follows another. -/
inductive PageStrategy where
  /-- By the number of rows to skip. -/
  | offset
  /-- By a cursor that the backend hands out. -/
  | cursor
  deriving Repr, DecidableEq

/-- The name of the strategy. -/
def PageStrategy.name : PageStrategy → String
  | offset => "offset"
  | cursor => "cursor"

/-- The strategy with a name. -/
def PageStrategy.ofName? (s : String) : Option PageStrategy :=
  [offset, cursor].find? (·.name == s)

/-- The page that is asked for. -/
structure Pagination where
  /-- The greatest number of rows on the page. -/
  limit : Nat
  /-- The number of rows to skip. -/
  offset : Nat
  strategy : PageStrategy
  deriving Repr, DecidableEq

/-- The first fifty rows. -/
def Pagination.standard : Pagination := ⟨50, 0, .offset⟩

/-- Why a configuration is not valid. -/
inductive ConfigError where
  | pattern (e : PatternError)
  | column (e : ColumnError)
  | zeroLimit
  /-- A column belongs to an occurrence that no hop introduces. -/
  | unknownOccurrence (id : ColumnId)
  deriving Repr, DecidableEq

namespace ConfigError

/-- The stable name of the error. -/
def code : ConfigError → String
  | pattern e => e.code
  | column e => e.code
  | zeroLimit => "InvalidLimit"
  | unknownOccurrence _ => "UnknownColumnSchema"

/-- The text of the error. -/
def message : ConfigError → String
  | pattern e => e.message
  | column e => e.message
  | zeroLimit => "pagination limit must be greater than zero"
  | unknownOccurrence id =>
    "column '" ++ id.field ++ "' references '" ++ id.schema ++ "' which no pattern hop introduces"

end ConfigError

/-- A query configuration. -/
structure Config where
  columns : ColumnSet
  pattern : Pattern
  /-- Whether the backend applies access control. -/
  applyRBAC : Bool
  pagination : Pagination
  deriving Repr, DecidableEq

namespace Config

/-- The occurrences of the pattern, in the order of the hops. -/
def occurrences (c : Config) : List Occurrence :=
  c.pattern.map Hop.introduces

/-- Checks a configuration: its pattern, its columns, its page limit, and then that every column
belongs to an occurrence of the pattern. -/
def check (c : Config) : Except ConfigError Unit := do
  c.pattern.check.mapError .pattern
  c.columns.checkInvariants.mapError .column
  if c.pagination.limit = 0 then throw .zeroLimit
  let keys := c.occurrences.map Occurrence.key
  match c.columns.columns.find? fun column => !keys.contains column.id.schema with
  | some column => throw (.unknownOccurrence column.id)
  | none => return ()

/-- **Makes a configuration,** if it is valid. -/
def make (columns : ColumnSet) (pattern : Pattern) (applyRBAC : Bool) (pagination : Pagination) :
    Except ConfigError Config := do
  let c : Config := ⟨columns, pattern, applyRBAC, pagination⟩
  c.check
  return c

/-- The configuration of a pattern from which nothing is selected yet. -/
def ofPattern (p : Pattern) : Except ConfigError Config :=
  make .empty p false .standard

/-- The configuration with other columns. -/
def withColumns (c : Config) (columns : ColumnSet) : Except ConfigError Config :=
  make columns c.pattern c.applyRBAC c.pagination

/-- The configuration with another pattern. -/
def withPattern (c : Config) (p : Pattern) : Except ConfigError Config :=
  make c.columns p c.applyRBAC c.pagination

/-- The configuration with another page. -/
def withPagination (c : Config) (pagination : Pagination) : Except ConfigError Config :=
  make c.columns c.pattern c.applyRBAC pagination

/-- The configuration with access control switched on or off. -/
def withApplyRBAC (c : Config) (applyRBAC : Bool) : Config :=
  { c with applyRBAC }

end Config

end PatternQuery
