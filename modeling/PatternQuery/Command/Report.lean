import PatternQuery.Command.Page
import PatternQuery.Config.Metadata
import PatternQuery.Json.Printer
import PatternQuery.Payload.View
import PatternQuery.Pattern.Canonical
import PatternQuery.Profile.Book

/-!
# Reports

What an action has to show, as JSON and as a page of text. The library's own types are written to
JSON as they are stored; reports that are put together for the occasion have their members in
ascending order.
-/

namespace PatternQuery

/-- What an action has to show. -/
structure Report where
  json : Json
  page : Page
  /-- A warning that goes with the page. -/
  warning : Option String := none

namespace Report

/-- Entries in ascending order of their keys. -/
def byKey {α : Type} (entries : List (String × α)) : List (String × α) := Json.sortMembers entries

/-- The text of a truth value. -/
def boolText (b : Bool) : String := if b then "true" else "false"

/-- The list of the hops of a pattern. -/
def patternPart (p : Pattern) : PagePart := .list "Patterns" (p.map Hop.describe)

/-- The report of a compiled graph. -/
def ofCompiled (c : Compiled) : Report :=
  let keys := byKey (c.bindings.map fun (node, o) => (node, o.key))
  { json := (Json.obj [("patterns", c.hops.toJson),
      ("bindings", .obj (keys.map fun (node, key) => (node, .str key)))]).sorted
    page := [patternPart c.hops, .gap, .facts "Bindings" keys] }

/-- The report of a configuration. -/
def ofConfig (c : Config) : Report :=
  { json := c.toJson
    page := [patternPart c.pattern, .gap, .list "Columns" (c.columns.columns.map Column.describe),
      .gap, .facts "Execution" [("applyRBAC", boolText c.applyRBAC),
        ("limit", toString c.pagination.limit), ("offset", toString c.pagination.offset),
        ("strategy", c.pagination.strategy.name)]] }

/-- A node in one line of text. -/
def nodeLine (n : Node) : String :=
  n.id ++ " " ++ n.schema ++ " at (" ++ Decimal.plainText n.position.x ++ ", " ++
    Decimal.plainText n.position.y ++ ")" ++ (if n.placeholder then " [placeholder]" else "")

/-- The report of a drawn graph. -/
def ofGraph (g : Graph) : Report :=
  { json := g.toJson
    page := [.list "Nodes" (g.nodes.map nodeLine), .gap,
      .list "Edges" (g.edges.map Edge.describe)] }

/-- The report of a pattern in canonical form. The page lists the keys that have changed. -/
def ofCanonical (c : Canonical) : Report :=
  let keys := byKey c.keyMap
  { json := (Json.obj [("patterns", c.hops.toJson),
      ("keyMap", .obj (keys.map fun (old, new) => (old, .str new)))]).sorted
    page := [patternPart c.hops, .gap,
      .facts "Renamed occurrences" (keys.filter fun (old, new) => old != new)] }

/-- The report on a stored configuration that was checked. -/
def ofValidation (r : Except QueryError Config) : Report :=
  match r with
  | .ok c =>
    { json := (Json.obj [("valid", .bool true), ("hops", .nat c.pattern.length),
        ("columns", .nat c.columns.size), ("grouped", .nat c.columns.grouped.length)]).sorted
      page := [.notice ("valid config: " ++ toString c.pattern.length ++ " hops, " ++
        toString c.columns.size ++ " columns")] }
  | .error e =>
    { json := (Json.obj [("valid", .bool false), ("code", .str e.code),
        ("message", .str e.message)]).sorted
      page := []
      warning := some e.withCode }

/-! ### Views -/

/-- A cell as text. -/
def cellText : Option Json → String
  | none | some .null => ""
  | some (.str s) => s
  | some v => v.compact

/-- The page of a flat table: the columns of each group, the rows, and the keys that were skipped. -/
def flatPage (t : FlatTable) : Page :=
  (t.groups.map fun g =>
    .list g.label (g.columns.map fun c => c.label ++ " (" ++ c.path.text ++ ")")) ++
  [.gap, .table "Rows" (t.columns.map (·.label)) (t.rows.map fun r => r.cells.map cellText)] ++
  if t.skipped.isEmpty then [] else [.gap, .list "Skipped keys" t.skipped]

/-- The title of a nested table, behind the place it has below the root. -/
def nestedTitle (place label : String) : String :=
  if place.isEmpty then label else place ++ " " ++ label

mutual

/-- The page of a nested table, followed by those of the tables under its rows. `place` holds the
position of a row for every level above the table. -/
def nestedPage (place : String) : NestedTable → Page
  | .mk head rows =>
    .table (nestedTitle place head.label) (head.columns.map (·.label))
      (rows.map fun r => r.cells.map cellText) :: rowPages place 0 rows

/-- The pages of the tables under rows, of which the first has the position `index`. -/
def rowPages (place : String) (index : Nat) : List NestedRow → Page
  | [] => []
  | .mk _ children :: rest =>
    tablePages (place ++ "[" ++ toString index ++ "]") children ++ rowPages place (index + 1) rest

/-- The pages of tables, an empty line before each. -/
def tablePages (place : String) : List NestedTable → Page
  | [] => []
  | t :: rest => .gap :: nestedPage place t ++ tablePages place rest

end

/-- The report of a payload. -/
def ofView (v : View) : Report :=
  match v with
  | .noData => { json := v.toJson, page := [], warning := some "payload carries no result data" }
  | .flat t => { json := v.toJson, page := flatPage t }
  | .nested t => { json := v.toJson, page := nestedPage "" t }

/-! ### Profiles -/

/-- Writes a profile with its name; a setting that is not set is null. -/
def profileToJson (name : String) (p : Profile) : Json :=
  let bool (b : Option Bool) : Json := (b.map Json.bool).getD .null
  .obj [("name", .str name), ("default_optional", bool p.defaultOptional),
    ("apply_rbac", bool p.applyRBAC), ("page_limit", (p.pageLimit.map Json.nat).getD .null),
    ("pagination_strategy", .ofOption (p.strategy.map PageStrategy.name)),
    ("include_hidden", bool p.includeHidden)]

/-- The report of the profiles, and of the file they are stored in. -/
def ofProfiles (path : Option String) (b : ProfileBook) : Report :=
  let name (n : String) : String := if b.defaultName == some n then n ++ " (default)" else n
  { json := (Json.obj [("config", .ofOption path), ("default", .ofOption b.defaultName),
      ("profiles", .arr (b.index.map fun (n, p) => profileToJson n p))]).sorted
    page :=
      (match path with
        | some path => [.facts "Config" [("path", path)], .gap]
        | none => []) ++
      [.list "Profiles" (b.index.map fun (n, _) => name n)] }

end Report

end PatternQuery
