import PatternQuery.Error

/-!
# Drafting a configuration

A configuration can be put together in steps, one hop or column at a time. The first step that fails
is remembered, and building the configuration reports the failure. Steps that come after it add nothing;
only the settings, access control and the page, are still written, which nobody gets to see. The root
may come at any point and is put in front.
-/

namespace PatternQuery

/-- A step of drafting. -/
inductive DraftStep where
  | root (occurrence : Occurrence)
  | hop (source : Occurrence) (relation : String) (target : Occurrence) (optional : Bool)
  | column (id : ColumnId)
  /-- Groups by these columns; they are looked up when the configuration is built. -/
  | groupBy (selectors : List Selector)
  | applyRBAC (apply : Bool)
  | limit (rows : Nat)
  | offset (rows : Nat)
  | cursor
  | pagination (page : Pagination)
  deriving Repr, DecidableEq

/-- A configuration that is being put together. -/
structure ConfigDraft where
  pattern : Pattern
  columns : ColumnSet
  group : Option (List Selector)
  applyRBAC : Bool
  pagination : Pagination
  /-- The failure of the first step that failed. -/
  failure : Option QueryError
  deriving Repr, DecidableEq

namespace ConfigDraft

/-- The draft before any step. -/
def empty : ConfigDraft := ⟨[], .empty, none, false, .standard, none⟩

/-- The draft that comes next; a draft that has failed stays as it is. -/
def unlessFailed (d next : ConfigDraft) : ConfigDraft := if d.failure.isSome then d else next

/-- Takes a step. What adds to a draft that has failed is passed over, and settings are written. -/
def step (d : ConfigDraft) : DraftStep → ConfigDraft
  | .root o => d.unlessFailed <|
    if d.pattern.any Hop.isRoot then { d with failure := some (.invalidArgument "root is already set") }
    else { d with pattern := .root o :: d.pattern }
  | .hop source relation target optional => d.unlessFailed
    { d with pattern := d.pattern ++ [.edge source relation target optional] }
  | .column id => d.unlessFailed <|
    match (ColumnSet.add id).run d.columns with
    | .ok _ columns => { d with columns }
    | .error e columns => { d with columns, failure := some (.column e) }
  | .groupBy selectors => d.unlessFailed { d with group := some selectors }
  | .applyRBAC apply => { d with applyRBAC := apply }
  | .limit rows => { d with pagination := { d.pagination with limit := rows } }
  | .offset rows => { d with pagination := { d.pagination with offset := rows } }
  | .cursor => { d with pagination := { d.pagination with strategy := .cursor } }
  | .pagination page => { d with pagination := page }

/-- Takes steps one after another. -/
def ofSteps (steps : List DraftStep) : ConfigDraft := steps.foldl step empty

/-- **Builds the configuration:** the first failure if there is one, then the grouping, and then the
checks of the configuration as a whole. -/
def build (d : ConfigDraft) : Except QueryError Config := do
  match d.failure with
  | some e => throw e
  | none =>
    let columns ←
      match d.group with
      | none => .ok d.columns
      | some selectors =>
        match (ColumnSet.group selectors).run d.columns with
        | .ok () columns => .ok columns
        | .error e _ => .error (QueryError.column e)
    match Config.make columns d.pattern d.applyRBAC d.pagination with
    | .ok c => return c
    | .error e => throw (.config e)

end ConfigDraft

end PatternQuery
