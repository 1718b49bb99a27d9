import PatternQuery.Json.Record

/-!
# Patterns

A pattern is the stored form of a query: a list of hops. The root hop says where the traversal
starts, and every edge hop follows a relation from an occurrence that an earlier hop introduced to a
new one. A schema may occur several times, so an occurrence can carry a tag that tells it from
others of its schema; the tag, or else the schema id, is its key.
-/

namespace PatternQuery

/-- One occurrence of a schema in a pattern. -/
structure Occurrence where
  /-- The id of the schema. -/
  schema : String
  /-- What tells this occurrence from others of the same schema. -/
  tag : Option String
  deriving Repr, DecidableEq, Inhabited

namespace Occurrence

/-- The key under which other hops and columns refer to the occurrence. -/
def key (o : Occurrence) : String := o.tag.getD o.schema

/-- What an occurrence record holds while it is read. -/
structure Draft where
  schema : Option String := none
  tag : Option String := none

/-- Reads an occurrence. -/
def ofJson (v : Json) : Except DecodeError Occurrence := do
  let d ← v.toRecord ["schemaId", "alias"] ({} : Draft) fun d name v =>
    match name with
    | "schemaId" => return { d with schema := some (← v.toStr) }
    | "alias" => return { d with tag := ← v.toOptionOf Json.toStr }
    | _ => return d
  return ⟨← Json.required d.schema, d.tag⟩

/-- Writes an occurrence; the tag is written only when there is one. -/
def toJson (o : Occurrence) : Json :=
  .obj (("schemaId", .str o.schema) :: (o.tag.toList.map fun t => ("alias", .str t)))

end Occurrence

/-- One step of a pattern. -/
inductive Hop where
  /-- The start of the traversal. -/
  | root (occurrence : Occurrence)
  /-- A relation followed from `source`, introducing `target`. Rows without a match are kept when the
  hop is optional. -/
  | edge (source : Occurrence) (relation : String) (target : Occurrence) (optional : Bool)
  deriving Repr, DecidableEq

/-- A list of hops. -/
abbrev Pattern := List Hop

namespace Hop

/-- Whether the hop is a root hop. -/
def isRoot : Hop → Bool
  | root _ => true
  | edge .. => false

/-- The occurrence the hop starts from; for a root hop, the one it introduces. -/
def source : Hop → Occurrence
  | root o => o
  | edge s _ _ _ => s

/-- The occurrence an edge hop leads to. -/
def target? : Hop → Option Occurrence
  | root _ => none
  | edge _ _ t _ => some t

/-- The relation an edge hop follows. -/
def relation? : Hop → Option String
  | root _ => none
  | edge _ r _ _ => some r

/-- Whether rows without a match are kept. -/
def isOptional : Hop → Bool
  | root _ => false
  | edge _ _ _ o => o

/-- The occurrence the hop introduces. -/
def introduces : Hop → Occurrence
  | root o => o
  | edge _ _ t _ => t

end Hop

/-- Why a list of hops is no pattern. -/
inductive PatternError where
  | missingRoot
  | multipleRoots (count : Nat)
  /-- An edge hop has a target but no relation, or a relation but no target; `missing` is the member
  that is not there. -/
  | incompleteEdge (missing : String)
  | blankRelation (hop : Nat)
  | unknownSource (hop : Nat) (key : String)
  | duplicateOccurrence (hop : Nat) (key : String)
  | schemaMismatch (hop : Nat) (key expected found : String)
  deriving Repr, DecidableEq

namespace PatternError

/-- The stable name of the error. -/
def code : PatternError → String
  | missingRoot => "MissingRoot"
  | multipleRoots _ => "MultipleRoots"
  | incompleteEdge _ => "IncompleteEdgeHop"
  | blankRelation _ => "EmptyRelation"
  | unknownSource .. => "UnknownSource"
  | duplicateOccurrence .. => "DuplicateOccurrence"
  | schemaMismatch .. => "SchemaMismatch"

/-- The text of the error. -/
def message : PatternError → String
  | missingRoot => "pattern list requires a root hop"
  | multipleRoots count => s!"pattern list has {count} root hops; exactly one is allowed"
  | incompleteEdge missing => s!"edge hop is missing '{missing}'"
  | blankRelation hop => s!"hop {hop} has an empty relation name"
  | unknownSource hop key => s!"hop {hop} starts from '{key}' which no earlier hop introduces"
  | duplicateOccurrence hop key => s!"hop {hop} re-introduces occurrence '{key}'"
  | schemaMismatch hop key expected found =>
    s!"hop {hop} uses '{key}' for schema '{found}' but it was introduced as '{expected}'"

end PatternError

namespace Hop

/-- What a hop record holds while it is read. -/
structure Draft where
  source : Option Occurrence := none
  target : Option Occurrence := none
  relation : Option String := none
  optional : Option Bool := none

/-- The hop that a record describes. With neither target nor relation it is a root hop, whatever it
says about being optional. -/
def ofRecord (source : Occurrence) (target : Option Occurrence) (relation : Option String)
    (optional : Option Bool) : Except PatternError Hop :=
  match target, relation with
  | none, none => .ok (root source)
  | some target, some relation => .ok (edge source relation target (optional.getD false))
  | some _, none => .error (.incompleteEdge "edge")
  | none, some _ => .error (.incompleteEdge "to")

/-- Reads a hop. -/
def ofJson (v : Json) : Except DecodeError Hop := do
  let d ← v.toRecord ["from", "to", "edge", "optional"] ({} : Draft) fun d name v =>
    match name with
    | "from" => return { d with source := some (← Occurrence.ofJson v) }
    | "to" => return { d with target := ← v.toOptionOf Occurrence.ofJson }
    | "edge" => return { d with relation := ← v.toOptionOf Json.toStr }
    | "optional" => return { d with optional := ← v.toOptionOf Json.toBool }
    | _ => return d
  match ofRecord (← Json.required d.source) d.target d.relation d.optional with
  | .ok hop => return hop
  | .error e => throw (.refused e.message)

/-- Writes a hop. -/
def toJson : Hop → Json
  | root o => .obj [("from", o.toJson)]
  | edge s r t o =>
    .obj [("from", s.toJson), ("to", t.toJson), ("edge", .str r), ("optional", .bool o)]

/-- The hop in one line of text. -/
def describe : Hop → String
  | root o => "root " ++ o.key
  | edge s r t o =>
    s.key ++ " -[" ++ r ++ "]-> " ++ t.key ++ (if o then " (optional)" else "")

end Hop

namespace Pattern

/-- Reads a list of hops. -/
def ofJson (v : Json) : Except DecodeError Pattern :=
  v.toListOf Hop.ofJson

/-- Writes a list of hops. -/
def toJson (p : Pattern) : Json :=
  .arr (p.map Hop.toJson)

end Pattern

end PatternQuery
