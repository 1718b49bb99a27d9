import PatternQuery.Json.Record

/-!
# Drawn graphs

A graph as it is drawn in an editor: nodes that stand for schemas, and edges that stand for
relations. Node ids live only as long as the drawing. An edge may leave open whether it is optional.
-/

namespace PatternQuery

/-- A place on the canvas. -/
structure Position where
  x : Float
  y : Float
  deriving Inhabited

/-- A schema on the canvas. -/
structure Node where
  id : String
  /-- The id of the schema the node stands for. -/
  schema : String
  /-- The text shown on the node. -/
  label : Option String
  position : Position
  /-- Whether the schema was missing from the catalog when the node was drawn. -/
  placeholder : Bool

/-- A relation between two nodes. -/
structure Edge where
  /-- The id of the node the relation starts from. -/
  source : String
  /-- The id of the node it leads to. -/
  target : String
  relation : String
  /-- Whether rows without a match are kept; `none` leaves it to the compiler's default. -/
  optional : Option Bool
  deriving Repr, DecidableEq

/-- Nodes and edges in the order in which they were drawn. -/
structure Graph where
  nodes : List Node
  edges : List Edge

namespace Position

/-- The origin of the canvas. -/
def origin : Position := ⟨0, 0⟩

/-- What a position record holds while it is read. -/
structure Draft where
  x : Option Float := none
  y : Option Float := none

/-- Reads a position. -/
def ofJson (v : Json) : Except DecodeError Position := do
  let d ← v.toRecord ["x", "y"] ({} : Draft) fun d name v =>
    match name with
    | "x" => return { d with x := some (← v.toFloat) }
    | "y" => return { d with y := some (← v.toFloat) }
    | _ => return d
  return ⟨← Json.required d.x, ← Json.required d.y⟩

/-- Writes a position. -/
def toJson (p : Position) : Json :=
  .obj [("x", .float p.x), ("y", .float p.y)]

end Position

namespace Node

/-- What a node record holds while it is read. -/
structure Draft where
  id : Option String := none
  schema : Option String := none
  label : Option String := none
  position : Position := .origin
  placeholder : Bool := false

/-- Reads a node. -/
def ofJson (v : Json) : Except DecodeError Node := do
  let declared := ["id", "schemaId", "label", "position", "placeholder"]
  let d ← v.toRecord declared ({} : Draft) fun d name v =>
    match name with
    | "id" => return { d with id := some (← v.toStr) }
    | "schemaId" => return { d with schema := some (← v.toStr) }
    | "label" => return { d with label := ← v.toOptionOf Json.toStr }
    | "position" => return { d with position := ← Position.ofJson v }
    | "placeholder" => return { d with placeholder := ← v.toBool }
    | _ => return d
  return ⟨← Json.required d.id, ← Json.required d.schema, d.label, d.position, d.placeholder⟩

/-- Writes a node; the label is written when there is one, and `placeholder` when it holds. -/
def toJson (n : Node) : Json :=
  .obj ([("id", .str n.id), ("schemaId", .str n.schema)] ++
    (n.label.toList.map fun l => ("label", .str l)) ++ [("position", n.position.toJson)] ++
    if n.placeholder then [("placeholder", .bool true)] else [])

end Node

namespace Edge

/-- What an edge record holds while it is read. -/
structure Draft where
  source : Option String := none
  target : Option String := none
  relation : Option String := none
  optional : Option Bool := none

/-- Reads an edge. -/
def ofJson (v : Json) : Except DecodeError Edge := do
  let d ← v.toRecord ["source", "target", "relation", "optional"] ({} : Draft) fun d name v =>
    match name with
    | "source" => return { d with source := some (← v.toStr) }
    | "target" => return { d with target := some (← v.toStr) }
    | "relation" => return { d with relation := some (← v.toStr) }
    | "optional" => return { d with optional := ← v.toOptionOf Json.toBool }
    | _ => return d
  return ⟨← Json.required d.source, ← Json.required d.target, ← Json.required d.relation,
    d.optional⟩

/-- Writes an edge; `optional` is written when the edge settles it. -/
def toJson (e : Edge) : Json :=
  .obj ([("source", .str e.source), ("target", .str e.target), ("relation", .str e.relation)] ++
    e.optional.toList.map fun o => ("optional", .bool o))

/-- The edge in one line of text. -/
def describe (e : Edge) : String :=
  e.source ++ " -[" ++ e.relation ++ "]-> " ++ e.target ++
    (if e.optional == some true then " (optional)" else "")

end Edge

namespace Graph

/-- The graph with nothing on it. -/
def empty : Graph := ⟨[], []⟩

/-- Whether no node has been drawn. -/
def isEmpty (g : Graph) : Bool := g.nodes.isEmpty

/-- The first node with an id. -/
def node? (g : Graph) (id : String) : Option Node :=
  g.nodes.find? (·.id == id)

/-- The edges that leave a node, in the order in which they were drawn. -/
def outgoing (g : Graph) (id : String) : List Edge :=
  g.edges.filter (·.source == id)

/-- Reads a graph. -/
def ofJson (v : Json) : Except DecodeError Graph :=
  v.toRecord ["nodes", "edges"] empty fun g name v =>
    match name with
    | "nodes" => return { g with nodes := ← v.toListOf Node.ofJson }
    | "edges" => return { g with edges := ← v.toListOf Edge.ofJson }
    | _ => return g

/-- Writes a graph. -/
def toJson (g : Graph) : Json :=
  .obj [("nodes", .arr (g.nodes.map Node.toJson)), ("edges", .arr (g.edges.map Edge.toJson))]

end Graph

end PatternQuery
