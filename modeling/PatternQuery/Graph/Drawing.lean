import PatternQuery.Graph.Basic
import PatternQuery.Pattern.Placement
import PatternQuery.Schema.Basic

/-!
# Drawing a pattern

A pattern is drawn as a graph when it is opened for editing. Every hop becomes a node, numbered in
order, and every edge hop an edge. Nodes stand in columns by depth, and in a column from top to
bottom in the order of their hops. A node whose schema the catalog does not know is a placeholder
labelled with the schema id.
-/

namespace PatternQuery

/-- How nodes are spread over the canvas. -/
structure Layout where
  /-- The distance between one depth and the next. -/
  columnSpacing : Float
  /-- The distance between nodes of one depth. -/
  rowSpacing : Float
  /-- Where the root is drawn. -/
  origin : Position

/-- The layout that is used when none is asked for. -/
def Layout.standard : Layout := ⟨280, 120, .origin⟩

/-- The position of a slot of the grid. -/
def Layout.slot (l : Layout) (depth row : Nat) : Position :=
  ⟨l.origin.x + Float.ofNat depth * l.columnSpacing, l.origin.y + Float.ofNat row * l.rowSpacing⟩

namespace Drawing

/-- The id of the node drawn for the hop at a position. -/
def nodeId (index : Nat) : String := "n" ++ toString index

/-- The row of a placement in its column: how many of the earlier placements have its depth. -/
def row (earlier : List Placement) (p : Placement) : Nat :=
  earlier.countP (·.depth == p.depth)

/-- The node drawn for a placement. -/
def node (find : String → Option Schema) (layout : Layout) (earlier : List Placement) (index : Nat)
    (p : Placement) : Node :=
  let schema := p.occurrence.schema
  let position := layout.slot p.depth (row earlier p)
  match find schema with
  | some s => ⟨nodeId index, schema, some s.displayLabel, position, false⟩
  | none => ⟨nodeId index, schema, some schema, position, true⟩

/-- The edge drawn for a placement; none for the root. -/
def edge? (index : Nat) (p : Placement) : Option Edge :=
  p.incoming.map fun i => ⟨nodeId i.source, nodeId index, i.relation, some i.optional⟩

/-- The graph of a placed pattern. -/
def ofPlacements (find : String → Option Schema) (layout : Layout) (placed : List Placement) :
    Graph :=
  ⟨placed.mapIdx fun i p => node find layout (placed.take i) i p,
    placed.zipIdx.filterMap fun (p, i) => edge? i p⟩

end Drawing

/-- **Draws a pattern.** `find` looks schemas up in a catalog. -/
def Pattern.draw (find : String → Option Schema) (layout : Layout) (p : Pattern) :
    Except PatternError Graph :=
  p.place.map (Drawing.ofPlacements find layout)

end PatternQuery
