import PatternQuery.Graph.Rooted
import PatternQuery.Graph.Forest
import PatternQuery.Pattern.Naming

/-!
# Compiling a graph into a pattern

A graph that is a rooted tree is compiled into a list of hops that depends on the tree alone, and
not on node ids, positions or the order of drawing. The tree is grown from the root, its nodes are
finished from the last one that a breadth-first walk comes to up to the root, and a breadth-first walk
over the finished tree gives the hops in order; the occurrences are named along the walk.

To finish a node is to put its children in order. The forest below each child, finished before, is taken
out of a table for this, and the sorted row is put into the table for the parent to take.

Children are sorted by the schema they stand for, then by the relation that leads to them, then by
whether it is optional, required ones first, and then by the shape of what hangs below them. Children
that agree in all of this hang on to their order of drawing.
-/

namespace PatternQuery

/-- What the canonical order sees of a node below the root: its schema and the edge that leads to
it. -/
structure Branch where
  schema : String
  relation : String
  optional : Bool
  deriving Repr, DecidableEq

/-- The order of branches: by schema, by relation, and required before optional. -/
def Branch.compare (a b : Branch) : Ordering :=
  (Ord.compare a.schema b.schema).then
    ((Ord.compare a.relation b.relation).then (Ord.compare a.optional b.optional))

/-- A node below the root. -/
structure Stem where
  /-- The id of the node. -/
  node : String
  branch : Branch
  deriving Repr, DecidableEq

/-- The order of nodes, which does not look at their ids. -/
def Stem.compare (a b : Stem) : Ordering := a.branch.compare b.branch

/-- The shape of what hangs below a node: its sorted tree without the node ids. -/
abbrev Shape := Forest Branch

/-- A compiled graph. -/
structure Compiled where
  /-- The hops in canonical order, root first. -/
  hops : Pattern
  /-- For every node id the occurrence it became, in the order of the hops. -/
  bindings : List (String × Occurrence)
  deriving Repr, DecidableEq

namespace Graph

/-- The schema of the first node with an id. -/
def schemaOf (g : Graph) (id : String) : String :=
  ((g.node? id).map (·.schema)).getD ""

/-- The node an edge leads to. An edge that leaves open whether it is optional takes the default. -/
def stem (g : Graph) (defaultOptional : Bool) (e : Edge) : Stem :=
  ⟨e.target, g.schemaOf e.target, e.relation, e.optional.getD defaultOptional⟩

/-- Puts the trees that the edges lead to in a row. -/
def gather (g : Graph) (defaultOptional : Bool) (below : String → Forest Stem) :
    List Edge → Forest Stem
  | [] => .nil
  | e :: rest =>
    .cons (g.stem defaultOptional e) (below e.target) (gather g defaultOptional below rest)

/-- What hangs below a node, in the order of drawing and at most `depth` levels deep. -/
def grow (g : Graph) (defaultOptional : Bool) : Nat → String → Forest Stem
  | 0, _ => .nil
  | depth + 1, id => g.gather defaultOptional (g.grow defaultOptional depth) (g.outgoing id)

/-- What hangs below the root. A path from the root meets no node twice, so no level beyond the
number of nodes is needed. -/
def below (g : Graph) (defaultOptional : Bool) (root : Node) : Forest Stem :=
  g.grow defaultOptional g.nodes.length root.id

/-- The nodes below the root, breadth first. -/
def visits (root : Node) (below : Forest Stem) : List (Visit Stem) :=
  walk (·.node) [(root.id, below)]

/-- The ids of the root and of the nodes below it, breadth first. -/
def visitOrder (root : Node) (below : Forest Stem) : List String :=
  root.id :: (visits root below).map (·.label.node)

/-- Insists that every node is the root or hangs below it. With one root and at most one edge to
every node, a node that the root does not reach is on a cycle or below one. -/
def checkReach (g : Graph) (root : Node) (below : Forest Stem) : Except GraphError Unit :=
  let reached := visitOrder root below
  match g.nodes.find? fun n => !reached.contains n.id with
  | some stray => .error (.cycle stray.id)
  | none => .ok ()

end Graph

/-- Sorted forests that no row has taken yet, each under the node it hangs below. -/
abbrev Finished := List (String × Forest Stem)

/-- Takes the forest that hangs below a node. -/
def Finished.take (node : String) : StateM Finished (Forest Stem) :=
  modifyGet fun table => ((table.lookup node).getD .nil, table.filter (·.1 != node))

namespace Graph

/-- Puts the trees that the edges lead to in a row; the forests below their roots are taken. -/
def collect (g : Graph) (defaultOptional : Bool) : List Edge → StateM Finished (Forest Stem)
  | [] => return .nil
  | e :: rest => do
    let below ← Finished.take e.target
    let row ← collect g defaultOptional rest
    return .cons (g.stem defaultOptional e) below row

/-- Finishes a node: sorts the row of its children. -/
def finish (g : Graph) (defaultOptional : Bool) (node : String) : StateM Finished Unit := do
  let row ← g.collect defaultOptional (g.outgoing node)
  modify fun table => (node, row.sortBy Stem.compare) :: table

/-- Finishes nodes, the last one first. -/
def finished (g : Graph) (defaultOptional : Bool) (nodes : List String) : Finished :=
  nodes.foldr (fun node table => ((g.finish defaultOptional node).run table).2) []

/-- **What hangs below the root, every level in order.** The walk comes to a node before it comes to its
children, so from the end of the walk every node finds its children finished. -/
def sorted (g : Graph) (defaultOptional : Bool) (root : Node) (below : Forest Stem) : Forest Stem :=
  ((g.finished defaultOptional (visitOrder root below)).lookup root.id).getD .nil

end Graph

/-- The edge hop of a visit, once the nodes are bound. -/
def Visit.hop? (bindings : List (String × Occurrence)) (v : Visit Stem) : Option Hop := do
  let source ← bindings.lookup v.parent
  let target ← bindings.lookup v.label.node
  return .edge source v.label.branch.relation target v.label.branch.optional

/-- The hops of a tree whose trees are already in order: its root, and then the nodes below it in
the order of the walk. -/
def Compiled.ofTree (root : Node) (below : Forest Stem) : Compiled :=
  let visits := Graph.visits root below
  let occurrences := Naming.ofSchemas (root.schema :: visits.map (·.label.branch.schema))
  let bindings := (root.id :: visits.map (·.label.node)).zip occurrences
  ⟨(occurrences.head?.map Hop.root).toList ++ visits.filterMap (Visit.hop? bindings), bindings⟩

/-- The occurrence a node became. -/
def Compiled.binding? (c : Compiled) (node : String) : Option Occurrence :=
  c.bindings.lookup node

/-- **Compiles a graph.** `defaultOptional` settles the edges that leave open whether they are
optional. -/
def Graph.compile (g : Graph) (defaultOptional : Bool) : Except GraphError Compiled := do
  let root ← g.root
  let below := g.below defaultOptional root
  g.checkReach root below
  return .ofTree root (g.sorted defaultOptional root below)

end PatternQuery
