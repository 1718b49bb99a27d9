import PatternQuery.Graph.Basic
import PatternQuery.Text.Blank

/-!
# Graphs with one root

A graph can be compiled when it is a rooted tree. This module makes the checks that look at one
node or one edge at a time and finds the root; whether every node hangs below the root is seen when
the tree is grown from it.

The checks come in this order, and the first that fails is reported: there is a node; every node has
a schema that is not blank and an id that no earlier node has; every edge has both its ends among
the nodes, a relation that is not blank, different ends, and a target that no earlier edge leads to;
and exactly one node has no edge leading to it.
-/

namespace PatternQuery

/-- One end of an edge. -/
inductive EdgeEnd where
  | source
  | target
  deriving Repr, DecidableEq

/-- The name of an end. -/
def EdgeEnd.name : EdgeEnd → String
  | source => "source"
  | target => "target"

/-- Why a graph cannot be compiled. Edges are named by their position, nodes by their id. -/
inductive GraphError where
  | emptyGraph
  | duplicateNode (node : String)
  | blankSchema (node : String)
  | danglingEdge (edge : Nat) (side : EdgeEnd) (node : String)
  | blankRelation (edge : Nat)
  | multipleParents (node : String)
  | cycle (node : String)
  | disconnected (roots : List String)
  deriving Repr, DecidableEq

namespace GraphError

/-- The stable name of the error. -/
def code : GraphError → String
  | emptyGraph => "EmptyGraph"
  | duplicateNode _ => "DuplicateNode"
  | blankSchema _ => "EmptySchema"
  | danglingEdge .. => "DanglingEdge"
  | blankRelation _ => "EmptyRelation"
  | multipleParents _ => "MultipleParents"
  | cycle _ => "Cycle"
  | disconnected _ => "Disconnected"

/-- The text of the error. -/
def message : GraphError → String
  | emptyGraph => "graph has no nodes"
  | duplicateNode node => s!"node id '{node}' is declared more than once"
  | blankSchema node => s!"node '{node}' has an empty schema id"
  | danglingEdge edge side node =>
    s!"edge {edge} references unknown " ++ side.name ++ s!" node '{node}'"
  | blankRelation edge => s!"edge {edge} has an empty relation name"
  | multipleParents node => s!"node '{node}' has more than one incoming edge"
  | cycle node => s!"graph contains a cycle through node '{node}'"
  | disconnected roots =>
    "graph is disconnected; candidate roots: " ++ ", ".intercalate roots

end GraphError

namespace Graph

/-- Checks the nodes one after another; `seen` holds the ids of the earlier ones. -/
def checkNodes (seen : List String) : List Node → Except GraphError Unit
  | [] => .ok ()
  | n :: rest =>
    if Text.isBlank n.schema then .error (.blankSchema n.id)
    else if seen.contains n.id then .error (.duplicateNode n.id)
    else checkNodes (n.id :: seen) rest

/-- Checks one edge; `ids` are the ids of the nodes, and `targets` those that earlier edges lead
to. -/
def checkEdge (ids targets : List String) (index : Nat) (e : Edge) : Except GraphError Unit :=
  if !ids.contains e.source then .error (.danglingEdge index .source e.source)
  else if !ids.contains e.target then .error (.danglingEdge index .target e.target)
  else if Text.isBlank e.relation then .error (.blankRelation index)
  else if e.source = e.target then .error (.cycle e.source)
  else if targets.contains e.target then .error (.multipleParents e.target)
  else .ok ()

/-- Checks the edges one after another, from the one at `index` on. -/
def checkEdges (ids targets : List String) (index : Nat) : List Edge → Except GraphError Unit
  | [] => .ok ()
  | e :: rest => do
    checkEdge ids targets index e
    checkEdges ids (e.target :: targets) (index + 1) rest

/-- The ids of the nodes. -/
def ids (g : Graph) : List String := g.nodes.map (·.id)

/-- The nodes that no edge leads to, in the order in which they were drawn. -/
def roots (g : Graph) : List Node :=
  g.nodes.filter fun n => !(g.edges.any (·.target == n.id))

/-- **The root of a graph** that passes every check made here. A graph in which every node has an
edge leading to it has a cycle, and its first node is on one or below one. -/
def root (g : Graph) : Except GraphError Node :=
  match g.nodes with
  | [] => .error .emptyGraph
  | first :: _ => do
    checkNodes [] g.nodes
    checkEdges g.ids [] 0 g.edges
    match g.roots with
    | [] => .error (.cycle first.id)
    | [root] => .ok root
    | roots => .error (.disconnected (roots.map (·.id)))

end Graph

end PatternQuery
