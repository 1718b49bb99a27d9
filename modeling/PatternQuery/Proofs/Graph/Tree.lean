import Mathlib.Data.List.Count
import Mathlib.Logic.Relation
import Mathlib.Order.WellFounded
import Mathlib.Data.Fintype.EquivFin
import Mathlib.Data.Finite.Prod
import PatternQuery.Graph.Compile

/-!
# Rooted trees

What it means for a graph to be a rooted tree, and what each reason against one says of the graph.
Neither mentions how a graph is checked: paths are the closures of `Graph.Arrow`, and
`GraphError.Holds` reads every error as a fact about nodes, edges and paths.

`exists_onCycle_of_arrows` is the one argument about cycles: nodes that all have an edge leading to
them from among themselves cannot be finitely many without a cycle among them.
-/

namespace PatternQuery

/-- The id of the node at one end. -/
def Edge.endId (e : Edge) : EdgeEnd → String
  | .source => e.source
  | .target => e.target

namespace Graph

/-- An edge leads from `u` to `v`. -/
def Arrow (g : Graph) (u v : String) : Prop :=
  ∃ e ∈ g.edges, e.source = u ∧ e.target = v

/-- A directed path leads from `u` to `v`; it may be empty. -/
def Reaches (g : Graph) (u v : String) : Prop :=
  Relation.ReflTransGen g.Arrow u v

/-- A directed path that is not empty leads from the node back to itself. -/
def OnCycle (g : Graph) (u : String) : Prop :=
  Relation.TransGen g.Arrow u u

/-- A directed path that is not empty leads from some node back to itself. -/
def HasCycle (g : Graph) : Prop :=
  ∃ u, Relation.TransGen g.Arrow u u

/-- **A rooted tree** with named schemas and relations. -/
structure IsRootedTree (g : Graph) : Prop where
  /-- There is a node. -/
  nodes_ne_nil : g.nodes ≠ []
  /-- No two nodes share an id. -/
  nodup_ids : g.ids.Nodup
  /-- Every schema id holds a character that is no white space. -/
  schema_named : ∀ n ∈ g.nodes, ∃ c ∈ n.schema.toList, Text.isWhiteSpace c = false
  /-- Every relation holds a character that is no white space. -/
  relation_named : ∀ e ∈ g.edges, ∃ c ∈ e.relation.toList, Text.isWhiteSpace c = false
  /-- Both ends of an edge are nodes. -/
  end_mem : ∀ e ∈ g.edges, ∀ side, e.endId side ∈ g.ids
  /-- No edge leads to where it starts. -/
  source_ne_target : ∀ e ∈ g.edges, e.source ≠ e.target
  /-- No two edges lead to the same node. -/
  nodup_targets : (g.edges.map (·.target)).Nodup
  /-- Exactly one node has no edge leading to it, and it reaches every node. -/
  exists_root : ∃ r ∈ g.ids,
    (∀ u ∈ g.ids, (∀ e ∈ g.edges, e.target ≠ u) ↔ u = r) ∧ ∀ u ∈ g.ids, g.Reaches r u

end Graph

/-- What an error says of a graph. -/
def GraphError.Holds (g : Graph) : GraphError → Prop
  | emptyGraph => g.nodes = []
  | duplicateNode u => 2 ≤ g.ids.count u
  | blankSchema u => ∃ n ∈ g.nodes, n.id = u ∧ Text.isBlank n.schema = true
  | danglingEdge i side u => ∃ e, g.edges[i]? = some e ∧ e.endId side = u ∧ u ∉ g.ids
  | blankRelation i => ∃ e, g.edges[i]? = some e ∧ Text.isBlank e.relation = true
  | multipleParents u => 2 ≤ (g.edges.map (·.target)).count u
  | cycle _ => g.HasCycle
  | disconnected roots =>
    roots = g.ids.filter (fun u => ∀ e ∈ g.edges, e.target ≠ u) ∧ 2 ≤ roots.length

namespace Graph

variable {g : Graph}

/-- **Without an end there is a cycle:** if every one of finitely many nodes has an edge leading to
it from one of them, going backwards never ends, and one of them is met twice. -/
theorem exists_onCycle_of_arrows {s : List String} (hs : s ≠ [])
    (h : ∀ v ∈ s, ∃ u ∈ s, g.Arrow u v) : ∃ u ∈ s, g.OnCycle u := by
  by_contra hc
  -- On the nodes in `s`, "leads to" is a strict order; a least node contradicts `h`.
  let before (u v : {u // u ∈ s}) : Prop := Relation.TransGen g.Arrow u v
  have : IsTrans _ before := ⟨fun _ _ _ => Relation.TransGen.trans⟩
  have : Std.Irrefl before := ⟨fun u hu => hc ⟨u, u.2, hu⟩⟩
  have hwf : WellFounded before := Finite.wellFounded_of_trans_of_irrefl before
  obtain ⟨x, hx⟩ := List.exists_mem_of_ne_nil s hs
  obtain ⟨⟨m, hm⟩, -, hmin⟩ := hwf.has_min Set.univ ⟨⟨x, hx⟩, trivial⟩
  obtain ⟨u, hu, harrow⟩ := h m hm
  exact hmin ⟨u, hu⟩ trivial (.single harrow)

theorem hasCycle_of_arrows {s : List String} (hs : s ≠ [])
    (h : ∀ v ∈ s, ∃ u ∈ s, g.Arrow u v) : g.HasCycle := by
  obtain ⟨u, -, hu⟩ := exists_onCycle_of_arrows hs h
  exact ⟨u, hu⟩

/-! ### Roots -/

theorem mem_roots_iff {n : Node} :
    n ∈ g.roots ↔ n ∈ g.nodes ∧ ∀ e ∈ g.edges, e.target ≠ n.id := by
  simp [roots, List.mem_filter]

/-- The ids of the roots, in the order of the nodes. -/
theorem map_id_roots :
    g.roots.map (·.id) = g.ids.filter (fun u => ∀ e ∈ g.edges, e.target ≠ u) := by
  rw [roots, ids, List.filter_map]
  congr 1
  refine List.filter_congr fun n _ => ?_
  rw [Bool.eq_iff_iff]
  simp

/-- A node that is no root has an edge leading to it. -/
theorem exists_edge_of_not_mem_roots {n : Node} (hn : n ∈ g.nodes) (h : n ∉ g.roots) :
    ∃ e ∈ g.edges, e.target = n.id := by
  by_contra hc
  exact h (mem_roots_iff.mpr ⟨hn, fun e he ht => hc ⟨e, he, ht⟩⟩)

end Graph

end PatternQuery
