import Mathlib.Data.List.GetD
import PatternQuery.Proofs.Pattern.Drawing

/-!
# Drawing hop by hop

A pattern can be drawn in one go over the hops, with no check on the way: a canvas keeps the graph so
far, the node and the depth of every key that has been drawn, and how many nodes stand in each column.
A look-up on the canvas may miss, and then nothing is drawn.

Where the hops can be placed no look-up misses, and the graph on the canvas is the drawing of the
placements (`Canvas.exists_drawAll_of_placeAll`). The invariant is `Canvas.Draws`: the canvas knows what
the placements know. One hop more keeps it (`Canvas.Draws.exists_draw`).
-/

namespace PatternQuery

/-- What is kept while hops are drawn one after another. -/
structure Canvas where
  graph : Graph
  /-- The node and the depth of what has been drawn, by its key; the newest first. -/
  placed : List (String × String × Nat)
  /-- How many nodes stand in each column; a column that has been passed over is empty. -/
  rows : List Nat

namespace Canvas

/-- Nothing has been drawn. -/
def blank : Canvas := ⟨⟨[], []⟩, [], []⟩

/-- Draws an occurrence at the bottom of the column for a depth, and the edge that leads to it from
the node with the given id. -/
def put (find : String → Option Schema) (layout : Layout) (o : Occurrence) (depth : Nat)
    (incoming : Option (String × String × Bool)) (c : Canvas) : Option Canvas := do
  let rows := c.rows.rightpad (depth + 1) 0
  let row ← rows[depth]?
  let id := Drawing.nodeId c.graph.nodes.length
  let node : Node :=
    match find o.schema with
    | some s => ⟨id, o.schema, some s.displayLabel, layout.slot depth row, false⟩
    | none => ⟨id, o.schema, some o.schema, layout.slot depth row, true⟩
  let edge := incoming.map fun (source, relation, optional) => ⟨source, id, relation, some optional⟩
  return ⟨⟨c.graph.nodes ++ [node], c.graph.edges ++ edge.toList⟩, (o.key, id, depth) :: c.placed,
    rows.set depth (row + 1)⟩

/-- Draws a hop; nothing if its source is not on the canvas. -/
def draw (find : String → Option Schema) (layout : Layout) (c : Canvas) : Hop → Option Canvas
  | .root o => c.put find layout o 0 none
  | .edge source relation target optional => do
    let (id, depth) ← c.placed.lookup source.key
    c.put find layout target (depth + 1) (some (id, relation, optional))

end Canvas

/-- **Draws a list of hops without checking it.** -/
def Pattern.drawUnchecked (find : String → Option Schema) (layout : Layout) (p : Pattern) :
    Option Graph :=
  (p.foldlM (Canvas.draw find layout) .blank).map (·.graph)

/-! ### One placement more -/

section Concat

variable {placed : List Placement} {q : Placement} {find : String → Option Schema} {layout : Layout}

theorem Pattern.introducer?_concat (key : String) :
    introducer? (placed ++ [q]) key = (introducer? placed key).or
      (if q.occurrence.key = key then some (q, placed.length) else none) := by
  rw [introducer?, List.zipIdx_append, List.find?_append, Nat.zero_add, List.zipIdx_singleton,
    List.find?_singleton, introducer?]
  simp only [beq_iff_eq]

/-- One more node, numbered by the placements before it, and the edge that leads to it. -/
theorem Drawing.ofPlacements_concat : ofPlacements find layout (placed ++ [q]) =
    ⟨(ofPlacements find layout placed).nodes ++ [node find layout placed placed.length q],
      (ofPlacements find layout placed).edges ++ (edge? placed.length q).toList⟩ := by
  unfold ofPlacements
  congr 1
  · rw [List.mapIdx_concat, List.take_left]
    congr 1
    refine List.ext_getElem (by simp) fun i hi _ => ?_
    have hi : i < placed.length := by simpa using hi
    rw [List.getElem_mapIdx, List.getElem_mapIdx, List.take_append_of_le_length hi.le]
  · rw [List.zipIdx_append, List.filterMap_append, Nat.zero_add, List.zipIdx_singleton]
    cases h : edge? placed.length q with
    | none => simp [h]
    | some e => simp [h]

end Concat

namespace Canvas

variable {find : String → Option Schema} {layout : Layout} {c : Canvas}
  {placed placed' : List Placement} {q : Placement} {hop : Hop} {rest : Pattern}

/-- **The canvas knows what the placements know.** -/
structure Draws (find : String → Option Schema) (layout : Layout) (c : Canvas)
    (placed : List Placement) : Prop where
  graph_eq : c.graph = Drawing.ofPlacements find layout placed
  lookup_eq : ∀ key, c.placed.lookup key = (Pattern.introducer? placed key).map fun (q, i) =>
    (Drawing.nodeId i, q.depth)
  rows_eq : ∀ d, c.rows.getD d 0 = placed.countP (·.depth == d)

theorem draws_blank : blank.Draws find layout [] :=
  ⟨rfl, fun _ => rfl, fun _ => rfl⟩

namespace Draws

theorem length_nodes (h : c.Draws find layout placed) : c.graph.nodes.length = placed.length := by
  rw [h.graph_eq]
  exact List.length_mapIdx

/-- A column that is made when there is none yet is empty. -/
theorem getD_rightpad (h : c.Draws find layout placed) (n d : Nat) :
    (c.rows.rightpad n 0).getD d 0 = placed.countP (·.depth == d) := by
  rw [← h.rows_eq d, List.rightpad]
  by_cases hd : d < c.rows.length
  · exact List.getD_append _ _ _ _ hd
  · have hle : c.rows.length ≤ d := Nat.le_of_not_lt hd
    rw [List.getD_append_right _ _ _ _ hle, List.getD_eq_default _ _ hle,
      List.getD_eq_getElem?_getD, List.getElem?_replicate]
    split_ifs
    · rfl
    · rfl

theorem lt_length_rightpad (rows : List Nat) (d : Nat) : d < (rows.rightpad (d + 1) 0).length := by
  rw [List.length_rightpad]
  exact lt_max_of_lt_left d.lt_succ_self

/-- The column for a depth is there once the counts reach it. -/
theorem getElem?_rightpad (h : c.Draws find layout placed) (d : Nat) :
    (c.rows.rightpad (d + 1) 0)[d]? = some (placed.countP (·.depth == d)) := by
  have hlt := lt_length_rightpad c.rows d
  rw [← h.getD_rightpad (d + 1) d, List.getD_eq_getElem _ _ hlt, List.getElem?_eq_getElem hlt]

/-- An occurrence with a fresh key is put where its placement says. -/
theorem exists_put (h : c.Draws find layout placed) (q : Placement)
    (hfresh : q.occurrence.key ∉ placed.map (·.occurrence.key)) :
    ∃ c', c.put find layout q.occurrence q.depth (q.incoming.map fun e =>
        (Drawing.nodeId e.source, e.relation, e.optional)) = some c' ∧
      c'.Draws find layout (placed ++ [q]) := by
  refine ⟨_, by rw [put, h.getElem?_rightpad]; rfl, ?_, ?_, ?_⟩
  · rw [Drawing.ofPlacements_concat, ← h.graph_eq, h.length_nodes]
    rw [Drawing.edge?, Option.map_map]
    rfl
  · intro key
    rw [Pattern.introducer?_concat, List.lookup_cons, h.lookup_eq, h.length_nodes]
    by_cases hkey : key = q.occurrence.key
    · subst hkey
      rw [beq_self_eq_true, Pattern.introducer?_eq_none_iff.mpr hfresh, if_pos rfl]
      rfl
    · rw [beq_false_of_ne hkey, if_neg (Ne.symm hkey), Option.or_none]
  · intro d
    rw [List.countP_append, List.countP_singleton, List.getD_eq_getElem?_getD, List.getElem?_set]
    by_cases hd : q.depth = d
    · subst hd
      rw [if_pos rfl, if_pos (lt_length_rightpad c.rows _), beq_self_eq_true]
      rfl
    · rw [if_neg hd, ← List.getD_eq_getElem?_getD, h.getD_rightpad]
      simp [hd]

/-- **One step:** a hop that can be placed is drawn. -/
theorem exists_draw (h : c.Draws find layout placed) (hq : Pattern.placeHop placed hop = .ok q) :
    ∃ c', c.draw find layout hop = some c' ∧ c'.Draws find layout (placed ++ [q]) := by
  cases hop with
  | root o =>
    obtain ⟨hfresh, rfl⟩ := Pattern.placeHop_root_eq_ok_iff.mp hq
    exact h.exists_put ⟨o, none, 0⟩ hfresh
  | edge source relation target optional =>
    obtain ⟨hedge, hfresh⟩ := Pattern.placeHop_edge_eq_ok_iff.mp hq
    obtain ⟨-, found, position, hfound, -, rfl⟩ := Pattern.placeEdge_eq_ok_iff.mp hedge
    have hlookup : c.placed.lookup source.key = some (Drawing.nodeId position, found.depth) := by
      rw [h.lookup_eq, hfound]
      rfl
    rw [draw, hlookup]
    exact h.exists_put ⟨target, some ⟨position, relation, optional⟩, found.depth + 1⟩ hfresh

/-- **A run:** and so are the hops of a list. -/
theorem exists_drawAll_of_placeAll (h : c.Draws find layout placed)
    (hall : Pattern.placeAll placed rest = .ok placed') :
    ∃ c', rest.foldlM (Canvas.draw find layout) c = some c' ∧ c'.Draws find layout placed' := by
  induction rest generalizing c placed with
  | nil =>
    obtain rfl := Except.ok.inj hall
    exact ⟨c, rfl, h⟩
  | cons hop rest ih =>
    obtain ⟨q, hq, hrest⟩ := bind_eq_ok_iff.mp hall
    obtain ⟨c', hc', hdraws⟩ := h.exists_draw hq
    rw [List.foldlM_cons, hc']
    exact ih hdraws hrest

end Draws

end Canvas

/-- **The unchecked drawing of a pattern misses no look-up,** and is the drawing of its placements. -/
theorem Pattern.drawUnchecked_of_place {p : Pattern} {placed : List Placement}
    (h : p.place = .ok placed) (find : String → Option Schema) (layout : Layout) :
    p.drawUnchecked find layout = some (Drawing.ofPlacements find layout placed) := by
  obtain ⟨-, hall⟩ := check_bind_eq_ok_iff.mp h
  obtain ⟨c, hc, hdraws⟩ := Canvas.draws_blank.exists_drawAll_of_placeAll hall
  rw [drawUnchecked, hc, ← hdraws.graph_eq]
  rfl

end PatternQuery
