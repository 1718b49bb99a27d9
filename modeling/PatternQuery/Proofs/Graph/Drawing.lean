import PatternQuery.Graph.Drawing
import PatternQuery.Proofs.Graph.Isomorphism
import PatternQuery.Proofs.Pattern.Placement

/-!
# Drawing what a tree is compiled into

Compiling a tree and drawing the hops gives the tree back (`exists_draw_ofTree`): a node becomes the
node drawn for the hop that introduces its occurrence, `Compiled.drawnId`, which is the one numbered
by its place on the walk. Both lists of the drawing are known exactly, nodes and edges in the order
of the walk; this is what `IsDrawing` says.

A tree that spans a graph has the graph's nodes and edges, so the drawing is isomorphic to the graph
(`IsDrawing.iso`).
-/

namespace PatternQuery

/-- The edge that a visit came along. -/
def Visit.edge (v : Visit Stem) : Edge :=
  ⟨v.parent, v.label.node, v.label.branch.relation, some v.label.branch.optional⟩

/-- The id of the node drawn for the hop that introduces the occurrence of a node. -/
def Compiled.drawnId (c : Compiled) (u : String) : String :=
  Drawing.nodeId (c.hops.findIdx fun hop => c.binding? u == some hop.introduces)

namespace Drawing

variable {find : String → Option Schema} {layout : Layout}

theorem nodeId_injective : Function.Injective nodeId := by
  intro m n h
  exact toString_injective ((String.append_right_inj _).mp h)

/-! ### The two lists of a drawing -/

theorem id_node (earlier : List Placement) (i : Nat) (p : Placement) :
    (node find layout earlier i p).id = nodeId i := by
  unfold node
  dsimp only
  split
  · rfl
  · rfl

theorem schema_node (earlier : List Placement) (i : Nat) (p : Placement) :
    (node find layout earlier i p).schema = p.occurrence.schema := by
  unfold node
  dsimp only
  split
  · rfl
  · rfl

/-- Nodes are numbered in order and keep the schemas. -/
theorem nodes_ofPlacements (placed : List Placement) :
    (ofPlacements find layout placed).nodes.map (fun n => (n.id, n.schema)) =
      (placed.map (·.occurrence)).zipIdx.map fun (o, i) => (nodeId i, o.schema) := by
  change (placed.mapIdx fun i p => node find layout (placed.take i) i p).map _ = _
  rw [List.mapIdx_eq_zipIdx_map, List.zipIdx_map, List.map_map, List.map_map]
  refine List.map_congr_left fun entry _ => ?_
  simp only [Function.comp, id_node, schema_node, Prod.map, id]

/-- Every placement but the root's gives an edge. -/
theorem edges_ofPlacements (placed : List Placement) :
    (ofPlacements find layout placed).edges =
      (placed.map (·.incoming)).zipIdx.filterMap fun (incoming, i) =>
        incoming.map fun e => ⟨nodeId e.source, nodeId i, e.relation, some e.optional⟩ := by
  rw [List.zipIdx_map, List.filterMap_map]
  rfl

end Drawing

namespace Graph

variable {root : Node} {f : Forest Stem}

/-! ### Drawn ids -/

/-- **Nodes are numbered along the walk.** -/
theorem drawnId_ofTree (h : (visitOrder root f).Nodup) {u : String} (hu : u ∈ visitOrder root f) :
    (Compiled.ofTree root f).drawnId u = Drawing.nodeId ((visitOrder root f).idxOf u) := by
  set c := Compiled.ofTree root f with hc
  have hlt : (visitOrder root f).idxOf u < (visitOrder root f).length :=
    List.idxOf_lt_length_of_mem hu
  -- The hops introduce the occurrences in the order of the walk, and no occurrence twice.
  have hmap : c.hops.findIdx (fun hop => c.binding? u == some hop.introduces) =
      (visitOrder root f).findIdx fun w => c.occurrence u == c.occurrence w := by
    rw [binding?_ofTree h hu, ← hc]
    have := List.findIdx_map (c.hops) Hop.introduces fun o => c.occurrence u == o
    rw [map_introduces_ofTree h, ← hc, List.findIdx_map] at this
    exact this.symm
  rw [Compiled.drawnId, hmap, (List.findIdx_eq hlt).mpr]
  constructor
  · simp
  · intro j hj
    rw [beq_eq_false_iff_ne]
    intro hocc
    have hkey : (c.occurrence u).key = (c.occurrence (visitOrder root f)[j]).key :=
      congrArg Occurrence.key hocc
    have huj := List.inj_on_of_nodup_map (nodup_keys_ofTree h) hu (List.getElem_mem _) hkey
    rw [huj, h.idxOf_getElem] at hj
    exact lt_irrefl _ hj

theorem drawnId_injOn (h : (visitOrder root f).Nodup) :
    Set.InjOn (Compiled.ofTree root f).drawnId {u | u ∈ visitOrder root f} := by
  intro u hu v hv huv
  rw [drawnId_ofTree h hu, drawnId_ofTree h hv] at huv
  exact (List.idxOf_inj hu).mp (Drawing.nodeId_injective huv)

/-! ### The drawing of a tree -/

/-- The graph drawn for a tree: its nodes and its edges are those of the tree, renamed, in the order
of the walk. -/
structure IsDrawing (root : Node) (f : Forest Stem) (g : Graph) : Prop where
  nodes_eq : g.nodes.map (fun n => (n.id, n.schema)) = (visitOrder root f).map fun u =>
    ((Compiled.ofTree root f).drawnId u, ((Compiled.ofTree root f).occurrence u).schema)
  edges_eq : g.edges = (visits root f).map fun v => v.edge.rename (Compiled.ofTree root f).drawnId

/-- The visits below the root stand behind it on the walk, each where its node is found. -/
theorem snd_eq_of_mem_zipIdx_visits (h : (visitOrder root f).Nodup) {entry : Visit Stem × Nat}
    (he : entry ∈ (visits root f).zipIdx 1) :
    entry.2 = (visitOrder root f).idxOf entry.1.label.node := by
  have hmem : (entry.1.label.node, entry.2) ∈ (visitOrder root f).zipIdx := by
    rw [visitOrder, List.zipIdx_cons, List.zipIdx_map]
    exact List.mem_cons_of_mem _ (List.mem_map_of_mem he)
  rw [zipIdx_eq_map_idxOf h] at hmem
  obtain ⟨u, -, hu⟩ := List.mem_map.mp hmem
  obtain ⟨rfl, hi⟩ := Prod.mk.inj hu
  exact hi.symm

/-- Placements in the order of the walk are drawn as the tree. -/
theorem isDrawing_ofPlacements (h : (visitOrder root f).Nodup) {placed : List Placement}
    (hocc : placed.map (·.occurrence) =
      (visitOrder root f).map (Compiled.ofTree root f).occurrence)
    (hin : placed.map (·.incoming) =
      none :: (visits root f).map fun v => some (v.incoming (visitOrder root f)))
    (find : String → Option Schema) (layout : Layout) :
    IsDrawing root f (Drawing.ofPlacements find layout placed) := by
  constructor
  · rw [Drawing.nodes_ofPlacements, hocc, List.zipIdx_map, zipIdx_eq_map_idxOf h, List.map_map,
      List.map_map]
    refine List.map_congr_left fun u hu => ?_
    simp only [Function.comp, Prod.map, id, drawnId_ofTree h hu]
  · -- The visits are numbered from one on, and the numbers are those of the drawn nodes.
    have hedges : (visits root f).map (fun v => v.edge.rename (Compiled.ofTree root f).drawnId) =
        ((visits root f).zipIdx 1).map fun entry =>
          entry.1.edge.rename (Compiled.ofTree root f).drawnId := by
      rw [← List.zipIdx_map_fst 1 (visits root f), List.map_map, List.zipIdx_map_fst]
      rfl
    rw [hedges, Drawing.edges_ofPlacements, hin, List.zipIdx_cons, List.filterMap_cons_none rfl,
      List.zipIdx_map, List.filterMap_map, ← List.filterMap_eq_map]
    refine List.filterMap_congr fun entry he => ?_
    have hv : entry.1 ∈ visits root f := List.fst_mem_of_mem_zipIdx he
    simp only [Function.comp, Prod.map, id, Option.map_some, Visit.incoming,
      snd_eq_of_mem_zipIdx_visits h he, Edge.rename, Visit.edge,
      drawnId_ofTree h (parent_mem_visitOrder hv), drawnId_ofTree h (node_mem_visitOrder hv)]

/-- **What a tree is compiled into can be drawn,** and the drawing is that of the tree. -/
theorem exists_draw_ofTree (h : (visitOrder root f).Nodup)
    (hrel : ∀ v ∈ visits root f, Text.isBlank v.label.branch.relation = false)
    (find : String → Option Schema) (layout : Layout) :
    ∃ g, (Compiled.ofTree root f).hops.draw find layout = .ok g ∧ IsDrawing root f g := by
  obtain ⟨placed, hplace, hocc, hin⟩ := exists_place_ofTree h hrel
  refine ⟨_, ?_, isDrawing_ofPlacements h hocc hin find layout⟩
  rw [Pattern.draw, hplace]
  rfl

namespace IsDrawing

variable {g g' : Graph} {d : Bool}

theorem ids_eq (hd : IsDrawing root f g') :
    g'.ids = (visitOrder root f).map (Compiled.ofTree root f).drawnId := by
  have := congrArg (List.map Prod.fst) hd.nodes_eq
  rwa [List.map_map, List.map_map] at this

theorem nodup_ids (hd : IsDrawing root f g') (h : (visitOrder root f).Nodup) : g'.ids.Nodup := by
  rw [hd.ids_eq]
  exact h.map_on fun u hu v hv huv => drawnId_injOn h hu hv huv

/-- The ids count up from zero. -/
theorem ids_eq_range (hd : IsDrawing root f g') (h : (visitOrder root f).Nodup) :
    g'.ids = (List.range (visitOrder root f).length).map Drawing.nodeId := by
  have hpositions : (visitOrder root f).map (visitOrder root f).idxOf =
      List.range (visitOrder root f).length := by
    have := congrArg (List.map Prod.snd) (zipIdx_eq_map_idxOf h)
    rw [List.zipIdx_map_snd, List.map_map, ← List.range_eq_range'] at this
    exact this.symm
  rw [hd.ids_eq, ← hpositions, List.map_map]
  exact List.map_congr_left fun u hu => drawnId_ofTree h hu

/-- Every edge of a drawing says whether it is optional. -/
theorem map_settle_edges (hd : IsDrawing root f g') : g'.edges.map (Edge.settle d) = g'.edges := by
  rw [hd.edges_eq, List.map_map]
  rfl

/-- Nodes with the same schema stand at both ends of the renaming. -/
theorem schema_eq (hd : IsDrawing root f g') (hs : g.Spans d root f) {n m : Node}
    (hn : n ∈ g.nodes) (hm : m ∈ g'.nodes) (hid : m.id = (Compiled.ofTree root f).drawnId n.id) :
    m.schema = n.schema := by
  have hmem : (m.id, m.schema) ∈ g'.nodes.map fun n => (n.id, n.schema) :=
    List.mem_map.mpr ⟨m, hm, rfl⟩
  rw [hd.nodes_eq] at hmem
  obtain ⟨u, hu, heq⟩ := List.mem_map.mp hmem
  obtain ⟨hid', hschema⟩ := Prod.mk.inj heq
  have hnmem : n.id ∈ visitOrder root f := hs.visitOrder_perm.mem_iff.mpr (List.mem_map_of_mem hn)
  obtain rfl : u = n.id := drawnId_injOn hs.nodup_visitOrder hu hnmem (hid'.trans hid)
  rw [← hschema, hs.schema_occurrence hn]

/-- The edges of a graph that the tree spans, settled and renamed, are those of the drawing. -/
theorem edges_perm (hd : IsDrawing root f g') (hs : g.Spans d root f) :
    (g.edges.map fun e => (e.settle d).rename (Compiled.ofTree root f).drawnId).Perm g'.edges := by
  have hperm := hs.visits_perm_edges.map fun v =>
    v.edge.rename (Compiled.ofTree root f).drawnId
  rw [← hd.edges_eq, List.map_map] at hperm
  exact hperm.symm

theorem bijOn (hd : IsDrawing root f g') (hs : g.Spans d root f) :
    Set.BijOn (Compiled.ofTree root f).drawnId {u | u ∈ g.ids} {v | v ∈ g'.ids} := by
  refine bijOn_of_map_perm ?_ (hd.nodup_ids hs.nodup_visitOrder)
  rw [hd.ids_eq]
  exact (hs.visitOrder_perm.map _).symm

/-- **The drawing of a tree that spans a graph is isomorphic to the graph,** whatever the default is
under which the drawing is read. -/
theorem iso (hd : IsDrawing root f g') (hs : g.Spans d root f) (d' : Bool) :
    g.Iso d g' d' (Compiled.ofTree root f).drawnId :=
  ⟨hd.bijOn hs, fun _ hn _ hm hid => hd.schema_eq hs hn hm hid, by
    rw [hd.map_settle_edges]
    exact hd.edges_perm hs⟩

end IsDrawing

/-! ### The drawing of a compiled graph -/

/-- A graph that compiles is spanned by a tree in canonical order, and the hops are drawn as that
tree. -/
theorem exists_tree_of_compile {g : Graph} {d : Bool} {c : Compiled} (h : g.compile d = .ok c)
    (find : String → Option Schema) (layout : Layout) :
    ∃ root f, c = .ofTree root f ∧ g.Rooted root ∧ g.IsRootedTree ∧ g.Spans d root f ∧
      f = (g.below d root).canonical Stem.compare ∧
      ∃ g', c.hops.draw find layout = .ok g' ∧ IsDrawing root f g' := by
  obtain ⟨root, hroot, hreach, rfl⟩ := compile_eq_ok_iff.mp h
  have hs := (hroot.spans_below hreach (d := d)).canonical Stem.compare
  refine ⟨root, _, rfl, hroot, isRootedTree_iff.mpr ⟨root, hroot, hreach⟩, hs, rfl, ?_⟩
  refine exists_draw_ofTree hs.nodup_visitOrder (fun v hv => ?_) find layout
  obtain ⟨e, he, rfl⟩ := List.mem_map.mp (hs.visits_perm_edges.mem_iff.mp hv)
  exact hroot.relation_not_blank e he

end Graph

end PatternQuery
