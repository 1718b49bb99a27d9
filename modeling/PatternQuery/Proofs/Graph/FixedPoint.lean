import PatternQuery.Proofs.Graph.RoundTrip
import PatternQuery.Proofs.Pattern.Canonical

/-!
# Compiling a drawing of hops

Hops that a graph was compiled into come back unchanged when they are drawn and compiled again, and
every node of the drawing is bound to the hop it was drawn for (`compile_draw_compile`).

Equal hops alone would not bind the nodes like that: siblings that agree in everything could be
exchanged. They are not, because edges are drawn in the order of the hops and sorting keeps their
order. So what is shown is that the tree below the root of the drawing is, before any sorting, the
tree that was walked, with its nodes renamed (`IsDrawing.below_eq`). It was in order, so sorting
leaves it alone.
-/

namespace PatternQuery.Graph

variable {root : Node} {f : Forest Stem} {g g' : Graph} {d : Bool}

/-! ### The tree below the root of a drawing -/

/-- A forest, renamed, hangs below the edges drawn for its roots, if the edges that leave a node of
it are those drawn for the children of the node, in order. -/
theorem hangs_map {φ : String → String} {t : Forest Stem} {p : String}
    (hnd : (p :: t.names (·.node)).Nodup)
    (hschema : ∀ s ∈ t.labels, g.schemaOf (φ s.node) = s.branch.schema)
    (hout : ∀ u ∈ t.names (·.node), g.outgoing (φ u) =
      ((t.visits (·.node) p).filter (·.parent == u)).map fun v => v.edge.rename φ) :
    g.Hangs d (((t.visits (·.node) p).filter (·.parent == p)).map fun v => v.edge.rename φ)
      (t.map (renameStem φ)) := by
  induction t generalizing p with
  | nil => exact .nil
  | cons a below rest ihb ihr =>
    simp only [Forest.names_cons, List.nodup_cons, List.mem_cons, List.mem_append, not_or,
      List.nodup_append] at hnd
    obtain ⟨⟨hpa, hpb, hpr⟩, ⟨hab, har⟩, hb, hr, hbr⟩ := hnd
    -- No node below `a` is a node of `rest`, so each part has the edges of its own nodes.
    have hstem : renameStem φ a = g.stem d ((Visit.mk p a).edge.rename φ) := by
      simp only [stem, Edge.rename, Visit.edge, hschema a List.mem_cons_self, renameStem]
      rfl
    have hbelow : g.Hangs d (g.outgoing (φ a.node)) (below.map (renameStem φ)) := by
      rw [hout a.node (by simp),
        Forest.filter_parent_visits_below (by simp [Ne.symm hpa, har])]
      refine ihb (List.nodup_cons.mpr ⟨hab, hb⟩)
        (fun s hs => hschema s (List.mem_cons_of_mem _ (List.mem_append_left _ hs))) fun u hu => ?_
      rw [hout u (by simp [hu]), Forest.filter_parent_visits_below]
      simp only [List.mem_cons, not_or]
      exact ⟨fun h => hpb (h ▸ hu), fun h => hbr u hu u h rfl⟩
    have hrest : g.Hangs d (((rest.visits (·.node) p).filter (·.parent == p)).map fun v =>
        v.edge.rename φ) (rest.map (renameStem φ)) := by
      refine ihr (List.nodup_cons.mpr ⟨hpr, hr⟩)
        (fun s hs => hschema s (List.mem_cons_of_mem _ (List.mem_append_right _ hs))) fun u hu => ?_
      have hpu : p ≠ u := fun h => hpr (h ▸ hu)
      rw [hout u (by simp [hu]), Forest.filter_parent_visits_rest hpu]
      simp only [List.mem_cons, not_or]
      exact ⟨fun h => har (h ▸ hu), fun h => hbr u h u hu rfl⟩
    rw [Forest.filter_parent_visits_roots (by simp [hpa, hpb]), List.map_cons, Forest.map, hstem]
    exact .cons hbelow hrest

namespace IsDrawing

theorem schemaOf_drawnId (hd : IsDrawing root f g') (h : (visitOrder root f).Nodup) {u : String}
    (hu : u ∈ visitOrder root f) : g'.schemaOf ((Compiled.ofTree root f).drawnId u) =
      ((Compiled.ofTree root f).occurrence u).schema := by
  have hmem : ((Compiled.ofTree root f).drawnId u, ((Compiled.ofTree root f).occurrence u).schema) ∈
      g'.nodes.map fun n => (n.id, n.schema) := by
    rw [hd.nodes_eq]
    exact List.mem_map.mpr ⟨u, hu, rfl⟩
  obtain ⟨m, hm, heq⟩ := List.mem_map.mp hmem
  obtain ⟨hid, hschema⟩ := Prod.mk.inj heq
  rw [← hid, ← hschema, schemaOf_id (hd.nodup_ids h) hm]

/-- The edges that leave a node of a drawing are those of the tree, in order. -/
theorem outgoing_drawnId (hd : IsDrawing root f g') (h : (visitOrder root f).Nodup) {u : String}
    (hu : u ∈ visitOrder root f) : g'.outgoing ((Compiled.ofTree root f).drawnId u) =
      ((f.visits (·.node) root.id).filter (·.parent == u)).map fun v =>
        v.edge.rename (Compiled.ofTree root f).drawnId := by
  have hqueue : (queueNames (fun s : Stem => s.node) [(root.id, f)]).Nodup := by
    simpa [queueNames] using (visitOrder_perm root f).nodup_iff.mp h
  have hwalk := filter_parent_walk u hqueue
  simp only [queueVisits, List.flatMap_cons, List.flatMap_nil, List.append_nil] at hwalk
  rw [outgoing, hd.edges_eq, List.filter_map, ← hwalk]
  congr 1
  refine List.filter_congr fun v hv => ?_
  change ((Compiled.ofTree root f).drawnId v.parent == (Compiled.ofTree root f).drawnId u) =
    (v.parent == u)
  rw [Bool.eq_iff_iff, beq_iff_eq, beq_iff_eq]
  exact ⟨fun heq => drawnId_injOn h (parent_mem_visitOrder hv) hu heq, congrArg _⟩

/-- **The tree grown from the root of a drawing** is the tree that was drawn. -/
theorem below_eq (hd : IsDrawing root f g') (h : (visitOrder root f).Nodup) {root' : Node}
    (hroot' : g'.Rooted root') (hid : root'.id = (Compiled.ofTree root f).drawnId root.id) :
    g'.below d root' = f.map (renameStem (Compiled.ofTree root f).drawnId) := by
  have hnames : (root.id :: f.names (·.node)).Nodup := (visitOrder_perm root f).nodup_iff.mp h
  have hmem {u : String} (hu : u ∈ f.names (·.node)) : u ∈ visitOrder root f :=
    (visitOrder_perm root f).mem_iff.mpr (List.mem_cons_of_mem _ hu)
  -- Only one forest hangs below the edges that leave the root.
  refine hroot'.hangs_below.unique ?_
  rw [hid, hd.outgoing_drawnId h List.mem_cons_self]
  refine hangs_map hnames (fun s hs => ?_) fun u hu => hd.outgoing_drawnId h (hmem hu)
  rw [hd.schemaOf_drawnId h (hmem (List.mem_map_of_mem hs))]
  -- A label of the forest is met on the walk.
  have hlabel : s ∈ ((visits root f).map (·.label)) := by
    rw [((visits_perm_visits root f).map _).mem_iff, Forest.map_label_visits]
    exact hs
  obtain ⟨v, hv, rfl⟩ := List.mem_map.mp hlabel
  exact schema_occurrence_visit h hv

/-- **A drawing of a tree in canonical order compiles to the renamed tree,** under any default. -/
theorem exists_compile (hd : IsDrawing root f g') (hg : g.Rooted root) (hs : g.Spans d root f)
    (htree : g.IsRootedTree) (hf : f.canonical Stem.compare = f) (d' : Bool) :
    ∃ root', root'.id = (Compiled.ofTree root f).drawnId root.id ∧ root'.schema = root.schema ∧
      g'.compile d' =
        .ok (.ofTree root' (f.map (renameStem (Compiled.ofTree root f).drawnId))) := by
  have hiso := hd.iso hs d'
  have hnd := hs.nodup_visitOrder
  obtain ⟨root', hroot', hreach'⟩ :=
    isRootedTree_iff.mp (hiso.isRootedTree (hd.nodup_ids hnd) htree)
  have hid := hiso.root_id hg hroot'
  refine ⟨root', hid, hiso.schema_eq root hg.root_mem root' hroot'.root_mem hid, ?_⟩
  exact compile_eq_ok_iff.mpr ⟨root', hroot', hreach', by
    rw [hd.below_eq hnd hroot' hid, canonical_rename, hf]⟩

end IsDrawing

/-! ### Every hop finds its node -/

/-- The hop at a position introduces the node that is drawn with its number. -/
theorem exists_node_of_hop (h : (visitOrder root f).Nodup) {i : Nat} {hop : Hop}
    (hi : (Compiled.ofTree root f).hops[i]? = some hop) :
    ∃ u ∈ visitOrder root f, (Compiled.ofTree root f).drawnId u = Drawing.nodeId i ∧
      (Compiled.ofTree root f).occurrence u = hop.introduces := by
  have hmap : ((visitOrder root f).map (Compiled.ofTree root f).occurrence)[i]? =
      some hop.introduces := by
    rw [← map_introduces_ofTree h, List.getElem?_map, hi]
    rfl
  rw [List.getElem?_map, Option.map_eq_some_iff] at hmap
  obtain ⟨u, hu, hocc⟩ := hmap
  obtain ⟨hlt, rfl⟩ := List.getElem?_eq_some_iff.mp hu
  have hmem : (visitOrder root f)[i] ∈ visitOrder root f := List.getElem_mem hlt
  exact ⟨_, hmem, by rw [drawnId_ofTree h hmem, h.idxOf_getElem], hocc⟩

/-- **Compiling, drawing and compiling again** gives the same hops, and binds every node of the
drawing to the hop it was drawn for. -/
theorem exists_compile_draw {c : Compiled} (h : g.compile d = .ok c)
    (find : String → Option Schema) (layout : Layout) (d' : Bool) :
    ∃ g' c', c.hops.draw find layout = .ok g' ∧
      g'.ids = (List.range c.hops.length).map Drawing.nodeId ∧ g'.compile d' = .ok c' ∧
      c'.hops = c.hops ∧
      ∀ i hop, c.hops[i]? = some hop → c'.binding? (Drawing.nodeId i) = some hop.introduces := by
  obtain ⟨root, f, rfl, hroot, htree, hs, hf, g', hdraw, hd⟩ :=
    exists_tree_of_compile h find layout
  have hnd := hs.nodup_visitOrder
  have hcanonical : f.canonical Stem.compare = f := by
    rw [hf, Forest.canonical_canonical]
  obtain ⟨root', hid, hschema, hcompile⟩ := hd.exists_compile hroot hs htree hcanonical d'
  have hinj := drawnId_injOn hnd
  have hlen : (visitOrder root f).length = (Compiled.ofTree root f).hops.length := by
    have := congrArg List.length (map_introduces_ofTree hnd)
    rw [List.length_map, List.length_map] at this
    exact this.symm
  refine ⟨g', _, hdraw, hlen ▸ hd.ids_eq_range hnd, hcompile, hops_rename hnd hid hschema hinj, ?_⟩
  intro i hop hi
  obtain ⟨u, hu, hidx, hocc⟩ := exists_node_of_hop hnd hi
  have hmem : (Compiled.ofTree root f).drawnId u ∈ visitOrder root'
      (f.map (renameStem (Compiled.ofTree root f).drawnId)) := by
    rw [visitOrder_rename hid]
    exact List.mem_map_of_mem hu
  rw [← hidx, binding?_ofTree (nodup_visitOrder_rename hnd hid hinj) hmem,
    occurrence_rename hnd hid hschema hinj hu, hocc]

end PatternQuery.Graph

namespace PatternQuery

namespace Pattern

variable {p : Pattern}

/-- If every node of a drawing is bound to the hop it was drawn for, the keys are mapped to
themselves. -/
theorem keyMap_eq {g : Graph} {c : Compiled}
    (hids : g.ids = (List.range p.length).map Drawing.nodeId)
    (hbind : ∀ i hop, p[i]? = some hop → c.binding? (Drawing.nodeId i) = some hop.introduces) :
    p.keyMap g c = p.map fun hop => (hop.introduces.key, hop.introduces.key) := by
  have hlen : p.length = g.nodes.length := by
    simpa [Graph.ids] using (congrArg List.length hids).symm
  have hentry : ∀ entry ∈ p.zip g.nodes,
      c.binding? entry.2.id = some entry.1.introduces := by
    intro entry he
    obtain ⟨i, hi, rfl⟩ := List.mem_iff_getElem.mp he
    rw [List.length_zip, ← hlen, Nat.min_self] at hi
    have hlt : i < g.nodes.length := hlen ▸ hi
    have hid : g.nodes[i].id = Drawing.nodeId i := by
      have := congrArg (·[i]?) hids
      simpa [Graph.ids, List.getElem?_map, List.getElem?_eq_getElem hlt, hi] using this
    rw [List.getElem_zip, hid]
    exact hbind i p[i] (List.getElem?_eq_getElem hi)
  exact keyMap_eq_map Hop.introduces hlen hentry

/-- A canonical pattern is its own canonical form, and its keys are mapped to themselves. -/
theorem canonical_of_canonical {n : Canonical} (h : p.canonical = .ok n) : n.hops.canonical =
    .ok ⟨n.hops, n.hops.map fun hop => (hop.introduces.key, hop.introduces.key)⟩ := by
  obtain ⟨g, c, -, hcompile, rfl⟩ := canonical_eq_ok_iff.mp h
  obtain ⟨g', c', hdraw, hids, hcompile', hhops, hbind⟩ :=
    Graph.exists_compile_draw hcompile (fun _ => none) .standard false
  refine canonical_eq_ok_iff.mpr ⟨g', c', hdraw, hcompile', ?_⟩
  rw [hhops, keyMap_eq hids hbind]

end Pattern

/-- **Compiled hops are a fixed point, key by key.** Drawn over any catalog in any layout and
compiled under any default, they come back as they are, with every node of the drawing bound to the
hop it was drawn for. So a canonical pattern is its own canonical form, and its keys are mapped to
themselves. -/
theorem compile_draw_compile :
    (∀ (g : Graph) (d : Bool) (c : Compiled), g.compile d = .ok c →
      ∀ (find : String → Option Schema) (layout : Layout) (d' : Bool),
        ∃ g' c', c.hops.draw find layout = .ok g' ∧ g'.compile d' = .ok c' ∧ c'.hops = c.hops ∧
          ∀ i hop, c.hops[i]? = some hop →
            c'.binding? (Drawing.nodeId i) = some hop.introduces) ∧
    ∀ (p : Pattern) (n : Canonical), p.canonical = .ok n →
      n.hops.canonical =
        .ok ⟨n.hops, n.hops.map fun hop => (hop.introduces.key, hop.introduces.key)⟩ := by
  constructor
  · intro g d c h find layout d'
    obtain ⟨g', c', hdraw, -, hcompile, hhops, hbind⟩ :=
      Graph.exists_compile_draw h find layout d'
    exact ⟨g', c', hdraw, hcompile, hhops, hbind⟩
  · intro p n h
    exact Pattern.canonical_of_canonical h

/-- The hops of `siblings` keep their keys, the tag `B#2` included. -/
theorem compile_draw_compile_siblings :
    (∃ g' c', Graph.siblingsCompiled.hops.draw (fun _ => none) .standard = .ok g' ∧
      g'.compile true = .ok c' ∧ c'.hops = Graph.siblingsCompiled.hops ∧
      c'.binding? (Drawing.nodeId 2) = some ⟨"B", some "B#2"⟩) ∧
    Graph.siblingsCompiled.hops.canonical = .ok ⟨Graph.siblingsCompiled.hops,
      [("A", "A"), ("B", "B"), ("B#2", "B#2"), ("C", "C")]⟩ := by
  obtain ⟨hcompiled, hcanonical⟩ := compile_draw_compile
  have hdrawn := hcompiled _ _ _ Graph.compile_siblings (fun _ => none) .standard
  constructor
  · obtain ⟨g', c', hdraw, hcompile, hhops, hbind⟩ := hdrawn true
    exact ⟨g', c', hdraw, hcompile, hhops, hbind 2 _ rfl⟩
  · obtain ⟨g', c', hdraw, hcompile, hhops, -⟩ := hdrawn false
    have hfixed := hcanonical _ _
      (Pattern.canonical_eq_ok_iff.mpr ⟨g', c', hdraw, hcompile, rfl⟩)
    rw [hhops] at hfixed
    exact hfixed

end PatternQuery
