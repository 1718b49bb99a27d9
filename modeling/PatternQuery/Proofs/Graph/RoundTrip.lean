import Mathlib
import PatternQuery.Proofs.Graph.Drawing

/-!
# From a graph to hops and back

Compiling loses nothing but the node ids and what is only for the eye. Drawing the hops of a
compiled graph, over any catalog and in any layout, gives the graph back up to the ids of its nodes
and the order of drawing, with every edge settled by the default; and the bindings say which node
became which hop (`compile_draw`).

The bindings list the ids in the order of the walk, as the hops do, so that bindings and hops
introduce the same occurrences in the same order.
-/

namespace PatternQuery.Graph

variable {root : Node} {f : Forest Stem}

/-- The bound ids are those of the walk. -/
theorem map_fst_bindings_ofTree (h : (visitOrder root f).Nodup) :
    (Compiled.ofTree root f).bindings.map (·.1) = visitOrder root f := by
  rw [bindings_ofTree h, List.map_map]
  exact List.map_id _

/-- Nodes are bound to what the hops introduce. -/
theorem map_snd_bindings_ofTree (h : (visitOrder root f).Nodup) :
    (Compiled.ofTree root f).bindings.map (·.2) =
      (Compiled.ofTree root f).hops.map Hop.introduces := by
  rw [bindings_ofTree h, List.map_map, map_introduces_ofTree h]
  rfl

/-- No occurrence is introduced twice. -/
theorem nodup_introduces_ofTree (h : (visitOrder root f).Nodup) :
    ((Compiled.ofTree root f).hops.map Hop.introduces).Nodup := by
  have hkeys := nodup_keys_ofTree h
  rw [map_introduces_ofTree h]
  refine List.Nodup.of_map Occurrence.key ?_
  rw [List.map_map]
  exact hkeys

/-- **Drawing the hops of a compiled graph gives the graph back.** Its nodes correspond to those of
the drawing by `drawnId`, which keeps schemas and carries edges onto edges, each once, with the
default filled in. The bindings have every node id once, and bind the nodes to the occurrences that
the hops introduce, each once. -/
theorem compile_draw {g : Graph} {d : Bool} {c : Compiled} (h : g.compile d = .ok c)
    (find : String → Option Schema) (layout : Layout) :
    (∃ g', c.hops.draw find layout = .ok g' ∧ g'.ids.Nodup ∧
      Set.BijOn c.drawnId {u | u ∈ g.ids} {v | v ∈ g'.ids} ∧
      (∀ n ∈ g.nodes, ∀ m ∈ g'.nodes, m.id = c.drawnId n.id → m.schema = n.schema) ∧
      (g.edges.map fun e => (e.settle d).rename c.drawnId).Perm g'.edges) ∧
    g.ids.Nodup ∧ (c.bindings.map (·.1)).Perm g.ids ∧
    (c.hops.map Hop.introduces).Nodup ∧ c.bindings.map (·.2) = c.hops.map Hop.introduces := by
  obtain ⟨root, f, rfl, -, -, hs, -, g', hdraw, hd⟩ := exists_tree_of_compile h find layout
  have hnd := hs.nodup_visitOrder
  refine ⟨⟨g', hdraw, hd.nodup_ids hnd, hd.bijOn hs, fun n hn m hm => hd.schema_eq hs hn hm,
    hd.edges_perm hs⟩, hs.nodup_ids, ?_, nodup_introduces_ofTree hnd, map_snd_bindings_ofTree hnd⟩
  rw [map_fst_bindings_ofTree hnd]
  exact hs.visitOrder_perm

/-- Two nodes of schema `B` below a root, one of them with a child; drawn from the bottom up. -/
def siblings : Graph :=
  ⟨[⟨"z", "C", none, .origin, false⟩, ⟨"y", "B", none, .origin, false⟩,
    ⟨"x", "B", some "pending", .origin, true⟩, ⟨"w", "A", none, .origin, false⟩],
    [⟨"y", "z", "s", some true⟩, ⟨"w", "y", "r", none⟩, ⟨"w", "x", "r", none⟩]⟩

/-- What `siblings` compiles to: the sibling without a child comes first. -/
def siblingsCompiled : Compiled :=
  ⟨[.root ⟨"A", none⟩,
    .edge ⟨"A", none⟩ "r" ⟨"B", some "B"⟩ false,
    .edge ⟨"A", none⟩ "r" ⟨"B", some "B#2"⟩ false,
    .edge ⟨"B", some "B#2"⟩ "s" ⟨"C", none⟩ true],
    [("w", ⟨"A", none⟩), ("x", ⟨"B", some "B"⟩), ("y", ⟨"B", some "B#2"⟩), ("z", ⟨"C", none⟩)]⟩

theorem compile_siblings : siblings.compile false = .ok siblingsCompiled := by cbv

/-- So `x` is drawn as `n1`, and `y` as `n2`. -/
theorem compile_draw_siblings : siblings.compile false = .ok siblingsCompiled ∧
    siblings.ids.map siblingsCompiled.drawnId = ["n3", "n2", "n1", "n0"] ∧
    ∃ g', siblingsCompiled.hops.draw (fun _ => none) .standard = .ok g' ∧
      (siblings.edges.map fun e => (e.settle false).rename siblingsCompiled.drawnId).Perm
        g'.edges := by
  obtain ⟨⟨g', hdraw, -, -, -, hedges⟩, -⟩ :=
    compile_draw compile_siblings (fun _ => none) .standard
  exact ⟨compile_siblings, by decide +kernel, g', hdraw, hedges⟩

end PatternQuery.Graph
