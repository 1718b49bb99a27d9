import PatternQuery.Proofs.Graph.RoundTrip

/-!
# Hops are a complete invariant

Two graphs that compile give the same hops iff they are isomorphic (`hops_eq_iff_exists_iso`).

If the hops are the same, then so are their drawings, and each graph is isomorphic to its own.

Conversely, an isomorphism carries root to root, and what has grown below a node has the same shape
as what has grown below its image, to any depth (`shape_grow`): this is an induction on the depth,
in which the edges that leave the two nodes agree up to order and sorting forgets the order. Trees
of the same shape, once sorted, differ in their ids only, and hops do not depend on ids.
-/

namespace PatternQuery

/-- A list is carried to any list of the same length if it has no repetition. -/
theorem exists_map_eq (l l' : List String) (h : l.Nodup) (hlen : l.length = l'.length) :
    ∃ ψ : String → String, l.map ψ = l' := by
  refine ⟨fun u => ((l.zip l').lookup u).getD "", ?_⟩
  have hlookup := congrArg (List.map fun o => o.getD "") (map_lookup_zip h hlen)
  simp only [List.map_map, Function.comp_def, Option.getD_some, List.map_id'] at hlookup
  exact hlookup

namespace Graph

variable {g h : Graph} {d d' : Bool} {φ : String → String}

/-! ### Shapes -/

/-- The shape of a forest: in canonical order and without ids. -/
def shape (f : Forest Stem) : Shape := (f.map (·.branch)).canonical Branch.compare

theorem map_branch_canonical (f : Forest Stem) :
    (f.canonical Stem.compare).map (·.branch) = shape f :=
  Forest.map_canonical (fun _ _ => rfl) f

/-- The trees of a row that was gathered, each with its shape below the root. -/
theorem trees_gather (below : String → Forest Stem) (es : List Edge) :
    (((g.gather d below es).map (·.branch)).trees.map fun t =>
        (t.1, t.2.canonical Branch.compare)) =
      es.map fun e => ((g.stem d e).branch, shape (below e.target)) := by
  induction es with
  | nil => rfl
  | cons e es ih => rw [gather, Forest.map, Forest.trees, List.map_cons, List.map_cons, ih, shape]

namespace Iso

theorem schemaOf_eq (hgh : g.Iso d h d' φ) (hg : g.ids.Nodup) (hh : h.ids.Nodup) {u : String}
    (hu : u ∈ g.ids) : h.schemaOf (φ u) = g.schemaOf u := by
  obtain ⟨n, hn, rfl⟩ := List.mem_map.mp hu
  obtain ⟨m, hm, hid⟩ := List.mem_map.mp (hgh.bijOn.mapsTo hu)
  rw [← hid, schemaOf_id hh hm, schemaOf_id hg hn, hgh.schema_eq n hn m hm hid]

/-- **What grows below a node and below its image has the same shape.** -/
theorem shape_grow (hgh : g.Iso d h d' φ) (hg : g.ids.Nodup) (hh : h.ids.Nodup)
    (hend : ∀ e ∈ g.edges, ∀ side, e.endId side ∈ g.ids) (k : Nat) {u : String} (hu : u ∈ g.ids) :
    shape (g.grow d k u) = shape (h.grow d' k (φ u)) := by
  induction k generalizing u with
  | zero => rfl
  | succ k ih =>
    refine Forest.canonical_eq_canonical_iff.mpr ?_
    rw [grow, grow, trees_gather, trees_gather]
    -- An edge and its image give the same tree.
    have hperm := (hgh.outgoing_perm hend hu).map fun e =>
      ((h.stem d' e).branch, shape (h.grow d' k e.target))
    rw [List.map_map, List.map_map] at hperm
    refine (List.Perm.of_eq (List.map_congr_left fun e he => ?_)).trans
      (hperm.trans (List.Perm.of_eq (List.map_congr_left fun e _ => ?_)))
    · have htarget : e.target ∈ g.ids := hend e (mem_outgoing_iff.mp he).1 .target
      have hschema : h.schemaOf (φ e.target) = g.schemaOf e.target :=
        hgh.schemaOf_eq hg hh htarget
      simp only [Function.comp, Edge.rename, Edge.settle, stem, Option.getD_some, hschema]
      rw [ih htarget]
    · simp only [Function.comp, Edge.settle, stem, Option.getD_some]

end Iso

/-! ### Trees of the same shape -/

/-- **Trees of the same shape are compiled into the same hops,** if they are in canonical order and
have different ids. -/
theorem hops_eq_of_map_branch_eq {root root' : Node} {f f' : Forest Stem}
    (hnd : (visitOrder root f).Nodup) (hnd' : (visitOrder root' f').Nodup)
    (hschema : root'.schema = root.schema) (hshape : f.map (·.branch) = f'.map (·.branch)) :
    (Compiled.ofTree root' f').hops = (Compiled.ofTree root f).hops := by
  have hnames := (visitOrder_perm root f).nodup_iff.mp hnd
  have hnames' := (visitOrder_perm root' f').nodup_iff.mp hnd'
  have hlen : f.labels.length = f'.labels.length := by
    have := congrArg (fun f => f.labels.length) hshape
    simpa only [Forest.labels_map, List.length_map] using this
  -- Both walks meet as many nodes, so one list of ids can be renamed to the other.
  obtain ⟨ψ, hψ⟩ := exists_map_eq _ (root'.id :: f'.names (·.node)) hnames
    (by simp [Forest.names, hlen])
  obtain ⟨hid, hbelow⟩ := List.cons.inj hψ
  have hrename : f' = f.map (renameStem ψ) := by
    refine Forest.eq_of_map_eq_of_names_eq (·.branch) (·.node) ?_ ?_ ?_
    · rintro ⟨u, b⟩ ⟨v, b'⟩ rfl rfl
      rfl
    · rw [Forest.map_map, ← hshape]
      rfl
    · rw [← hbelow, Forest.names, Forest.names, Forest.labels_map, List.map_map, List.map_map]
      rfl
  have hinj : Set.InjOn ψ {u | u ∈ visitOrder root f} := by
    intro u hu v hv huv
    refine List.inj_on_of_nodup_map (hψ ▸ hnames') ?_ ?_ huv
    · exact (visitOrder_perm root f).mem_iff.mp hu
    · exact (visitOrder_perm root f).mem_iff.mp hv
  rw [hrename]
  exact hops_rename hnd hid.symm hschema hinj

/-! ### Graphs that compile -/

namespace Iso

/-- **What hangs below the roots of isomorphic graphs has the same shape.** -/
theorem shape_below {root root' : Node} (hgh : g.Iso d h d' φ) (hroot : g.Rooted root)
    (hreach : ∀ u ∈ g.ids, g.Reaches root.id u) (hroot' : h.Rooted root') :
    shape (g.below d root) = shape (h.below d' root') := by
  have hend := (isRootedTree_iff.mpr ⟨root, hroot, hreach⟩).end_mem
  -- The trees are grown to the same depth, because there are as many nodes.
  have hlen : g.nodes.length = h.nodes.length := by
    have := (hgh.ids_perm hroot.nodup_ids hroot'.nodup_ids).length_eq
    simpa [ids] using this
  rw [below, below, hgh.root_id hroot hroot', ← hlen]
  exact hgh.shape_grow hroot.nodup_ids hroot'.nodup_ids hend _ (List.mem_map_of_mem hroot.root_mem)

/-- **Isomorphic graphs that compile give the same hops.** -/
theorem hops_eq (hgh : g.Iso d h d' φ) {c c' : Compiled} (hc : g.compile d = .ok c)
    (hc' : h.compile d' = .ok c') : c'.hops = c.hops := by
  obtain ⟨root, hroot, hreach, rfl⟩ := compile_eq_ok_iff.mp hc
  obtain ⟨root', hroot', hreach', rfl⟩ := compile_eq_ok_iff.mp hc'
  refine hops_eq_of_map_branch_eq
    ((hroot.spans_below hreach (d := d)).canonical _).nodup_visitOrder
    ((hroot'.spans_below hreach' (d := d')).canonical _).nodup_visitOrder
    (hgh.schema_eq root hroot.root_mem root' hroot'.root_mem (hgh.root_id hroot hroot')) ?_
  rw [map_branch_canonical, map_branch_canonical, hgh.shape_below hroot hreach hroot']

/-- A graph drawn anew, with other ids, labels and positions and in another order, is isomorphic to
what it was. -/
theorem of_redraw (hinj : Set.InjOn φ {u | u ∈ g.ids}) (hg : g.ids.Nodup)
    (hnodes : (h.nodes.map fun n => (n.id, n.schema)).Perm
      (g.nodes.map fun n => (φ n.id, n.schema)))
    (hedges : h.edges.Perm (g.edges.map (Edge.rename φ))) : h.ids.Nodup ∧ g.Iso d h d φ := by
  have hids : h.ids.Perm (g.ids.map φ) := by
    have := hnodes.map Prod.fst
    rw [List.map_map, List.map_map] at this
    rw [ids, ids, List.map_map]
    exact this
  refine ⟨hids.nodup_iff.mpr (hg.map_on fun u hu v hv huv => hinj hu hv huv),
    ⟨fun u hu => ?_, hinj, fun v hv => ?_⟩, fun n hn m hm hid => ?_, ?_⟩
  · exact hids.mem_iff.mpr (List.mem_map_of_mem hu)
  · obtain ⟨u, hu, rfl⟩ := List.mem_map.mp (hids.mem_iff.mp hv)
    exact ⟨u, hu, rfl⟩
  · have hmem := hnodes.mem_iff.mp (List.mem_map_of_mem (f := fun n => (n.id, n.schema)) hm)
    obtain ⟨n', hn', heq⟩ := List.mem_map.mp hmem
    obtain ⟨hid', hschema⟩ := Prod.mk.inj heq
    have hnn' : n'.id = n.id :=
      hinj (List.mem_map_of_mem hn') (List.mem_map_of_mem hn) (hid'.trans hid)
    rw [← hschema, List.inj_on_of_nodup_map hg hn' hn hnn']
  · have := (hedges.map (Edge.settle d)).symm
    rw [List.map_map] at this
    exact this

end Iso

/-- A graph that compiles and the graph drawn for its hops are isomorphic. -/
theorem exists_iso_draw {c : Compiled} (hc : g.compile d = .ok c) :
    g.IsRootedTree ∧
      ∃ g' φ, c.hops.draw (fun _ => none) .standard = .ok g' ∧ g.Iso d g' false φ := by
  obtain ⟨root, f, rfl, -, htree, hs, -, g', hdraw, hd⟩ :=
    exists_tree_of_compile hc (fun _ => none) .standard
  exact ⟨htree, g', _, hdraw, hd.iso hs false⟩

/-- **Graphs that give the same hops are isomorphic,** because each is isomorphic to the drawing of its
hops. -/
theorem exists_iso_of_hops_eq {c c' : Compiled} (hg : g.compile d = .ok c) (hh : h.compile d' = .ok c')
    (hhops : c.hops = c'.hops) : ∃ φ, g.Iso d h d' φ := by
  obtain ⟨-, g', φ, hdraw, hiso⟩ := exists_iso_draw hg
  obtain ⟨htree', h', χ, hdraw', hiso'⟩ := exists_iso_draw hh
  -- The same hops have the same drawing.
  rw [hhops, hdraw'] at hdraw
  obtain rfl := Except.ok.inj hdraw
  obtain ⟨ψ, hback⟩ := hiso'.symm htree'.end_mem
  exact ⟨_, hiso.trans hback⟩

/-- **The hops are a complete invariant:** two graphs that compile give the same hops iff there is a
renaming that carries one onto the other. In particular the hops do not change when a graph is drawn
anew, with other ids, labels, positions and placeholders, its nodes and edges in another order. -/
theorem hops_eq_iff_exists_iso {c c' : Compiled} (hg : g.compile d = .ok c)
    (hh : h.compile d' = .ok c') :
    (c.hops = c'.hops ↔ ∃ φ, g.Iso d h d' φ) ∧
      ∀ φ, Set.InjOn φ {u | u ∈ g.ids} → ∀ k : Graph,
        (k.nodes.map fun n => (n.id, n.schema)).Perm (g.nodes.map fun n => (φ n.id, n.schema)) →
        k.edges.Perm (g.edges.map (Edge.rename φ)) →
          ∃ c₂, k.compile d = .ok c₂ ∧ c₂.hops = c.hops := by
  have htree : g.IsRootedTree := exists_compile_iff.mp ⟨c, hg⟩
  constructor
  · constructor
    · exact exists_iso_of_hops_eq hg hh
    · rintro ⟨φ, hiso⟩
      exact (hiso.hops_eq hg hh).symm
  · intro ψ hinj k hnodes hedges
    obtain ⟨hnd, hredraw⟩ := Iso.of_redraw (d := d) hinj htree.nodup_ids hnodes hedges
    obtain ⟨c₂, hc₂⟩ := exists_compile_iff.mpr (hredraw.isRootedTree hnd htree)
    exact ⟨c₂, hc₂, hredraw.hops_eq hg hc₂⟩

/-- The tree of `siblings` under other ids, drawn from the top down for the default `true`. -/
def siblingsRenamed : Graph :=
  ⟨[⟨"a", "A", none, .origin, false⟩, ⟨"b", "B", none, .origin, false⟩,
    ⟨"c", "B", none, .origin, false⟩, ⟨"d", "C", some "leaf", .origin, false⟩],
    [⟨"a", "b", "r", some false⟩, ⟨"a", "c", "r", some false⟩, ⟨"b", "d", "s", none⟩]⟩

/-- The hops of the two are the same, so they are isomorphic; and the order of drawing is free. -/
theorem hops_siblings : (∃ φ, siblings.Iso false siblingsRenamed true φ) ∧
    ∃ c, (Graph.mk siblings.nodes.reverse siblings.edges.reverse).compile false = .ok c ∧
      c.hops = siblingsCompiled.hops := by
  have hrenamed : siblingsRenamed.compile true = .ok ⟨siblingsCompiled.hops,
      [("a", ⟨"A", none⟩), ("c", ⟨"B", some "B"⟩), ("b", ⟨"B", some "B#2"⟩),
        ("d", ⟨"C", none⟩)]⟩ := by cbv
  obtain ⟨hiff, hredraw⟩ := hops_eq_iff_exists_iso compile_siblings hrenamed
  refine ⟨hiff.mp rfl, hredraw id (Set.injOn_id _) _ ?_ ?_⟩
  · exact siblings.nodes.reverse_perm.map _
  · exact siblings.edges.reverse_perm

end Graph

end PatternQuery
