import PatternQuery.Proofs.Graph.Acceptance
import PatternQuery.Proofs.Keyed
import PatternQuery.Proofs.Pattern.Naming

/-!
# What a tree is compiled into

`Compiled.ofTree` walks a tree, names its nodes, and writes the hops. If no two nodes of the tree
share an id, then looking up a node in the bindings gives the occurrence it was named with, so hops
and bindings have closed forms (`bindings_ofTree`, `hops_ofTree`) in which the only unknown is the
function `Compiled.occurrence` from nodes to occurrences. Keys are different for different nodes
(`nodup_keys_ofTree`).

None of this looks at the ids themselves: an injective renaming of the nodes keeps the hops and
renames the bindings (`hops_rename`, `occurrence_rename`).
-/

namespace PatternQuery

/-! ### The order of nodes -/

instance : Std.TransCmp Branch.compare :=
  inferInstanceAs (Std.TransCmp (compareLex (compareOn Branch.schema)
    (compareLex (compareOn Branch.relation) (compareOn Branch.optional))))

instance : Std.LawfulEqCmp Branch.compare where
  eq_of_compare {a b} h := by
    rw [Branch.compare, Ordering.then_eq_eq, Ordering.then_eq_eq] at h
    obtain ⟨hs, hr, ho⟩ := h
    cases a; cases b
    rw [Branch.mk.injEq]
    exact ⟨Std.LawfulEqOrd.eq_of_compare hs, Std.LawfulEqOrd.eq_of_compare hr,
      Std.LawfulEqOrd.eq_of_compare ho⟩

instance : Std.TransCmp Stem.compare where
  eq_swap {a b} := @Std.OrientedCmp.eq_swap _ Branch.compare _ a.branch b.branch
  isLE_trans {a b c} h h' :=
    @Std.TransCmp.isLE_trans _ Branch.compare _ a.branch b.branch c.branch h h'

/-! ### Occurrences of nodes -/

/-- The occurrence that a node is bound to. -/
def Compiled.occurrence (c : Compiled) (u : String) : Occurrence := (c.binding? u).getD default

/-- The edge hop of a visit when every node has an occurrence. -/
def Hop.ofVisit (occurrence : String → Occurrence) (v : Visit Stem) : Hop :=
  .edge (occurrence v.parent) v.label.branch.relation (occurrence v.label.node)
    v.label.branch.optional

namespace Graph

variable {root : Node} {f : Forest Stem}

/-! ### The closed forms -/

/-- The schemas met on the walk. -/
def visitSchemas (root : Node) (f : Forest Stem) : List String :=
  root.schema :: (visits root f).map (·.label.branch.schema)

theorem map_binding?_ofTree (h : (visitOrder root f).Nodup) :
    (visitOrder root f).map (Compiled.ofTree root f).binding? =
      (Naming.ofSchemas (visitSchemas root f)).map some := by
  refine map_lookup_zip h ?_
  simp [Naming.length_ofSchemas]

theorem map_occurrence_ofTree (h : (visitOrder root f).Nodup) :
    (visitOrder root f).map (Compiled.ofTree root f).occurrence =
      Naming.ofSchemas (visitSchemas root f) := by
  have := congrArg (List.map fun o => o.getD default) (map_binding?_ofTree h)
  simp only [List.map_map, Function.comp_def, Option.getD_some, List.map_id'] at this
  exact this

theorem binding?_ofTree (h : (visitOrder root f).Nodup) {u : String} (hu : u ∈ visitOrder root f) :
    (Compiled.ofTree root f).binding? u = some ((Compiled.ofTree root f).occurrence u) := by
  have hmem : (Compiled.ofTree root f).binding? u ∈
      (Naming.ofSchemas (visitSchemas root f)).map some :=
    map_binding?_ofTree h ▸ List.mem_map_of_mem hu
  obtain ⟨o, -, ho⟩ := List.mem_map.mp hmem
  rw [Compiled.occurrence, ← ho, Option.getD_some]

/-- **Every node of the tree is bound,** in the order of the walk. -/
theorem bindings_ofTree (h : (visitOrder root f).Nodup) :
    (Compiled.ofTree root f).bindings =
      (visitOrder root f).map fun u => (u, (Compiled.ofTree root f).occurrence u) := by
  rw [List.map_prod_left_eq_zip, map_occurrence_ofTree h]
  rfl

/-- **A hop for every node of the tree,** the root first. -/
theorem hops_ofTree (h : (visitOrder root f).Nodup) :
    (Compiled.ofTree root f).hops = .root ((Compiled.ofTree root f).occurrence root.id) ::
      (visits root f).map (Hop.ofVisit (Compiled.ofTree root f).occurrence) := by
  have hhead : (Naming.ofSchemas (visitSchemas root f)).head? =
      some ((Compiled.ofTree root f).occurrence root.id) := by
    rw [← map_occurrence_ofTree h]
    rfl
  have hedges : (visits root f).filterMap (Visit.hop? (Compiled.ofTree root f).bindings) =
      (visits root f).map (Hop.ofVisit (Compiled.ofTree root f).occurrence) := by
    rw [← List.filterMap_eq_map]
    refine List.filterMap_congr fun v hv => ?_
    have hparent := binding?_ofTree h (parent_mem_visitOrder hv)
    have hnode := binding?_ofTree h (node_mem_visitOrder hv)
    rw [Compiled.binding?] at hparent hnode
    simp only [Visit.hop?, hparent, hnode]
    rfl
  rw [← hedges]
  change ((Naming.ofSchemas (visitSchemas root f)).head?.map Hop.root).toList ++ _ = _
  rw [hhead]
  rfl

/-- The hops introduce the occurrences of the nodes, in the order of the walk. -/
theorem map_introduces_ofTree (h : (visitOrder root f).Nodup) :
    (Compiled.ofTree root f).hops.map Hop.introduces =
      (visitOrder root f).map (Compiled.ofTree root f).occurrence := by
  rw [hops_ofTree h, List.map_cons, List.map_map, visitOrder, List.map_cons, List.map_map]
  rfl

/-- **Different nodes have different keys.** -/
theorem nodup_keys_ofTree (h : (visitOrder root f).Nodup) :
    ((visitOrder root f).map fun u => ((Compiled.ofTree root f).occurrence u).key).Nodup := by
  have := Naming.nodup_keys_ofSchemas (visitSchemas root f)
  rwa [← map_occurrence_ofTree h, List.map_map] at this

/-- The occurrences of the nodes stand for the schemas that the walk met. -/
theorem map_schema_occurrence (h : (visitOrder root f).Nodup) :
    ((visitOrder root f).map fun u => ((Compiled.ofTree root f).occurrence u).schema) =
      visitSchemas root f := by
  rw [← Naming.map_schema_ofSchemas (visitSchemas root f), ← map_occurrence_ofTree h, List.map_map]
  rfl

theorem schema_occurrence_visit (h : (visitOrder root f).Nodup) {v : Visit Stem}
    (hv : v ∈ visits root f) :
    ((Compiled.ofTree root f).occurrence v.label.node).schema = v.label.branch.schema := by
  have hmap := map_schema_occurrence h
  rw [visitOrder, List.map_cons, List.map_map, visitSchemas] at hmap
  exact List.map_inj_left.mp (List.cons.inj hmap).2 v hv

/-! ### Renaming the nodes -/

/-- Renames a node below the root. -/
def renameStem (ψ : String → String) (s : Stem) : Stem := ⟨ψ s.node, s.branch⟩

section Rename

variable {root' : Node} {ψ : String → String}

/-- The order does not look at ids. -/
theorem canonical_rename (f : Forest Stem) : (f.map (renameStem ψ)).canonical Stem.compare =
    (f.canonical Stem.compare).map (renameStem ψ) :=
  (Forest.map_canonical (fun _ _ => rfl) f).symm

theorem visits_rename (hid : root'.id = ψ root.id) :
    visits root' (f.map (renameStem ψ)) =
      (visits root f).map fun v => ⟨ψ v.parent, renameStem ψ v.label⟩ := by
  rw [visits, hid]
  exact @walk_map Stem Stem (·.node) (·.node) (renameStem ψ) ψ (fun _ => rfl) [(root.id, f)]

theorem visitOrder_rename (hid : root'.id = ψ root.id) :
    visitOrder root' (f.map (renameStem ψ)) = (visitOrder root f).map ψ := by
  rw [visitOrder, visits_rename hid, hid, visitOrder, List.map_cons, List.map_map, List.map_map]
  rfl

theorem nodup_visitOrder_rename (h : (visitOrder root f).Nodup) (hid : root'.id = ψ root.id)
    (hψ : Set.InjOn ψ {u | u ∈ visitOrder root f}) :
    (visitOrder root' (f.map (renameStem ψ))).Nodup := by
  rw [visitOrder_rename hid]
  exact h.map_on fun u hu v hv huv => hψ hu hv huv

/-- **Occurrences do not depend on the ids.** -/
theorem occurrence_rename (h : (visitOrder root f).Nodup) (hid : root'.id = ψ root.id)
    (hschema : root'.schema = root.schema) (hψ : Set.InjOn ψ {u | u ∈ visitOrder root f})
    {u : String} (hu : u ∈ visitOrder root f) :
    (Compiled.ofTree root' (f.map (renameStem ψ))).occurrence (ψ u) =
      (Compiled.ofTree root f).occurrence u := by
  have hschemas : visitSchemas root' (f.map (renameStem ψ)) = visitSchemas root f := by
    rw [visitSchemas, visits_rename hid, hschema, visitSchemas, List.map_map]
    rfl
  have hmap := map_occurrence_ofTree (nodup_visitOrder_rename h hid hψ)
  rw [hschemas, ← map_occurrence_ofTree h, visitOrder_rename hid, List.map_map] at hmap
  exact List.map_inj_left.mp hmap u hu

/-- **Hops do not depend on the ids.** -/
theorem hops_rename (h : (visitOrder root f).Nodup) (hid : root'.id = ψ root.id)
    (hschema : root'.schema = root.schema) (hψ : Set.InjOn ψ {u | u ∈ visitOrder root f}) :
    (Compiled.ofTree root' (f.map (renameStem ψ))).hops = (Compiled.ofTree root f).hops := by
  have hocc {u : String} (hu : u ∈ visitOrder root f) := occurrence_rename h hid hschema hψ hu
  rw [hops_ofTree (nodup_visitOrder_rename h hid hψ), hops_ofTree h, visits_rename hid,
    List.map_map, hid, hocc List.mem_cons_self]
  congr 1
  refine List.map_congr_left fun v hv => ?_
  simp only [Function.comp, Hop.ofVisit, renameStem, hocc (parent_mem_visitOrder hv),
    hocc (node_mem_visitOrder hv)]

end Rename

/-! ### Trees that span a graph -/

/-- Among nodes with different ids, the schema of an id is the schema of its node. -/
theorem schemaOf_id {g : Graph} (hnd : g.ids.Nodup) {n : Node} (hn : n ∈ g.nodes) :
    g.schemaOf n.id = n.schema := by
  rw [schemaOf, node?, find?_key_of_nodup hnd hn]
  rfl

namespace Spans

variable {g : Graph} {d : Bool}

theorem visitOrder_perm (h : g.Spans d root f) : (visitOrder root f).Perm g.ids :=
  (Graph.visitOrder_perm root f).trans h.names_perm

theorem nodup_visitOrder (h : g.Spans d root f) : (visitOrder root f).Nodup :=
  h.visitOrder_perm.nodup_iff.mpr h.nodup_ids

theorem visits_perm_edges (h : g.Spans d root f) : (visits root f).Perm (g.edges.map (g.visit d)) :=
  (visits_perm_visits root f).trans h.visits_perm

/-- The schemas met on the walk are those of the nodes. -/
theorem visitSchemas_eq (h : g.Spans d root f) :
    visitSchemas root f = (visitOrder root f).map g.schemaOf := by
  rw [visitSchemas, visitOrder, List.map_cons, List.map_map, schemaOf_id h.nodup_ids h.root_mem]
  congr 1
  refine List.map_congr_left fun v hv => ?_
  obtain ⟨e, -, rfl⟩ := List.mem_map.mp (h.visits_perm_edges.mem_iff.mp hv)
  rfl

/-- **The occurrence of a node stands for its schema.** -/
theorem schema_occurrence (h : g.Spans d root f) {n : Node} (hn : n ∈ g.nodes) :
    ((Compiled.ofTree root f).occurrence n.id).schema = n.schema := by
  have hmem : n.id ∈ visitOrder root f :=
    h.visitOrder_perm.mem_iff.mpr (List.mem_map_of_mem hn)
  have hmap := map_schema_occurrence h.nodup_visitOrder
  rw [h.visitSchemas_eq] at hmap
  rw [List.map_inj_left.mp hmap n.id hmem, schemaOf_id h.nodup_ids hn]

end Spans

end Graph

end PatternQuery
