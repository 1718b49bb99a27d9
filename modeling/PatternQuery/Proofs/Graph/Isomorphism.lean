import PatternQuery.Proofs.Graph.Acceptance
import PatternQuery.Proofs.Keyed

/-!
# Isomorphic graphs

Two graphs are isomorphic if the nodes of one can be renamed to those of the other such that schemas
and edges agree. Edges are compared after each graph's default has settled the ones that leave open
whether they are optional. Labels, positions, placeholders and the order of drawing play no part.

`Iso.symm` and `Iso.trans` make it an equivalence on graphs whose edges end at nodes, and
`Iso.isRootedTree` says that a graph with different ids is a rooted tree if one that is isomorphic
to it is.
-/

namespace PatternQuery

/-- The edge with its optionality settled by a default. -/
def Edge.settle (d : Bool) (e : Edge) : Edge :=
  ⟨e.source, e.target, e.relation, some (e.optional.getD d)⟩

/-- The edge between the renamed nodes. -/
def Edge.rename (φ : String → String) (e : Edge) : Edge :=
  ⟨φ e.source, φ e.target, e.relation, e.optional⟩

namespace Graph

variable {g h k : Graph} {d d' d'' : Bool} {φ ψ : String → String}

/-- **A renaming that carries one graph onto another:** a bijection of their nodes that keeps
schemas and carries the edges of the one, each once, onto those of the other. -/
structure Iso (g : Graph) (d : Bool) (h : Graph) (d' : Bool) (φ : String → String) : Prop where
  bijOn : Set.BijOn φ {u | u ∈ g.ids} {v | v ∈ h.ids}
  schema_eq : ∀ n ∈ g.nodes, ∀ m ∈ h.nodes, m.id = φ n.id → m.schema = n.schema
  edges_perm : (g.edges.map fun e => (e.settle d).rename φ).Perm (h.edges.map (Edge.settle d'))

namespace Iso

/-! ### Composition -/

theorem trans (hgh : g.Iso d h d' φ) (hhk : h.Iso d' k d'' ψ) : g.Iso d k d'' (ψ ∘ φ) := by
  refine ⟨hhk.bijOn.comp hgh.bijOn, fun n hn m hm hid => ?_, ?_⟩
  · obtain ⟨l, hl, hlid⟩ := List.mem_map.mp (hgh.bijOn.mapsTo (List.mem_map_of_mem hn))
    rw [hhk.schema_eq l hl m hm (hid.trans (congrArg ψ hlid.symm)), hgh.schema_eq n hn l hl hlid]
  · have h := hgh.edges_perm.map (Edge.rename ψ)
    rw [List.map_map, List.map_map] at h
    exact h.trans hhk.edges_perm

/-- Turning a renaming around needs edges to end at nodes, because only there is it a bijection. -/
theorem symm (hend : ∀ e ∈ g.edges, ∀ side, e.endId side ∈ g.ids) (hgh : g.Iso d h d' φ) :
    ∃ ψ, h.Iso d' g d ψ := by
  obtain ⟨ψ, hinv⟩ : ∃ ψ, Set.InvOn ψ φ {u | u ∈ g.ids} {v | v ∈ h.ids} :=
    ⟨_, hgh.bijOn.invOn_invFunOn⟩
  refine ⟨ψ, hgh.bijOn.symm hinv.symm, fun m hm n hn hid => ?_, ?_⟩
  · refine (hgh.schema_eq n hn m hm ?_).symm
    rw [hid]
    exact (hinv.2 (List.mem_map_of_mem hm)).symm
  · have hperm := hgh.edges_perm.symm.map (Edge.rename ψ)
    rw [List.map_map, List.map_map] at hperm
    refine hperm.trans (List.Perm.of_eq (List.map_congr_left fun e he => ?_))
    have hs : ψ (φ e.source) = e.source := hinv.1 (hend e he .source)
    have ht : ψ (φ e.target) = e.target := hinv.1 (hend e he .target)
    simp only [Function.comp, Edge.rename, Edge.settle, hs, ht]

/-! ### What an isomorphism keeps -/

theorem ids_perm (hgh : g.Iso d h d' φ) (hg : g.ids.Nodup) (hh : h.ids.Nodup) :
    (g.ids.map φ).Perm h.ids := by
  have hnodup : (g.ids.map φ).Nodup := hg.map_on fun u hu v hv huv => hgh.bijOn.injOn hu hv huv
  refine (List.perm_ext_iff_of_nodup hnodup hh).mpr fun v => ?_
  rw [List.mem_map]
  exact ⟨fun ⟨_, hu, huv⟩ => huv ▸ hgh.bijOn.mapsTo hu, fun hv => hgh.bijOn.surjOn hv⟩

/-- The edges that leave a node are carried to those that leave its image. -/
theorem outgoing_perm (hend : ∀ e ∈ g.edges, ∀ side, e.endId side ∈ g.ids) (hgh : g.Iso d h d' φ)
    {u : String} (hu : u ∈ g.ids) : ((g.outgoing u).map fun e => (e.settle d).rename φ).Perm
      ((h.outgoing (φ u)).map (Edge.settle d')) := by
  have hperm := hgh.edges_perm.filter fun e => e.source == φ u
  rw [List.filter_map, List.filter_map] at hperm
  refine (List.Perm.of_eq ?_).trans hperm
  congr 1
  refine List.filter_congr fun e he => ?_
  change (e.source == u) = (φ e.source == φ u)
  rw [Bool.eq_iff_iff, beq_iff_eq, beq_iff_eq]
  exact ⟨congrArg φ, fun heq => hgh.bijOn.injOn (hend e he .source) hu heq⟩

/-- An edge is carried to an edge. -/
theorem exists_image (hgh : g.Iso d h d' φ) {e : Edge} (he : e ∈ g.edges) :
    ∃ e' ∈ h.edges, e'.settle d' = (e.settle d).rename φ := by
  have hmem : (e.settle d).rename φ ∈ h.edges.map (Edge.settle d') :=
    hgh.edges_perm.mem_iff.mp (List.mem_map.mpr ⟨e, he, rfl⟩)
  exact List.mem_map.mp hmem

/-- Every edge is carried to from an edge. -/
theorem exists_preimage (hgh : g.Iso d h d' φ) {e' : Edge} (he' : e' ∈ h.edges) :
    ∃ e ∈ g.edges, φ e.source = e'.source ∧ φ e.target = e'.target ∧ e.relation = e'.relation := by
  have hmem : e'.settle d' ∈ g.edges.map fun e => (e.settle d).rename φ :=
    hgh.edges_perm.mem_iff.mpr (List.mem_map_of_mem he')
  obtain ⟨e, he, heq⟩ := List.mem_map.mp hmem
  obtain ⟨hs, ht, hrel, -⟩ := Edge.mk.inj heq
  exact ⟨e, he, hs, ht, hrel⟩

theorem arrow (hgh : g.Iso d h d' φ) {u v : String} (huv : g.Arrow u v) : h.Arrow (φ u) (φ v) := by
  obtain ⟨e, he, rfl, rfl⟩ := huv
  obtain ⟨e', he', heq⟩ := hgh.exists_image he
  exact ⟨e', he', congrArg Edge.source heq, congrArg Edge.target heq⟩

/-- A node has an edge leading to it iff its image has. -/
theorem target_ne_iff (hend : ∀ e ∈ g.edges, ∀ side, e.endId side ∈ g.ids) (hgh : g.Iso d h d' φ)
    {u : String} (hu : u ∈ g.ids) :
    (∀ e' ∈ h.edges, e'.target ≠ φ u) ↔ ∀ e ∈ g.edges, e.target ≠ u := by
  constructor
  · rintro hnone e he rfl
    obtain ⟨e', he', heq⟩ := hgh.exists_image he
    exact hnone e' he' (congrArg Edge.target heq)
  · intro hnone e' he' ht
    obtain ⟨e, he, -, heq, -⟩ := hgh.exists_preimage he'
    exact hnone e he (hgh.bijOn.injOn (hend e he .target) hu (heq.trans ht))

theorem nodup_targets (hend : ∀ e ∈ g.edges, ∀ side, e.endId side ∈ g.ids) (hgh : g.Iso d h d' φ)
    (hnd : (g.edges.map (·.target)).Nodup) : (h.edges.map (·.target)).Nodup := by
  have hperm := hgh.edges_perm.map Edge.target
  rw [List.map_map, List.map_map] at hperm
  have hnodup : ((g.edges.map (·.target)).map φ).Nodup := by
    refine hnd.map_on fun u hu v hv huv => ?_
    obtain ⟨e, he, rfl⟩ := List.mem_map.mp hu
    obtain ⟨e₂, he₂, rfl⟩ := List.mem_map.mp hv
    exact hgh.bijOn.injOn (hend e he .target) (hend e₂ he₂ .target) huv
  rw [List.map_map] at hnodup
  exact hperm.nodup_iff.mp hnodup

/-- The root is carried to the root. -/
theorem root_id {root root' : Node} (hgh : g.Iso d h d' φ) (hg : g.Rooted root)
    (hh : h.Rooted root') : root'.id = φ root.id := by
  by_contra hne
  have hmem : φ root.id ∈ h.ids := hgh.bijOn.mapsTo (List.mem_map_of_mem hg.root_mem)
  obtain ⟨e', he', ht⟩ := hh.exists_edge hmem (Ne.symm hne)
  obtain ⟨e, he, -, htarget, -⟩ := hgh.exists_preimage he'
  have hid : e.target = root.id := hgh.bijOn.injOn (hg.target_mem e he)
    (List.mem_map_of_mem hg.root_mem) (htarget.trans ht)
  exact hg.target_ne_root he hid

/-- **What is isomorphic to a rooted tree is one,** unless two of its nodes share an id. -/
theorem isRootedTree (hgh : g.Iso d h d' φ) (hnd : h.ids.Nodup) (hg : g.IsRootedTree) :
    h.IsRootedTree := by
  obtain ⟨r, hr, hunique, hreach⟩ := hg.exists_root
  -- Every node, edge and path of `h` is the image of one of `g`.
  refine ⟨?_, hnd, fun m hm => ?_, fun e' he' => ?_, fun e' he' side => ?_, fun e' he' => ?_,
    hgh.nodup_targets hg.end_mem hg.nodup_targets, φ r, hgh.bijOn.mapsTo hr, fun v hv => ?_,
    fun v hv => ?_⟩
  · obtain ⟨m, hm, -⟩ := List.mem_map.mp (hgh.bijOn.mapsTo hr)
    exact List.ne_nil_of_mem hm
  · obtain ⟨u, hu, huid⟩ := hgh.bijOn.surjOn (List.mem_map_of_mem hm)
    obtain ⟨n, hn, rfl⟩ := List.mem_map.mp hu
    rw [hgh.schema_eq n hn m hm huid.symm]
    exact hg.schema_named n hn
  · obtain ⟨e, he, -, -, hrel⟩ := hgh.exists_preimage he'
    exact hrel ▸ hg.relation_named e he
  · obtain ⟨e, he, hs, ht, -⟩ := hgh.exists_preimage he'
    cases side with
    | source =>
      rw [Edge.endId, ← hs]
      exact hgh.bijOn.mapsTo (hg.end_mem e he .source)
    | target =>
      rw [Edge.endId, ← ht]
      exact hgh.bijOn.mapsTo (hg.end_mem e he .target)
  · obtain ⟨e, he, hs, ht, -⟩ := hgh.exists_preimage he'
    rw [← hs, ← ht]
    exact fun heq => hg.source_ne_target e he
      (hgh.bijOn.injOn (hg.end_mem e he .source) (hg.end_mem e he .target) heq)
  · obtain ⟨u, hu, rfl⟩ := hgh.bijOn.surjOn hv
    rw [hgh.target_ne_iff hg.end_mem hu, hunique u hu]
    exact ⟨congrArg φ, fun heq => hgh.bijOn.injOn hu hr heq⟩
  · obtain ⟨u, hu, rfl⟩ := hgh.bijOn.surjOn hv
    exact (hreach u hu).lift φ fun _ _ => hgh.arrow

end Iso

end Graph

end PatternQuery
