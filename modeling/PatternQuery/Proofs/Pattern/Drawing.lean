import PatternQuery.Proofs.Graph.Drawing
import PatternQuery.Proofs.Pattern.Introduction

/-!
# The drawing of a pattern

A pattern is drawn with one node for every key and one edge for every edge hop, in order; this is
what `Graph.Shows` says, and every pattern has such a drawing (`exists_draw_of_check`).

The drawing has the form of a rooted tree: the ids are that of the root and then the targets of the
edges, and every edge leads to a node with a higher number, so there is no cycle. Of all the reasons
not to compile a graph only one is left, a schema with a blank id (`Graph.Shows.error_of_compile`). That
is the one thing a pattern is not tested for.
-/

namespace PatternQuery

namespace Pattern

/-- The id of the node drawn for the occurrence with a key. -/
def drawnId (p : Pattern) (key : String) : String := Drawing.nodeId ((keys p).idxOf key)

theorem drawnId_injOn (p : Pattern) : Set.InjOn (drawnId p) {key | key ∈ keys p} := by
  intro key hkey key' _ heq
  exact (List.idxOf_inj hkey).mp (Drawing.nodeId_injective heq)

end Pattern

/-- The edge drawn for a hop; none for the root hop. -/
def Hop.drawnEdge? (p : Pattern) : Hop → Option Edge
  | .root _ => none
  | .edge source relation target optional =>
    some ⟨p.drawnId source.key, p.drawnId target.key, relation, some optional⟩

/-- **The graph drawn for a pattern:** a node for every hop and an edge for every edge hop, in
order. -/
structure Graph.Shows (g : Graph) (p : Pattern) : Prop where
  nodes_eq : g.nodes.map (fun n => (n.id, n.schema)) = p.map fun hop =>
    (p.drawnId hop.introduces.key, hop.introduces.schema)
  edges_eq : g.edges = p.filterMap (Hop.drawnEdge? p)

namespace Pattern

variable {p : Pattern} {placed : List Placement}

/-- Placements are drawn as the pattern they were read from. -/
theorem Places.shows (h : Places p placed) (find : String → Option Schema) (layout : Layout) :
    (Drawing.ofPlacements find layout placed).Shows p := by
  have hzip : p.zipIdx = p.map fun hop => (hop, (keys p).idxOf hop.introduces.key) :=
    zipIdx_eq_map_idxOf_key h.nodup_keys
  constructor
  · rw [Drawing.nodes_ofPlacements, h.occurrences_eq, List.zipIdx_map, hzip, List.map_map,
      List.map_map]
    rfl
  · rw [Drawing.edges_ofPlacements, h.incoming_eq, List.zipIdx_map, hzip, List.filterMap_map,
      List.filterMap_map]
    refine List.filterMap_congr fun hop _ => ?_
    cases hop with
    | root o => rfl
    | edge source relation target optional => rfl

/-- **Every pattern can be drawn.** -/
theorem exists_draw_of_check (h : check p = .ok ()) (find : String → Option Schema)
    (layout : Layout) : InOrder p ∧ ∃ g, p.draw find layout = .ok g ∧ g.Shows p := by
  obtain ⟨placed, hplace⟩ := exists_place_of_check h
  refine ⟨inOrder_of_place hplace, _, ?_, (places_of_place hplace).shows find layout⟩
  rw [draw, hplace]
  rfl

/-- Only a pattern can be drawn. -/
theorem check_of_draw {find : String → Option Schema} {layout : Layout} {g : Graph}
    (h : p.draw find layout = .ok g) : p.check = .ok () := by
  unfold draw at h
  cases hplace : place p with
  | error e =>
    rw [hplace] at h
    exact absurd h (by simp [Except.map])
  | ok placed =>
    show (do let _ ← place p) = _
    rw [hplace]
    rfl

end Pattern

namespace Graph.Shows

variable {g : Graph} {p : Pattern}

/-! ### Nodes and edges -/

theorem ids_eq (h : g.Shows p) : g.ids = (Pattern.keys p).map p.drawnId := by
  have := congrArg (List.map Prod.fst) h.nodes_eq
  rw [List.map_map, List.map_map] at this
  rw [Pattern.keys, List.map_map]
  exact this

theorem drawnId_mem (h : g.Shows p) {key : String} (hkey : key ∈ Pattern.keys p) :
    p.drawnId key ∈ g.ids := by
  rw [h.ids_eq]
  exact List.mem_map_of_mem hkey

/-- The node drawn for a hop, with the schema of what the hop introduces. -/
theorem exists_node (h : g.Shows p) {hop : Hop} (hhop : hop ∈ p) :
    ∃ n ∈ g.nodes, n.id = p.drawnId hop.introduces.key ∧ n.schema = hop.introduces.schema := by
  have hmem : (p.drawnId hop.introduces.key, hop.introduces.schema) ∈
      g.nodes.map fun n => (n.id, n.schema) := by
    rw [h.nodes_eq]
    exact List.mem_map.mpr ⟨hop, hhop, rfl⟩
  obtain ⟨n, hn, heq⟩ := List.mem_map.mp hmem
  obtain ⟨hid, hschema⟩ := Prod.mk.inj heq
  exact ⟨n, hn, hid, hschema⟩

theorem exists_hop_of_node (h : g.Shows p) {n : Node} (hn : n ∈ g.nodes) :
    ∃ hop ∈ p, n.id = p.drawnId hop.introduces.key ∧ n.schema = hop.introduces.schema := by
  have hmem : (n.id, n.schema) ∈ g.nodes.map fun n => (n.id, n.schema) :=
    List.mem_map.mpr ⟨n, hn, rfl⟩
  rw [h.nodes_eq] at hmem
  obtain ⟨hop, hhop, heq⟩ := List.mem_map.mp hmem
  obtain ⟨hid, hschema⟩ := Prod.mk.inj heq
  exact ⟨hop, hhop, hid.symm, hschema.symm⟩

theorem exists_hop_of_edge (h : g.Shows p) {e : Edge} (he : e ∈ g.edges) :
    ∃ source relation target optional, Hop.edge source relation target optional ∈ p ∧
      e = ⟨p.drawnId source.key, p.drawnId target.key, relation, some optional⟩ := by
  rw [h.edges_eq, List.mem_filterMap] at he
  obtain ⟨hop, hhop, he⟩ := he
  cases hop with
  | root o => exact absurd he (by simp [Hop.drawnEdge?])
  | edge source relation target optional => exact ⟨_, _, _, _, hhop, (Option.some.inj he).symm⟩

/-! ### The form of a tree -/

theorem nodup_ids (h : g.Shows p) (hp : p.InOrder) : g.ids.Nodup := by
  rw [h.ids_eq]
  exact hp.nodup_keys.map_on fun key hkey key' hkey' heq => p.drawnId_injOn hkey hkey' heq

/-- **The ids are that of the root and then the targets of the edges.** -/
theorem ids_eq_cons (h : g.Shows p) {o : Occurrence} {rest : Pattern} (hp : p = .root o :: rest)
    (hrest : ∀ hop ∈ rest, hop.isRoot = false) :
    g.ids = p.drawnId o.key :: g.edges.map (·.target) := by
  subst hp
  have hedges : g.edges = rest.filterMap (Hop.drawnEdge? (.root o :: rest)) := by
    rw [h.edges_eq, List.filterMap_cons_none rfl]
  have htargets : g.edges.map (·.target) =
      rest.map fun hop => Pattern.drawnId (.root o :: rest) hop.introduces.key := by
    rw [hedges, List.map_filterMap, ← List.filterMap_eq_map]
    refine List.filterMap_congr fun hop hhop => ?_
    cases hop with
    | root o' => exact absurd (hrest _ hhop) (by simp [Hop.isRoot])
    | edge source relation target optional => rfl
  rw [h.ids_eq, htargets, Pattern.keys, List.map_map]
  rfl

theorem end_mem (h : g.Shows p) (hp : p.InOrder) {e : Edge} (he : e ∈ g.edges) (side : EdgeEnd) :
    e.endId side ∈ g.ids := by
  obtain ⟨source, relation, target, optional, hmem, rfl⟩ := h.exists_hop_of_edge he
  cases side with
  | source => exact h.drawnId_mem (hp.source_key_mem hmem)
  | target => exact h.drawnId_mem (List.mem_map_of_mem (f := (·.introduces.key)) hmem)

/-- **Every path leads to a higher number.** -/
theorem exists_lt_of_transGen (h : g.Shows p) (hp : p.InOrder) {u v : String}
    (huv : Relation.TransGen g.Arrow u v) :
    ∃ i j, i < j ∧ u = Drawing.nodeId i ∧ v = Drawing.nodeId j := by
  have harrow {u v : String} (huv : g.Arrow u v) :
      ∃ i j, i < j ∧ u = Drawing.nodeId i ∧ v = Drawing.nodeId j := by
    obtain ⟨e, he, rfl, rfl⟩ := huv
    obtain ⟨source, relation, target, optional, hmem, rfl⟩ := h.exists_hop_of_edge he
    exact ⟨_, _, hp.idxOf_source_lt hmem, rfl, rfl⟩
  induction huv with
  | single huv => exact harrow huv
  | tail _ hvw ih =>
    obtain ⟨i, j, hij, rfl, rfl⟩ := ih
    obtain ⟨j', k, hjk, hj, rfl⟩ := harrow hvw
    obtain rfl := Drawing.nodeId_injective hj
    exact ⟨i, k, hij.trans hjk, rfl, rfl⟩

theorem not_hasCycle (h : g.Shows p) (hp : p.InOrder) : ¬ g.HasCycle := by
  rintro ⟨u, hu⟩
  obtain ⟨i, j, hij, hi, hj⟩ := h.exists_lt_of_transGen hp hu
  have := Drawing.nodeId_injective (hi.symm.trans hj)
  omega

/-! ### Compiling a drawing -/

/-- **The drawing of a pattern is refused for a blank schema or not at all.** Every other error says
something of the graph that is false of a drawing. -/
theorem error_of_compile (h : g.Shows p) (hp : p.InOrder) {d : Bool} {x : GraphError}
    (hx : g.compile d = .error x) :
    ∃ hop ∈ p, Text.isBlank hop.introduces.schema = true ∧
      x = .blankSchema (p.drawnId hop.introduces.key) := by
  obtain ⟨o, rest, hroot, hrest⟩ := hp.root_first
  have hcons := h.ids_eq_cons hroot hrest
  have hnodup := h.nodup_ids hp
  have hholds : x.Holds g := holds_of_compile hx
  cases x with
  | emptyGraph =>
    have hnil : g.nodes = [] := hholds
    exact absurd hcons (by simp [ids, hnil])
  | duplicateNode u =>
    have htwice : 2 ≤ g.ids.count u := hholds
    have := List.nodup_iff_count_le_one.mp hnodup u
    omega
  | blankSchema u =>
    obtain ⟨n, hn, rfl, hblank⟩ := hholds
    obtain ⟨hop, hhop, hid, hschema⟩ := h.exists_hop_of_node hn
    exact ⟨hop, hhop, hschema ▸ hblank, by rw [hid]⟩
  | danglingEdge i side u =>
    obtain ⟨e, he, rfl, hnot⟩ := hholds
    exact absurd (h.end_mem hp (List.mem_of_getElem? he) side) hnot
  | blankRelation i =>
    obtain ⟨e, he, hblank⟩ := hholds
    obtain ⟨source, relation, target, optional, hmem, rfl⟩ :=
      h.exists_hop_of_edge (List.mem_of_getElem? he)
    have hnamed : Text.isBlank relation = false := hp.relation_named _ _ _ _ hmem
    exact absurd hblank (by simp [hnamed])
  | multipleParents u =>
    have htwice : 2 ≤ (g.edges.map (·.target)).count u := hholds
    rw [hcons, List.nodup_cons] at hnodup
    have := List.nodup_iff_count_le_one.mp hnodup.2 u
    omega
  | cycle u => exact absurd hholds (h.not_hasCycle hp)
  | disconnected roots =>
    obtain ⟨hroots, hlen⟩ := hholds
    -- Only the first id is no target.
    have htargets : (g.edges.map (·.target)).filter (fun u => ∀ e ∈ g.edges, e.target ≠ u) = [] := by
      refine List.filter_eq_nil_iff.mpr fun u hu hno => ?_
      obtain ⟨e, he, rfl⟩ := List.mem_map.mp hu
      exact of_decide_eq_true hno e he rfl
    have hle : roots.length ≤ 1 := by
      rw [hroots, hcons, List.filter_cons]
      split_ifs
      · rw [htargets, List.length_singleton]
      · simp [htargets]
    omega

/-- **The drawing of a pattern compiles iff no schema is blank.** -/
theorem exists_compile_iff_named (h : g.Shows p) (hp : p.InOrder) {d : Bool} :
    (∃ c, g.compile d = .ok c) ↔ ∀ hop ∈ p, Text.isBlank hop.introduces.schema = false := by
  constructor
  · rintro ⟨c, hc⟩ hop hhop
    obtain ⟨root, hroot, -⟩ := compile_eq_ok_iff.mp hc
    obtain ⟨n, hn, -, hschema⟩ := h.exists_node hhop
    exact hschema ▸ hroot.schema_not_blank n hn
  · intro hnamed
    cases hc : g.compile d with
    | ok c => exact ⟨c, rfl⟩
    | error x =>
      obtain ⟨hop, hhop, hblank, -⟩ := h.error_of_compile hp hc
      exact absurd hblank (by simp [hnamed hop hhop])

end Graph.Shows

/-- **The hops of a compiled graph are a pattern.** -/
theorem Graph.check_of_compile {g : Graph} {d : Bool} {c : Compiled} (h : g.compile d = .ok c) :
    c.hops.check = .ok () := by
  obtain ⟨-, -, -, -, -, -, -, g', hdraw, -⟩ := exists_tree_of_compile h (fun _ => none) .standard
  exact Pattern.check_of_draw hdraw

end PatternQuery
