import Mathlib.Data.List.Nodup
import Mathlib.Data.List.Perm.Subperm
import PatternQuery.Proofs.Forest.Walk
import PatternQuery.Proofs.Graph.Checks
import PatternQuery.Proofs.Keyed

/-!
# Growing a tree from its root

`Graph.grow` unfolds a graph into a forest, level by level, down to a depth that it is given.
`Graph.Hangs` says what it aims at, without a depth: the forest that hangs below a list of edges.
The two meet as soon as the forest is less high than the depth allows (`hangs_grow`).

In a graph with one root and at most one edge to every node this is so for the depth that
`Graph.below` takes. The reason is `count_names_grow`: a node occurs at depth `k + 1` below `v` as
often as its parent occurs at depth `k`, or is `v` itself. So no name occurs twice below the root
(`nodup_names_grow`), and a forest without repeated names cannot be higher than there are nodes.

The result is `spans_below`: if the root reaches every node, the forest below it holds every other
node and every edge once. What is proved of compiled graphs further on starts from `Graph.Spans`.
-/

namespace PatternQuery

/-- The number of levels. -/
def Forest.height {α : Type} : Forest α → Nat
  | nil => 0
  | cons _ below rest => max (below.height + 1) rest.height

theorem Forest.height_le_size {α : Type} (f : Forest α) : f.height ≤ f.size := by
  induction f with
  | nil => exact le_rfl
  | cons a below rest ihb ihr =>
    simp only [height, size]
    omega

namespace Graph

variable {g : Graph} {d : Bool}

/-- What a walk along an edge meets. -/
def visit (g : Graph) (d : Bool) (e : Edge) : Visit Stem := ⟨e.source, g.stem d e⟩

theorem mem_outgoing_iff {e : Edge} {u : String} :
    e ∈ g.outgoing u ↔ e ∈ g.edges ∧ e.source = u := by
  simp [outgoing, List.mem_filter]

/-! ### Forests that hang below edges -/

/-- **The forest that hangs below edges,** to any depth: one tree for every edge, and below its root
what hangs below the edges that leave it. -/
inductive Hangs (g : Graph) (d : Bool) : List Edge → Forest Stem → Prop
  | nil : Hangs g d [] .nil
  | cons {e : Edge} {es : List Edge} {below rest : Forest Stem} :
    Hangs g d (g.outgoing e.target) below → Hangs g d es rest →
      Hangs g d (e :: es) (.cons (g.stem d e) below rest)

namespace Hangs

variable {es : List Edge} {f : Forest Stem}

theorem unique {f' : Forest Stem} (h : g.Hangs d es f) (h' : g.Hangs d es f') : f = f' := by
  induction h generalizing f' with
  | nil => cases h'; rfl
  | cons _ _ ihb ihr =>
    cases h' with
    | cons hb hr => rw [ihb hb, ihr hr]

theorem target_mem (h : g.Hangs d es f) {e : Edge} (he : e ∈ es) :
    e.target ∈ f.names (·.node) := by
  induction h with
  | nil => simp at he
  | cons _ _ _ ihr =>
    rcases List.mem_cons.mp he with rfl | he
    · simp [stem]
    · simp [ihr he]

/-- The names are closed under edges. -/
theorem arrow_mem (h : g.Hangs d es f) {u v : String} (hu : u ∈ f.names (·.node))
    (huv : g.Arrow u v) : v ∈ f.names (·.node) := by
  induction h with
  | nil => simp at hu
  | @cons e es below rest hb _ ihb ihr =>
    simp only [Forest.names_cons, List.mem_cons, List.mem_append] at hu ⊢
    rcases hu with rfl | hu | hu
    · obtain ⟨e', he', hs, rfl⟩ := huv
      exact .inr (.inl (hb.target_mem (mem_outgoing_iff.mpr ⟨he', hs⟩)))
    · exact .inr (.inl (ihb hu))
    · exact .inr (.inr (ihr hu))

/-- **The visits of a forest** that hangs below edges are these edges and all that leave its
nodes. -/
theorem visits_perm (h : g.Hangs d es f) {p : String} (hp : ∀ e ∈ es, e.source = p) :
    (f.visits (·.node) p).Perm
      ((es ++ (f.names (·.node)).flatMap g.outgoing).map (g.visit d)) := by
  induction h generalizing p with
  | nil => rfl
  | @cons e es below rest _ _ ihb ihr =>
    have ihb := ihb (p := e.target) fun e' he' => (mem_outgoing_iff.mp he').2
    have ihr := ihr (p := p) fun e' he' => hp e' (List.mem_cons_of_mem _ he')
    have hvisit : (⟨p, g.stem d e⟩ : Visit Stem) = g.visit d e := by
      rw [visit, hp e List.mem_cons_self]
    simp only [Forest.visits, Forest.names_cons, List.flatMap_cons, List.flatMap_append, hvisit,
      List.cons_append, List.map_cons]
    refine ((ihb.append ihr).trans ?_).cons _
    rw [← List.map_append]
    refine List.Perm.map _ ?_
    have := List.perm_append_comm_assoc
      (g.outgoing e.target ++ (below.names (·.node)).flatMap g.outgoing) es
      ((rest.names (·.node)).flatMap g.outgoing)
    simpa only [stem, List.append_assoc] using this

end Hangs

theorem hangs_gather {k : Nat} {es : List Edge}
    (hk : ∀ v, (g.grow d k v).height < k → g.Hangs d (g.outgoing v) (g.grow d k v))
    (h : (g.gather d (g.grow d k) es).height ≤ k) : g.Hangs d es (g.gather d (g.grow d k) es) := by
  induction es with
  | nil => exact .nil
  | cons e es ih =>
    simp only [gather, Forest.height] at h ⊢
    exact .cons (hk e.target (by omega)) (ih (by omega))

/-- **Depth to spare means that nothing has been cut off.** -/
theorem hangs_grow {k : Nat} {v : String} (h : (g.grow d k v).height < k) :
    g.Hangs d (g.outgoing v) (g.grow d k v) := by
  induction k generalizing v with
  | zero => omega
  | succ k ih => exact hangs_gather (fun v => ih) (Nat.le_of_lt_succ h)

/-! ### Names in a grown forest -/

theorem names_gather (below : String → Forest Stem) (es : List Edge) :
    (g.gather d below es).names (·.node) =
      es.flatMap fun e => e.target :: (below e.target).names (·.node) := by
  induction es with
  | nil => rfl
  | cons e es ih => simp [gather, stem, ih]

theorem names_grow_succ (k : Nat) (v : String) :
    (g.grow d (k + 1) v).names (·.node) =
      (g.outgoing v).flatMap fun e => e.target :: (g.grow d k e.target).names (·.node) :=
  names_gather _ _

/-- What has grown below a node is reached from it. -/
theorem transGen_of_mem_names_grow {k : Nat} {u v : String}
    (h : u ∈ (g.grow d k v).names (·.node)) : Relation.TransGen g.Arrow v u := by
  induction k generalizing v with
  | zero => simp [grow] at h
  | succ k ih =>
    rw [names_grow_succ] at h
    obtain ⟨e, he, hu⟩ := List.mem_flatMap.mp h
    obtain ⟨hedge, rfl⟩ := mem_outgoing_iff.mp he
    have harrow : g.Arrow e.source e.target := ⟨e, hedge, rfl, rfl⟩
    rcases List.mem_cons.mp hu with rfl | hu
    · exact .single harrow
    · exact .head harrow (ih hu)

/-- With at most one edge to every node, an edge is the only one to its target. -/
theorem count_target_outgoing (ht : (g.edges.map (·.target)).Nodup) {e : Edge} (he : e ∈ g.edges)
    (v : String) :
    ((g.outgoing v).map (·.target)).count e.target = if v = e.source then 1 else 0 := by
  split_ifs with hv
  · have hmem : e ∈ g.outgoing v := mem_outgoing_iff.mpr ⟨he, hv.symm⟩
    refine List.count_eq_one_of_mem (ht.sublist ?_) (List.mem_map_of_mem hmem)
    exact List.filter_sublist.map _
  · refine List.count_eq_zero.mpr fun hmem => hv ?_
    obtain ⟨e', he', htarget⟩ := List.mem_map.mp hmem
    obtain ⟨hedge, rfl⟩ := mem_outgoing_iff.mp he'
    rw [List.inj_on_of_nodup_map ht hedge he htarget]

/-- **A node occurs one level down as often as its parent.** -/
theorem count_names_grow (ht : (g.edges.map (·.target)).Nodup) {e : Edge} (he : e ∈ g.edges)
    (k : Nat) (v : String) :
    ((g.grow d (k + 1) v).names (·.node)).count e.target =
      (v :: (g.grow d k v).names (·.node)).count e.source := by
  -- The names one level down are the targets of the edges that leave `v`, and what is below them.
  have hsplit (k : Nat) (v : String) :
      ((g.grow d (k + 1) v).names (·.node)).count e.target =
        (if v = e.source then 1 else 0) +
          ((g.outgoing v).flatMap fun e' =>
            (g.grow d k e'.target).names (·.node)).count e.target := by
    rw [names_grow_succ, ← (List.map_append_flatMap_perm _ _ _).count_eq, List.count_append,
      count_target_outgoing ht he]
  induction k generalizing v with
  | zero =>
    have hnil : ((g.outgoing v).flatMap fun e' => (g.grow d 0 e'.target).names (·.node)) = [] :=
      List.flatMap_eq_nil_iff.mpr fun _ _ => rfl
    rw [hsplit, hnil]
    simp [grow, List.count_cons]
  | succ k ih =>
    have hbelow : ((g.outgoing v).flatMap fun e' =>
          (g.grow d (k + 1) e'.target).names (·.node)).count e.target =
        ((g.grow d (k + 1) v).names (·.node)).count e.source := by
      rw [names_grow_succ, List.count_flatMap, List.count_flatMap]
      congr 1
      exact List.map_congr_left fun e' _ => ih e'.target
    rw [hsplit, hbelow, List.count_cons, Nat.add_comm]
    simp

namespace Rooted

variable {root : Node}

/-- Below the root no name occurs twice, and the root not at all. -/
theorem nodup_names_grow (h : g.Rooted root) (k : Nat) :
    (root.id :: (g.grow d k root.id).names (·.node)).Nodup := by
  rw [List.nodup_iff_count_le_one]
  induction k with
  | zero =>
    intro u
    simp only [grow, Forest.names_nil, List.count_cons, List.count_nil]
    split_ifs <;> omega
  | succ k ih =>
    intro u
    by_cases hu : ∃ e ∈ g.edges, e.target = u
    · obtain ⟨e, he, rfl⟩ := hu
      rw [List.count_cons_of_ne (h.target_ne_root he).symm, count_names_grow h.nodup_targets he]
      exact ih e.source
    · have hnot : u ∉ (g.grow d (k + 1) root.id).names (·.node) := fun hmem => by
        obtain ⟨w, -, e, he, -, ht⟩ :=
          (Relation.TransGen.tail'_iff).mp (transGen_of_mem_names_grow hmem)
        exact hu ⟨e, he, ht⟩
      rw [List.count_cons, List.count_eq_zero.mpr hnot]
      split_ifs <;> omega

theorem names_grow_subset (h : g.Rooted root) (k : Nat) :
    root.id :: (g.grow d k root.id).names (·.node) ⊆ g.ids := by
  intro u hu
  rcases List.mem_cons.mp hu with rfl | hu
  · exact List.mem_map_of_mem h.root_mem
  · obtain ⟨w, -, e, he, -, rfl⟩ :=
      (Relation.TransGen.tail'_iff).mp (transGen_of_mem_names_grow hu)
    exact h.target_mem e he

/-- There are fewer levels below the root than there are nodes. -/
theorem height_below_lt (h : g.Rooted root) : (g.below d root).height < g.nodes.length := by
  have hle := (h.nodup_names_grow (d := d) g.nodes.length).length_le_of_subset
    (h.names_grow_subset g.nodes.length)
  rw [List.length_cons, Forest.names, List.length_map, Forest.length_labels, ids,
    List.length_map] at hle
  exact lt_of_le_of_lt (Forest.height_le_size _) hle

/-- **The depth is enough:** what is grown below the root is all that hangs there. -/
theorem hangs_below (h : g.Rooted root) :
    g.Hangs d (g.outgoing root.id) (g.below d root) :=
  hangs_grow h.height_below_lt

/-- The names in the grown tree are the ids that the root reaches. -/
theorem mem_names_below_iff (h : g.Rooted root) {u : String} :
    u ∈ root.id :: (g.below d root).names (·.node) ↔ g.Reaches root.id u := by
  constructor
  · intro hu
    rcases List.mem_cons.mp hu with rfl | hu
    · exact .refl
    · exact (transGen_of_mem_names_grow hu).to_reflTransGen
  · intro hu
    induction hu with
    | refl => exact List.mem_cons_self
    | tail _ harrow ih =>
      refine List.mem_cons_of_mem _ ?_
      rcases List.mem_cons.mp ih with rfl | ih
      · obtain ⟨e, he, hs, rfl⟩ := harrow
        exact h.hangs_below.target_mem (mem_outgoing_iff.mpr ⟨he, hs⟩)
      · exact h.hangs_below.arrow_mem ih harrow

end Rooted

/-! ### The order of the walk -/

theorem visits_perm_visits (root : Node) (f : Forest Stem) :
    (visits root f).Perm (f.visits (·.node) root.id) :=
  walk_singleton_perm root.id f

theorem visitOrder_perm (root : Node) (f : Forest Stem) :
    (visitOrder root f).Perm (root.id :: f.names (·.node)) := by
  refine List.Perm.cons _ (((visits_perm_visits root f).map _).trans ?_)
  rw [Forest.names, ← Forest.map_label_visits (·.node) root.id f, List.map_map]
  rfl

theorem node_mem_visitOrder {root : Node} {f : Forest Stem} {v : Visit Stem}
    (h : v ∈ visits root f) : v.label.node ∈ visitOrder root f :=
  List.mem_cons_of_mem _ (List.mem_map_of_mem h)

theorem parent_mem_visitOrder {root : Node} {f : Forest Stem} {v : Visit Stem}
    (h : v ∈ visits root f) : v.parent ∈ visitOrder root f := by
  rw [(visitOrder_perm root f).mem_iff]
  exact Forest.parent_mem_of_mem_visits ((visits_perm_visits root f).mem_iff.mp h)

/-! ### Spanning forests -/

/-- The forest below the root holds every other node and every edge once. -/
structure Spans (g : Graph) (d : Bool) (root : Node) (f : Forest Stem) : Prop where
  root_mem : root ∈ g.nodes
  nodup_ids : g.ids.Nodup
  names_perm : (root.id :: f.names (·.node)).Perm g.ids
  visits_perm : (f.visits (·.node) root.id).Perm (g.edges.map (g.visit d))

/-- **The tree below the root spans the graph** if the root reaches every node. -/
theorem Rooted.spans_below {root : Node} (h : g.Rooted root)
    (hreach : ∀ u ∈ g.ids, g.Reaches root.id u) : g.Spans d root (g.below d root) := by
  have hnames : (root.id :: (g.below d root).names (·.node)).Perm g.ids := by
    refine (List.perm_ext_iff_of_nodup (h.nodup_names_grow _) h.nodup_ids).mpr fun u => ?_
    exact ⟨fun hu => h.names_grow_subset _ hu, fun hu => h.mem_names_below_iff.mpr (hreach u hu)⟩
  refine ⟨h.root_mem, h.nodup_ids, hnames, ?_⟩
  refine (h.hangs_below.visits_perm fun e he => (mem_outgoing_iff.mp he).2).trans (.map _ ?_)
  -- Every edge leaves one of the nodes, and is found there.
  change ((root.id :: (g.below d root).names (·.node)).flatMap g.outgoing).Perm g.edges
  refine (hnames.flatMap_right g.outgoing).trans ?_
  exact flatMap_filter_perm_self h.nodup_ids h.source_mem

theorem Spans.canonical {root : Node} {f : Forest Stem} (h : g.Spans d root f)
    (cmp : Stem → Stem → Ordering) : g.Spans d root (f.canonical cmp) :=
  ⟨h.root_mem, h.nodup_ids,
    ((((Forest.labels_canonical f).map _).cons _).trans h.names_perm),
    (Forest.visits_canonical _ f).trans h.visits_perm⟩

end Graph

end PatternQuery
