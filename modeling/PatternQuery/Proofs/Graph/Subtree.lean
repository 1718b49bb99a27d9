import PatternQuery.Proofs.Graph.CanonicalForm

/-!
# Shapes of subtrees

The nodes that a node reaches, with the edges that leave them, are a graph of their own
(`Graph.subtree`). In a rooted tree it is one as well, with the node as its root
(`IsRootedTree.subtree`), and what hangs below its root is what hangs below the node in the whole
(`hangs_of_hangs_subtree`). So what is known of graphs that compile is known of all their subtrees: two
nodes of one schema have the same shape below them iff their subtrees are isomorphic
(`shape_hanging_eq_iff`).

Nodes are finished from the leaves upwards, and the shape of a node is what the table holds for it when it
has just been finished (`Graph.Finishes`). `leavesFirst_of_compile` says what becomes of these shapes:
they are there when the parent comes up, it takes each of them once, and they tell subtrees apart.
-/

namespace PatternQuery.Graph

variable {g : Graph} {d : Bool} {root n m : Node} {u w : String}

/-! ### Subtrees -/

open Classical in
/-- **The subtree below a node:** the nodes that it reaches, and the edges that leave them. -/
noncomputable def subtree (g : Graph) (u : String) : Graph :=
  ⟨g.nodes.filter fun n => g.Reaches u n.id, g.edges.filter fun e => g.Reaches u e.source⟩

theorem mem_nodes_subtree_iff : n ∈ (g.subtree u).nodes ↔ n ∈ g.nodes ∧ g.Reaches u n.id := by
  simp [subtree]

theorem mem_edges_subtree_iff {e : Edge} :
    e ∈ (g.subtree u).edges ↔ e ∈ g.edges ∧ g.Reaches u e.source := by
  simp [subtree]

theorem mem_ids_subtree_iff : w ∈ (g.subtree u).ids ↔ w ∈ g.ids ∧ g.Reaches u w := by
  constructor
  · intro hw
    obtain ⟨n, hn, rfl⟩ := List.mem_map.mp hw
    obtain ⟨hn, hreach⟩ := mem_nodes_subtree_iff.mp hn
    exact ⟨List.mem_map_of_mem hn, hreach⟩
  · rintro ⟨hw, hreach⟩
    obtain ⟨n, hn, rfl⟩ := List.mem_map.mp hw
    exact List.mem_map_of_mem (mem_nodes_subtree_iff.mpr ⟨hn, hreach⟩)

/-- Paths from the node are paths of its subtree. -/
theorem reaches_subtree (h : g.Reaches u w) : (g.subtree u).Reaches u w := by
  induction h with
  | refl => exact .refl
  | tail hreach harrow ih =>
    obtain ⟨e, he, rfl, rfl⟩ := harrow
    exact ih.tail ⟨e, mem_edges_subtree_iff.mpr ⟨he, hreach⟩, rfl, rfl⟩

/-- No edge of the subtree leads back to its root, because that would close a cycle. -/
theorem IsRootedTree.target_ne_of_mem_subtree (h : g.IsRootedTree) {e : Edge}
    (he : e ∈ (g.subtree u).edges) : e.target ≠ u := by
  rintro rfl
  obtain ⟨root, hroot, hreach⟩ := isRootedTree_iff.mp h
  obtain ⟨he, hsource⟩ := mem_edges_subtree_iff.mp he
  exact hroot.not_onCycle hreach _ (Relation.TransGen.tail' hsource ⟨e, he, rfl, rfl⟩)

/-- **A subtree of a rooted tree** is a rooted tree. -/
theorem IsRootedTree.subtree (h : g.IsRootedTree) (hu : u ∈ g.ids) : (g.subtree u).IsRootedTree := by
  have huids : u ∈ (g.subtree u).ids := mem_ids_subtree_iff.mpr ⟨hu, .refl⟩
  refine ⟨?_, h.nodup_ids.sublist (List.filter_sublist.map _),
    fun n hn => h.schema_named n (mem_nodes_subtree_iff.mp hn).1,
    fun e he => h.relation_named e (mem_edges_subtree_iff.mp he).1, fun e he side => ?_,
    fun e he => h.source_ne_target e (mem_edges_subtree_iff.mp he).1,
    h.nodup_targets.sublist (List.filter_sublist.map _), u, huids, fun w hw => ?_,
    fun w hw => reaches_subtree (mem_ids_subtree_iff.mp hw).2⟩
  · obtain ⟨n, hn, -⟩ := List.mem_map.mp huids
    exact List.ne_nil_of_mem hn
  · obtain ⟨he, hsource⟩ := mem_edges_subtree_iff.mp he
    refine mem_ids_subtree_iff.mpr ⟨h.end_mem e he side, ?_⟩
    cases side with
    | source => exact hsource
    | target => exact hsource.tail ⟨e, he, rfl, rfl⟩
  · constructor
    · intro hnone
      -- The last edge of a path to another node would be an edge of the subtree.
      obtain heq | ⟨v, hv, e, he, rfl, rfl⟩ :=
        Relation.ReflTransGen.cases_tail (mem_ids_subtree_iff.mp hw).2
      · exact heq
      · exact absurd rfl (hnone e (mem_edges_subtree_iff.mpr ⟨he, hv⟩))
    · rintro rfl e he
      exact h.target_ne_of_mem_subtree he

/-- The root of the subtree is the node below which it hangs. -/
theorem IsRootedTree.rooted_subtree (h : g.IsRootedTree) (hn : n ∈ g.nodes) : (g.subtree n.id).Rooted n ∧
    ∀ w ∈ (g.subtree n.id).ids, (g.subtree n.id).Reaches n.id w := by
  have hsubtree := h.subtree (List.mem_map_of_mem hn)
  obtain ⟨root, hroot, hreach⟩ := isRootedTree_iff.mp hsubtree
  have hnids : n.id ∈ (g.subtree n.id).ids := mem_ids_subtree_iff.mpr ⟨List.mem_map_of_mem hn, .refl⟩
  have hid : n.id = root.id := by
    by_contra hne
    obtain ⟨e, he, htarget⟩ := hroot.exists_edge hnids hne
    exact h.target_ne_of_mem_subtree he htarget
  obtain rfl : n = root :=
    List.inj_on_of_nodup_map h.nodup_ids hn (mem_nodes_subtree_iff.mp hroot.root_mem).1 hid
  exact ⟨hroot, hreach⟩

/-! ### What hangs below the root of a subtree -/

theorem outgoing_subtree (h : g.Reaches u w) : (g.subtree u).outgoing w = g.outgoing w := by
  rw [outgoing, outgoing, subtree, List.filter_filter]
  refine List.filter_congr fun e _ => ?_
  by_cases he : e.source = w
  · simp [he, h]
  · simp [he]

theorem IsRootedTree.schemaOf_subtree (h : g.IsRootedTree) (hw : w ∈ (g.subtree u).ids) :
    (g.subtree u).schemaOf w = g.schemaOf w := by
  obtain ⟨n, hn, rfl⟩ := List.mem_map.mp hw
  have hnd : (g.subtree u).ids.Nodup := h.nodup_ids.sublist (List.filter_sublist.map _)
  rw [schemaOf_id hnd hn, schemaOf_id h.nodup_ids (mem_nodes_subtree_iff.mp hn).1]

/-- **What hangs below edges of a subtree** hangs below them in the whole. -/
theorem Hangs.of_subtree {es : List Edge} {f : Forest Stem} (h : (g.subtree u).Hangs d es f)
    (hg : g.IsRootedTree) (hes : ∀ e ∈ es, e ∈ g.edges ∧ g.Reaches u e.source) : g.Hangs d es f := by
  induction h with
  | nil => exact .nil
  | @cons e es below rest _ _ ihb ihr =>
    obtain ⟨he, hsource⟩ := hes e List.mem_cons_self
    have htarget : g.Reaches u e.target := hsource.tail ⟨e, he, rfl, rfl⟩
    have hids : e.target ∈ (g.subtree u).ids := mem_ids_subtree_iff.mpr ⟨hg.end_mem e he .target, htarget⟩
    have hstem : (g.subtree u).stem d e = g.stem d e := by rw [stem, stem, hg.schemaOf_subtree hids]
    rw [outgoing_subtree htarget] at ihb
    rw [hstem]
    refine .cons (ihb fun e' he' => ?_) (ihr fun e' he' => hes e' (List.mem_cons_of_mem _ he'))
    obtain ⟨he', hsource'⟩ := mem_outgoing_iff.mp he'
    exact ⟨he', hsource' ▸ htarget⟩

theorem IsRootedTree.below_subtree (h : g.IsRootedTree) (hn : n ∈ g.nodes) :
    (g.subtree n.id).below d n = g.hanging d n.id := by
  obtain ⟨root, hroot, hreach⟩ := isRootedTree_iff.mp h
  have hbelow := (h.rooted_subtree hn).1.hangs_below (d := d)
  rw [outgoing_subtree .refl] at hbelow
  refine (hbelow.of_subtree h fun e he => ?_).unique
    (hroot.hangs_hanging (hreach n.id (List.mem_map_of_mem hn)))
  obtain ⟨he, hsource⟩ := mem_outgoing_iff.mp he
  exact ⟨he, hsource ▸ .refl⟩

/-! ### Shapes -/

/-- **Equal shapes mean isomorphic subtrees.** -/
theorem IsRootedTree.shape_hanging_eq_iff (h : g.IsRootedTree) (hn : n ∈ g.nodes) (hm : m ∈ g.nodes)
    (hschema : n.schema = m.schema) : shape (g.hanging d n.id) = shape (g.hanging d m.id) ↔
      ∃ φ, φ n.id = m.id ∧ (g.subtree n.id).Iso d (g.subtree m.id) d φ := by
  obtain ⟨hroot, hreach⟩ := h.rooted_subtree hn
  obtain ⟨hroot', hreach'⟩ := h.rooted_subtree hm
  rw [← h.below_subtree hn, ← h.below_subtree hm]
  constructor
  · intro hshape
    -- The subtrees compile, and trees of one shape are compiled into the same hops.
    have hcompile := compile_eq_ok_iff (d := d).mpr ⟨n, hroot, hreach, rfl⟩
    have hcompile' := compile_eq_ok_iff (d := d).mpr ⟨m, hroot', hreach', rfl⟩
    obtain ⟨φ, hiso⟩ := exists_iso_of_hops_eq hcompile hcompile'
      (hops_eq_of_map_branch_eq ((hroot'.spans_below hreach').canonical Stem.compare).nodup_visitOrder
        ((hroot.spans_below hreach).canonical Stem.compare).nodup_visitOrder hschema
        (by rw [map_branch_canonical, map_branch_canonical, hshape]))
    exact ⟨φ, (hiso.root_id hroot hroot').symm, hiso⟩
  · rintro ⟨φ, -, hiso⟩
    exact hiso.shape_below hroot hreach hroot'

/-! ### The loop -/

/-- **The forest that the loop finishes a node with:** it is in the table when the node and those behind it
have been finished. Without the ids, it is the shape of the node. -/
def Finishes (g : Graph) (d : Bool) (order : List String) (u : String) (f : Forest Stem) : Prop :=
  ∃ before after, order = before ++ u :: after ∧ (g.finished d (u :: after)).lookup u = some f

/-- **What becomes of the forests when nodes are finished from the last to the first.** -/
structure LeavesFirst (g : Graph) (d : Bool) (root : Node) (order : List String) : Prop where
  /-- Every node comes up once, and is finished with a forest. -/
  order_perm : order.Perm g.ids
  exists_finishes : ∀ u ∈ g.ids, ∃ f, g.Finishes d order u f
  /-- Two nodes of one schema have the same shape iff their subtrees are isomorphic. -/
  shape_eq_iff : ∀ n ∈ g.nodes, ∀ m ∈ g.nodes, n.schema = m.schema → ∀ f f',
    g.Finishes d order n.id f → g.Finishes d order m.id f' →
      (f.map (·.branch) = f'.map (·.branch) ↔
        ∃ φ, φ n.id = m.id ∧ (g.subtree n.id).Iso d (g.subtree m.id) d φ)
  /-- When a node comes up, the table holds for every child the forest that the child was finished with,
  and the row of the node is made of these. -/
  children_final : ∀ before u after, order = before ++ u :: after → ∃ F : String → Forest Stem,
    (∀ e ∈ g.outgoing u, g.Finishes d order e.target (F e.target) ∧
      (g.finished d after).lookup e.target = some (F e.target)) ∧
    ((g.collect d (g.outgoing u)).run (g.finished d after)).1 = g.gather d F (g.outgoing u)
  /-- What a node has taken is gone, for good. -/
  children_gone : ∀ earlier later u after, order = earlier ++ (later ++ u :: after) →
    ∀ e ∈ g.outgoing u, (g.finished d (later ++ u :: after)).lookup e.target = none
  /-- Of all nodes together, every node but the root is taken once. -/
  taken_once : ∀ u ∈ g.ids, (order.flatMap fun v => (g.outgoing v).map (·.target)).count u =
    if u = root.id then 0 else 1

section Loop

variable (h : g.Rooted root) (hreach : ∀ u ∈ g.ids, g.Reaches root.id u) {f : Forest Stem}
include h hreach

/-- **A node is finished with all that hangs below it,** in canonical order. -/
theorem Rooted.finishes_iff : g.Finishes d (visitOrder root (g.below d root)) u f ↔
    u ∈ g.ids ∧ f = (g.hanging d u).canonical Stem.compare := by
  have hlookup {before after : List String}
      (horder : visitOrder root (g.below d root) = before ++ u :: after) :
      (g.finished d (u :: after)).lookup u = some f ↔ f = (g.hanging d u).canonical Stem.compare := by
    rw [h.holds_finished hreach horder u f]
    exact ⟨fun hf => hf.2.2, fun hf => ⟨List.mem_cons_self,
      fun e he htarget => h.source_not_mem_after hreach horder he htarget, hf⟩⟩
  have hmem : u ∈ visitOrder root (g.below d root) ↔ u ∈ g.ids :=
    (h.visitOrder_perm_ids hreach).mem_iff
  constructor
  · rintro ⟨before, after, horder, hf⟩
    exact ⟨hmem.mp (by rw [horder]; simp), (hlookup horder).mp hf⟩
  · rintro ⟨hu, hf⟩
    obtain ⟨before, after, horder⟩ := List.append_of_mem (hmem.mpr hu)
    exact ⟨before, after, horder, (hlookup horder).mpr hf⟩

/-- All nodes together take the targets of all edges. -/
theorem Rooted.taken_perm : ((visitOrder root (g.below d root)).flatMap fun v =>
    (g.outgoing v).map (·.target)).Perm (g.edges.map (·.target)) := by
  have houtgoing : ((visitOrder root (g.below d root)).flatMap g.outgoing).Perm g.edges :=
    ((h.visitOrder_perm_ids hreach).flatMap_right g.outgoing).trans
      (flatMap_filter_perm_self h.nodup_ids h.source_mem)
  rw [← List.map_flatMap]
  exact houtgoing.map _

theorem Rooted.leavesFirst : g.LeavesFirst d root (visitOrder root (g.below d root)) := by
  have htree := isRootedTree_iff.mpr ⟨root, h, hreach⟩
  refine ⟨h.visitOrder_perm_ids hreach, fun u hu => ⟨_, (h.finishes_iff hreach).mpr ⟨hu, rfl⟩⟩,
    fun n hn m hm hschema f f' hf hf' => ?_, fun before u after horder => ?_,
    fun earlier later u after horder e he => ?_, fun u hu => ?_⟩
  · obtain ⟨-, rfl⟩ := (h.finishes_iff hreach).mp hf
    obtain ⟨-, rfl⟩ := (h.finishes_iff hreach).mp hf'
    rw [map_branch_canonical, map_branch_canonical]
    exact htree.shape_hanging_eq_iff hn hm hschema
  · have hlater : visitOrder root (g.below d root) = (before ++ [u]) ++ after := by
      rw [horder, List.append_cons]
    have htable := h.holds_finished hreach hlater
    have hlookup {e : Edge} (he : e ∈ g.outgoing u) :=
      h.lookup_target hreach htable horder he
    refine ⟨fun v => (g.hanging d v).canonical Stem.compare, fun e he => ⟨?_, hlookup he⟩, ?_⟩
    · have hedge := (mem_outgoing_iff.mp he).1
      exact (h.finishes_iff hreach).mpr ⟨h.target_mem e hedge, rfl⟩
    · rw [fst_collect (h.nodup_targets_outgoing u)]
      refine gather_congr fun e he => ?_
      rw [hlookup he, Option.getD_some]
  · -- The parent is finished, so the table does not hold the child.
    obtain ⟨hedge, hsource⟩ := mem_outgoing_iff.mp he
    refine Option.eq_none_iff_forall_not_mem.mpr fun f hf => ?_
    obtain ⟨-, hparent, -⟩ := (h.holds_finished hreach horder e.target f).mp hf
    exact hparent e hedge rfl (by simp [hsource])
  · rw [(h.taken_perm hreach).count_eq]
    split_ifs with hroot
    · refine List.count_eq_zero.mpr fun hmem => ?_
      obtain ⟨e, he, htarget⟩ := List.mem_map.mp hmem
      exact h.target_ne_root he (htarget.trans hroot)
    · obtain ⟨e, he, rfl⟩ := h.exists_edge hu hroot
      exact List.count_eq_one_of_mem h.nodup_targets (List.mem_map_of_mem he)

end Loop

/-- **Equal shapes mean isomorphic subtrees,** and the loop that computes the shapes goes from the leaves
upwards: when a node comes up, the shapes of its children are final, and each of them is taken once. -/
theorem leavesFirst_of_compile (g : Graph) (d : Bool) {c : Compiled} (hc : g.compile d = .ok c) :
    ∃ root, g.root = .ok root ∧ c = .ofTree root (g.sorted d root (g.below d root)) ∧
      g.LeavesFirst d root (visitOrder root (g.below d root)) := by
  obtain ⟨root, hroot, hreach, rfl⟩ := compile_eq_ok_iff.mp hc
  exact ⟨root, root_eq_ok_iff.mpr hroot, by rw [hroot.sorted_eq hreach], hroot.leavesFirst hreach⟩

/-- Three nodes of schema `B` below a root. Two of them have a child, behind an edge that is optional or
leaves this open. -/
def cousins : Graph :=
  ⟨[⟨"a", "A", none, .origin, false⟩, ⟨"x", "B", none, .origin, false⟩,
    ⟨"y", "B", none, .origin, false⟩, ⟨"z", "B", none, .origin, false⟩,
    ⟨"v", "C", none, .origin, false⟩, ⟨"w", "C", none, .origin, false⟩],
    [⟨"a", "x", "r", none⟩, ⟨"a", "y", "r", none⟩, ⟨"a", "z", "r", none⟩,
      ⟨"x", "v", "s", none⟩, ⟨"z", "w", "s", some true⟩]⟩

/-- By default `true`, the two edges that lead to the children are of one kind, so `x` and `z` have the same
shape, and `y` has another. -/
theorem leavesFirst_cousins : (∃ c, cousins.compile true = .ok c) ∧
    (∃ φ, φ "x" = "z" ∧ (cousins.subtree "x").Iso true (cousins.subtree "z") true φ) ∧
    ¬ ∃ φ, φ "x" = "y" ∧ (cousins.subtree "x").Iso true (cousins.subtree "y") true φ := by
  have hcompile : ∃ c, cousins.compile true = .ok c := ⟨_, by cbv⟩
  obtain ⟨c, hc⟩ := hcompile
  obtain ⟨root, hroot, -, hloop⟩ := leavesFirst_of_compile cousins true hc
  have ha : cousins.root = .ok ⟨"a", "A", none, .origin, false⟩ := by cbv
  obtain rfl := Except.ok.inj (hroot.symm.trans ha)
  have horder : visitOrder ⟨"a", "A", none, .origin, false⟩
      (cousins.below true ⟨"a", "A", none, .origin, false⟩) = ["a", "x", "y", "z", "v", "w"] := by cbv
  rw [horder] at hloop
  -- The forests that the three are finished with.
  have hx : cousins.Finishes true ["a", "x", "y", "z", "v", "w"] "x"
      (.cons ⟨"v", "C", "s", true⟩ .nil .nil) := ⟨["a"], ["y", "z", "v", "w"], rfl, by cbv⟩
  have hy : cousins.Finishes true ["a", "x", "y", "z", "v", "w"] "y" .nil :=
    ⟨["a", "x"], ["z", "v", "w"], rfl, by cbv⟩
  have hz : cousins.Finishes true ["a", "x", "y", "z", "v", "w"] "z"
      (.cons ⟨"w", "C", "s", true⟩ .nil .nil) := ⟨["a", "x", "y"], ["v", "w"], rfl, by cbv⟩
  have hxmem : ⟨"x", "B", none, .origin, false⟩ ∈ cousins.nodes := .tail _ (.head _)
  have hymem : ⟨"y", "B", none, .origin, false⟩ ∈ cousins.nodes := .tail _ (.tail _ (.head _))
  have hzmem : ⟨"z", "B", none, .origin, false⟩ ∈ cousins.nodes := .tail _ (.tail _ (.tail _ (.head _)))
  refine ⟨⟨c, hc⟩, (hloop.shape_eq_iff _ hxmem _ hzmem rfl _ _ hx hz).mp rfl, fun hiso => ?_⟩
  have hshape := (hloop.shape_eq_iff _ hxmem _ hymem rfl _ _ hx hy).mpr hiso
  exact absurd hshape (by decide)

end PatternQuery.Graph
