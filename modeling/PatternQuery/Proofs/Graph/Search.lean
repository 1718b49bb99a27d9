import PatternQuery.Proofs.Forest.Search
import PatternQuery.Proofs.Graph.Subtree

/-!
# The nodes that are found from the root

A graph that passes the checks and has one root may still have cycles, which the root does not
reach. Nodes are found by walks over forests here (`Graph.visitOrder`), first in the order of drawing
and then with every row sorted. Both walks are breadth-first searches along the edges that do not note
where they have been (`searches_of_root`): such a search from the root ends, and finds what the root
reaches, nothing twice, and every node behind its parent (`Graph.Traverses`). From a node that reaches
a cycle it would not end (`not_searches_of_reaches`).

The first search follows what hangs below the root, which is finite (`Hangs.follows`). The second
follows rows in which the children stand in another order, and the order does not matter for what is
found.
-/

namespace PatternQuery.Graph

variable {g : Graph} {d : Bool} {root : Node} {f : Forest Stem} {order : List String} {u : String}

/-! ### Children -/

/-- The children of a node, in the order of drawing. -/
def children (g : Graph) (u : String) : List String := (g.outgoing u).map (·.target)

/-- The children of a node in the order of its row, when the nodes in `order` are finished from the
last to the first. -/
def sortedChildren (g : Graph) (d : Bool) (order : List String) (u : String) : List String :=
  (((g.finished d (order.dropWhile (· != u))).lookup u).getD .nil).rootNames (·.node)

theorem mem_children_iff {v : String} : v ∈ g.children u ↔ g.Arrow u v := by
  simp only [children, List.mem_map, mem_outgoing_iff, Arrow, and_assoc]

/-- **A search that comes upon a cycle never ends.** -/
theorem not_searches_of_reaches {w : String} (hreach : g.Reaches u w) (hcycle : g.OnCycle w) :
    ¬ Searches g.children [u] order := by
  have harrow : (fun v w => w ∈ g.children v) = g.Arrow := by
    funext v w
    exact propext mem_children_iff
  refine not_searches_of_cycle (List.mem_singleton_self u) (v := w) ?_ ?_
  · rwa [harrow]
  · rwa [harrow]

/-- What is left of an order from a node on. -/
theorem exists_dropWhile_eq (hu : u ∈ order) : ∃ before after, order = before ++ u :: after ∧
    order.dropWhile (· != u) = u :: after := by
  induction order with
  | nil => exact absurd hu List.not_mem_nil
  | cons w order ih =>
    by_cases hw : w = u
    · subst hw
      exact ⟨[], order, rfl, List.dropWhile_cons_of_neg (by simp)⟩
    · obtain ⟨before, after, horder, hdrop⟩ := ih ((List.mem_cons.mp hu).resolve_left (Ne.symm hw))
      refine ⟨w :: before, after, by rw [horder, List.cons_append], ?_⟩
      rw [List.dropWhile_cons_of_pos (by simpa using hw), hdrop]

theorem rootNames_collect (es : List Edge) (table : Finished) :
    ((g.collect d es).run table).1.rootNames (·.node) = es.map (·.target) := by
  induction es generalizing table with
  | nil => rfl
  | cons e es ih =>
    change e.target :: ((g.collect d es).run _).1.rootNames (·.node) = _
    rw [ih, List.map_cons]

/-- The row that a node has just been finished with. -/
theorem lookup_finished_cons (u : String) (after : List String) :
    (g.finished d (u :: after)).lookup u =
      some (((g.collect d (g.outgoing u)).run (g.finished d after)).1.sortBy Stem.compare) :=
  List.lookup_cons_self

/-- **A node is finished with a row of its children,** whatever the table has held for them. -/
theorem Finishes.rootNames_perm (h : g.Finishes d order u f) :
    (f.rootNames (·.node)).Perm (g.children u) := by
  obtain ⟨before, after, -, hlookup⟩ := h
  obtain rfl := Option.some.inj ((lookup_finished_cons u after).symm.trans hlookup)
  rw [children, ← rootNames_collect (g := g) (d := d) _ (g.finished d after), Forest.rootNames,
    Forest.trees_sortBy]
  exact (List.perm_insertionSort _ _).map _

/-- The sorted children are the roots of the row that a node is finished with. -/
theorem exists_finishes_sortedChildren (hu : u ∈ order) :
    ∃ f, g.Finishes d order u f ∧ g.sortedChildren d order u = f.rootNames (·.node) := by
  obtain ⟨before, after, horder, hdrop⟩ := exists_dropWhile_eq hu
  refine ⟨_, ⟨before, after, horder, lookup_finished_cons u after⟩, ?_⟩
  rw [sortedChildren, hdrop, lookup_finished_cons, Option.getD_some]

theorem sortedChildren_perm (hu : u ∈ order) : (g.sortedChildren d order u).Perm (g.children u) := by
  obtain ⟨f, hf, hsorted⟩ := exists_finishes_sortedChildren (g := g) (d := d) hu
  rw [hsorted]
  exact hf.rootNames_perm

/-! ### Walks are searches -/

theorem searches_visitOrder {children : String → List String} (hf : f.Follows (·.node) children)
    (hroot : f.rootNames (·.node) = children root.id) :
    Searches children [root.id] (visitOrder root f) := by
  have hqueue : ∀ entry ∈ [(root.id, f)], entry.2.Follows (·.node) children := fun entry hentry => by
    obtain rfl := List.mem_singleton.mp hentry
    exact hf
  have hwalk := searches_walk hqueue
  rw [List.flatMap_cons, List.flatMap_nil, List.append_nil, hroot] at hwalk
  exact .cons hwalk

namespace Hangs

variable {es : List Edge}

theorem rootNames_eq (h : g.Hangs d es f) : f.rootNames (·.node) = es.map (·.target) := by
  induction h with
  | nil => rfl
  | cons _ _ _ ihr => rw [Forest.rootNames_cons, ihr, List.map_cons, stem]

/-- **What hangs below edges** goes on with the children of every node. -/
theorem follows (h : g.Hangs d es f) : f.Follows (·.node) g.children := by
  induction h with
  | nil => trivial
  | cons hbelow _ ihb ihr => exact ⟨hbelow.rootNames_eq, ihb, ihr⟩

/-- Sorted, it goes on with the roots of the sorted rows. -/
theorem follows_canonical (h : g.Hangs d es f) {children : String → List String}
    (hchildren : ∀ u ∈ f.names (·.node), ∀ t, g.Hangs d (g.outgoing u) t →
      children u = (t.canonical Stem.compare).rootNames (·.node)) :
    (f.canonical Stem.compare).Follows (·.node) children := by
  induction h with
  | nil => trivial
  | @cons e es below rest hbelow _ ihb ihr =>
    rw [Forest.canonical, Forest.follows_insertBy]
    simp only [Forest.names_cons, List.mem_cons, List.mem_append] at hchildren
    exact ⟨(hchildren e.target (.inl rfl) below hbelow).symm,
      ihb fun u hu => hchildren u (.inr (.inl hu)), ihr fun u hu => hchildren u (.inr (.inr hu))⟩

end Hangs

/-! ### Searches from the root -/

/-- **What a search from the root is to find,** and in which order. -/
structure Traverses (g : Graph) (root : Node) (order : List String) : Prop where
  /-- No node is found twice. -/
  nodup : order.Nodup
  /-- What is found is what the root reaches. -/
  mem_iff : ∀ u, u ∈ order ↔ g.Reaches root.id u
  /-- A node is found behind its parent. -/
  source_before : ∀ before u after, order = before ++ u :: after →
    ∀ e ∈ g.edges, e.target = u → e.source ∈ before
  /-- All nodes are found iff the graph has no cycle. -/
  length_eq_iff : order.length = g.nodes.length ↔ ¬ g.HasCycle

namespace Rooted

variable (h : g.Rooted root)
include h

/-- The root reaches every node iff there is no cycle. -/
theorem reaches_iff_not_hasCycle : (∀ u ∈ g.ids, g.Reaches root.id u) ↔ ¬ g.HasCycle := by
  constructor
  · rintro hreach ⟨u, hu⟩
    exact h.not_onCycle hreach u hu
  · intro hcycle u hu
    by_contra hnot
    exact hcycle (h.hasCycle_of_not_reached ⟨u, hu, hnot⟩)

/-- **A search from the root that lists what the walk lists,** in whatever order the children come. -/
theorem traverses {children : String → List String} (hsearch : Searches children [root.id] order)
    (hchildren : ∀ u ∈ order, (children u).Perm (g.children u))
    (hperm : order.Perm (visitOrder root (g.below d root))) : g.Traverses root order := by
  have hnames : order.Perm (root.id :: (g.below d root).names (·.node)) :=
    hperm.trans (visitOrder_perm root _)
  have hnodup : order.Nodup := hnames.nodup_iff.mpr (h.nodup_names_grow _)
  have hmem (u : String) : u ∈ order ↔ g.Reaches root.id u := hnames.mem_iff.trans h.mem_names_below_iff
  have hsubset : order ⊆ g.ids := fun u hu => h.names_grow_subset _ (hnames.mem_iff.mp hu)
  refine ⟨hnodup, hmem, fun before u after horder e he htarget => ?_, ?_⟩
  · -- The search came to `u` from a parent that it had listed, and `u` has only one parent.
    obtain hu | ⟨p, hp, hu⟩ := hsearch.mem_or_exists_parent horder
    · exact absurd (htarget.trans (List.mem_singleton.mp hu)) (h.target_ne_root he)
    · have hporder : p ∈ order := by
        rw [horder]
        exact List.mem_append_left _ hp
      obtain ⟨e', he', hsource, htarget'⟩ := mem_children_iff.mp ((hchildren p hporder).mem_iff.mp hu)
      rwa [← h.eq_of_target_eq he he' (htarget'.trans htarget.symm), hsource]
  · rw [← h.reaches_iff_not_hasCycle]
    have hlength : g.ids.length = g.nodes.length := List.length_map _
    constructor
    · intro heq u hu
      have hids : order.Perm g.ids :=
        (hnodup.subperm hsubset).perm_of_length_le (by rw [hlength, heq])
      exact (hmem u).mp (hids.mem_iff.mpr hu)
    · intro hreach
      have hids : order.Perm g.ids := (List.perm_ext_iff_of_nodup hnodup h.nodup_ids).mpr fun u =>
        ⟨fun hu => hsubset hu, fun hu => (hmem u).mpr (hreach u hu)⟩
      rw [hids.length_eq, hlength]

/-- **The first walk is a search:** the depth of the forest cuts nothing off. -/
theorem searches_children : Searches g.children [root.id] (visitOrder root (g.below d root)) :=
  searches_visitOrder h.hangs_below.follows h.hangs_below.rootNames_eq

/-- **The second walk is a search** along the sorted rows. -/
theorem searches_sortedChildren (hreach : ∀ u ∈ g.ids, g.Reaches root.id u) :
    Searches (g.sortedChildren d (visitOrder root (g.below d root))) [root.id]
      (visitOrder root (g.sorted d root (g.below d root))) := by
  have hrow {u : String} (hu : u ∈ g.ids) :
      g.sortedChildren d (visitOrder root (g.below d root)) u =
        ((g.hanging d u).canonical Stem.compare).rootNames (·.node) := by
    obtain ⟨f, hf, hsorted⟩ := exists_finishes_sortedChildren (g := g) (d := d)
      ((h.visitOrder_perm_ids hreach (d := d)).mem_iff.mpr hu)
    rw [hsorted, ((h.finishes_iff hreach).mp hf).2]
  rw [h.sorted_eq hreach]
  refine searches_visitOrder (h.hangs_below.follows_canonical fun u hu t ht => ?_)
    (hrow (List.mem_map_of_mem h.root_mem)).symm
  have huids : u ∈ g.ids := h.names_grow_subset _ (List.mem_cons_of_mem _ hu)
  rw [hrow huids, (h.hangs_hanging (hreach u huids)).unique ht]

end Rooted

/-- **The nodes of a graph with one root are found by searches that mark nothing.** From the root, the
search in the order of drawing ends, and so does the search along the sorted rows; both find what the
root reaches, each node once and behind its parent, and they find all nodes iff the graph has no cycle.
They list what the walks list when a graph is compiled; the second walk is made of graphs without
cycles only. -/
theorem searches_of_root (g : Graph) (d : Bool) {root : Node} (hroot : g.root = .ok root) :
    ∃ order order', Searches g.children [root.id] order ∧
      Searches (g.sortedChildren d order) [root.id] order' ∧
      g.Traverses root order ∧ g.Traverses root order' ∧ order'.Perm order ∧
      order = visitOrder root (g.below d root) ∧
      (¬ g.HasCycle → order' = visitOrder root (g.sorted d root (g.below d root))) := by
  have h := root_eq_ok_iff.mp hroot
  have hsearch := h.searches_children (d := d)
  obtain ⟨order', hsearch', hperm⟩ := hsearch.exists_of_perm (.refl _) fun u hu =>
    sortedChildren_perm (g := g) (d := d) hu
  have htraverses' := h.traverses hsearch'
    (fun u hu => sortedChildren_perm (hperm.mem_iff.mp hu)) hperm
  refine ⟨_, order', hsearch, hsearch', h.traverses hsearch (fun _ _ => .refl _) (.refl _),
    htraverses', hperm, rfl, fun hcycle => ?_⟩
  exact hsearch'.unique (h.searches_sortedChildren (h.reaches_iff_not_hasCycle.mpr hcycle))

/-- A root with two children, which are not drawn in canonical order, and a cycle of two nodes beside them. -/
def cycleBesideTree : Graph :=
  ⟨[⟨"r", "A", none, .origin, false⟩, ⟨"x", "C", none, .origin, false⟩,
    ⟨"y", "B", none, .origin, false⟩, ⟨"z", "D", none, .origin, false⟩,
    ⟨"a", "A", none, .origin, false⟩, ⟨"b", "A", none, .origin, false⟩],
    [⟨"r", "x", "s", none⟩, ⟨"r", "y", "s", none⟩, ⟨"x", "z", "s", none⟩,
      ⟨"a", "b", "s", none⟩, ⟨"b", "a", "s", none⟩]⟩

/-- Both searches from the root end without the nodes of the cycle, and the children change places. A
search from the cycle never ends. -/
theorem searches_cycleBesideTree :
    cycleBesideTree.root = .ok ⟨"r", "A", none, .origin, false⟩ ∧
      Searches cycleBesideTree.children ["r"] ["r", "x", "y", "z"] ∧
      Searches (cycleBesideTree.sortedChildren false ["r", "x", "y", "z"]) ["r"] ["r", "y", "x", "z"] ∧
      cycleBesideTree.Traverses ⟨"r", "A", none, .origin, false⟩ ["r", "x", "y", "z"] ∧
      cycleBesideTree.Traverses ⟨"r", "A", none, .origin, false⟩ ["r", "y", "x", "z"] ∧
      cycleBesideTree.HasCycle ∧ ¬ ∃ order, Searches cycleBesideTree.children ["a"] order := by
  have hroot : cycleBesideTree.root = .ok ⟨"r", "A", none, .origin, false⟩ := by cbv
  have hwalk : visitOrder ⟨"r", "A", none, .origin, false⟩
      (cycleBesideTree.below false ⟨"r", "A", none, .origin, false⟩) = ["r", "x", "y", "z"] := by cbv
  have hsecond : Searches (cycleBesideTree.sortedChildren false ["r", "x", "y", "z"]) ["r"]
      ["r", "y", "x", "z"] := .cons (.cons (.cons (.cons .nil)))
  have hcycle : cycleBesideTree.OnCycle "a" :=
    .tail (.single ⟨⟨"a", "b", "s", none⟩, by decide, rfl, rfl⟩)
      ⟨⟨"b", "a", "s", none⟩, by decide, rfl, rfl⟩
  obtain ⟨order, order', hsearch, hsearch', htraverses, htraverses', -, horder, -⟩ :=
    searches_of_root cycleBesideTree false hroot
  obtain rfl := horder.trans hwalk
  obtain rfl := hsearch'.unique hsecond
  refine ⟨hroot, hsearch, hsecond, htraverses, htraverses', ⟨"a", hcycle⟩, ?_⟩
  rintro ⟨order, horder⟩
  exact not_searches_of_reaches .refl hcycle horder

end PatternQuery.Graph
