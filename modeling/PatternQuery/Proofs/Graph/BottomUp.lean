import PatternQuery.Proofs.Graph.Growth

/-!
# Finishing nodes from the leaves upwards

`Graph.finished` goes through the nodes from the last to the first and keeps a table of sorted forests, from
which a node takes those of its children. Two facts about the order make this come out right: children
come behind their parents (`Rooted.idxOf_source_lt`), so they are finished before; and only one edge leads to
a node, so nobody else has taken its forest.

At every moment the table therefore holds the forests of the nodes that are finished and whose parents are
not, each in canonical order. This is the invariant, `Graph.Holds`. One node more keeps it
(`Rooted.holds_finish`), because a row of forests in canonical order is in canonical order once it is
sorted (`sortBy_gather`), and so does a run (`Rooted.holds_finished`). In the end the table holds the
forest below the root (`Rooted.sorted_eq`).
-/

namespace PatternQuery

/-! ### Positions on the walk -/

/-- A parent stands before its child. -/
theorem ParentsFirst.idxOf_lt {α : Type} {name : α → String} {known : List String} {vs : List (Visit α)}
    (h : ParentsFirst name known vs) (hnd : (known ++ vs.map (name ·.label)).Nodup) {v : Visit α}
    (hv : v ∈ vs) : (known ++ vs.map (name ·.label)).idxOf v.parent <
      (known ++ vs.map (name ·.label)).idxOf (name v.label) := by
  induction vs generalizing known with
  | nil => exact absurd hv List.not_mem_nil
  | cons w vs ih =>
    obtain ⟨hparent, hrest⟩ := h
    rw [List.map_cons, List.append_cons] at hnd ⊢
    obtain rfl | hv := List.mem_cons.mp hv
    · have hfresh : name v.label ∉ known := by
        intro hmem
        rw [List.nodup_append, List.nodup_append] at hnd
        exact hnd.1.2.2 _ hmem _ (List.mem_singleton_self _) rfl
      rw [List.append_assoc, List.idxOf_append_of_mem hparent, List.idxOf_append_of_notMem hfresh]
      have := List.idxOf_lt_length_of_mem hparent
      omega
    · exact ih hrest hnd hv

namespace Graph

variable {g : Graph} {d : Bool} {root : Node}

/-- What stands behind a member of a list without repetition is what has a later position. -/
theorem mem_after_of_idxOf_lt {before after : List String} {u v : String}
    (hnd : (before ++ u :: after).Nodup) (hv : v ∈ before ++ u :: after)
    (hlt : (before ++ u :: after).idxOf u < (before ++ u :: after).idxOf v) : v ∈ after := by
  have hu : u ∉ before := fun hmem => (List.nodup_append.mp hnd).2.2 _ hmem _ List.mem_cons_self rfl
  rw [List.idxOf_append_of_notMem hu, List.idxOf_cons_self, Nat.add_zero] at hlt
  obtain hv | hv := List.mem_append.mp hv
  · rw [List.idxOf_append_of_mem hv] at hlt
    have := List.idxOf_lt_length_of_mem hv
    omega
  · obtain rfl | hv := List.mem_cons.mp hv
    · rw [List.idxOf_append_of_notMem hu, List.idxOf_cons_self] at hlt
      omega
    · exact hv

/-! ### What hangs below every node -/

/-- What hangs below a node. -/
def hanging (g : Graph) (d : Bool) (u : String) : Forest Stem := g.grow d g.nodes.length u

namespace Hangs

variable {es : List Edge} {f : Forest Stem}

/-- Something hangs below every node of a forest, and it is less high than the forest. -/
theorem exists_hangs (h : g.Hangs d es f) {u : String} (hu : u ∈ f.names (·.node)) :
    ∃ t, g.Hangs d (g.outgoing u) t ∧ t.height < f.height := by
  induction h with
  | nil => exact absurd hu (by simp)
  | @cons e es below rest hbelow _ ihb ihr =>
    rw [Forest.names_cons, List.mem_cons, List.mem_append] at hu
    rw [Forest.height]
    obtain rfl | hu | hu := hu
    · exact ⟨below, hbelow, by omega⟩
    · obtain ⟨t, ht, hlt⟩ := ihb hu
      exact ⟨t, ht, by omega⟩
    · obtain ⟨t, ht, hlt⟩ := ihr hu
      exact ⟨t, ht, by omega⟩

/-- **Growing finds all that hangs below edges** if it goes deep enough. -/
theorem gather_grow_eq (h : g.Hangs d es f) {k : Nat} (hk : f.height ≤ k) :
    g.gather d (g.grow d k) es = f := by
  induction h generalizing k with
  | nil => rfl
  | @cons e es below rest _ _ ihb ihr =>
    rw [Forest.height] at hk
    obtain ⟨k, rfl⟩ : ∃ k', k = k' + 1 := Nat.exists_eq_succ_of_ne_zero (by omega)
    rw [gather, ihr (by omega), grow, ihb (by omega)]

/-- A row is gathered of what hangs below its edges. -/
theorem gather_eq (h : g.Hangs d es f) {F : String → Forest Stem}
    (hF : ∀ e ∈ es, g.Hangs d (g.outgoing e.target) (F e.target)) : g.gather d F es = f := by
  induction h with
  | nil => rfl
  | cons hbelow _ _ ihr =>
    rw [gather, (hF _ List.mem_cons_self).unique hbelow, ihr fun e he => hF e (List.mem_cons_of_mem _ he)]

end Hangs

namespace Rooted

variable (h : g.Rooted root)
include h

/-- **The depth is enough** below every node that the root reaches. -/
theorem hangs_hanging {u : String} (hu : g.Reaches root.id u) :
    g.Hangs d (g.outgoing u) (g.hanging d u) := by
  obtain rfl | hu := List.mem_cons.mp (h.mem_names_below_iff (d := d) |>.mpr hu)
  · exact h.hangs_below
  · obtain ⟨t, ht, hlt⟩ := h.hangs_below.exists_hangs hu
    have hheight := h.height_below_lt (d := d)
    obtain ⟨k, hk⟩ : ∃ k, g.nodes.length = k + 1 := Nat.exists_eq_succ_of_ne_zero (by omega)
    rwa [hanging, hk, grow, ht.gather_grow_eq (by omega)]

/-- What hangs below a node is gathered of what hangs below its children. -/
theorem gather_hanging {u : String} (hu : g.Reaches root.id u) :
    g.gather d (g.hanging d) (g.outgoing u) = g.hanging d u := by
  refine (h.hangs_hanging hu).gather_eq fun e he => h.hangs_hanging (hu.tail ?_)
  obtain ⟨he, hsource⟩ := mem_outgoing_iff.mp he
  exact ⟨e, he, hsource, rfl⟩

end Rooted

/-! ### One row -/

theorem gather_congr {F G : String → Forest Stem} {es : List Edge}
    (h : ∀ e ∈ es, F e.target = G e.target) : g.gather d F es = g.gather d G es := by
  induction es with
  | nil => rfl
  | cons e es ih =>
    rw [gather, gather, h e List.mem_cons_self, ih fun e' he' => h e' (List.mem_cons_of_mem _ he')]

/-- **A row of forests in canonical order** is in canonical order when it has been sorted. -/
theorem sortBy_gather (F : String → Forest Stem) (es : List Edge) :
    (g.gather d (fun u => (F u).canonical Stem.compare) es).sortBy Stem.compare =
      (g.gather d F es).canonical Stem.compare := by
  induction es with
  | nil => rfl
  | cons e es ih => rw [gather, gather, Forest.sortBy, Forest.canonical, ih]

/-- The row of a node is gathered of the forests that the table holds for its children. -/
theorem fst_collect {es : List Edge} (hes : (es.map (·.target)).Nodup) (table : Finished) :
    ((g.collect d es).run table).1 = g.gather d (fun u => (table.lookup u).getD .nil) es := by
  induction es generalizing table with
  | nil => rfl
  | cons e es ih =>
    obtain ⟨hfresh, hes⟩ := List.nodup_cons.mp hes
    change Forest.cons _ _ ((g.collect d es).run (table.filter (·.1 != e.target))).1 = _
    rw [ih hes, gather]
    congr 1
    -- The forest that was taken first is none of those that are taken later.
    refine gather_congr fun e' he' => ?_
    have hne : e'.target ≠ e.target := fun heq => hfresh (List.mem_map.mpr ⟨e', he', heq⟩)
    rw [lookup_filter_ne, beq_false_of_ne hne]
    rfl

/-- What is taken is gone, and everything else is still there. -/
theorem lookup_snd_collect (es : List Edge) (table : Finished) (u : String) :
    ((g.collect d es).run table).2.lookup u =
      if u ∈ es.map (·.target) then none else table.lookup u := by
  induction es generalizing table with
  | nil => rfl
  | cons e es ih =>
    change ((g.collect d es).run (table.filter (·.1 != e.target))).2.lookup u = _
    rw [ih, lookup_filter_ne]
    by_cases hu : u = e.target <;> simp [hu]

/-! ### The table -/

/-- **The table when some nodes are finished** holds the forests of those whose parents are not, each in
canonical order. -/
def Holds (g : Graph) (d : Bool) (done : List String) (table : Finished) : Prop :=
  ∀ u f, table.lookup u = some f ↔ u ∈ done ∧ (∀ e ∈ g.edges, e.target = u → e.source ∉ done) ∧
    f = (g.hanging d u).canonical Stem.compare

namespace Rooted

variable (h : g.Rooted root)
include h

/-- An edge is the only one that leads to its target. -/
theorem eq_of_target_eq {e e' : Edge} (he : e ∈ g.edges) (he' : e' ∈ g.edges)
    (htarget : e'.target = e.target) : e' = e :=
  List.inj_on_of_nodup_map h.nodup_targets he' he htarget

theorem nodup_targets_outgoing (u : String) : ((g.outgoing u).map (·.target)).Nodup :=
  h.nodup_targets.sublist (List.filter_sublist.map _)

variable (hreach : ∀ u ∈ g.ids, g.Reaches root.id u)
include hreach

theorem visitOrder_perm_ids : (visitOrder root (g.below d root)).Perm g.ids :=
  (visitOrder_perm root _).trans (h.spans_below hreach).names_perm

theorem nodup_visitOrder_below : (visitOrder root (g.below d root)).Nodup :=
  (h.visitOrder_perm_ids hreach).nodup_iff.mpr h.nodup_ids

/-- **A node comes before its children.** -/
theorem idxOf_source_lt {e : Edge} (he : e ∈ g.edges) :
    (visitOrder root (g.below d root)).idxOf e.source <
      (visitOrder root (g.below d root)).idxOf e.target := by
  have hvisit : g.visit d e ∈ visits root (g.below d root) := by
    rw [((visits_perm_visits root _).trans (h.spans_below hreach).visits_perm).mem_iff]
    exact List.mem_map_of_mem he
  have hparents : ParentsFirst (·.node) [root.id] (visits root (g.below d root)) :=
    parentsFirst_walk (by simp)
  exact hparents.idxOf_lt (h.nodup_visitOrder_below hreach (d := d)) hvisit

/-- So no path leads back. -/
theorem not_onCycle (u : String) : ¬ g.OnCycle u := by
  have hlt {v w : String} (hvw : Relation.TransGen g.Arrow v w) :
      (visitOrder root (g.below false root)).idxOf v < (visitOrder root (g.below false root)).idxOf w := by
    induction hvw with
    | single harrow =>
      obtain ⟨e, he, rfl, rfl⟩ := harrow
      exact h.idxOf_source_lt hreach he
    | tail _ harrow ih =>
      obtain ⟨e, he, rfl, rfl⟩ := harrow
      exact ih.trans (h.idxOf_source_lt hreach he)
  exact fun hcycle => lt_irrefl _ (hlt hcycle)

variable {before after : List String} {u : String}

theorem target_after (horder : visitOrder root (g.below d root) = before ++ u :: after) {e : Edge}
    (he : e ∈ g.outgoing u) : e.target ∈ after := by
  obtain ⟨hedge, rfl⟩ := mem_outgoing_iff.mp he
  have hnd := h.nodup_visitOrder_below hreach (d := d)
  have hlt := h.idxOf_source_lt hreach (d := d) hedge
  have hmem : e.target ∈ visitOrder root (g.below d root) :=
    (h.visitOrder_perm_ids hreach).mem_iff.mpr (h.target_mem e hedge)
  rw [horder] at hnd hmem hlt
  exact mem_after_of_idxOf_lt hnd hmem hlt

/-- No edge leads back to a node from one behind it. -/
theorem source_not_mem_after (horder : visitOrder root (g.below d root) = before ++ u :: after)
    {e : Edge} (he : e ∈ g.edges) (htarget : e.target = u) : e.source ∉ u :: after := by
  intro hsource
  have hnd := h.nodup_visitOrder_below hreach (d := d)
  obtain hsource | hsource := List.mem_cons.mp hsource
  · exact h.source_ne_target e he (hsource.trans htarget.symm)
  · obtain ⟨between, later, rfl⟩ := List.append_of_mem hsource
    rw [← List.cons_append, ← List.append_assoc] at horder
    have hlater := h.target_after hreach horder (mem_outgoing_iff.mpr ⟨he, rfl⟩)
    rw [horder, List.nodup_append] at hnd
    exact hnd.2.2 e.target (by simp [htarget]) e.target (List.mem_cons_of_mem _ hlater) rfl

theorem not_mem_after (horder : visitOrder root (g.below d root) = before ++ u :: after) : u ∉ after := by
  have hnd := h.nodup_visitOrder_below hreach (d := d)
  rw [horder, List.nodup_append, List.nodup_cons] at hnd
  exact hnd.2.1.1

/-- **When a node comes up, its children are in the table:** they are finished, and no other node has
taken them. -/
theorem lookup_target {table : Finished} (htable : g.Holds d after table)
    (horder : visitOrder root (g.below d root) = before ++ u :: after) {e : Edge} (he : e ∈ g.outgoing u) :
    table.lookup e.target = some ((g.hanging d e.target).canonical Stem.compare) := by
  obtain ⟨hedge, hsource⟩ := mem_outgoing_iff.mp he
  refine (htable _ _).mpr ⟨h.target_after hreach horder he, fun e' he' htarget => ?_, rfl⟩
  rw [h.eq_of_target_eq hedge he' htarget, hsource]
  exact h.not_mem_after hreach horder

/-- So the row of a node is in canonical order once it is sorted. -/
theorem sortBy_collect {table : Finished} (htable : g.Holds d after table)
    (horder : visitOrder root (g.below d root) = before ++ u :: after) :
    ((g.collect d (g.outgoing u)).run table).1.sortBy Stem.compare =
      (g.hanging d u).canonical Stem.compare := by
  have hu : u ∈ g.ids := (h.visitOrder_perm_ids hreach).mem_iff.mp (by rw [horder]; simp)
  rw [fst_collect (h.nodup_targets_outgoing u), ← h.gather_hanging (hreach u hu), ← sortBy_gather]
  congr 1
  refine gather_congr fun e he => ?_
  rw [h.lookup_target hreach htable horder he, Option.getD_some]

/-- **One node more:** it takes the forests of its children, and puts its own into the table. -/
theorem holds_finish {table : Finished} (htable : g.Holds d after table)
    (horder : visitOrder root (g.below d root) = before ++ u :: after) :
    g.Holds d (u :: after) ((g.finish d u).run table).2 := by
  intro v f
  change ((u, ((g.collect d (g.outgoing u)).run table).1.sortBy Stem.compare) ::
    ((g.collect d (g.outgoing u)).run table).2).lookup v = some f ↔ _
  rw [h.sortBy_collect hreach htable horder, List.lookup_cons]
  by_cases hv : v = u
  · subst hv
    have hsources : ∀ e ∈ g.edges, e.target = v → e.source ∉ v :: after := fun e he htarget =>
      h.source_not_mem_after hreach horder he htarget
    rw [beq_self_eq_true]
    dsimp only
    rw [Option.some.injEq, eq_comm]
    exact ⟨fun hf => ⟨List.mem_cons_self, hsources, hf⟩, fun hf => hf.2.2⟩
  · rw [beq_false_of_ne hv]
    dsimp only
    -- A node that was there stays, unless it is a child of the new one.
    rw [lookup_snd_collect]
    by_cases hchild : v ∈ (g.outgoing u).map (·.target)
    · obtain ⟨e, he, rfl⟩ := List.mem_map.mp hchild
      obtain ⟨he, hsource⟩ := mem_outgoing_iff.mp he
      rw [if_pos hchild]
      exact ⟨fun hf => absurd hf (by simp),
        fun hf => absurd (List.mem_cons.mpr (.inl hsource)) (hf.2.1 e he rfl)⟩
    · have hparent : ∀ e ∈ g.edges, e.target = v → e.source ≠ u := fun e he htarget hsource =>
        hchild (List.mem_map.mpr ⟨e, mem_outgoing_iff.mpr ⟨he, hsource⟩, htarget⟩)
      rw [if_neg hchild, htable v f]
      refine and_congr (by simp [hv]) (and_congr_left fun _ => forall₃_congr fun e he htarget => ?_)
      rw [List.mem_cons, not_or]
      exact ⟨fun hafter => ⟨hparent e he htarget, hafter⟩, And.right⟩

/-- **The table all along:** nodes are finished from the last to the first. -/
theorem holds_finished (horder : visitOrder root (g.below d root) = before ++ after) :
    g.Holds d after (g.finished d after) := by
  induction after generalizing before with
  | nil => simp [Holds, finished]
  | cons u after ih =>
    have hlater : visitOrder root (g.below d root) = (before ++ [u]) ++ after := by
      rw [horder, List.append_cons]
    exact h.holds_finish hreach (ih hlater) horder

/-- **In the end** the forest below the root is there, in canonical order. -/
theorem sorted_eq : g.sorted d root (g.below d root) = (g.below d root).canonical Stem.compare := by
  have hroot : (g.finished d (visitOrder root (g.below d root))).lookup root.id =
      some ((g.hanging d root.id).canonical Stem.compare) := by
    refine (h.holds_finished hreach (List.nil_append _).symm _ _).mpr ⟨List.mem_cons_self, ?_, rfl⟩
    exact fun e he htarget => absurd htarget (h.target_ne_root he)
  rw [sorted, hroot, Option.getD_some]
  rfl

end Rooted

end Graph

end PatternQuery
