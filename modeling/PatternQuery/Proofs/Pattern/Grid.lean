import Mathlib.Data.Nat.Count
import PatternQuery.Proofs.Pattern.Canvas
import PatternQuery.Proofs.Pattern.Depth

/-!
# The grid of a drawing

Exactly the patterns are drawn, and `Graph.OnGrid` says of the hops alone what their drawings are: a
node for every hop with its slot in a grid, and an edge for every edge hop, both in order. The column of
a node is its depth, and its row counts the earlier nodes of that depth (`Nat.count`), in whatever order
the hops go up and down the tree. So no two nodes share a slot, and no row of a column is left out
(`map_count_filter_range`).

What is drawn needs no check on the way: see `Pattern.drawUnchecked`.
-/

namespace PatternQuery

namespace Pattern

/-- **The edge drawn for the edge hop at a position** leads from the node of the earlier hop that
introduces the source. -/
def EdgeAt (p : Pattern) : Hop × Nat → Edge → Prop
  | (.root _, _), _ => False
  | (.edge source relation _ optional, i), e => ∃ j < i,
    (∃ hop, p[j]? = some hop ∧ hop.introduces.key = source.key) ∧
      e = ⟨Drawing.nodeId j, Drawing.nodeId i, relation, some optional⟩

end Pattern

/-- **A pattern drawn on a grid,** the hop at position `i` in column `depth i` and row `row i`. -/
structure Graph.OnGrid (g : Graph) (p : Pattern) (find : String → Option Schema) (layout : Layout)
    (depth row : Nat → Nat) : Prop where
  /-- A node for every hop, in order. A node whose schema is not found is a placeholder. -/
  nodes_eq : g.nodes = p.mapIdx fun i hop =>
    { id := Drawing.nodeId i
      schema := hop.introduces.schema
      label := some ((find hop.introduces.schema).elim hop.introduces.schema Schema.displayLabel)
      position := ⟨layout.origin.x + Float.ofNat (depth i) * layout.columnSpacing,
        layout.origin.y + Float.ofNat (row i) * layout.rowSpacing⟩
      placeholder := (find hop.introduces.schema).isNone }
  /-- An edge for every edge hop, in order. -/
  edges_drawn : List.Forall₂ p.EdgeAt (p.zipIdx.filter fun (hop, _) => !hop.isRoot) g.edges
  /-- The column is the number of edges from the root. -/
  depth_iff : ∀ i hop d, p[i]? = some hop → (p.AtDepth hop.introduces.key d ↔ d = depth i)
  /-- The row is the number of earlier hops of the same depth. -/
  row_eq : ∀ i < p.length, row i = Nat.count (depth · = depth i) i
  /-- No two nodes share a slot. -/
  slots_distinct : Set.InjOn (fun i => (depth i, row i)) {i | i < p.length}
  /-- The rows of a column are numbered from zero without a gap. -/
  rows_dense : ∀ d, ((List.range p.length).filter (depth · = d)).map row =
    List.range (Nat.count (depth · = d) p.length)

/-! ### Counting -/

/-- Counting what satisfies `q` numbers it without a gap. -/
theorem map_count_filter_range (q : Nat → Prop) [DecidablePred q] (n : Nat) :
    ((List.range n).filter fun i => q i).map (Nat.count q) = List.range (Nat.count q n) := by
  induction n with
  | zero => rfl
  | succ n ih =>
    rw [List.range_succ, List.filter_append, List.map_append, ih, Nat.count_succ]
    by_cases hq : q n
    · rw [if_pos hq, List.range_succ, List.filter_singleton, decide_eq_true hq]
      rfl
    · rw [if_neg hq, List.filter_singleton, decide_eq_false hq]
      exact List.append_nil _

/-- Counting in the front of a list is counting positions. -/
theorem countP_take_eq_count {α : Type} {l : List α} {f : α → Nat} {g : Nat → Nat}
    (hg : ∀ i (hi : i < l.length), g i = f l[i]) (d : Nat) {n : Nat} (hn : n ≤ l.length) :
    (l.take n).countP (f · == d) = Nat.count (g · = d) n := by
  induction n with
  | zero => rfl
  | succ n ih =>
    have hlt : n < l.length := hn
    rw [List.take_add_one, List.countP_append, ih hlt.le, Nat.count_succ, hg n hlt,
      List.getElem?_eq_getElem hlt, Option.toList_some, List.countP_singleton]
    simp only [beq_iff_eq]

/-- Two nodes of one depth are counted differently. -/
theorem count_injOn {depth row : Nat → Nat} {n : Nat}
    (hrow : ∀ i < n, row i = Nat.count (depth · = depth i) i) :
    Set.InjOn (fun i => (depth i, row i)) {i | i < n} := by
  intro i hi j hj heq
  obtain ⟨hdepth, hcount⟩ := Prod.mk.inj heq
  rw [hrow i hi, hrow j hj, hdepth] at hcount
  exact Nat.count_injective (p := (depth · = depth j)) hdepth rfl hcount

/-- The members that are kept and what becomes of them. -/
theorem forall₂_filter_filterMap {α β : Type} {R : α → β → Prop} {q : α → Bool} {f : α → Option β}
    {l : List α} (hnone : ∀ a ∈ l, q a = false → f a = none)
    (hsome : ∀ a ∈ l, q a = true → ∃ b, f a = some b ∧ R a b) :
    List.Forall₂ R (l.filter q) (l.filterMap f) := by
  induction l with
  | nil => exact .nil
  | cons a l ih =>
    have ih := ih (fun b hb => hnone b (List.mem_cons_of_mem _ hb))
      (fun b hb => hsome b (List.mem_cons_of_mem _ hb))
    cases hq : q a with
    | false =>
      rw [List.filter_cons_of_neg (by simp [hq]),
        List.filterMap_cons_none (hnone a List.mem_cons_self hq)]
      exact ih
    | true =>
      obtain ⟨b, hb, hR⟩ := hsome a List.mem_cons_self hq
      rw [List.filter_cons_of_pos hq, List.filterMap_cons_some hb]
      exact .cons hR ih

namespace Pattern

variable {p : Pattern} {placed : List Placement} {find : String → Option Schema} {layout : Layout}
  {g : Graph}

/-! ### Edges -/

/-- The hop at the position of a key introduces the key. -/
theorem exists_getElem?_idxOf {key : String} (h : key ∈ keys p) :
    ∃ hop, p[(keys p).idxOf key]? = some hop ∧ hop.introduces.key = key := by
  have hget : (keys p)[(keys p).idxOf key]? = some key := List.getElem?_idxOf h
  rw [keys, List.getElem?_map] at hget
  exact Option.map_eq_some_iff.mp hget

theorem edges_drawn_of_shows (h : g.Shows p) (hp : Linked p) :
    List.Forall₂ p.EdgeAt (p.zipIdx.filter fun (hop, _) => !hop.isRoot) g.edges := by
  rw [h.edges_eq, zipIdx_eq_map_idxOf_key hp.nodup_keys, List.filter_map,
    List.forall₂_map_left_iff]
  refine forall₂_filter_filterMap (fun hop _ hroot => ?_) fun hop hmem hroot => ?_
  · cases hop with
    | root o => rfl
    | edge => exact absurd hroot (by simp [Hop.isRoot])
  · cases hop with
    | root o => exact absurd hroot (by simp [Hop.isRoot])
    | edge source relation target optional =>
      exact ⟨_, rfl, (keys p).idxOf source.key, hp.idxOf_source_lt hmem,
        exists_getElem?_idxOf (hp.source_key_mem hmem), rfl⟩

/-! ### Depths and rows -/

/-- The depth noted at a position. -/
def depthAt (placed : List Placement) (i : Nat) : Nat := (placed[i]?.map (·.depth)).getD 0

theorem depthAt_eq {i : Nat} (hi : i < placed.length) : depthAt placed i = placed[i].depth := by
  rw [depthAt, List.getElem?_eq_getElem hi]
  rfl

/-- The row of what is placed at a position. -/
theorem row_take {i : Nat} (hi : i < placed.length) : Drawing.row (placed.take i) placed[i] =
    Nat.count (depthAt placed · = depthAt placed i) i := by
  rw [depthAt_eq hi]
  exact countP_take_eq_count (fun j hj => depthAt_eq hj) _ hi.le

theorem Places.getElem?_eq_some (h : Places p placed) {i : Nat} {hop : Hop} (hi : p[i]? = some hop) :
    ∃ q, placed[i]? = some q ∧ q.occurrence = hop.introduces := by
  have := congrArg (·[i]?) h.occurrences_eq
  simp only [List.getElem?_map, hi] at this
  exact Option.map_eq_some_iff.mp this

theorem Places.depth_iff (h : Places p placed)
    (hdepth : ∀ q ∈ placed, p.AtDepth q.occurrence.key q.depth) {i : Nat} {hop : Hop}
    (hi : p[i]? = some hop) (d : Nat) :
    p.AtDepth hop.introduces.key d ↔ d = depthAt placed i := by
  obtain ⟨q, hq, hocc⟩ := h.getElem?_eq_some hi
  have hqdepth := hdepth q (List.mem_of_getElem? hq)
  obtain ⟨hlt, rfl⟩ := List.getElem?_eq_some_iff.mp hq
  rw [depthAt_eq hlt, ← hocc]
  constructor
  · exact fun hd => hd.unique h.toLinked hqdepth
  · rintro rfl
    exact hqdepth

/-- **What the placements are drawn as stands on the grid.** -/
theorem Places.onGrid (h : Places p placed)
    (hdepth : ∀ q ∈ placed, p.AtDepth q.occurrence.key q.depth) (find : String → Option Schema)
    (layout : Layout) :
    (Drawing.ofPlacements find layout placed).OnGrid p find layout (depthAt placed)
      fun i => Nat.count (depthAt placed · = depthAt placed i) i where
  nodes_eq := by
    refine List.ext_getElem (by simp [Drawing.ofPlacements, h.length_eq]) fun i hi hi' => ?_
    have hi : i < placed.length := by simpa [Drawing.ofPlacements] using hi
    have hi' : i < p.length := by simpa using hi'
    have hocc : placed[i].occurrence = p[i].introduces := by
      obtain ⟨q, hq, hocc⟩ := h.getElem?_eq_some (List.getElem?_eq_getElem hi')
      rw [List.getElem?_eq_getElem hi] at hq
      exact Option.some.inj hq ▸ hocc
    simp only [Drawing.ofPlacements, List.getElem_mapIdx, Drawing.node, row_take hi, hocc,
      Layout.slot, depthAt_eq hi]
    cases find p[i].introduces.schema with
    | none => rfl
    | some s => rfl
  edges_drawn := edges_drawn_of_shows (h.shows find layout) h.toLinked
  depth_iff := fun _ _ d hi => h.depth_iff hdepth hi d
  row_eq := fun _ _ => rfl
  slots_distinct := count_injOn fun _ _ => rfl
  rows_dense := by
    intro d
    rw [← map_count_filter_range]
    refine List.map_congr_left fun i hi => ?_
    have hd : depthAt placed i = d := of_decide_eq_true (List.mem_filter.mp hi).2
    rw [hd]

theorem draw_eq_error_iff {e : PatternError} :
    p.draw find layout = .error e ↔ p.check = .error e := by
  unfold draw check
  cases p.place with
  | error e' =>
    change Except.error e' = .error e ↔ Except.error e' = .error e
    rw [Except.error.injEq, Except.error.injEq]
  | ok placed =>
    change Except.ok _ = .error e ↔ Except.ok () = .error e
    simp only [reduceCtorEq]

/-- **Exactly the patterns are drawn, each on its grid,** and drawing them misses no look-up. What is
no pattern is refused with the error of the check. -/
theorem draw_onGrid (p : Pattern) (find : String → Option Schema) (layout : Layout) :
    (∀ e, p.draw find layout = .error e ↔ p.check = .error e) ∧
    (p.check = .ok () ↔ ∃ g depth row, p.draw find layout = .ok g ∧
      p.drawUnchecked find layout = some g ∧ g.OnGrid p find layout depth row) := by
  refine ⟨fun e => draw_eq_error_iff, ?_, ?_⟩
  · intro hcheck
    obtain ⟨placed, hplace⟩ := exists_place_of_check hcheck
    have hgrid := (places_of_place hplace).onGrid (atDepth_of_place hplace) find layout
    refine ⟨_, _, _, ?_, drawUnchecked_of_place hplace find layout, hgrid⟩
    rw [draw, hplace]
    rfl
  · rintro ⟨g, depth, row, hdraw, -, -⟩
    exact check_of_draw hdraw

/-- Two branches, each drawn to its end before the next is begun. -/
def branchByBranch : Pattern :=
  [.root ⟨"A", none⟩,
    .edge ⟨"A", none⟩ "r" ⟨"B", none⟩ false, .edge ⟨"B", none⟩ "s" ⟨"C", none⟩ true,
    .edge ⟨"A", none⟩ "r" ⟨"B", some "B#2"⟩ false,
    .edge ⟨"B", some "B#2"⟩ "s" ⟨"C", some "C#2"⟩ true]

/-- The second branch goes back up before it goes down. -/
theorem draw_onGrid_branchByBranch : branchByBranch.check = .ok () ∧ ∃ g depth row,
    branchByBranch.draw (fun _ => none) .standard = .ok g ∧
    branchByBranch.drawUnchecked (fun _ => none) .standard = some g ∧
    g.OnGrid branchByBranch (fun _ => none) .standard depth row ∧ depth 3 = 1 := by
  have hcheck : branchByBranch.check = .ok () := by decide
  obtain ⟨g, depth, row, hdraw, hunchecked, hgrid⟩ :=
    (draw_onGrid branchByBranch (fun _ => none) .standard).2.mp hcheck
  refine ⟨hcheck, g, depth, row, hdraw, hunchecked, hgrid, ?_⟩
  have hdepth : branchByBranch.AtDepth "B#2" 1 :=
    @AtDepth.edge _ ⟨"A", none⟩ ⟨"B", some "B#2"⟩ "r" false 0 (by decide)
      (@AtDepth.root _ ⟨"A", none⟩ (by decide))
  exact ((hgrid.depth_iff 3 _ 1 rfl).mp hdepth).symm

end Pattern

end PatternQuery
