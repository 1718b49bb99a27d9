import PatternQuery.Proofs.Graph.BottomUp

/-!
# Which graphs compile

A graph compiles exactly if it is a rooted tree, and an error that is reported instead holds of the
graph (`compile_decides_isRootedTree`). Cycles are never searched for. They follow from what was
counted: with one root and at most one edge to every node, the nodes that the root does not reach
all have an edge leading to them from another such node, and that cannot go on forever.
-/

namespace PatternQuery.Graph

variable {g : Graph} {d : Bool} {root : Node} {f : Forest Stem}

theorem checkReach_eq_ok_iff :
    checkReach g root f = .ok () ↔ ∀ u ∈ g.ids, u ∈ root.id :: f.names (·.node) := by
  have hreached (u : String) : (visitOrder root f).contains u = true ↔
      u ∈ root.id :: f.names (·.node) := by
    rw [List.contains_iff_mem]
    exact (visitOrder_perm root f).mem_iff
  unfold checkReach
  dsimp only
  split
  · next stray hfind =>
    have hmem := List.mem_of_find?_eq_some hfind
    have hnot := List.find?_some hfind
    simp only [Bool.not_eq_true', Bool.eq_false_iff, ne_eq, hreached] at hnot
    constructor
    · intro h; exact absurd h (by simp)
    · intro h; exact absurd (h stray.id (List.mem_map_of_mem hmem)) hnot
  · next hfind =>
    rw [List.find?_eq_none] at hfind
    refine iff_of_true rfl fun u hu => ?_
    obtain ⟨n, hn, rfl⟩ := List.mem_map.mp hu
    have := hfind n hn
    simpa only [Bool.not_eq_true', Bool.not_eq_false, hreached] using this

/-- A failed search for strays names one. -/
theorem exists_stray_of_checkReach {x : GraphError} (h : checkReach g root f = .error x) :
    ∃ u ∈ g.ids, u ∉ root.id :: f.names (·.node) ∧ x = .cycle u := by
  unfold checkReach at h
  dsimp only at h
  split at h
  · next stray hfind =>
    obtain rfl := Except.error.inj h
    have hmem := List.mem_of_find?_eq_some hfind
    have hnot := List.find?_some hfind
    refine ⟨stray.id, List.mem_map_of_mem hmem, fun hreached => ?_, rfl⟩
    rw [Bool.not_eq_true', ← Bool.not_eq_true, List.contains_iff_mem] at hnot
    exact hnot ((visitOrder_perm root f).mem_iff.mpr hreached)
  · exact absurd h (by simp)

/-- Going backwards from a node that is not reached, one meets only nodes that are not reached, and
never the root. -/
theorem Rooted.exists_arrow_of_not_reached (h : g.Rooted root) {v : String} (hv : v ∈ g.ids)
    (hnot : ¬ g.Reaches root.id v) : ∃ u ∈ g.ids, ¬ g.Reaches root.id u ∧ g.Arrow u v := by
  have hroot : v ≠ root.id := by
    rintro rfl
    exact hnot .refl
  obtain ⟨e, he, rfl⟩ := h.exists_edge hv hroot
  have harrow : g.Arrow e.source e.target := ⟨e, he, rfl, rfl⟩
  exact ⟨e.source, h.source_mem e he, fun hr => hnot (hr.tail harrow), harrow⟩

/-- **When the root does not reach every node there is a cycle.** -/
theorem Rooted.hasCycle_of_not_reached (h : g.Rooted root)
    (hstray : ∃ u ∈ g.ids, ¬ g.Reaches root.id u) : g.HasCycle := by
  classical
  obtain ⟨u, hu, hnot⟩ := hstray
  refine hasCycle_of_arrows (s := g.ids.filter fun u => ¬ g.Reaches root.id u)
    (List.ne_nil_of_mem (a := u) (by simp [hu, hnot])) fun v hv => ?_
  simp only [List.mem_filter, decide_eq_true_eq] at hv
  obtain ⟨w, hw, hwnot, harrow⟩ := h.exists_arrow_of_not_reached hv.1 hv.2
  exact ⟨w, by simp [hw, hwnot], harrow⟩

/-! ### Compiling -/

/-- **What compiling comes to:** the checks establish a root that reaches every node, and the tree
below it is put in order. -/
theorem compile_eq_ok_iff {c : Compiled} :
    g.compile d = .ok c ↔
      ∃ root, g.Rooted root ∧ (∀ u ∈ g.ids, g.Reaches root.id u) ∧
        c = .ofTree root ((g.below d root).canonical Stem.compare) := by
  simp only [compile, bind_eq_ok_iff]
  constructor
  · rintro ⟨root, hroot, ⟨⟩, hreach, hc⟩
    have hroot := root_eq_ok_iff.mp hroot
    have hreach : ∀ u ∈ g.ids, g.Reaches root.id u := fun u hu =>
      hroot.mem_names_below_iff.mp (checkReach_eq_ok_iff.mp hreach u hu)
    exact ⟨root, hroot, hreach, hroot.sorted_eq hreach ▸ (Except.ok.inj hc).symm⟩
  · rintro ⟨root, hroot, hreach, rfl⟩
    refine ⟨root, root_eq_ok_iff.mpr hroot, (), checkReach_eq_ok_iff.mpr fun u hu => ?_, ?_⟩
    · exact hroot.mem_names_below_iff.mpr (hreach u hu)
    · rw [hroot.sorted_eq hreach]
      rfl

/-- A rooted tree is a graph with a root, in the sense of the checks, that reaches every node. -/
theorem isRootedTree_iff :
    g.IsRootedTree ↔ ∃ root, g.Rooted root ∧ ∀ u ∈ g.ids, g.Reaches root.id u := by
  constructor
  · intro h
    obtain ⟨r, hr, hunique, hreach⟩ := h.exists_root
    obtain ⟨root, hroot, rfl⟩ := List.mem_map.mp hr
    have hroots : g.roots = [root] := by
      -- The roots have different ids, and each has the id of `root`.
      have hids : g.roots.map (·.id) = [root.id] := by
        rw [map_id_roots, ← List.perm_singleton]
        refine (List.perm_ext_iff_of_nodup (h.nodup_ids.filter _) (by simp)).mpr fun u => ?_
        simp only [List.mem_filter, decide_eq_true_eq, List.mem_singleton]
        exact ⟨fun hu => (hunique u hu.1).mp hu.2,
          fun hu => hu ▸ ⟨hr, (hunique root.id hr).mpr rfl⟩⟩
      obtain ⟨n, hn, hid⟩ := List.map_eq_singleton_iff.mp hids
      have hmem : n ∈ g.nodes := (mem_roots_iff.mp (hn ▸ List.mem_singleton_self n)).1
      rw [hn, List.inj_on_of_nodup_map h.nodup_ids hmem hroot hid]
    exact ⟨root, ⟨h.nodup_ids, fun n hn => Text.isBlank_eq_false_iff.mpr (h.schema_named n hn),
      fun e he => h.end_mem e he .source, fun e he => h.end_mem e he .target,
      fun e he => Text.isBlank_eq_false_iff.mpr (h.relation_named e he), h.source_ne_target,
      h.nodup_targets, hroots⟩, hreach⟩
  · rintro ⟨root, h, hreach⟩
    refine ⟨List.ne_nil_of_mem h.root_mem, h.nodup_ids,
      fun n hn => Text.isBlank_eq_false_iff.mp (h.schema_not_blank n hn),
      fun e he => Text.isBlank_eq_false_iff.mp (h.relation_not_blank e he), fun e he side => ?_,
      h.source_ne_target, h.nodup_targets,
      root.id, List.mem_map_of_mem h.root_mem, fun u hu => ?_, hreach⟩
    · cases side with
      | source => exact h.source_mem e he
      | target => exact h.target_mem e he
    · constructor
      · intro hnone
        by_contra hne
        obtain ⟨e, he, ht⟩ := h.exists_edge hu hne
        exact hnone e he ht
      · rintro rfl e he
        exact h.target_ne_root he

/-- An error that compiling ends with holds of the graph. -/
theorem holds_of_compile {x : GraphError} (h : g.compile d = .error x) : x.Holds g := by
  simp only [compile, bind_eq_error_iff] at h
  rcases h with h | ⟨root, hroot, h | ⟨_, _, h⟩⟩
  · exact holds_of_root h
  · have hroot := root_eq_ok_iff.mp hroot
    obtain ⟨u, hu, hnot, rfl⟩ := exists_stray_of_checkReach h
    refine hroot.hasCycle_of_not_reached ⟨u, hu, fun hr => hnot ?_⟩
    exact hroot.mem_names_below_iff.mpr hr
  · exact absurd h (by simp [pure, Except.pure])

theorem exists_compile_iff : (∃ c, g.compile d = .ok c) ↔ g.IsRootedTree := by
  rw [isRootedTree_iff]
  constructor
  · rintro ⟨c, hc⟩
    obtain ⟨root, hroot, hreach, -⟩ := compile_eq_ok_iff.mp hc
    exact ⟨root, hroot, hreach⟩
  · rintro ⟨root, hroot, hreach⟩
    exact ⟨_, compile_eq_ok_iff.mpr ⟨root, hroot, hreach, rfl⟩⟩

/-- **Compiling decides whether a graph is a rooted tree,** and when it is none the error says
something true of the graph. -/
theorem compile_decides_isRootedTree (g : Graph) (d : Bool) :
    ((∃ c, g.compile d = .ok c) ↔ g.IsRootedTree) ∧
      ∀ x, g.compile d = .error x → x.Holds g :=
  ⟨exists_compile_iff, fun _ hx => holds_of_compile hx⟩

/-- A cycle of two nodes beside a root, and a node that hangs below the cycle and is drawn first. -/
def cycleBesideRoot : Graph :=
  ⟨[⟨"x", "A", none, .origin, false⟩, ⟨"a", "A", none, .origin, false⟩,
    ⟨"b", "A", none, .origin, false⟩, ⟨"r", "A", none, .origin, false⟩],
    [⟨"a", "b", "s", none⟩, ⟨"b", "a", "s", none⟩, ⟨"b", "x", "s", none⟩]⟩

/-- The error names the node below the cycle, and there is a cycle. -/
theorem compile_decides_cycleBesideRoot :
    cycleBesideRoot.compile false = .error (.cycle "x") ∧ cycleBesideRoot.HasCycle ∧
      ¬ ∃ c, cycleBesideRoot.compile false = .ok c := by
  have herror : cycleBesideRoot.compile false = .error (.cycle "x") := by cbv
  refine ⟨herror, (compile_decides_isRootedTree cycleBesideRoot false).2 _ herror, ?_⟩
  rw [herror]
  simp

end PatternQuery.Graph
