import PatternQuery.Proofs.Graph.Acceptance

/-!
# The node that a cycle error names

Three findings end in the error `cycle`: an edge that leads to where it starts, a graph in which
every node has an edge leading to it, and a node that the root does not reach. In the first case the
named node is on a cycle, and it is the only case for a graph with loops. In the other two, all that
is known is that going backwards from the named node one stays among finitely many nodes and never
stops. So a cycle leads to the node (`belowCycle_of_compile`), but the node may hang below it
(`not_onCycle_of_compile`). If no edge leads away from a cycle, the two come to the same.
-/

namespace PatternQuery.Graph

variable {g : Graph} {d : Bool} {u : String}

/-- **On a cycle or below one:** a path, which may be empty, leads to the node from a node on a
cycle. -/
def BelowCycle (g : Graph) (u : String) : Prop :=
  ∃ w, g.OnCycle w ∧ g.Reaches w u

theorem OnCycle.belowCycle (h : g.OnCycle u) : g.BelowCycle u := ⟨u, h, .refl⟩

/-- Nodes that all have an edge leading to them from among themselves are below cycles. -/
theorem belowCycle_of_arrows {s : List String} (h : ∀ v ∈ s, ∃ w ∈ s, g.Arrow w v) (hu : u ∈ s) :
    g.BelowCycle u := by
  classical
  -- The members of `s` that reach `u` still have all their predecessors in `s` among them.
  let t : List String := s.filter fun v => g.Reaches v u
  have hmem (v : String) : v ∈ t ↔ v ∈ s ∧ g.Reaches v u := by simp [t]
  have hne : t ≠ [] := List.ne_nil_of_mem ((hmem u).mpr ⟨hu, .refl⟩)
  have hback : ∀ v ∈ t, ∃ w ∈ t, g.Arrow w v := by
    intro v hv
    obtain ⟨hvs, hreach⟩ := (hmem v).mp hv
    obtain ⟨w, hw, harrow⟩ := h v hvs
    exact ⟨w, (hmem w).mpr ⟨hw, .head harrow hreach⟩, harrow⟩
  obtain ⟨w, hw, hcycle⟩ := exists_onCycle_of_arrows hne hback
  exact ⟨w, hcycle, ((hmem w).mp hw).2⟩

/-- Where no edge leads away from a cycle, what is below a cycle is on one. -/
theorem BelowCycle.onCycle (h : g.BelowCycle u)
    (hstay : ∀ e ∈ g.edges, g.OnCycle e.source → g.OnCycle e.target) : g.OnCycle u := by
  obtain ⟨w, hw, hreach⟩ := h
  induction hreach with
  | refl => exact hw
  | tail _ harrow ih =>
    obtain ⟨e, he, rfl, rfl⟩ := harrow
    exact hstay e he ih

/-! ### Where the error comes from -/

theorem checkNodes_ne_cycle (seen : List String) (nodes : List Node) :
    checkNodes seen nodes ≠ .error (.cycle u) := by
  induction nodes generalizing seen with
  | nil => simp [checkNodes]
  | cons n rest ih =>
    unfold checkNodes
    split_ifs
    · simp
    · simp
    · exact ih _

theorem loop_of_checkEdge {ids targets : List String} {index : Nat} {e : Edge}
    (h : checkEdge ids targets index e = .error (.cycle u)) : e.source = u ∧ e.target = u := by
  unfold checkEdge at h
  split_ifs at h with _ _ _ hloop <;> cases Except.error.inj h
  exact ⟨rfl, hloop.symm⟩

/-- No edge but a loop is taken for a cycle. -/
theorem exists_loop_of_checkEdges {ids targets : List String} {index : Nat} {edges : List Edge}
    (h : checkEdges ids targets index edges = .error (.cycle u)) :
    ∃ e ∈ edges, e.source = u ∧ e.target = u := by
  induction edges generalizing targets index with
  | nil => simp [checkEdges] at h
  | cons e rest ih =>
    rw [checkEdges, check_bind_eq_error_iff] at h
    rcases h with h | ⟨-, h⟩
    · exact ⟨e, List.mem_cons_self, loop_of_checkEdge h⟩
    · obtain ⟨e', he', hends⟩ := ih h
      exact ⟨e', List.mem_cons_of_mem _ he', hends⟩

/-- The error names a node with a loop, or there are no loops at all. -/
theorem loop_or_belowCycle_of_root (h : g.root = .error (.cycle u)) :
    (∃ e ∈ g.edges, e.source = u ∧ e.target = u) ∨
      (∀ e ∈ g.edges, e.source ≠ e.target) ∧ g.BelowCycle u := by
  unfold Graph.root at h
  cases hn : g.nodes with
  | nil =>
    rw [hn] at h
    exact absurd h (by simp)
  | cons first rest =>
    rw [hn] at h
    simp only [check_bind_eq_error_iff] at h
    rcases h with h | ⟨-, h | ⟨hedges, h⟩⟩
    · exact absurd h (checkNodes_ne_cycle _ _)
    · exact .inl (exists_loop_of_checkEdges h)
    · have hedges := (checkEdges_eq_ok_iff _ _ _ _).mp hedges
      split at h
      · next hr =>
        simp only [Except.error.injEq, GraphError.cycle.injEq] at h
        have hback := exists_arrow_of_roots_eq_nil (fun e he => (hedges.1 e he).1) hr
        refine .inr ⟨fun e he => (hedges.1 e he).2.2.2, ?_⟩
        exact belowCycle_of_arrows hback (by simp [ids, hn, h])
      · exact absurd h (by simp)
      · exact absurd h (by simp)

/-- A node that the root does not reach is on a cycle or below one. -/
theorem Rooted.belowCycle_of_not_reached {root : Node} (h : g.Rooted root) (hu : u ∈ g.ids)
    (hnot : ¬ g.Reaches root.id u) : g.BelowCycle u := by
  classical
  let strays : List String := g.ids.filter fun v => ¬ g.Reaches root.id v
  have hmem (v : String) : v ∈ strays ↔ v ∈ g.ids ∧ ¬ g.Reaches root.id v := by simp [strays]
  refine belowCycle_of_arrows (s := strays) (fun v hv => ?_) ((hmem u).mpr ⟨hu, hnot⟩)
  obtain ⟨hvids, hvnot⟩ := (hmem v).mp hv
  obtain ⟨w, hw, hwnot, harrow⟩ := h.exists_arrow_of_not_reached hvids hvnot
  exact ⟨w, (hmem w).mpr ⟨hw, hwnot⟩, harrow⟩

theorem loop_or_belowCycle_of_compile (h : g.compile d = .error (.cycle u)) :
    (∃ e ∈ g.edges, e.source = u ∧ e.target = u) ∨
      (∀ e ∈ g.edges, e.source ≠ e.target) ∧ g.BelowCycle u := by
  simp only [compile, bind_eq_error_iff] at h
  rcases h with h | ⟨root, hroot, h | ⟨_, _, h⟩⟩
  · exact loop_or_belowCycle_of_root h
  · have hroot := root_eq_ok_iff.mp hroot
    obtain ⟨w, hw, hnot, hname⟩ := exists_stray_of_checkReach h
    obtain rfl : u = w := GraphError.cycle.inj hname
    refine .inr ⟨hroot.source_ne_target, ?_⟩
    exact hroot.belowCycle_of_not_reached hw fun hr => hnot (hroot.mem_names_below_iff.mpr hr)
  · exact absurd h (by simp [pure, Except.pure])

/-- **The node named in a cycle error is on a cycle or below one.** It is on a cycle if the graph has
a loop, and if no edge leads away from a cycle. -/
theorem belowCycle_of_compile (h : g.compile d = .error (.cycle u)) :
    g.BelowCycle u ∧ ((∃ e ∈ g.edges, e.source = e.target) → g.OnCycle u) ∧
      ((∀ e ∈ g.edges, g.OnCycle e.source → g.OnCycle e.target) → g.OnCycle u) := by
  rcases loop_or_belowCycle_of_compile h with ⟨e, he, hs, ht⟩ | ⟨hnoloop, hbelow⟩
  · have hloop : g.OnCycle u := .single ⟨e, he, hs, ht⟩
    exact ⟨hloop.belowCycle, fun _ => hloop, fun _ => hloop⟩
  · refine ⟨hbelow, ?_, hbelow.onCycle⟩
    rintro ⟨e, he, heq⟩
    exact absurd heq (hnoloop e he)

/-- In `cycleBesideRoot` the cycle leads to `x`, the node that is named. -/
theorem belowCycle_cycleBesideRoot :
    cycleBesideRoot.compile false = .error (.cycle "x") ∧ cycleBesideRoot.BelowCycle "x" := by
  have herror : cycleBesideRoot.compile false = .error (.cycle "x") := by cbv
  exact ⟨herror, (belowCycle_of_compile herror).1⟩

/-- **The named node need not be on a cycle:** no edge of `cycleBesideRoot` leaves `x`. -/
theorem not_onCycle_of_compile :
    ¬ ∀ (g : Graph) (d : Bool) (u : String), g.compile d = .error (.cycle u) → g.OnCycle u := by
  intro hall
  have hcycle : cycleBesideRoot.OnCycle "x" := hall cycleBesideRoot false "x" (by cbv)
  obtain ⟨v, ⟨e, he, hs, -⟩, -⟩ := Relation.TransGen.head'_iff.mp hcycle
  have hsources : ∀ e ∈ cycleBesideRoot.edges, e.source ≠ "x" := by
    simp [cycleBesideRoot]
  exact hsources e he hs

end PatternQuery.Graph
