import Mathlib.Data.List.Nodup
import PatternQuery.Proofs.Fallible
import PatternQuery.Proofs.Graph.Tree

/-!
# The checks on nodes and edges

`Graph.Rooted` gathers what is known of a graph once `Graph.root` has found its root
(`root_eq_ok_iff`): everything a rooted tree needs, except that the root reaches every node.

If a check fails instead, its error holds of the graph (`holds_of_root`). The checks run through
lists with an accumulator, so the lemmas behind this speak of a list cut in two: the part that has
been looked at, which the accumulator remembers, and the rest.
-/

namespace PatternQuery

namespace Graph

variable {g : Graph}

/-! ### Nodes -/

theorem checkNodes_eq_ok_iff (seen : List String) (nodes : List Node) :
    checkNodes seen nodes = .ok () ↔
      (∀ n ∈ nodes, Text.isBlank n.schema = false) ∧ (nodes.map (·.id)).Nodup ∧
        ∀ n ∈ nodes, n.id ∉ seen := by
  induction nodes generalizing seen with
  | nil => simp [checkNodes]
  | cons n rest ih =>
    unfold checkNodes
    by_cases hb : Text.isBlank n.schema = true
    · rw [if_pos hb]
      simp [hb]
    · rw [if_neg hb]
      by_cases hs : n.id ∈ seen
      · rw [if_pos (List.contains_iff_mem.mpr hs)]
        simp [hs]
      · rw [if_neg (mt List.contains_iff_mem.mp hs), ih]
        simp only [Bool.not_eq_true] at hb
        simp only [List.mem_cons, not_or, forall_eq_or_imp, List.map_cons, List.nodup_cons,
          List.mem_map, not_exists, not_and, hb, hs]
        grind

theorem holds_of_checkNodes (done : List Node) {rest : List Node} {x : GraphError}
    (hg : g.nodes = done ++ rest)
    (h : checkNodes (done.map (·.id)).reverse rest = .error x) : x.Holds g := by
  induction rest generalizing done with
  | nil => simp [checkNodes] at h
  | cons n rest ih =>
    unfold checkNodes at h
    split_ifs at h with hb hs
    · obtain rfl := Except.error.inj h
      exact ⟨n, by simp [hg], rfl, hb⟩
    · obtain rfl := Except.error.inj h
      have hs : n.id ∈ done.map (·.id) := by simpa using hs
      change 2 ≤ g.ids.count n.id
      rw [ids, hg, List.map_append, List.map_cons, List.count_append, List.count_cons_self]
      have := List.count_pos_iff.mpr hs
      omega
    · refine ih (done ++ [n]) (by simp [hg]) ?_
      simpa using h

/-! ### Edges -/

theorem checkEdge_eq_ok_iff (ids targets : List String) (index : Nat) (e : Edge) :
    checkEdge ids targets index e = .ok () ↔
      (e.source ∈ ids ∧ e.target ∈ ids ∧ Text.isBlank e.relation = false ∧
        e.source ≠ e.target) ∧ e.target ∉ targets := by
  unfold checkEdge
  split_ifs with h₁ h₂ h₃ h₄ h₅ <;> simp_all

theorem checkEdges_eq_ok_iff (ids targets : List String) (index : Nat) (edges : List Edge) :
    checkEdges ids targets index edges = .ok () ↔
      (∀ e ∈ edges, e.source ∈ ids ∧ e.target ∈ ids ∧ Text.isBlank e.relation = false ∧
        e.source ≠ e.target) ∧ (edges.map (·.target)).Nodup ∧ ∀ e ∈ edges, e.target ∉ targets := by
  induction edges generalizing targets index with
  | nil => simp [checkEdges]
  | cons e rest ih =>
    rw [checkEdges, check_bind_eq_ok_iff, checkEdge_eq_ok_iff, ih]
    simp only [List.mem_cons, not_or, forall_eq_or_imp, List.map_cons, List.nodup_cons,
      List.mem_map, not_exists, not_and]
    grind

/-- The error of one edge holds of the graph; `done` are the edges before it. -/
theorem holds_of_checkEdge {done rest : List Edge} {e : Edge} {x : GraphError}
    (hg : g.edges = done ++ e :: rest)
    (h : checkEdge g.ids (done.map (·.target)).reverse done.length e = .error x) : x.Holds g := by
  have hget : g.edges[done.length]? = some e := by simp [hg]
  unfold checkEdge at h
  split_ifs at h with hs ht hb hl hm <;> obtain rfl := Except.error.inj h
  · exact ⟨e, hget, rfl, by simpa using hs⟩
  · exact ⟨e, hget, rfl, by simpa using ht⟩
  · exact ⟨e, hget, hb⟩
  · -- A loop is a cycle of its own.
    exact ⟨e.source, .single ⟨e, by simp [hg], rfl, hl.symm⟩⟩
  · have hm : e.target ∈ done.map (·.target) := by simpa using hm
    change 2 ≤ (g.edges.map (·.target)).count e.target
    rw [hg, List.map_append, List.map_cons, List.count_append, List.count_cons_self]
    have := List.count_pos_iff.mpr hm
    omega

theorem holds_of_checkEdges (done : List Edge) {rest : List Edge} {x : GraphError}
    (hg : g.edges = done ++ rest)
    (h : checkEdges g.ids (done.map (·.target)).reverse done.length rest = .error x) :
    x.Holds g := by
  induction rest generalizing done with
  | nil => simp [checkEdges] at h
  | cons e rest ih =>
    rw [checkEdges, check_bind_eq_error_iff] at h
    rcases h with h | ⟨-, h⟩
    · exact holds_of_checkEdge hg h
    · refine ih (done ++ [e]) (by simp [hg]) ?_
      simpa using h

/-! ### The root -/

/-- **What the checks establish:** the graph is fit for being grown from `root`. -/
structure Rooted (g : Graph) (root : Node) : Prop where
  nodup_ids : g.ids.Nodup
  schema_not_blank : ∀ n ∈ g.nodes, Text.isBlank n.schema = false
  source_mem : ∀ e ∈ g.edges, e.source ∈ g.ids
  target_mem : ∀ e ∈ g.edges, e.target ∈ g.ids
  relation_not_blank : ∀ e ∈ g.edges, Text.isBlank e.relation = false
  source_ne_target : ∀ e ∈ g.edges, e.source ≠ e.target
  nodup_targets : (g.edges.map (·.target)).Nodup
  roots_eq : g.roots = [root]

theorem root_eq_ok_iff {root : Node} : g.root = .ok root ↔ g.Rooted root := by
  have hchecks : (checkNodes [] g.nodes = .ok () ∧ checkEdges g.ids [] 0 g.edges = .ok () ∧
      g.roots = [root]) ↔ g.Rooted root := by
    rw [checkNodes_eq_ok_iff, checkEdges_eq_ok_iff]
    constructor
    · rintro ⟨⟨hb, hid, -⟩, ⟨he, ht, -⟩, hr⟩
      exact ⟨hid, hb, fun e h => (he e h).1, fun e h => (he e h).2.1,
        fun e h => (he e h).2.2.1, fun e h => (he e h).2.2.2, ht, hr⟩
    · intro h
      exact ⟨⟨h.schema_not_blank, h.nodup_ids, by simp⟩,
        ⟨fun e he => ⟨h.source_mem e he, h.target_mem e he, h.relation_not_blank e he,
          h.source_ne_target e he⟩, h.nodup_targets, by simp⟩, h.roots_eq⟩
  rw [← hchecks]
  unfold Graph.root
  cases hn : g.nodes with
  | nil => simp [roots, hn]
  | cons first rest =>
    rw [check_bind_eq_ok_iff, check_bind_eq_ok_iff]
    refine and_congr_right fun _ => and_congr_right fun _ => ?_
    rcases g.roots with _ | ⟨r, _ | ⟨r', rs⟩⟩ <;> simp

/-- Without a root every node has an edge leading to it from a node. -/
theorem exists_arrow_of_roots_eq_nil (hsource : ∀ e ∈ g.edges, e.source ∈ g.ids)
    (hr : g.roots = []) : ∀ v ∈ g.ids, ∃ u ∈ g.ids, g.Arrow u v := by
  intro v hv
  obtain ⟨n, hn, rfl⟩ := List.mem_map.mp hv
  obtain ⟨e, he, ht⟩ := exists_edge_of_not_mem_roots hn (by simp [hr])
  exact ⟨e.source, hsource e he, e, he, rfl, ht⟩

/-- **An error that stops the search for a root holds of the graph.** -/
theorem holds_of_root {x : GraphError} (h : g.root = .error x) : x.Holds g := by
  unfold Graph.root at h
  cases hn : g.nodes with
  | nil =>
    rw [hn] at h
    obtain rfl := Except.error.inj h
    exact hn
  | cons first rest =>
    rw [hn] at h
    simp only [check_bind_eq_error_iff] at h
    rcases h with h | ⟨-, h | ⟨hedges, h⟩⟩
    · exact holds_of_checkNodes [] (by simp [hn]) h
    · exact holds_of_checkEdges [] rfl h
    · have hedges := (checkEdges_eq_ok_iff _ _ _ _).mp hedges
      split at h
      · next hr =>
        obtain rfl := Except.error.inj h
        exact hasCycle_of_arrows (s := g.ids) (by simp [ids, hn])
          (exists_arrow_of_roots_eq_nil (fun e he => (hedges.1 e he).1) hr)
      · exact absurd h (by simp)
      · next hne hone =>
        obtain rfl := Except.error.inj h
        refine ⟨map_id_roots, ?_⟩
        rw [List.length_map]
        rcases hr : g.roots with _ | ⟨r, _ | ⟨r', rs⟩⟩
        · exact absurd hr hne
        · exact absurd hr (hone r)
        · simp

namespace Rooted

variable {root : Node}

theorem root_mem (h : g.Rooted root) : root ∈ g.nodes :=
  (mem_roots_iff.mp (h.roots_eq ▸ List.mem_singleton_self root)).1

theorem target_ne_root (h : g.Rooted root) {e : Edge} (he : e ∈ g.edges) : e.target ≠ root.id :=
  (mem_roots_iff.mp (h.roots_eq ▸ List.mem_singleton_self root)).2 e he

/-- Every other node has an edge leading to it. -/
theorem exists_edge (h : g.Rooted root) {u : String} (hu : u ∈ g.ids) (hne : u ≠ root.id) :
    ∃ e ∈ g.edges, e.target = u := by
  obtain ⟨n, hn, rfl⟩ := List.mem_map.mp hu
  refine exists_edge_of_not_mem_roots hn fun hr => hne ?_
  rw [h.roots_eq, List.mem_singleton] at hr
  rw [hr]

end Rooted

end Graph

end PatternQuery
