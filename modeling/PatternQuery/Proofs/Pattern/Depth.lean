import PatternQuery.Proofs.Pattern.Introduction

/-!
# Depths

The depth of an occurrence is the number of edge hops that lead to it from the root. In linked hops an
occurrence has at most one depth (`Pattern.AtDepth.unique`), and the depth that the placing notes is
the one it has (`Pattern.atDepth_of_place`): one hop more keeps the depths of the others, and the
occurrence from which it starts has been placed at its depth.
-/

namespace PatternQuery.Pattern

variable {p earlier rest : Pattern} {placed placed' : List Placement} {hop : Hop} {q : Placement}
  {key : String} {d d' : Nat}

/-- **The depth of an occurrence,** by its key. -/
inductive AtDepth (p : Pattern) : String → Nat → Prop
  /-- What a root hop introduces has depth zero. -/
  | root {o : Occurrence} (hmem : Hop.root o ∈ p) : AtDepth p o.key 0
  /-- What an edge hop introduces is one deeper than what the hop starts from. -/
  | edge {source target : Occurrence} {relation : String} {optional : Bool} {d : Nat}
    (hmem : Hop.edge source relation target optional ∈ p) (hsource : AtDepth p source.key d) :
    AtDepth p target.key (d + 1)

namespace AtDepth

theorem mono (h : AtDepth p key d) (hsub : p ⊆ rest) : AtDepth rest key d := by
  induction h with
  | root hmem => exact .root (hsub hmem)
  | edge hmem _ ih => exact .edge (hsub hmem) ih

theorem exists_hop (h : AtDepth p key d) : ∃ hop ∈ p, hop.introduces.key = key := by
  cases h with
  | root hmem => exact ⟨_, hmem, rfl⟩
  | edge hmem _ => exact ⟨_, hmem, rfl⟩

theorem key_mem (h : AtDepth p key d) : key ∈ keys p := by
  obtain ⟨hop, hmem, rfl⟩ := h.exists_hop
  exact List.mem_map_of_mem (f := (·.introduces.key)) hmem

/-- **An occurrence has one depth,** because one hop introduces it. -/
theorem unique (hp : Linked p) (h : AtDepth p key d) (h' : AtDepth p key d') : d = d' := by
  have hhop {hop hop' : Hop} (hmem : hop ∈ p) (hmem' : hop' ∈ p)
      (hkey : hop'.introduces.key = hop.introduces.key) : hop' = hop :=
    List.inj_on_of_nodup_map hp.nodup_keys hmem' hmem hkey
  induction h generalizing d' with
  | @root o hmem =>
    generalize hk : o.key = k at h'
    cases h' with
    | root => rfl
    | edge hmem' => exact absurd (hhop hmem hmem' hk.symm) (by simp)
  | @edge source target relation optional d hmem _ ih =>
    generalize hk : target.key = k at h'
    cases h' with
    | root hmem' => exact absurd (hhop hmem hmem' hk.symm) (by simp)
    | edge hmem' hsource' =>
      obtain ⟨rfl, -, -, -⟩ := Hop.edge.inj (hhop hmem hmem' hk.symm)
      rw [ih hsource']

end AtDepth

/-- **One step:** a hop is placed at its depth. -/
theorem atDepth_of_placeHop (h : ∀ q ∈ placed, AtDepth earlier q.occurrence.key q.depth)
    (hq : placeHop placed hop = .ok q) :
    AtDepth (earlier ++ [hop]) q.occurrence.key q.depth := by
  have hmem : hop ∈ earlier ++ [hop] := List.mem_append_right _ (List.mem_singleton_self _)
  cases hop with
  | root o =>
    obtain ⟨-, rfl⟩ := placeHop_root_eq_ok_iff.mp hq
    exact .root hmem
  | edge source relation target optional =>
    obtain ⟨hedge, -⟩ := placeHop_edge_eq_ok_iff.mp hq
    obtain ⟨-, found, position, hfound, -, rfl⟩ := placeEdge_eq_ok_iff.mp hedge
    obtain ⟨hget, hkey⟩ := getElem?_of_introducer? hfound
    refine .edge hmem ?_
    have hsource := h found (List.mem_of_getElem? hget)
    rw [hkey] at hsource
    exact hsource.mono (List.subset_append_left _ _)

/-- **A run:** and so are the hops of a list. -/
theorem atDepth_of_placeAll (h : ∀ q ∈ placed, AtDepth earlier q.occurrence.key q.depth)
    (hall : placeAll placed rest = .ok placed') :
    ∀ q ∈ placed', AtDepth (earlier ++ rest) q.occurrence.key q.depth := by
  induction rest generalizing earlier placed with
  | nil =>
    obtain rfl := Except.ok.inj hall
    rwa [List.append_nil]
  | cons hop rest ih =>
    obtain ⟨q, hq, hrest⟩ := bind_eq_ok_iff.mp hall
    have hstep : ∀ q' ∈ placed ++ [q], AtDepth (earlier ++ [hop]) q'.occurrence.key q'.depth := by
      intro q' hq'
      obtain hq' | hq' := List.mem_append.mp hq'
      · exact (h q' hq').mono (List.subset_append_left _ _)
      · obtain rfl := List.mem_singleton.mp hq'
        exact atDepth_of_placeHop h hq
    have hrest := ih hstep hrest
    rwa [List.append_assoc] at hrest

theorem atDepth_of_place (h : place p = .ok placed) :
    ∀ q ∈ placed, AtDepth p q.occurrence.key q.depth := by
  obtain ⟨-, hall⟩ := check_bind_eq_ok_iff.mp h
  have hnone : ∀ q ∈ ([] : List Placement), AtDepth [] q.occurrence.key q.depth := by simp
  exact atDepth_of_placeAll hnone hall

end PatternQuery.Pattern
