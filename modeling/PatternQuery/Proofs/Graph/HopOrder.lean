import PatternQuery.Proofs.Forest.Regrowth
import PatternQuery.Proofs.Graph.RoundTrip
import PatternQuery.Proofs.Pattern.Canonical
import PatternQuery.Proofs.Pattern.Depth
import PatternQuery.Proofs.Pattern.Faults

/-!
# The order of compiled hops

The hops of a compiled graph stand in canonical order, and `Pattern.InCanonicalOrder` says what that is
of the hops alone. Sources come in the order in which they were introduced, so the hops from one source
stand together and depths do not decrease; and the branches from one source ascend, by target schema,
relation, optionality and the shape of what hangs below the target.

The first half is a matter of the walk, which takes the parents in order. For the second half the hops
are read as a tree again (`Pattern.forestBelow`). What hangs below an occurrence in the hops of a tree
is what is grown from the visits of the walk (`Pattern.forestBelow_map_ofVisit`), and in a tree that
was sorted every level of it ascends (`Graph.sorted_forestBelow`).
-/

namespace PatternQuery

namespace Pattern

/-! ### Trees and shapes in a list of hops -/

/-- What hangs below the occurrence with a key, in the order of the hops. The hops that start from an
occurrence come behind the one that introduces it. -/
def forestBelow : Pattern → String → Forest Branch
  | [], _ => .nil
  | .root _ :: rest, key => forestBelow rest key
  | .edge source relation target optional :: rest, key =>
    if source.key = key then
      .cons ⟨target.schema, relation, optional⟩ (forestBelow rest target.key) (forestBelow rest key)
    else forestBelow rest key

/-- **The canonical shape** of what hangs below the occurrence with a key: the sorted list of its
branches, each with the shape below it. -/
def shape (p : Pattern) (key : String) : Shape := (p.forestBelow key).canonical Branch.compare

/-- The branch of an edge hop that starts from the occurrence with a key, with the shape of what hangs
below its target. -/
def branch? (p : Pattern) (key : String) : Hop → Option (Branch × Shape)
  | .root _ => none
  | .edge source relation target optional =>
    if source.key = key then some (⟨target.schema, relation, optional⟩, p.shape target.key) else none

/-- The branches from the occurrence with a key, in the order of the hops. -/
def branches (p : Pattern) (key : String) : List (Branch × Shape) := p.filterMap (p.branch? key)

/-- **Hops in canonical order.** -/
structure InCanonicalOrder (p : Pattern) : Prop extends InOrder p where
  /-- Sources come in the order in which they are introduced. The root hop starts from what it
  introduces. -/
  sources_ascend : (p.map fun hop => (keys p).idxOf hop.source.key).Pairwise (· ≤ ·)
  /-- What is introduced later is not less deep. -/
  depths_ascend : ∀ key key' d d', p.AtDepth key d → p.AtDepth key' d' →
    (keys p).idxOf key ≤ (keys p).idxOf key' → d ≤ d'
  /-- The hops from one source stand together. -/
  siblings_together : ∀ (i j k : Nat) (hop hop' hop'' : Hop), i ≤ j → j ≤ k →
    p[i]? = some hop → p[j]? = some hop' → p[k]? = some hop'' →
      hop''.source.key = hop.source.key → hop'.source.key = hop.source.key
  /-- The trees of a shape are the branches, sorted. -/
  trees_shape : ∀ key,
    (p.shape key).trees = (p.branches key).insertionSort (Forest.TreeLE Branch.compare)
  /-- The branches from one source ascend: by schema, relation, optionality and shape. -/
  branches_ascend : ∀ key, (p.branches key).Pairwise (Forest.TreeLE Branch.compare)

variable {p earlier later rest : Pattern} {key key' : String} {d d' : Nat}

/-- Hops that start elsewhere do not matter for what hangs below an occurrence. -/
theorem forestBelow_append (h : ∀ hop ∈ earlier, hop.source.key ≠ key) (rest : Pattern) :
    forestBelow (earlier ++ rest) key = forestBelow rest key := by
  induction earlier with
  | nil => rfl
  | cons hop earlier ih =>
    have ih := ih fun hop' hmem => h hop' (List.mem_cons_of_mem _ hmem)
    cases hop with
    | root o => exact ih
    | edge source relation target optional =>
      have hne : source.key ≠ key := h _ List.mem_cons_self
      rw [List.cons_append, forestBelow, if_neg hne, ih]

/-- Linked hops start from what was introduced up to them. -/
theorem Linked.source_key_mem_of_append (h : Linked (earlier ++ later)) {hop : Hop}
    (hmem : hop ∈ earlier) : hop.source.key ∈ keys earlier := by
  cases hop with
  | root o => exact List.mem_map_of_mem (f := (·.introduces.key)) hmem
  | edge source relation target optional =>
    obtain ⟨before, after, rfl⟩ := List.append_of_mem hmem
    have hsource := h.source_introduced before source relation target optional (after ++ later)
      (by simp)
    rw [keys_append]
    exact List.mem_append_left _ hsource.key_mem

/-- In linked hops, what hangs below a target is found behind its hop. -/
theorem Linked.forestBelow_target {source target : Occurrence} {relation : String} {optional : Bool}
    (h : Linked (earlier ++ .edge source relation target optional :: rest)) :
    forestBelow (earlier ++ .edge source relation target optional :: rest) target.key =
      forestBelow rest target.key := by
  have hfresh : target.key ∉ keys earlier := by
    have hnodup := h.nodup_keys
    rw [keys_append, List.nodup_append] at hnodup
    exact fun hmem => hnodup.2.2 _ hmem _ List.mem_cons_self rfl
  have hsource := h.source_introduced earlier _ _ _ _ _ rfl
  rw [List.append_cons]
  refine forestBelow_append (fun hop hmem heq => hfresh ?_) rest
  obtain hmem | hmem := List.mem_append.mp hmem
  · exact heq ▸ h.source_key_mem_of_append hmem
  · obtain rfl := List.mem_singleton.mp hmem
    exact heq ▸ hsource.key_mem

/-- The trees below an occurrence are its branches. -/
theorem Linked.trees_forestBelow (h : Linked p) (key : String) :
    (p.forestBelow key).trees.map (fun t => (t.1, t.2.canonical Branch.compare)) =
      p.branches key := by
  -- The induction is on what is left of the hops.
  have hrest (earlier rest : Pattern) (hp : p = earlier ++ rest) :
      (forestBelow rest key).trees.map (fun t => (t.1, t.2.canonical Branch.compare)) =
        rest.filterMap (p.branch? key) := by
    induction rest generalizing earlier with
    | nil => rfl
    | cons hop rest ih =>
      have ih := ih (earlier ++ [hop]) (by rw [hp, List.append_cons])
      cases hop with
      | root o => exact ih
      | edge source relation target optional =>
        rw [forestBelow]
        by_cases hkey : source.key = key
        · have htarget : p.forestBelow target.key = forestBelow rest target.key := by
            subst hp
            exact h.forestBelow_target
          rw [if_pos hkey, Forest.trees, List.map_cons, ih, List.filterMap_cons_some]
          rw [branch?, if_pos hkey, shape, htarget]
        · rw [if_neg hkey, ih, List.filterMap_cons_none]
          rw [branch?, if_neg hkey]
  exact hrest [] p rfl

theorem Linked.trees_shape (h : Linked p) (key : String) :
    (p.shape key).trees = (p.branches key).insertionSort (Forest.TreeLE Branch.compare) := by
  rw [shape, Forest.trees_canonical, h.trees_forestBelow]

/-- **Where every level ascends, so do the branches.** -/
theorem Linked.branches_ascend (h : Linked p)
    (hsorted : (p.forestBelow key).Sorted Branch.compare) :
    (p.branches key).Pairwise (Forest.TreeLE Branch.compare) := by
  rw [← h.trees_forestBelow, hsorted.map_trees_canonical]
  exact hsorted.pairwise_trees

/-! ### What follows from the order of the sources -/

section Sources

variable (hasc : (p.map fun hop => (keys p).idxOf hop.source.key).Pairwise (· ≤ ·))

include hasc

theorem idxOf_source_le {i j : Nat} {hop hop' : Hop} (hij : i ≤ j) (hi : p[i]? = some hop)
    (hj : p[j]? = some hop') : (keys p).idxOf hop.source.key ≤ (keys p).idxOf hop'.source.key := by
  obtain ⟨hilt, rfl⟩ := List.getElem?_eq_some_iff.mp hi
  obtain ⟨hjlt, rfl⟩ := List.getElem?_eq_some_iff.mp hj
  obtain rfl | hlt := hij.eq_or_lt
  · exact le_rfl
  · have := List.pairwise_iff_getElem.mp hasc i j (by simpa using hilt) (by simpa using hjlt) hlt
    simpa using this

theorem Linked.siblings_together (h : Linked p) {i j k : Nat} {hop hop' hop'' : Hop} (hij : i ≤ j)
    (hjk : j ≤ k) (hi : p[i]? = some hop) (hj : p[j]? = some hop') (hk : p[k]? = some hop'')
    (hkey : hop''.source.key = hop.source.key) : hop'.source.key = hop.source.key := by
  have hlow := idxOf_source_le hasc hij hi hj
  have hhigh := idxOf_source_le hasc hjk hj hk
  rw [hkey] at hhigh
  have hmem : hop'.source.key ∈ keys p := by
    have hp : Linked (p ++ []) := by rwa [List.append_nil]
    exact hp.source_key_mem_of_append (List.mem_of_getElem? hj)
  exact (List.idxOf_inj hmem).mp (le_antisymm hhigh hlow)

/-- **Depths do not decrease:** the source of a later hop is introduced no earlier, and is one less
deep than what the hop introduces. -/
theorem InOrder.depths_ascend (h : InOrder p) (hd : p.AtDepth key d) (hd' : p.AtDepth key' d')
    (hle : (keys p).idxOf key ≤ (keys p).idxOf key') : d ≤ d' := by
  induction hd' generalizing key d with
  | @root o hmem =>
    -- The root comes first, so the other occurrence is the root as well.
    obtain ⟨o', rest, hp, hrest⟩ := h.root_first
    obtain rfl : o = o' := by
      rw [hp] at hmem
      obtain heq | hmem := List.mem_cons.mp hmem
      · exact Hop.root.inj heq
      · exact absurd (hrest _ hmem) (by simp [Hop.isRoot])
    have hzero : (keys p).idxOf o.key = 0 := by
      rw [hp]
      exact List.idxOf_cons_self
    have hkey : key = o.key := (List.idxOf_inj hd.key_mem).mp (by omega)
    rw [hkey] at hd
    exact (hd.unique h.toLinked (.root hmem)).le
  | @edge source target relation optional d' hmem _ ih =>
    cases hd with
    | root => exact Nat.zero_le _
    | @edge source₁ target₁ relation₁ optional₁ d hmem₁ hsource₁ =>
      have hat {hop : Hop} (hmem : hop ∈ p) :
          p[(keys p).idxOf hop.introduces.key]? = some hop := by
        have hentry : (hop, (keys p).idxOf hop.introduces.key) ∈ p.zipIdx :=
          zipIdx_eq_map_idxOf_key h.nodup_keys ▸ List.mem_map_of_mem hmem
        exact List.mem_zipIdx_iff_getElem?.mp hentry
      have := ih hsource₁ (idxOf_source_le hasc hle (hat hmem₁) (hat hmem))
      omega

end Sources

/-! ### The hops of a walk -/

/-- **What hangs below an occurrence in the hops of visits** is what is grown from the visits, without
the ids of the nodes. -/
theorem forestBelow_map_ofVisit {occ : String → Occurrence} {known : List String}
    (hkeys : (known.map fun u => (occ u).key).Nodup) {vs : List (Visit Stem)}
    (hvs : ∀ v ∈ vs, v.parent ∈ known ∧ v.label.node ∈ known ∧
      (occ v.label.node).schema = v.label.branch.schema) {u : String} (hu : u ∈ known) :
    forestBelow (vs.map (Hop.ofVisit occ)) (occ u).key =
      (regrow (·.node) vs u).map Stem.branch := by
  induction vs generalizing u with
  | nil => rfl
  | cons v vs ih =>
    obtain ⟨hparent, hnode, hschema⟩ := hvs v List.mem_cons_self
    have ih {u : String} (hu : u ∈ known) :=
      ih (fun w hw => hvs w (List.mem_cons_of_mem _ hw)) hu
    rw [List.map_cons, Hop.ofVisit, forestBelow, ih hu, ih hnode, hschema]
    by_cases hv : v.parent = u
    · rw [regrow_cons_of_eq hv, if_pos (congrArg (fun u => (occ u).key) hv)]
      rfl
    · have hne : (occ v.parent).key ≠ (occ u).key := fun hkey =>
        hv (List.inj_on_of_nodup_map hkeys hparent hu hkey)
      rw [regrow_cons_of_ne hv, if_neg hne]

end Pattern

namespace Graph

variable {g : Graph} {d : Bool} {c : Compiled} {root : Node} {f : Forest Stem}

theorem walkNames_root (root : Node) (f : Forest Stem) :
    walkNames (·.node) [(root.id, f)] = visitOrder root f := rfl

/-- **The hops of a sorted tree ascend on every level.** -/
theorem sorted_forestBelow (h : (visitOrder root f).Nodup) (hf : f.Sorted Stem.compare)
    (key : String) : ((Compiled.ofTree root f).hops.forestBelow key).Sorted Branch.compare := by
  set occ := (Compiled.ofTree root f).occurrence with hocc
  have hvs (v : Visit Stem) (hv : v ∈ visits root f) : v.parent ∈ visitOrder root f ∧
      v.label.node ∈ visitOrder root f ∧ (occ v.label.node).schema = v.label.branch.schema :=
    ⟨parent_mem_visitOrder hv, node_mem_visitOrder hv, schema_occurrence_visit h hv⟩
  have hnames : (queueNames (·.node) [(root.id, f)]).Nodup := by
    have := (visitOrder_perm root f).nodup_iff.mp h
    simpa [queueNames] using this
  rw [hops_ofTree h, ← hocc, Pattern.forestBelow]
  by_cases hkey : ∃ u ∈ visitOrder root f, (occ u).key = key
  · obtain ⟨u, hu, rfl⟩ := hkey
    rw [Pattern.forestBelow_map_ofVisit (nodup_keys_ofTree h) hvs hu]
    refine Forest.Sorted.map (fun _ _ => rfl) (sorted_regrow_walk hnames ?_ u)
    intro entry he
    obtain rfl := List.mem_singleton.mp he
    exact hf
  · -- Nothing starts from a key that no node has.
    have hnil : Pattern.forestBelow ((visits root f).map (Hop.ofVisit occ) ++ []) key =
        Pattern.forestBelow [] key := by
      refine Pattern.forestBelow_append (fun hop hmem hsource => hkey ?_) []
      obtain ⟨v, hv, rfl⟩ := List.mem_map.mp hmem
      exact ⟨v.parent, (hvs v hv).1, hsource⟩
    rw [List.append_nil] at hnil
    rw [hnil]
    trivial

/-- **The hops of a tree take the sources in order.** -/
theorem sources_ascend_ofTree (h : (visitOrder root f).Nodup) :
    ((Compiled.ofTree root f).hops.map fun hop =>
      (Compiled.ofTree root f).hops.keys.idxOf hop.source.key).Pairwise (· ≤ ·) := by
  have hposition {u : String} (hu : u ∈ visitOrder root f) :
      (Compiled.ofTree root f).hops.keys.idxOf ((Compiled.ofTree root f).occurrence u).key =
        (visitOrder root f).idxOf u := by
    rw [keys_ofTree h]
    exact idxOf_map (φ := fun u => ((Compiled.ofTree root f).occurrence u).key)
      fun w hw hkey => List.inj_on_of_nodup_map (nodup_keys_ofTree h) hw hu hkey
  have hmap : ((Compiled.ofTree root f).hops.map fun hop =>
      (Compiled.ofTree root f).hops.keys.idxOf hop.source.key) =
        0 :: (visits root f).map fun v => (visitOrder root f).idxOf v.parent := by
    conv_lhs => arg 2; rw [hops_ofTree h]
    rw [List.map_cons, List.map_map, Hop.source, hposition List.mem_cons_self]
    congr 1
    · exact List.idxOf_cons_self
    · exact List.map_congr_left fun v hv => hposition (parent_mem_visitOrder hv)
  rw [hmap]
  refine List.pairwise_cons.mpr ⟨fun i _ => Nat.zero_le i, ?_⟩
  exact pairwise_parents_walk (walkNames_root root f ▸ List.Sublist.refl _) h

/-- **The hops of a compiled graph stand in canonical order.** -/
theorem inCanonicalOrder_of_compile (h : g.compile d = .ok c) : c.hops.InCanonicalOrder := by
  have horder : c.hops.InOrder := Pattern.check_eq_ok_iff_inOrder.mp (check_of_compile h)
  obtain ⟨root, f, rfl, -, -, hs, hf, -⟩ := exists_tree_of_compile h (fun _ => none) .standard
  have hnd := hs.nodup_visitOrder
  have hsorted : f.Sorted Stem.compare := hf ▸ Forest.sorted_canonical _
  have hasc := sources_ascend_ofTree hnd
  exact {
    toInOrder := horder
    sources_ascend := hasc
    depths_ascend := fun _ _ _ _ hd hd' hle => horder.depths_ascend hasc hd hd' hle
    siblings_together := fun _ _ _ _ _ _ hij hjk hi hj hk hkey =>
      horder.siblings_together hasc hij hjk hi hj hk hkey
    trees_shape := horder.trees_shape
    branches_ascend := fun key => horder.branches_ascend (sorted_forestBelow hnd hsorted key) }

/-- Of two siblings that differ in what hangs below them only, the one without a child comes first. -/
theorem inCanonicalOrder_siblings : siblings.compile false = .ok siblingsCompiled ∧
    siblingsCompiled.hops.InCanonicalOrder ∧
    siblingsCompiled.hops.branches "A" =
      [(⟨"B", "r", false⟩, .nil), (⟨"B", "r", false⟩, .cons ⟨"C", "s", true⟩ .nil .nil)] :=
  ⟨compile_siblings, inCanonicalOrder_of_compile compile_siblings, by decide⟩

end Graph

end PatternQuery
