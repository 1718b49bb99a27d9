import PatternQuery.Proofs.Graph.Compiled
import PatternQuery.Proofs.Pattern.Introduction

/-!
# Placing the hops of a walk

The hops that a tree is compiled into can be placed, and the place of each is that of its node on
the walk (`exists_place_ofTree`). One step (`exists_placeHop`) looks up the key of the parent, which
is found because parents come first, and found at the right position because no two nodes have the
same key.
-/

namespace PatternQuery

/-- What a placement keeps of the edge that a visit came along; `order` are the nodes in the order
of the walk. -/
def Visit.incoming (order : List String) (v : Visit Stem) : Incoming :=
  ⟨order.idxOf v.parent, v.label.branch.relation, v.label.branch.optional⟩

namespace Pattern

variable {placed : List Placement} {known : List String} {occ : String → Occurrence}

theorem keys_placed (hplaced : placed.map (·.occurrence) = known.map occ) :
    placed.map (·.occurrence.key) = known.map fun u => (occ u).key := by
  have := congrArg (List.map Occurrence.key) hplaced
  rwa [List.map_map, List.map_map] at this

/-- The node at a position of the walk introduced its key. -/
theorem exists_introducer? (hplaced : placed.map (·.occurrence) = known.map occ)
    (hkeys : (known.map fun u => (occ u).key).Nodup) {u : String} (hu : u ∈ known) :
    ∃ p, introducer? placed (occ u).key = some (p, known.idxOf u) ∧ p.occurrence = occ u := by
  have hlt : known.idxOf u < placed.length := by
    have hlen := congrArg List.length hplaced
    rw [List.length_map, List.length_map] at hlen
    exact hlen ▸ List.idxOf_lt_length_of_mem hu
  have hocc : placed[known.idxOf u].occurrence = occ u := by
    have := congrArg (·[known.idxOf u]?) hplaced
    simpa [List.getElem?_map, List.getElem?_eq_getElem hlt,
      List.getElem?_eq_getElem (List.idxOf_lt_length_of_mem hu)] using this
  have hnodup : (placed.zipIdx.map fun entry => entry.1.occurrence.key).Nodup := by
    have hmap : (placed.zipIdx.map fun entry => entry.1.occurrence.key) =
        placed.map (·.occurrence.key) := by
      rw [← List.zipIdx_map_fst 0 placed, List.map_map]
      simp
    rw [hmap, keys_placed hplaced]
    exact hkeys
  refine ⟨placed[known.idxOf u], ?_, hocc⟩
  have hmem : (placed[known.idxOf u], known.idxOf u) ∈ placed.zipIdx :=
    List.mem_zipIdx_iff_getElem?.mpr (List.getElem?_eq_getElem hlt)
  rw [← hocc]
  exact find?_key_of_nodup hnodup hmem

/-- **One step:** the hop of a visit is placed behind its parent. -/
theorem exists_placeHop {v : Visit Stem} (hplaced : placed.map (·.occurrence) = known.map occ)
    (hkeys : ((known ++ [v.label.node]).map fun u => (occ u).key).Nodup)
    (hparent : v.parent ∈ known) (hrel : Text.isBlank v.label.branch.relation = false) :
    ∃ p, placeHop placed (Hop.ofVisit occ v) = .ok p ∧ p.occurrence = occ v.label.node ∧
      p.incoming = some (v.incoming known) := by
  rw [List.map_append, List.nodup_append] at hkeys
  obtain ⟨hknown, -, hfresh⟩ := hkeys
  obtain ⟨q, hq, hqocc⟩ := exists_introducer? hplaced hknown hparent
  refine ⟨⟨occ v.label.node, some (v.incoming known), q.depth + 1⟩, ?_, rfl, rfl⟩
  refine placeHop_edge_eq_ok_iff.mpr ⟨placeEdge_eq_ok_iff.mpr ?_, ?_⟩
  · exact ⟨hrel, q, _, hq, by rw [hqocc], rfl⟩
  · -- The key of the new node differs from all keys before it.
    rw [keys_placed hplaced]
    exact fun hmem => hfresh _ hmem _ (List.mem_singleton_self _) rfl

/-- **The whole walk is placed,** if parents come first and keys are different. -/
theorem exists_placeAll (placed : List Placement) (known : List String) {vs : List (Visit Stem)}
    (hparents : ParentsFirst (fun s : Stem => s.node) known vs)
    (hkeys : ((known ++ vs.map (·.label.node)).map fun u => (occ u).key).Nodup)
    (hrel : ∀ v ∈ vs, Text.isBlank v.label.branch.relation = false)
    (hplaced : placed.map (·.occurrence) = known.map occ) :
    ∃ placed', placeAll placed (vs.map (Hop.ofVisit occ)) = .ok placed' ∧
      placed'.map (·.occurrence) = (known ++ vs.map (·.label.node)).map occ ∧
      placed'.map (·.incoming) = placed.map (·.incoming) ++
        vs.map fun v => some (v.incoming (known ++ vs.map (·.label.node))) := by
  induction vs generalizing known placed with
  | nil => exact ⟨placed, rfl, by simpa using hplaced, by simp⟩
  | cons v vs ih =>
    obtain ⟨hparent, hparents⟩ := hparents
    have happend : known ++ (v :: vs).map (·.label.node) =
        (known ++ [v.label.node]) ++ vs.map (·.label.node) := by simp
    rw [happend] at hkeys ⊢
    obtain ⟨p, hp, hocc, hin⟩ := exists_placeHop hplaced
      (hkeys.sublist ((List.sublist_append_left _ _).map _)) hparent (hrel v List.mem_cons_self)
    obtain ⟨placed', hall, hocc', hin'⟩ := ih (placed ++ [p]) _ hparents hkeys
      (fun w hw => hrel w (List.mem_cons_of_mem _ hw)) (by simp [hplaced, hocc])
    refine ⟨placed', ?_, hocc', ?_⟩
    · rw [List.map_cons, placeAll, hp]
      exact hall
    · -- The position of a parent does not change when more nodes become known.
      have hpos : v.incoming (known ++ [v.label.node] ++ vs.map (·.label.node)) =
          v.incoming known := by
        rw [Visit.incoming, List.append_assoc, List.idxOf_append_of_mem hparent, Visit.incoming]
      rw [hin', List.map_append, List.map_cons, List.map_cons, hpos, hin]
      simp

end Pattern

namespace Graph

variable {root : Node} {f : Forest Stem}

/-- **What a tree is compiled into can be placed,** each hop where its node is on the walk. -/
theorem exists_place_ofTree (h : (visitOrder root f).Nodup)
    (hrel : ∀ v ∈ visits root f, Text.isBlank v.label.branch.relation = false) :
    ∃ placed, Pattern.place (Compiled.ofTree root f).hops = .ok placed ∧
      placed.map (·.occurrence) = (visitOrder root f).map (Compiled.ofTree root f).occurrence ∧
      placed.map (·.incoming) =
        none :: (visits root f).map fun v => some (v.incoming (visitOrder root f)) := by
  set occ := (Compiled.ofTree root f).occurrence with hocc
  have hroots : Pattern.checkRoots (.root (occ root.id) :: (visits root f).map (Hop.ofVisit occ)) =
      .ok () := by
    have hcount : ((visits root f).map (Hop.ofVisit occ)).countP Hop.isRoot = 0 := by
      rw [List.countP_eq_zero]
      simp [Hop.ofVisit, Hop.isRoot]
    rw [Pattern.checkRoots, List.countP_cons, hcount]
    rfl
  obtain ⟨placed, hall, hplaced, hin⟩ := Pattern.exists_placeAll [⟨occ root.id, none, 0⟩] [root.id]
    (parentsFirst_walk (by simp)) (nodup_keys_ofTree h) hrel rfl
  refine ⟨placed, ?_, hplaced, hin⟩
  rw [hops_ofTree h, Pattern.place, ← hocc, hroots]
  exact hall

end Graph

end PatternQuery
