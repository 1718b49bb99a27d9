import Mathlib.Data.List.Basic
import PatternQuery.Pattern.Canonical
import PatternQuery.Proofs.Pattern.Drawing

/-!
# What the canonical form keeps

The canonical form of a pattern is the same query under other keys. `Canonical.Renames` says what
that means: the map of keys has one entry for every key of the pattern and takes the keys of the
pattern one-to-one to those of the canonical form, schemas and the root stay what they are, and the
edge hops are the edge hops of the pattern with their keys replaced, in some order.

Two walks are followed one after the other. The pattern is drawn with a node for every key, and the
drawing is compiled with an occurrence for every node (`Graph.Shows.renames_ofTree`). Whatever was
introduced under the key `k` has the key of the occurrence of the node drawn for `k`.
-/

namespace PatternQuery

/-- The new key of an old one. A key that the map does not know is kept. -/
def Canonical.newKey (n : Canonical) (key : String) : String := (n.keyMap.lookup key).getD key

/-- What an edge hop says of the keys at its ends. -/
structure Link where
  source : String
  relation : String
  target : String
  optional : Bool
  deriving Repr, DecidableEq

/-- The link with other keys at its ends. -/
def Link.rename (φ : String → String) (l : Link) : Link :=
  ⟨φ l.source, l.relation, φ l.target, l.optional⟩

/-- The link of an edge hop. -/
def Hop.link? : Hop → Option Link
  | .root _ => none
  | .edge source relation target optional => some ⟨source.key, relation, target.key, optional⟩

/-- **The canonical form is the pattern `p` with its keys renamed.** -/
structure Canonical.Renames (n : Canonical) (p : Pattern) : Prop where
  nodup_keys : p.keys.Nodup
  keyMap_eq : n.keyMap = p.keys.map fun key => (key, n.newKey key)
  bijOn : Set.BijOn n.newKey {key | key ∈ p.keys} {key | key ∈ n.hops.keys}
  schema_eq : ∀ hop ∈ p, ∀ hop' ∈ n.hops,
    hop'.introduces.key = n.newKey hop.introduces.key →
      hop'.introduces.schema = hop.introduces.schema
  root_eq : ∃ o o', p.filter Hop.isRoot = [.root o] ∧ n.hops.filter Hop.isRoot = [.root o'] ∧
    o'.key = n.newKey o.key
  links_perm : (n.hops.filterMap Hop.link?).Perm ((p.filterMap Hop.link?).map (.rename n.newKey))

/-- Where the map of keys is that of a function, the function gives the new keys. -/
theorem Canonical.newKey_eq {n : Canonical} {keys : List String} {φ : String → String}
    (h : n.keyMap = keys.map fun key => (key, φ key)) {key : String} (hkey : key ∈ keys) :
    n.newKey key = φ key := by
  rw [newKey, h, List.lookup_graph φ hkey, Option.getD_some]

namespace Pattern

variable {p : Pattern} {g : Graph} {c : Compiled}

/-! ### The two steps to the canonical form -/

theorem canonical_eq_ok_iff {n : Canonical} :
    p.canonical = .ok n ↔ ∃ g c, p.draw (fun _ => none) .standard = .ok g ∧
      g.compile false = .ok c ∧ n = ⟨c.hops, p.keyMap g c⟩ := by
  unfold canonical
  constructor
  · intro h
    split at h
    · exact absurd h (by simp)
    · next g hg =>
      split at h
      · exact absurd h (by simp)
      · next c hc => exact ⟨g, c, hg, hc, (Except.ok.inj h).symm⟩
  · rintro ⟨g, c, hg, hc, rfl⟩
    simp only [hg, hc]

/-- If the node drawn for a hop is bound to `bound hop`, then the key of the hop is mapped to the key
of that. -/
theorem keyMap_eq_map (bound : Hop → Occurrence) (hlen : p.length = g.nodes.length)
    (hbind : ∀ entry ∈ p.zip g.nodes, c.binding? entry.2.id = some (bound entry.1)) :
    p.keyMap g c = p.map fun hop => (hop.introduces.key, (bound hop).key) := by
  calc p.keyMap g c
      = (p.zip g.nodes).map fun entry => (entry.1.introduces.key, (bound entry.1).key) := by
        rw [← List.filterMap_eq_map]
        refine List.filterMap_congr fun entry he => ?_
        show (c.binding? entry.2.id).map (fun o => (entry.1.introduces.key, o.key)) = _
        rw [hbind entry he]
        rfl
    _ = ((p.zip g.nodes).map Prod.fst).map fun hop => (hop.introduces.key, (bound hop).key) := by
        rw [List.map_map]
        rfl
    _ = p.map fun hop => (hop.introduces.key, (bound hop).key) := by
        rw [List.map_fst_zip hlen.le]

end Pattern

/-! ### The hops of a tree -/

namespace Graph

variable {root : Node} {f : Forest Stem}

/-- The keys of the hops are those of the nodes, in the order of the walk. -/
theorem keys_ofTree (h : (visitOrder root f).Nodup) :
    (Compiled.ofTree root f).hops.keys = (visitOrder root f).map fun u =>
      ((Compiled.ofTree root f).occurrence u).key := by
  have := congrArg (List.map Occurrence.key) (map_introduces_ofTree h)
  rwa [List.map_map, List.map_map] at this

theorem nodup_keys_hops_ofTree (h : (visitOrder root f).Nodup) :
    (Compiled.ofTree root f).hops.keys.Nodup := by
  rw [keys_ofTree h]
  exact nodup_keys_ofTree h

theorem exists_node_of_hop_mem (h : (visitOrder root f).Nodup) {hop : Hop}
    (hhop : hop ∈ (Compiled.ofTree root f).hops) :
    ∃ u ∈ visitOrder root f, (Compiled.ofTree root f).occurrence u = hop.introduces := by
  have hmem : hop.introduces ∈ (Compiled.ofTree root f).hops.map Hop.introduces :=
    List.mem_map_of_mem hhop
  rw [map_introduces_ofTree h] at hmem
  exact List.mem_map.mp hmem

end Graph

/-! ### A drawing that is compiled -/

namespace Graph.Shows

variable {g : Graph} {p : Pattern} {root : Node} {f : Forest Stem} {d : Bool}

/-- The nodes of a drawing stand where their hops stand. -/
theorem id_of_mem_zip (h : g.Shows p) {entry : Hop × Node} (he : entry ∈ p.zip g.nodes) :
    entry.2.id = p.drawnId entry.1.introduces.key := by
  have hids : g.nodes.map (·.id) = p.map fun hop => p.drawnId hop.introduces.key := by
    have := h.ids_eq
    rwa [Pattern.keys, List.map_map] at this
  have hmem : (entry.1, entry.2.id) ∈ p.zip (g.nodes.map (·.id)) := by
    rw [List.zip_map_right]
    exact List.mem_map_of_mem (f := Prod.map id (·.id)) he
  rw [hids, ← List.map_prod_left_eq_zip] at hmem
  obtain ⟨hop, -, heq⟩ := List.mem_map.mp hmem
  obtain ⟨rfl, hid⟩ := Prod.mk.inj heq
  exact hid.symm

theorem keys_perm (h : g.Shows p) (hs : g.Spans d root f) :
    (p.keys.map fun key => ((Compiled.ofTree root f).occurrence (p.drawnId key)).key).Perm
      (Compiled.ofTree root f).hops.keys := by
  have hids := hs.visitOrder_perm.symm.map fun u => ((Compiled.ofTree root f).occurrence u).key
  rw [h.ids_eq, List.map_map] at hids
  rw [keys_ofTree hs.nodup_visitOrder]
  exact hids

/-- The root of a drawing is the node drawn for the root hop. -/
theorem root_id (h : g.Shows p) {o : Occurrence} {rest : Pattern} (hp : p = .root o :: rest)
    (hrest : ∀ hop ∈ rest, hop.isRoot = false) (hroot : g.Rooted root) :
    root.id = p.drawnId o.key := by
  have hids := h.ids_eq_cons hp hrest
  have hmem : root.id ∈ g.ids := List.mem_map_of_mem (f := (·.id)) hroot.root_mem
  rw [hids] at hmem
  rcases List.mem_cons.mp hmem with heq | htarget
  · exact heq
  · obtain ⟨e, he, hid⟩ := List.mem_map.mp htarget
    exact absurd hid (hroot.target_ne_root he)

theorem links_perm (h : g.Shows p) (hp : p.InOrder) (hs : g.Spans d root f)
    {φ : String → String} (hφ : ∀ key ∈ p.keys,
      φ key = ((Compiled.ofTree root f).occurrence (p.drawnId key)).key) :
    ((Compiled.ofTree root f).hops.filterMap Hop.link?).Perm
      ((p.filterMap Hop.link?).map (.rename φ)) := by
  let link : Visit Stem → Link := fun v =>
    ⟨((Compiled.ofTree root f).occurrence v.parent).key, v.label.branch.relation,
      ((Compiled.ofTree root f).occurrence v.label.node).key, v.label.branch.optional⟩
  -- Hops to visits, visits to edges, edges to hops: only the step in the middle changes the order.
  have hvisits : (Compiled.ofTree root f).hops.filterMap Hop.link? = (visits root f).map link := by
    rw [hops_ofTree hs.nodup_visitOrder, List.filterMap_cons_none rfl, List.filterMap_map,
      ← List.filterMap_eq_map]
    rfl
  have hedges : g.edges.map (fun e => link (g.visit d e)) =
      (p.filterMap Hop.link?).map (.rename φ) := by
    rw [h.edges_eq, List.map_filterMap, List.map_filterMap]
    refine List.filterMap_congr fun hop hhop => ?_
    cases hop with
    | root o => rfl
    | edge source relation target optional =>
      have hsource : source.key ∈ p.keys := hp.source_key_mem hhop
      have htarget : target.key ∈ p.keys := List.mem_map_of_mem (f := (·.introduces.key)) hhop
      show some (link (g.visit d ⟨p.drawnId source.key, p.drawnId target.key, relation,
        some optional⟩)) = some ⟨φ source.key, relation, φ target.key, optional⟩
      rw [hφ _ hsource, hφ _ htarget]
      rfl
  have hperm := hs.visits_perm_edges.map link
  rw [List.map_map] at hperm
  rw [hvisits, ← hedges]
  exact hperm

/-- Every key is mapped to the key of the occurrence of the node drawn for it. -/
theorem keyMap_ofTree (h : g.Shows p) (hs : g.Spans d root f) :
    p.keyMap g (.ofTree root f) = p.keys.map fun key =>
      (key, ((Compiled.ofTree root f).occurrence (p.drawnId key)).key) := by
  have hlen : p.length = g.nodes.length := by
    simpa using (congrArg List.length h.nodes_eq).symm
  rw [Pattern.keys, List.map_map]
  refine Pattern.keyMap_eq_map
    (fun hop => (Compiled.ofTree root f).occurrence (p.drawnId hop.introduces.key)) hlen
    fun entry he => ?_
  have hkey : entry.1.introduces.key ∈ p.keys :=
    List.mem_map_of_mem (f := (·.introduces.key)) (List.of_mem_zip he).1
  rw [h.id_of_mem_zip he]
  exact binding?_ofTree hs.nodup_visitOrder (hs.visitOrder_perm.mem_iff.mpr (h.drawnId_mem hkey))

/-- **A drawing that is compiled gives the pattern back with its keys renamed.** -/
theorem renames_ofTree (h : g.Shows p) (hp : p.InOrder) (hroot : g.Rooted root)
    (hs : g.Spans d root f) {n : Canonical} (hhops : n.hops = (Compiled.ofTree root f).hops)
    (hmap : n.keyMap = p.keyMap g (.ofTree root f)) : n.Renames p := by
  have hnd := hs.nodup_visitOrder
  rw [h.keyMap_ofTree hs] at hmap
  have hnew (key : String) (hkey : key ∈ p.keys) :
      n.newKey key = ((Compiled.ofTree root f).occurrence (p.drawnId key)).key :=
    Canonical.newKey_eq hmap hkey
  refine ⟨hp.nodup_keys, ?_, ?_, ?_, ?_, ?_⟩
  · rw [hmap]
    exact List.map_congr_left fun key hkey => by rw [hnew key hkey]
  · rw [hhops]
    refine bijOn_of_map_perm ?_ (nodup_keys_hops_ofTree hnd)
    rw [List.map_congr_left hnew]
    exact h.keys_perm hs
  · intro hop hhop hop' hhop' hkey
    rw [hhops] at hhop'
    obtain ⟨m, hm, hid, hschema⟩ := h.exists_node hhop
    obtain ⟨u, hu, hocc⟩ := exists_node_of_hop_mem hnd hhop'
    have hmem : m.id ∈ visitOrder root f :=
      hs.visitOrder_perm.mem_iff.mpr (List.mem_map_of_mem hm)
    rw [hnew _ (List.mem_map_of_mem (f := (·.introduces.key)) hhop), ← hid, ← hocc] at hkey
    -- Different nodes have different keys, so the hop introduces what the drawn node became.
    obtain rfl : u = m.id := List.inj_on_of_nodup_map (nodup_keys_ofTree hnd) hu hmem hkey
    rw [← hocc, hs.schema_occurrence hm, hschema]
  · obtain ⟨o, rest, hpo, hrest⟩ := hp.root_first
    refine ⟨o, (Compiled.ofTree root f).occurrence root.id, ?_, ?_, ?_⟩
    · rw [hpo, List.filter_cons_of_pos rfl, List.filter_eq_nil_iff.mpr fun hop hhop => by
        simp [hrest hop hhop]]
    · rw [hhops, hops_ofTree hnd, List.filter_cons_of_pos rfl, List.filter_eq_nil_iff.mpr]
      intro hop hhop
      obtain ⟨v, -, rfl⟩ := List.mem_map.mp hhop
      exact Bool.false_ne_true
    · have hkey : o.key ∈ p.keys := by
        rw [hpo]
        exact List.mem_cons_self
      rw [hnew _ hkey, h.root_id hpo hrest hroot]
  · rw [hhops]
    exact h.links_perm hp hs hnew

end Graph.Shows

/-! ### The canonical form of a pattern -/

namespace Pattern

variable {p : Pattern}

theorem renames_of_canonical (h : p.check = .ok ()) {n : Canonical} (hn : p.canonical = .ok n) :
    n.Renames p := by
  obtain ⟨hp, g, hdraw, hshows⟩ := exists_draw_of_check h (fun _ => none) .standard
  obtain ⟨g', c, hdraw', hc, rfl⟩ := canonical_eq_ok_iff.mp hn
  obtain rfl : g = g' := Except.ok.inj (hdraw.symm.trans hdraw')
  obtain ⟨root, f, rfl, hroot, -, hs, -⟩ :=
    Graph.exists_tree_of_compile hc (fun _ => none) .standard
  exact hshows.renames_ofTree hp hroot hs rfl rfl

/-- A canonical form is a pattern. -/
theorem check_of_canonical {n : Canonical} (hn : p.canonical = .ok n) : n.hops.check = .ok () := by
  obtain ⟨g, c, -, hc, rfl⟩ := canonical_eq_ok_iff.mp hn
  obtain ⟨-, -, -, -, -, -, -, g', hdraw, -⟩ :=
    Graph.exists_tree_of_compile hc (fun _ => none) .standard
  exact check_of_draw hdraw

theorem exists_canonical_iff (h : p.check = .ok ()) :
    (∃ n, p.canonical = .ok n) ↔ ∀ hop ∈ p, Text.isBlank hop.introduces.schema = false := by
  obtain ⟨hp, g, hdraw, hshows⟩ := exists_draw_of_check h (fun _ => none) .standard
  rw [← hshows.exists_compile_iff_named hp (d := false)]
  constructor
  · rintro ⟨n, hn⟩
    obtain ⟨g', c, hdraw', hc, -⟩ := canonical_eq_ok_iff.mp hn
    obtain rfl : g = g' := Except.ok.inj (hdraw.symm.trans hdraw')
    exact ⟨c, hc⟩
  · rintro ⟨c, hc⟩
    exact ⟨_, canonical_eq_ok_iff.mpr ⟨g, c, hdraw, hc, rfl⟩⟩

/-- A pattern without a canonical form has a blank schema, and the error names the node drawn for
it. -/
theorem error_of_canonical (h : p.check = .ok ()) {x : QueryError} (hx : p.canonical = .error x) :
    ∃ hop ∈ p, Text.isBlank hop.introduces.schema = true ∧
      x = .graph (.blankSchema (p.drawnId hop.introduces.key)) := by
  obtain ⟨hp, g, hdraw, hshows⟩ := exists_draw_of_check h (fun _ => none) .standard
  cases hc : g.compile false with
  | ok c =>
    have hn : p.canonical = .ok _ := canonical_eq_ok_iff.mpr ⟨g, c, hdraw, hc, rfl⟩
    exact absurd (hx.symm.trans hn) (by simp)
  | error e =>
    obtain ⟨hop, hhop, hblank, rfl⟩ := hshows.error_of_compile hp hc
    refine ⟨hop, hhop, hblank, ?_⟩
    unfold canonical at hx
    simp only [hdraw, hc, Except.error.injEq] at hx
    exact hx.symm

/-- **The canonical form of a pattern is the pattern with its keys renamed.** Every pattern without a
blank schema has one. -/
theorem exists_canonical_renames (h : p.check = .ok ())
    (hnamed : ∀ hop ∈ p, Text.isBlank hop.introduces.schema = false) :
    ∃ n, p.canonical = .ok n ∧ n.Renames p := by
  obtain ⟨n, hn⟩ := (exists_canonical_iff h).mpr hnamed
  exact ⟨n, hn, renames_of_canonical h hn⟩

end Pattern

/-- Two persons under the keys that the canonical form gives out, but the other way round. -/
def swappedKeys : Pattern :=
  [.root ⟨"Person", some "Person#2"⟩,
    .edge ⟨"Person", some "Person#2"⟩ "knows" ⟨"Person", none⟩ false]

theorem exists_canonical_swappedKeys : swappedKeys.check = .ok () ∧
    (∀ hop ∈ swappedKeys, Text.isBlank hop.introduces.schema = false) ∧
    ∃ n, swappedKeys.canonical = .ok n ∧ n.Renames swappedKeys := by
  have hcheck : swappedKeys.check = .ok () := by decide
  have hnamed : ∀ hop ∈ swappedKeys, Text.isBlank hop.introduces.schema = false := by decide
  exact ⟨hcheck, hnamed, Pattern.exists_canonical_renames hcheck hnamed⟩

end PatternQuery
