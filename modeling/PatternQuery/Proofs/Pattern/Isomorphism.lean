import PatternQuery.Proofs.Graph.CanonicalForm
import PatternQuery.Proofs.Pattern.Canonical

/-!
# Isomorphic patterns

Two patterns are isomorphic if the keys of one can be renamed to those of the other such that schemas,
the root and the links agree. The order of the hops plays no part, nor does the way a key is spelled:
an occurrence whose tag is its schema id is the same as one without a tag.

`Pattern.Iso.symm` and `Pattern.Iso.trans` make it an equivalence, and a canonical form is isomorphic
to its pattern (`Canonical.Renames.iso`). Isomorphic patterns have isomorphic drawings
(`Graph.Shows.exists_iso`) and so the same canonical form (`Pattern.Iso.hops_eq`).
-/

namespace PatternQuery

namespace Pattern

variable {p q r : Pattern} {φ ψ : String → String}

/-- The links of the edge hops. -/
def links (p : Pattern) : List Link := p.filterMap Hop.link?

/-- The schema of the occurrence with a key. -/
def schemaOf? (p : Pattern) (key : String) : Option String :=
  (p.find? (·.introduces.key == key)).map (·.introduces.schema)

/-- **A renaming that carries one pattern onto another:** a bijection of their keys that keeps schemas,
and carries the root hop to the root hop and the links onto the links. -/
structure Iso (p q : Pattern) (φ : String → String) : Prop where
  bijOn : Set.BijOn φ {key | key ∈ p.keys} {key | key ∈ q.keys}
  schema_eq : ∀ key ∈ p.keys, q.schemaOf? (φ key) = p.schemaOf? key
  root_eq : ∃ o o', p.filter Hop.isRoot = [.root o] ∧ q.filter Hop.isRoot = [.root o'] ∧
    o'.key = φ o.key
  mem_links_iff : ∀ l, l ∈ q.links ↔ l ∈ p.links.map (.rename φ)

theorem schemaOf?_of_mem (h : p.keys.Nodup) {hop : Hop} (hhop : hop ∈ p) :
    p.schemaOf? hop.introduces.key = some hop.introduces.schema := by
  rw [schemaOf?, find?_key_of_nodup h hhop, Option.map_some]

/-! ### Links -/

theorem mem_links_iff {l : Link} : l ∈ p.links ↔ ∃ source target,
    Hop.edge source l.relation target l.optional ∈ p ∧ source.key = l.source ∧
      target.key = l.target := by
  rw [links, List.mem_filterMap]
  constructor
  · rintro ⟨hop, hhop, hl⟩
    cases hop with
    | root o => exact absurd hl (by simp [Hop.link?])
    | edge source relation target optional =>
      obtain rfl := Option.some.inj hl
      exact ⟨source, target, hhop, rfl, rfl⟩
  · rintro ⟨source, target, hhop, hsource, htarget⟩
    refine ⟨_, hhop, ?_⟩
    rw [Hop.link?, hsource, htarget]

theorem Linked.source_mem (h : p.Linked) {l : Link} (hl : l ∈ p.links) : l.source ∈ p.keys := by
  obtain ⟨source, target, hhop, hsource, -⟩ := mem_links_iff.mp hl
  exact hsource ▸ h.source_key_mem hhop

theorem target_mem {l : Link} (hl : l ∈ p.links) : l.target ∈ p.keys := by
  obtain ⟨source, target, hhop, -, htarget⟩ := mem_links_iff.mp hl
  exact htarget ▸ List.mem_map_of_mem (f := (·.introduces.key)) hhop

theorem Linked.nodup_targets (h : p.Linked) : (p.links.map (·.target)).Nodup := by
  have hsub (p : Pattern) : (p.links.map (·.target)).Sublist p.keys := by
    induction p with
    | nil => exact .slnil
    | cons hop p ih =>
      cases hop with
      | root o => exact ih.cons _
      | edge source relation target optional => exact ih.cons_cons _
  exact h.nodup_keys.sublist (hsub p)

theorem Linked.nodup_links (h : p.Linked) : p.links.Nodup := .of_map _ h.nodup_targets

theorem root_key_mem {o : Occurrence} (h : p.filter Hop.isRoot = [.root o]) : o.key ∈ p.keys := by
  have hmem : Hop.root o ∈ p := (List.mem_filter.mp (h ▸ List.mem_singleton_self _)).1
  exact List.mem_map_of_mem (f := (·.introduces.key)) hmem

namespace Iso

/-! ### Composition -/

theorem trans (hpq : p.Iso q φ) (hqr : q.Iso r ψ) : p.Iso r (ψ ∘ φ) where
  bijOn := hqr.bijOn.comp hpq.bijOn
  schema_eq key hkey := by
    rw [Function.comp_apply, hqr.schema_eq _ (hpq.bijOn.mapsTo hkey), hpq.schema_eq key hkey]
  root_eq := by
    obtain ⟨o, o', hp, hq, hkey⟩ := hpq.root_eq
    obtain ⟨o₁, o'', hq', hr, hkey'⟩ := hqr.root_eq
    obtain rfl : o' = o₁ := by simpa using hq.symm.trans hq'
    exact ⟨o, o'', hp, hr, by rw [hkey', hkey]; rfl⟩
  mem_links_iff l := by
    rw [hqr.mem_links_iff, List.mem_map, List.mem_map]
    constructor
    · rintro ⟨l', hl', rfl⟩
      obtain ⟨l₀, hl₀, rfl⟩ := List.mem_map.mp ((hpq.mem_links_iff l').mp hl')
      exact ⟨l₀, hl₀, rfl⟩
    · rintro ⟨l₀, hl₀, rfl⟩
      exact ⟨l₀.rename φ, (hpq.mem_links_iff _).mpr (List.mem_map_of_mem hl₀), rfl⟩

theorem symm (hp : p.Linked) (hpq : p.Iso q φ) :
    ∃ ψ, q.Iso p ψ ∧ Set.InvOn ψ φ {key | key ∈ p.keys} {key | key ∈ q.keys} := by
  obtain ⟨ψ, hinv⟩ : ∃ ψ, Set.InvOn ψ φ {key | key ∈ p.keys} {key | key ∈ q.keys} :=
    ⟨_, hpq.bijOn.invOn_invFunOn⟩
  have hback (l : Link) (hl : l ∈ p.links) : (l.rename φ).rename ψ = l := by
    have hsource : ψ (φ l.source) = l.source := hinv.1 (hp.source_mem hl)
    have htarget : ψ (φ l.target) = l.target := hinv.1 (target_mem hl)
    simp only [Link.rename, hsource, htarget]
  have hbijOn := hpq.bijOn.symm hinv.symm
  refine ⟨ψ, ⟨hbijOn, fun key hkey => ?_, ?_, fun l => ?_⟩, hinv⟩
  · rw [← hpq.schema_eq _ (hbijOn.mapsTo hkey), hinv.2 hkey]
  · obtain ⟨o, o', ho, ho', hkey⟩ := hpq.root_eq
    exact ⟨o', o, ho', ho, by rw [hkey]; exact (hinv.1 (root_key_mem ho)).symm⟩
  · rw [List.mem_map]
    constructor
    · intro hl
      exact ⟨l.rename φ, (hpq.mem_links_iff _).mpr (List.mem_map_of_mem hl), hback l hl⟩
    · rintro ⟨l', hl', rfl⟩
      obtain ⟨l₀, hl₀, rfl⟩ := List.mem_map.mp ((hpq.mem_links_iff l').mp hl')
      rwa [hback l₀ hl₀]

theorem links_perm (hp : p.Linked) (hq : q.Linked) (hpq : p.Iso q φ) :
    q.links.Perm (p.links.map (.rename φ)) := by
  refine (List.perm_ext_iff_of_nodup hq.nodup_links ?_).mpr hpq.mem_links_iff
  refine hp.nodup_links.map_on fun l hl l' hl' heq => ?_
  obtain ⟨hsource, hrelation, htarget, hoptional⟩ := Link.mk.inj heq
  have hsource := hpq.bijOn.injOn (hp.source_mem hl) (hp.source_mem hl') hsource
  have htarget := hpq.bijOn.injOn (target_mem hl) (target_mem hl') htarget
  exact (Link.mk.injEq ..).mpr ⟨hsource, hrelation, htarget, hoptional⟩

end Iso

end Pattern

/-! ### Drawings -/

/-- The edge drawn for a link. -/
def Link.drawn (p : Pattern) (l : Link) : Edge :=
  ⟨p.drawnId l.source, p.drawnId l.target, l.relation, some l.optional⟩

namespace Graph.Shows

variable {g h : Graph} {p q : Pattern} {φ : String → String}

theorem edges_eq_links (hg : g.Shows p) : g.edges = p.links.map (Link.drawn p) := by
  rw [hg.edges_eq, Pattern.links, List.map_filterMap]
  refine List.filterMap_congr fun hop _ => ?_
  cases hop <;> rfl

theorem bijOn_drawnId (hg : g.Shows p) :
    Set.BijOn p.drawnId {key | key ∈ p.keys} {u | u ∈ g.ids} := by
  refine ⟨fun key hkey => hg.drawnId_mem hkey, p.drawnId_injOn, fun u hu => ?_⟩
  have hu : u ∈ g.ids := hu
  rw [hg.ids_eq] at hu
  exact List.mem_map.mp hu

theorem schemaOf?_of_node (hg : g.Shows p) (hp : p.Linked) {n : Node} (hn : n ∈ g.nodes) :
    ∃ key ∈ p.keys, n.id = p.drawnId key ∧ p.schemaOf? key = some n.schema := by
  obtain ⟨hop, hhop, hid, hschema⟩ := hg.exists_hop_of_node hn
  refine ⟨_, List.mem_map_of_mem (f := (·.introduces.key)) hhop, hid, ?_⟩
  rw [Pattern.schemaOf?_of_mem hp.nodup_keys hhop, hschema]

/-- **Isomorphic patterns have isomorphic drawings.** -/
theorem exists_iso (hg : g.Shows p) (hh : h.Shows q) (hp : p.Linked) (hq : q.Linked)
    (hiso : p.Iso q φ) : ∃ χ, g.Iso false h false χ := by
  obtain ⟨back, hinv⟩ : ∃ back, Set.InvOn back p.drawnId {key | key ∈ p.keys} {u | u ∈ g.ids} :=
    ⟨_, hg.bijOn_drawnId.invOn_invFunOn⟩
  have hback (key : String) (hkey : key ∈ p.keys) : back (p.drawnId key) = key := hinv.1 hkey
  -- A node goes back to the key it was drawn for, and the new key to its own node.
  refine ⟨q.drawnId ∘ φ ∘ back, ?_, fun n hn m hm hid => ?_, ?_⟩
  · exact hh.bijOn_drawnId.comp (hiso.bijOn.comp (hg.bijOn_drawnId.symm hinv.symm))
  · obtain ⟨key, hkey, hnid, hschema⟩ := hg.schemaOf?_of_node hp hn
    obtain ⟨key', hkey', hmid, hschema'⟩ := hh.schemaOf?_of_node hq hm
    rw [hnid, hmid, Function.comp_apply, Function.comp_apply, hback key hkey] at hid
    obtain rfl : key' = φ key := q.drawnId_injOn hkey' (hiso.bijOn.mapsTo hkey) hid
    rw [hiso.schema_eq key hkey, hschema] at hschema'
    exact (Option.some.inj hschema').symm
  · have hedges : (g.edges.map fun e => (e.settle false).rename (q.drawnId ∘ φ ∘ back)) =
        (p.links.map (Link.rename φ)).map fun l => (l.drawn q).settle false := by
      rw [hg.edges_eq_links, List.map_map, List.map_map]
      refine List.map_congr_left fun l hl => ?_
      simp only [Function.comp, Link.drawn, Edge.settle, Edge.rename, Link.rename,
        hback _ (hp.source_mem hl), hback _ (Pattern.target_mem hl)]
    have hperm := ((hiso.links_perm hp hq).map fun l => (l.drawn q).settle false).symm
    have hdrawn : h.edges.map (Edge.settle false) =
        q.links.map fun l => (l.drawn q).settle false := by
      rw [hh.edges_eq_links, List.map_map]
      rfl
    rw [hedges, hdrawn]
    exact hperm

end Graph.Shows

/-! ### Canonical forms -/

/-- **A canonical form is isomorphic to its pattern.** -/
theorem Canonical.Renames.iso {n : Canonical} {p : Pattern} (h : n.Renames p)
    (hn : (Pattern.keys n.hops).Nodup) : p.Iso n.hops n.newKey where
  bijOn := h.bijOn
  schema_eq key hkey := by
    obtain ⟨hop, hhop, rfl⟩ := List.mem_map.mp hkey
    obtain ⟨hop', hhop', hkey'⟩ := List.mem_map.mp (h.bijOn.mapsTo hkey)
    rw [Pattern.schemaOf?_of_mem h.nodup_keys hhop, ← hkey', Pattern.schemaOf?_of_mem hn hhop',
      h.schema_eq hop hhop hop' hhop' hkey']
  root_eq := h.root_eq
  mem_links_iff _ := h.links_perm.mem_iff

namespace Pattern

variable {p q : Pattern} {n m : Canonical} {φ : String → String}

theorem inOrder_of_check (h : p.check = .ok ()) : p.InOrder := by
  obtain ⟨placed, hplace⟩ := exists_place_of_check h
  exact inOrder_of_place hplace

theorem iso_of_canonical (h : p.check = .ok ()) (hn : p.canonical = .ok n) :
    p.Iso n.hops n.newKey :=
  (renames_of_canonical h hn).iso (inOrder_of_check (check_of_canonical hn)).nodup_keys

/-- **Isomorphic patterns have the same canonical form.** -/
theorem Iso.hops_eq (hiso : p.Iso q φ) (hp : p.check = .ok ()) (hq : q.check = .ok ())
    (hn : p.canonical = .ok n) (hm : q.canonical = .ok m) : m.hops = n.hops := by
  obtain ⟨g, c, hdraw, hc, rfl⟩ := canonical_eq_ok_iff.mp hn
  obtain ⟨h, c', hdraw', hc', rfl⟩ := canonical_eq_ok_iff.mp hm
  obtain ⟨hpOrder, g', hg', hshows⟩ := exists_draw_of_check hp (fun _ => none) .standard
  obtain ⟨hqOrder, h', hh', hshows'⟩ := exists_draw_of_check hq (fun _ => none) .standard
  obtain rfl := Except.ok.inj (hdraw.symm.trans hg')
  obtain rfl := Except.ok.inj (hdraw'.symm.trans hh')
  obtain ⟨χ, hdrawn⟩ := hshows.exists_iso hshows' hpOrder.toLinked hqOrder.toLinked hiso
  exact hdrawn.hops_eq hc hc'

end Pattern

end PatternQuery
