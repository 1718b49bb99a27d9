import PatternQuery.Proofs.Config.Canonical
import PatternQuery.Proofs.Pattern.Twins

/-!
# Canonical forms do not depend on how a query is written

A configuration can be written with other keys, its hops in another order. Its canonical pattern is the
same (`Pattern.Iso.hops_eq`). Its canonical columns are the same too if the pattern has no twins: then
there is only one renaming to the canonical pattern, so renaming twice, to the other keys and from
there to the canonical ones, is renaming once. With twins the columns of one may end up at the other.
-/

namespace PatternQuery

namespace Config

variable {c d : Config} {φ : String → String}

/-- **The same configuration written in another way:** under other keys, its hops in another order. The
columns correspond by position. -/
structure Rewritten (c d : Config) (φ : String → String) : Prop where
  pattern : c.pattern.Iso d.pattern φ
  columns : List.Forall₂ (fun old new : Column =>
    new.id.field = old.id.field ∧ new.id.schema = φ old.id.schema ∧
      new.selectOrder = old.selectOrder ∧ new.groupOrder = old.groupOrder)
    c.columns.columns d.columns.columns
  applyRBAC_eq : d.applyRBAC = c.applyRBAC
  pagination_eq : d.pagination = c.pagination

theorem Rewritten.rename_eq (h : c.Rewritten d φ) {n m : Canonical}
    (hkeys : ∀ column ∈ c.columns.columns,
      m.newKey (φ column.id.schema) = n.newKey column.id.schema) :
    d.columns.rename m.renameId = c.columns.rename n.renameId := by
  have hcolumns := h.columns
  refine congrArg ColumnSet.mk ?_
  generalize c.columns.columns = olds, d.columns.columns = news at hkeys hcolumns ⊢
  induction hcolumns with
  | nil => rfl
  | @cons old new olds news hcolumn _ ih =>
    obtain ⟨hfield, hschema, hselect, hgroup⟩ := hcolumn
    have hkey := hkeys old List.mem_cons_self
    rw [List.map_cons, List.map_cons, ih fun column hmem => hkeys column (List.mem_cons_of_mem _ hmem)]
    simp only [Canonical.renameId, hfield, hschema, hselect, hgroup, hkey]

end Config

/-- **Two ways to write a configuration have the same canonical pattern,** and if the pattern has no
twins the same canonical form altogether. -/
theorem canonical_of_rewritten (c d : Config) (φ : String → String) (hc : c.Valid) (hd : d.Valid)
    (hcnamed : ∀ hop ∈ c.pattern, Text.isBlank hop.introduces.schema = false)
    (hdnamed : ∀ hop ∈ d.pattern, Text.isBlank hop.introduces.schema = false)
    (h : c.Rewritten d φ) :
    ∃ c' d', c.canonical = .ok c' ∧ d.canonical = .ok d' ∧ c'.pattern = d'.pattern ∧
      (¬ c.pattern.HasTwins → c' = d') := by
  obtain ⟨n, hn⟩ := (Pattern.exists_canonical_iff hc.pattern_check).mpr hcnamed
  obtain ⟨m, hm⟩ := (Pattern.exists_canonical_iff hd.pattern_check).mpr hdnamed
  have hhops : m.hops = n.hops := h.pattern.hops_eq hc.pattern_check hd.pattern_check hn hm
  refine ⟨_, _, (hc.canonical_eq hn).1, (hd.canonical_eq hm).1, hhops.symm, fun htwins => ?_⟩
  -- One canonical pattern is reached in two ways, from `c` directly and from `c` by way of `d`.
  have hcn := Pattern.iso_of_canonical hc.pattern_check hn
  have hdm := Pattern.iso_of_canonical hd.pattern_check hm
  rw [hhops] at hdm
  have hkeys (column : Column) (hcolumn : column ∈ c.columns.columns) :
      m.newKey (φ column.id.schema) = n.newKey column.id.schema :=
    (h.pattern.trans hdm).eqOn (Pattern.inOrder_of_check hc.pattern_check) htwins hcn
      (hc.introduced column hcolumn)
  rw [h.rename_eq hkeys, hhops, h.applyRBAC_eq, h.pagination_eq]

/-- A query of persons, where they live and for whom they work. -/
def personConfig : Config :=
  ⟨⟨[⟨⟨"name", "Person"⟩, 1, none⟩, ⟨⟨"name", "home"⟩, 2, some 0⟩]⟩,
    [.root ⟨"Person", none⟩, .edge ⟨"Person", none⟩ "lives in" ⟨"City", some "home"⟩ false,
      .edge ⟨"Person", none⟩ "works for" ⟨"Company", none⟩ true], true, .standard⟩

/-- The same query with other tags, its last two hops the other way round. -/
def personConfigRewritten : Config :=
  ⟨⟨[⟨⟨"name", "p"⟩, 1, none⟩, ⟨⟨"name", "City"⟩, 2, some 0⟩]⟩,
    [.root ⟨"Person", some "p"⟩, .edge ⟨"Person", some "p"⟩ "works for" ⟨"Company", none⟩ true,
      .edge ⟨"Person", some "p"⟩ "lives in" ⟨"City", none⟩ false], true, .standard⟩

/-- Where the keys of the one went in the other. -/
def personRenaming (key : String) : String :=
  if key = "Person" then "p" else if key = "home" then "City" else key

theorem rewritten_personConfig : personConfig.Rewritten personConfigRewritten personRenaming where
  pattern := {
    bijOn := bijOn_of_map_perm (by decide) (by decide)
    schema_eq := by decide
    root_eq := ⟨_, _, rfl, rfl, by decide⟩
    mem_links_iff := fun l => (show List.Perm _ _ by decide : personConfigRewritten.pattern.links.Perm
      (personConfig.pattern.links.map (Link.rename personRenaming))).mem_iff }
  columns := .cons (by decide) (.cons (by decide) .nil)
  applyRBAC_eq := rfl
  pagination_eq := rfl

theorem not_hasTwins_personConfig : ¬ personConfig.pattern.HasTwins := by
  rintro ⟨l, hl, l', hl', hne, -, hrelation, -⟩
  have hapart : ∀ l ∈ personConfig.pattern.links, ∀ l' ∈ personConfig.pattern.links,
      l.relation = l'.relation → l = l' := by decide
  exact hne (hapart l hl l' hl' hrelation)

theorem canonical_personConfig : personConfig.Valid ∧ personConfigRewritten.Valid ∧
    personConfig.Rewritten personConfigRewritten personRenaming ∧
    ¬ personConfig.pattern.HasTwins ∧
    ∃ c', personConfig.canonical = .ok c' ∧ personConfigRewritten.canonical = .ok c' := by
  have hvalid : personConfig.Valid :=
    ⟨by decide, ⟨by decide, by decide, by decide⟩, by decide, by decide⟩
  have hvalid' : personConfigRewritten.Valid :=
    ⟨by decide, ⟨by decide, by decide, by decide⟩, by decide, by decide⟩
  obtain ⟨c', d', hc', hd', -, heq⟩ := canonical_of_rewritten personConfig personConfigRewritten
    personRenaming hvalid hvalid' (by decide) (by decide) rewritten_personConfig
  refine ⟨hvalid, hvalid', rewritten_personConfig, not_hasTwins_personConfig, c', hc', ?_⟩
  rw [heq not_hasTwins_personConfig]
  exact hd'

end PatternQuery
