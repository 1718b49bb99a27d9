import PatternQuery.Proofs.Config.Canonical
import PatternQuery.Proofs.Graph.FixedPoint

/-!
# The canonical form of a configuration

Bringing a configuration into canonical form changes the names of the occurrences and the order of the
hops, and nothing else. The columns are carried over one by one along the map of keys. They are taken
in and checked again on the way, which succeeds because the map is one-to-one on the keys in use,
whichever way it permutes them.

The canonical form is its own canonical form. For the pattern that is known together with the map of
keys, which is the identity on it (`Pattern.canonical_of_canonical`); without the map, siblings that
agree in everything could be exchanged and their columns with them.
-/

namespace PatternQuery

variable {n : Canonical}

theorem Canonical.Renames.lookup_keyMap {p : Pattern} (h : n.Renames p) {key : String}
    (hkey : key ∈ p.keys) : n.keyMap.lookup key = some (n.newKey key) := by
  rw [h.keyMap_eq, List.lookup_graph n.newKey hkey]

namespace Config

variable {c d : Config}

/-- **What a canonical form keeps:** everything but the pattern, and of the columns everything but the
keys of their occurrences, which are mapped to the new keys. -/
structure CanonicalFrom (d c : Config) (n : Canonical) : Prop where
  pattern_eq : d.pattern = n.hops
  applyRBAC_eq : d.applyRBAC = c.applyRBAC
  pagination_eq : d.pagination = c.pagination
  /-- There are as many columns, and they correspond by position. -/
  columns : List.Forall₂ (fun old new : Column =>
    new.id.field = old.id.field ∧ new.selectOrder = old.selectOrder ∧
      new.groupOrder = old.groupOrder ∧ n.keyMap.lookup old.id.schema = some new.id.schema)
    c.columns.columns d.columns.columns

theorem Valid.canonicalFrom (h : c.Valid) (hn : c.pattern.canonical = .ok n) :
    CanonicalFrom ⟨c.columns.rename n.renameId, n.hops, c.applyRBAC, c.pagination⟩ c n where
  pattern_eq := rfl
  applyRBAC_eq := rfl
  pagination_eq := rfl
  columns := by
    rw [ColumnSet.rename, List.forall₂_map_right_iff, List.forall₂_same]
    intro column hcolumn
    have hrenames := Pattern.renames_of_canonical h.pattern_check hn
    exact ⟨rfl, rfl, rfl, hrenames.lookup_keyMap (h.introduced column hcolumn)⟩

theorem Valid.rename_eq (h : c.Valid) (hmap : n.keyMap = c.pattern.keys.map fun key => (key, key)) :
    c.columns.rename n.renameId = c.columns := by
  have hid (column : Column) (hcolumn : column ∈ c.columns.columns) :
      ({ column with id := n.renameId column.id } : Column) = column := by
    have hkey := Canonical.newKey_eq (φ := id) hmap (h.introduced column hcolumn)
    rw [Canonical.renameId, hkey]
    rfl
  refine congrArg ColumnSet.mk ?_
  rw [List.map_congr_left hid, List.map_id']

/-- **A canonical form is its own canonical form.** -/
theorem canonical_of_canonical (h : d.Valid) {p : Pattern} (hn : p.canonical = .ok n)
    (hd : d.pattern = n.hops) : d.canonical = .ok d := by
  have hfixed := Pattern.canonical_of_canonical hn
  rw [← hd] at hfixed
  obtain ⟨hcanonical, -⟩ := h.canonical_eq hfixed
  rw [hcanonical, h.rename_eq (by rw [Pattern.keys, List.map_map]; rfl)]

end Config

/-- **The canonical form of a configuration** changes the keys and the order of the hops only, is valid,
and is its own canonical form. Every valid configuration without a blank schema has one. -/
theorem exists_canonical_config (c : Config) (h : c.Valid)
    (hnamed : ∀ hop ∈ c.pattern, Text.isBlank hop.introduces.schema = false) :
    ∃ n d, c.pattern.canonical = .ok n ∧ c.canonical = .ok d ∧ d.CanonicalFrom c n ∧
      d.check = .ok () ∧ d.Valid ∧ d.canonical = .ok d := by
  obtain ⟨n, hn⟩ := (Pattern.exists_canonical_iff h.pattern_check).mpr hnamed
  obtain ⟨hcanonical, hvalid⟩ := h.canonical_eq hn
  exact ⟨n, _, hn, hcanonical, h.canonicalFrom hn, hvalid.check_eq, hvalid,
    Config.canonical_of_canonical hvalid hn rfl⟩

/-- The same column of both occurrences of `swappedKeys`, grouped by one of them. -/
def swappedConfig : Config :=
  ⟨⟨[⟨⟨"name", "Person#2"⟩, 1, none⟩, ⟨⟨"name", "Person"⟩, 2, some 0⟩]⟩, swappedKeys, true, .standard⟩

theorem valid_swappedConfig : swappedConfig.Valid where
  pattern_check := by decide
  columns_ordered := ⟨by decide, by decide, by decide⟩
  limit_ne_zero := by decide
  introduced := by decide

/-- The keys of its columns change places, and the columns do not. -/
theorem exists_canonical_swappedConfig : swappedConfig.Valid ∧
    (∀ hop ∈ swappedConfig.pattern, Text.isBlank hop.introduces.schema = false) ∧
    ∃ n d, swappedConfig.pattern.canonical = .ok n ∧ swappedConfig.canonical = .ok d ∧
      d.CanonicalFrom swappedConfig n ∧ d.check = .ok () ∧ d.Valid ∧ d.canonical = .ok d := by
  have hnamed : ∀ hop ∈ swappedConfig.pattern, Text.isBlank hop.introduces.schema = false := by
    decide
  exact ⟨valid_swappedConfig, hnamed,
    exists_canonical_config swappedConfig valid_swappedConfig hnamed⟩

end PatternQuery
