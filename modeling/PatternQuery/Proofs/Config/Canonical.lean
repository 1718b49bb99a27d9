import PatternQuery.Proofs.Config.Valid
import PatternQuery.Proofs.Pattern.Canonical

/-!
# Which patterns and configurations have a canonical form

A pattern has a canonical form iff none of its schemas is blank, and so has a configuration. Blank
schemas are not among the things that a pattern is tested for, but a graph with one does not
compile, and the way to the canonical form leads through a graph. So the check of a pattern and that
of a configuration let through what `canonical` refuses, by this one difference
(`exists_canonical_iff_named`): no other error can come up, and of the parts of a configuration the
columns and the page never stand in the way.
-/

namespace PatternQuery

/-- The id of a column after its occurrence has been renamed. -/
def Canonical.renameId (n : Canonical) (id : ColumnId) : ColumnId :=
  ⟨id.field, n.newKey id.schema⟩

namespace Config

variable {c : Config} {n : Canonical}

/-- Columns of occurrences that the pattern introduces are still different under the new keys. -/
theorem Valid.renameId_injOn (h : c.Valid) (hn : n.Renames c.pattern) :
    Set.InjOn n.renameId {id | id ∈ c.columns.columns.map (·.id)} := by
  have hschema (id : ColumnId) (hid : id ∈ c.columns.columns.map (·.id)) :
      id.schema ∈ c.pattern.keys := by
    obtain ⟨column, hcolumn, rfl⟩ := List.mem_map.mp hid
    exact h.introduced column hcolumn
  rintro ⟨field, schema⟩ hid ⟨field', schema'⟩ hid' heq
  obtain ⟨rfl, hkey⟩ := ColumnId.mk.inj heq
  obtain rfl : schema = schema' := hn.bijOn.injOn (hschema _ hid) (hschema _ hid') hkey
  rfl

/-- **The canonical form of a valid configuration** has the canonical pattern and the renamed columns,
and keeps the rest. It is valid. -/
theorem Valid.canonical_eq (h : c.Valid) (hn : c.pattern.canonical = .ok n) :
    let d : Config := ⟨c.columns.rename n.renameId, n.hops, c.applyRBAC, c.pagination⟩
    c.canonical = .ok d ∧ d.Valid := by
  intro d
  have hrenames := Pattern.renames_of_canonical h.pattern_check hn
  have hordered : (c.columns.rename n.renameId).Ordered :=
    h.columns_ordered.rename (h.renameId_injOn hrenames)
  have hcolumns : ColumnSet.ofColumns (c.columns.columns.map (renameColumn n.keyMap)) =
      .ok (c.columns.rename n.renameId) := hordered.ofColumns_columns
  -- `make` checks the result once more, so it has to be valid for there to be one.
  have hvalid : d.Valid := by
    refine ⟨Pattern.check_of_canonical hn, hordered, h.limit_ne_zero, fun column hcolumn => ?_⟩
    obtain ⟨column', hcolumn', rfl⟩ := List.mem_map.mp hcolumn
    exact hrenames.bijOn.mapsTo (h.introduced column' hcolumn')
  refine ⟨?_, hvalid⟩
  unfold canonical
  rw [bind_eq_ok_iff]
  refine ⟨n, hn, ?_⟩
  have hmake : make (c.columns.rename n.renameId) n.hops c.applyRBAC c.pagination = .ok d :=
    make_eq_ok_iff.mpr ⟨rfl, hvalid.check_eq⟩
  simp only [hcolumns, hmake]
  rfl

theorem canonical_eq_error {x : QueryError} (hx : c.pattern.canonical = .error x) :
    c.canonical = .error x := by
  unfold canonical
  rw [hx]
  rfl

theorem Valid.exists_canonical_iff (h : c.Valid) :
    (∃ d, c.canonical = .ok d) ↔ ∃ n, c.pattern.canonical = .ok n := by
  constructor
  · rintro ⟨d, hd⟩
    obtain ⟨n, hn, -⟩ := bind_eq_ok_iff.mp hd
    exact ⟨n, hn⟩
  · rintro ⟨n, hn⟩
    obtain ⟨hd, -⟩ := h.canonical_eq hn
    exact ⟨_, hd⟩

theorem Valid.error_of_canonical (h : c.Valid) {x : QueryError} (hx : c.canonical = .error x) :
    c.pattern.canonical = .error x := by
  cases hn : c.pattern.canonical with
  | ok n =>
    obtain ⟨hd, -⟩ := h.canonical_eq hn
    exact absurd (hx.symm.trans hd) (by simp)
  | error y =>
    rw [canonical_eq_error hn] at hx
    rw [Except.error.inj hx]

end Config

/-- **Only a blank schema stands in the way of a canonical form.** A pattern without one can be drawn,
compiled and brought into canonical form, and so can a configuration that was loaded; with one, the
error names a node drawn for a blank schema. -/
theorem exists_canonical_iff_named (p : Pattern) (v : Json) (c : Config) :
    (p.check = .ok () →
      ((∃ n, p.canonical = .ok n) ↔ ∀ hop ∈ p, Text.isBlank hop.introduces.schema = false) ∧
      (∀ x, p.canonical = .error x → ∃ hop ∈ p, Text.isBlank hop.introduces.schema = true ∧
        x = .graph (.blankSchema (p.drawnId hop.introduces.key))) ∧
      ∀ (find : String → Option Schema) (layout : Layout) (d : Bool),
        ∃ g, p.draw find layout = .ok g ∧
          ((∃ c, g.compile d = .ok c) ↔
            ∀ hop ∈ p, Text.isBlank hop.introduces.schema = false)) ∧
    (Config.load v = .ok c →
      ((∃ d, c.canonical = .ok d) ↔
        ∀ hop ∈ c.pattern, Text.isBlank hop.introduces.schema = false) ∧
      ∀ x, c.canonical = .error x → ∃ hop ∈ c.pattern,
        Text.isBlank hop.introduces.schema = true ∧
          x = .graph (.blankSchema (c.pattern.drawnId hop.introduces.key))) := by
  constructor
  · intro hp
    refine ⟨Pattern.exists_canonical_iff hp, fun x hx => Pattern.error_of_canonical hp hx, ?_⟩
    intro find layout d
    obtain ⟨horder, g, hdraw, hshows⟩ := Pattern.exists_draw_of_check hp find layout
    exact ⟨g, hdraw, hshows.exists_compile_iff_named horder⟩
  · intro hc
    have hvalid := Config.valid_of_load hc
    refine ⟨?_, fun x hx => ?_⟩
    · rw [hvalid.exists_canonical_iff, Pattern.exists_canonical_iff hvalid.pattern_check]
    · exact Pattern.error_of_canonical hvalid.pattern_check (hvalid.error_of_canonical hx)

/-- A root hop of a blank schema. -/
def blankRoot : Pattern := [.root ⟨"", none⟩]

/-- A stored configuration with that pattern and nothing else. -/
def storedBlankRoot : Json :=
  .obj [("patterns", .arr [.obj [("from", .obj [("schemaId", .str "")])]])]

theorem check_blankRoot : blankRoot.check = .ok () := by
  decide

theorem load_storedBlankRoot :
    Config.load storedBlankRoot = .ok ⟨.empty, blankRoot, false, .standard⟩ := by
  have hcheck : Config.check ⟨.empty, blankRoot, false, .standard⟩ = .ok () :=
    Config.check_eq_ok_iff.mpr ⟨check_blankRoot, ColumnSet.ordered_empty.checkInvariants_eq,
      by decide, fun _ hcolumn => absurd hcolumn List.not_mem_nil⟩
  have hmake := Config.make_eq_ok_iff.mpr ⟨rfl, hcheck⟩
  have hread : Config.readRecord storedBlankRoot = .ok { pattern := some blankRoot } := rfl
  simp only [Config.load, hread, Json.required, bind, Except.bind, pure, Except.pure, hmake]

/-- It passes the check and is loaded, and its schema keeps the pattern and the configuration from
having a canonical form. -/
theorem error_of_canonical_blankRoot :
    blankRoot.check = .ok () ∧
    Config.load storedBlankRoot = .ok ⟨.empty, blankRoot, false, .standard⟩ ∧
    blankRoot.canonical = .error (.graph (.blankSchema "n0")) ∧
    Config.canonical ⟨.empty, blankRoot, false, .standard⟩ =
      .error (.graph (.blankSchema "n0")) := by
  obtain ⟨hpattern, hconfig⟩ := exists_canonical_iff_named blankRoot storedBlankRoot
    ⟨.empty, blankRoot, false, .standard⟩
  obtain ⟨hcanonical, herror, -⟩ := hpattern check_blankRoot
  obtain ⟨hloaded, hconfigError⟩ := hconfig load_storedBlankRoot
  have hblank : ¬ ∀ hop ∈ blankRoot, Text.isBlank hop.introduces.schema = false := by decide
  refine ⟨check_blankRoot, load_storedBlankRoot, ?_, ?_⟩
  · cases hx : blankRoot.canonical with
    | ok n => exact absurd (hcanonical.mp ⟨n, hx⟩) hblank
    | error x =>
      obtain ⟨hop, hhop, -, rfl⟩ := herror x hx
      obtain rfl := List.mem_singleton.mp hhop
      rfl
  · cases hx : Config.canonical ⟨.empty, blankRoot, false, .standard⟩ with
    | ok d => exact absurd (hloaded.mp ⟨d, hx⟩) hblank
    | error x =>
      obtain ⟨hop, hhop, -, rfl⟩ := hconfigError x hx
      obtain rfl := List.mem_singleton.mp hhop
      rfl

/-- **What passes the check need not have a canonical form.** -/
theorem not_exists_canonical_of_check :
    (¬ ∀ p : Pattern, p.check = .ok () → ∃ n, p.canonical = .ok n) ∧
    ¬ ∀ (v : Json) (c : Config), Config.load v = .ok c → ∃ d, c.canonical = .ok d := by
  have hnone : ¬ ∃ n, blankRoot.canonical = .ok n := by
    rw [Pattern.exists_canonical_iff check_blankRoot]
    decide
  constructor
  · intro hall
    exact hnone (hall blankRoot check_blankRoot)
  · intro hall
    have hvalid := Config.valid_of_load load_storedBlankRoot
    exact hnone (hvalid.exists_canonical_iff.mp (hall _ _ load_storedBlankRoot))

end PatternQuery
