import PatternQuery.Proofs.Payload.Attribution
import PatternQuery.Proofs.Payload.Nested

/-!
# What nested tables hide

A flat table leaves a column out by its key: the first field of the schema that answers to the key decides
(`Attribution.isShown_iff`). A nested table leaves a column out by its field, and the columns that are left
read their members by name and by id, whichever field answers to these first. So a key that is hidden in a
flat table can be read in a nested one: by a field that has it as its id, behind a hidden field that has it
as its name.

What stands under hidden keys has no effect on the columns and cells of the root block iff no visible field
reads a hidden key (`NestedPayload.hides_iff`). One direction is that a cell depends only on the members that
its field reads (`Field.cell_congr`), the other that a row of a single member shows what its field reads
(`Field.Reads.cell_eq`).
-/

namespace PatternQuery

/-! ### Keys -/

/-- **The hidden keys of a schema:** those to which a hidden field answers first. The member that holds the
child blocks is no key. -/
def Schema.hiddenKeys (s : Schema) : Set String :=
  {k | k ≠ "children" ∧ ∃ f, s.FirstAnswering k f ∧ f.hidden = true}

theorem Schema.mem_hiddenKeys_iff {s : Schema} {k : String} : k ∈ s.hiddenKeys ↔
    k ≠ "children" ∧ ∃ f, s.field? k = some f ∧ f.hidden = true := by
  simp only [Schema.field?_eq_some_iff]
  rfl

namespace Field

variable {f : Field} {k : String} {members members' : List (String × Json)}

/-- **The keys that a field reads:** its id, and its name if it has one. -/
def Reads (f : Field) (k : String) : Prop := f.id = k ∨ f.name = k ∧ k ≠ ""

theorem cell_congr (h : ∀ k, f.Reads k → members.lookup k = members'.lookup k) :
    f.cell members = f.cell members' := by
  unfold cell
  have hid := h f.id (.inl rfl)
  split_ifs with hname
  · exact hid
  · rw [hid, h f.name (.inr ⟨rfl, hname⟩)]

theorem Reads.cell_eq (h : f.Reads k) (v : Json) : f.cell [(k, v)] = some v := by
  unfold cell
  obtain rfl | ⟨rfl, hname⟩ := h
  · split_ifs with hname
    · exact List.lookup_cons_self
    · rw [List.lookup_cons_self, List.lookup_cons]
      cases f.name == f.id <;> rfl
  · rw [if_neg hname, List.lookup_cons_self, Option.some_or]

end Field

/-! ### Payloads that differ under hidden keys -/

namespace Json

/-- The payload with other data. -/
def withData (items : List Json) : Json → Json
  | .obj members => .obj (members.map fun m => if m.1 = "data" then ("data", .arr items) else m)
  | v => v

/-- **Entries that differ at most in what stands under the given keys** of a row. -/
inductive SameBut (keys : Set String) : Json → Json → Prop
  | refl (v : Json) : SameBut keys v v
  | row {members members' : List (String × Json)}
      (h : List.Forall₂ (fun m m' => m.1 = m'.1 ∧ (m.1 ∉ keys → m.2 = m'.2)) members members') :
      SameBut keys (.obj members) (.obj members')

variable {keys : Set String} {v : Json}

/-- What depends on rows by the other keys only is the same for all rows. -/
theorem map_rowObjects_eq {β : Type} {F : List (String × Json) → β} {items items' : List Json}
    (h : List.Forall₂ (SameBut keys) items items')
    (hF : ∀ members members', (∀ k ∉ keys, members.lookup k = members'.lookup k) →
      F members = F members') : (rowObjects items).map F = (rowObjects items').map F := by
  induction h with
  | nil => rfl
  | @cons v v' rest rest' hv _ ih =>
    rw [rowObjects_cons, rowObjects_cons, List.map_append, List.map_append, ih]
    congr 1
    cases hv with
    | refl => rfl
    | row hrow => exact congrArg (fun b => [b]) (hF _ _ fun k hk => lookup_eq_of_forall₂ (· ∉ keys) hrow hk)

theorem get?_withData_of_ne (v : Json) (items : List Json) {name : String} (h : name ≠ "data") :
    (v.withData items).get? name = v.get? name := by
  cases v with
  | obj members =>
    change (members.map _).lookup name = members.lookup name
    induction members with
    | nil => rfl
    | cons m rest ih =>
      obtain ⟨name', v⟩ := m
      rw [List.map_cons]
      by_cases hdata : name' = "data"
      · rw [if_pos hdata, List.lookup_cons, List.lookup_cons, hdata, beq_eq_false_iff_ne.mpr h, ih]
      · rw [if_neg hdata, List.lookup_cons, List.lookup_cons, ih]
  | _ => rfl

theorem get?_withData (items : List Json) (h : (v.get? "data").isSome) :
    (v.withData items).get? "data" = some (.arr items) := by
  cases v with
  | obj members =>
    change (members.map _).lookup "data" = _
    change (members.lookup "data").isSome at h
    induction members with
    | nil => exact absurd h (by simp)
    | cons m rest ih =>
      obtain ⟨name', v⟩ := m
      rw [List.map_cons]
      by_cases hdata : name' = "data"
      · rw [if_pos hdata, List.lookup_cons_self]
      · have hne : ("data" == name') = false := beq_eq_false_iff_ne.mpr (Ne.symm hdata)
        rw [List.lookup_cons, hne] at h
        rw [if_neg hdata, List.lookup_cons, hne]
        exact ih h
  | _ => exact absurd h (by simp [get?])

end Json

namespace NestedPayload

variable {payload : Json} {p : NestedPayload} {options : ShapeOptions} {found : SchemaMatch} {s : Schema}

/-- The payload with other data is read with the same schemas, and its root block asks for the same. -/
theorem ofJson?_withData (h : ofJson? payload = some p) (items : List Json) :
    ofJson? (payload.withData items) = some ⟨.mk p.root.requested items.length
      ((Json.rowObjects items).map BlockRow.ofMembers), p.schemas⟩ := by
  obtain ⟨hroot, hschemas⟩ := ofJson?_eq_some_iff.mp h
  obtain ⟨requested, items₀, ⟨hschema, hdata⟩, hp⟩ := Block.ofJson?_eq_some_iff.mp hroot
  refine ofJson?_eq_some_iff.mpr ⟨Block.ofJson?_eq_some_iff.mpr ⟨requested, items, ⟨?_, ?_⟩, ?_⟩, ?_⟩
  · rw [Json.get?_withData_of_ne _ _ (by decide), hschema]
  · exact Json.get?_withData items (hdata ▸ rfl)
  · rw [hp]
    rfl
  · rw [hschemas, schemasOf_members?, schemasOf_members?, Json.get?_withData_of_ne _ _ (by decide)]

/-- The columns and cells of a block whose schema is found. -/
theorem columns_and_cells {q : NestedPayload} {items : List Json}
    (h : ofJson? payload = some p) (hq : ofJson? (payload.withData items) = some q)
    (hresolve : options.matcher.resolve p.root.requested p.schemas = some found)
    (hs : p.schemas[found.index]? = some s) :
    (q.table options).head.columns =
      (s.shownFields options.includeHidden).map NestedColumn.ofField ∧
    (q.table options).rows.map (·.cells) = (Json.rowObjects items).map fun members =>
      (s.shownFields options.includeHidden).map (·.cell members) := by
  rw [ofJson?_withData h] at hq
  obtain rfl := Option.some.inj hq
  -- The cells are those of the fields that are shown; the columns are said exactly by the head alone.
  have hshown := NestedTable.shows_ofBlock options p.schemas p.root.requested items
  obtain ⟨s', hs', hcells⟩ := hshown.of_resolve found hresolve
  obtain rfl : s = s' := Option.some.inj (hs.symm.trans hs')
  obtain ⟨s'', hs'', hhead⟩ := TableHead.ofBlock_of_resolve (b := .mk p.root.requested items.length
    ((Json.rowObjects items).map BlockRow.ofMembers)) hresolve
  obtain rfl : s = s'' := Option.some.inj (hs.symm.trans hs'')
  refine ⟨?_, hcells.cells_eq⟩
  rw [table, NestedTable.head_ofBlock, hhead]

/-- **What the root block shows does not depend on what stands under hidden keys iff no visible field reads
a hidden key.** -/
theorem hides_iff (h : ofJson? payload = some p) (hhidden : options.includeHidden = false)
    (hresolve : options.matcher.resolve p.root.requested p.schemas = some found)
    (hs : p.schemas[found.index]? = some s) :
    (∀ (items items' : List Json) (q q' : NestedPayload),
      List.Forall₂ (Json.SameBut s.hiddenKeys) items items' →
      ofJson? (payload.withData items) = some q → ofJson? (payload.withData items') = some q' →
        (q.table options).head.columns = (q'.table options).head.columns ∧
        (q.table options).rows.map (·.cells) = (q'.table options).rows.map (·.cells)) ↔
    ∀ f ∈ s.fields, f.hidden = false → ∀ k ∈ s.hiddenKeys, ¬ f.Reads k := by
  constructor
  · -- Otherwise a row of a single member tells two values under a hidden key apart.
    intro hsame f hf hvisible k hk hreads
    have hq := ofJson?_withData h [.obj [(k, .bool true)]]
    have hq' := ofJson?_withData h [.obj [(k, .bool false)]]
    have hrows : List.Forall₂ (Json.SameBut s.hiddenKeys) [.obj [(k, .bool true)]]
        [.obj [(k, .bool false)]] :=
      .cons (.row (.cons ⟨rfl, fun hnot => absurd hk hnot⟩ .nil)) .nil
    obtain ⟨-, hcells⟩ := hsame _ _ _ _ hrows hq hq'
    rw [(columns_and_cells h hq hresolve hs).2, (columns_and_cells h hq' hresolve hs).2] at hcells
    have hshown : f ∈ s.shownFields options.includeHidden :=
      List.mem_filter.mpr ⟨hf, by rw [hhidden, hvisible]; rfl⟩
    have hcell := List.map_inj_left.mp (List.cons.inj hcells).1 f hshown
    rw [hreads.cell_eq, hreads.cell_eq] at hcell
    exact absurd hcell (by simp)
  · -- A visible field reads other keys only, and under these the rows are the same.
    intro hreads items items' q q' hrows hq hq'
    obtain ⟨hcolumns, hcells⟩ := columns_and_cells h hq hresolve hs
    obtain ⟨hcolumns', hcells'⟩ := columns_and_cells h hq' hresolve hs
    refine ⟨hcolumns.trans hcolumns'.symm, ?_⟩
    rw [hcells, hcells']
    refine Json.map_rowObjects_eq hrows fun members members' hlookup => ?_
    refine List.map_congr_left fun f hf => Field.cell_congr fun k hk => hlookup k fun hhides => ?_
    obtain ⟨hf, hvisible⟩ := List.mem_filter.mp hf
    rw [hhidden, Bool.false_or, Bool.not_eq_true'] at hvisible
    exact hreads f hf hvisible k hhides hk

/-- A schema with a hidden field, to whose key no other field answers. -/
def saleSchema : Schema := ⟨"Sale", "", [⟨"margin", "", "", true⟩, ⟨"total", "", "", false⟩]⟩

/-- A payload of `saleSchema`, without rows. -/
def salePayload : Json :=
  .obj [("data", .arr []), ("schema", .str "Sale"), ("schemas", .arr [.obj [("fields", .arr [
    .obj [("hidden", .bool true), ("id", .str "margin")], .obj [("id", .str "total")]]),
    ("id", .str "Sale")]])]

theorem hides_salePayload : ofJson? salePayload = some ⟨.mk "Sale" 0 [], [saleSchema]⟩ ∧
    ∀ q q', ofJson? (salePayload.withData [.obj [("margin", .int 1), ("total", .int 3)]]) = some q →
      ofJson? (salePayload.withData [.obj [("margin", .int 2), ("total", .int 3)]]) = some q' →
        (q.table .standard).rows.map (·.cells) = (q'.table .standard).rows.map (·.cells) := by
  have hread : ofJson? salePayload = some ⟨.mk "Sale" 0 [], [saleSchema]⟩ := rfl
  have hmargin : "margin" ∈ saleSchema.hiddenKeys :=
    Schema.mem_hiddenKeys_iff.mpr ⟨by decide, _, rfl, rfl⟩
  have htotal : "total" ∉ saleSchema.hiddenKeys := by
    rintro hk
    obtain ⟨-, f, hf, hhidden⟩ := Schema.mem_hiddenKeys_iff.mp hk
    obtain rfl := Option.some.inj hf
    exact absurd hhidden (by decide)
  have hreads : ∀ f ∈ saleSchema.fields, f.hidden = false →
      ∀ k ∈ saleSchema.hiddenKeys, ¬ f.Reads k := by
    intro f hf hvisible k hk hread
    obtain rfl | hf := List.mem_cons.mp hf
    · exact absurd hvisible (by decide)
    · obtain rfl := List.mem_singleton.mp hf
      obtain rfl | ⟨rfl, hne⟩ := hread
      · exact htotal hk
      · exact hne rfl
  refine ⟨hread, fun q q' hq hq' => ?_⟩
  have hrows : List.Forall₂ (Json.SameBut saleSchema.hiddenKeys)
      [.obj [("margin", .int 1), ("total", .int 3)]] [.obj [("margin", .int 2), ("total", .int 3)]] :=
    .cons (.row (.cons ⟨rfl, fun hnot => absurd hmargin hnot⟩ (.cons ⟨rfl, fun _ => rfl⟩ .nil))) .nil
  exact ((hides_iff hread rfl rfl rfl).mpr hreads _ _ q q' hrows hq hq').2

/-- A schema with a hidden field that has the id of a visible one as its name. -/
def leakSchema : Schema := ⟨"S", "", [⟨"a", "k", "", true⟩, ⟨"k", "n", "", false⟩]⟩

/-- A payload of `leakSchema`, without rows. -/
def leakPayload : Json :=
  .obj [("data", .arr []), ("schema", .str "S"), ("schemas", .arr [.obj [("fields", .arr [
    .obj [("hidden", .bool true), ("id", .str "a"), ("name", .str "k")],
    .obj [("id", .str "k"), ("name", .str "n")]]), ("id", .str "S")]])]

/-- The root block may show what stands under a hidden key: a field falls back on its id. -/
theorem not_hides : ¬ ∀ (options : ShapeOptions) (payload : Json) (p : NestedPayload) (found : SchemaMatch)
    (s : Schema), options.includeHidden = false → ofJson? payload = some p →
      options.matcher.resolve p.root.requested p.schemas = some found →
      p.schemas[found.index]? = some s →
      ∀ (items items' : List Json) (q q' : NestedPayload),
        List.Forall₂ (Json.SameBut s.hiddenKeys) items items' →
        ofJson? (payload.withData items) = some q → ofJson? (payload.withData items') = some q' →
          (q.table options).head.columns = (q'.table options).head.columns ∧
          (q.table options).rows.map (·.cells) = (q'.table options).rows.map (·.cells) := by
  intro hhides
  have hk : "k" ∈ leakSchema.hiddenKeys := Schema.mem_hiddenKeys_iff.mpr ⟨by decide, _, rfl, rfl⟩
  have hrows : List.Forall₂ (Json.SameBut leakSchema.hiddenKeys) [.obj [("k", .str "secret")]]
      [.obj [("k", .null)]] := .cons (.row (.cons ⟨rfl, fun hnot => absurd hk hnot⟩ .nil)) .nil
  obtain ⟨-, hcells⟩ := hhides .standard leakPayload _ _ leakSchema rfl rfl rfl rfl _ _ _ _ hrows rfl rfl
  have hcells : [[some (Json.str "secret")]] = [[some Json.null]] := hcells
  exact absurd hcells (by simp)

end NestedPayload

end PatternQuery
