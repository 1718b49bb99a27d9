import PatternQuery.Payload.View
import PatternQuery.Proofs.Payload.Blocks
import PatternQuery.Proofs.Payload.Columns

/-!
# Nested tables mirror the payload

A way down names a block in a payload, a table in the view, and a table in what is written, and the three
agree: at the end of every way there is a block iff there is a table, and this table shows this block
(`NestedPayload.mirrors_ofJson?`). What a table shows of its block is said without the blocks above it
(`NestedTable.Shows`), for each block looks for its schema by itself.

The step of a way is followed through the three trees one after another: from the value to the block that
is read from it (`Block.child?_eq`), from a block to its table (`NestedTable.child?_ofBlock`), and from a
table to what is written (`NestedTable.writtenChild?_toJson`). A whole way is a fold of steps, so it is
enough to follow a relation that every step keeps (`rel_foldlM`).
-/

namespace PatternQuery

theorem rel_mono {α β : Type} {R S : α → β → Prop} (h : ∀ a b, R a b → S a b) {x : Option α}
    {y : Option β} (hxy : Option.Rel R x y) : Option.Rel S x y := by
  cases hxy with
  | none => exact .none
  | some hab => exact .some (h _ _ hab)

/-- What every step keeps, a whole way keeps. -/
theorem rel_foldlM {α β σ : Type} {R : α → β → Prop} {f : α → σ → Option α} {g : β → σ → Option β}
    (hstep : ∀ a b step, R a b → Option.Rel R (f a step) (g b step)) {a : α} {b : β} (h : R a b)
    (way : List σ) : Option.Rel R (way.foldlM f a) (way.foldlM g b) := by
  induction way generalizing a b with
  | nil => exact .some h
  | cons step way ih =>
    rw [List.foldlM_cons, List.foldlM_cons]
    have hfirst := hstep a b step h
    generalize f a step = next at hfirst ⊢
    generalize g b step = next' at hfirst ⊢
    cases hfirst with
    | none => exact .none
    | some h' => exact ih h'

/-! ### Steps down -/

namespace NestedTable

variable {options : ShapeOptions} {schemas : List Schema}

/-- The table at the end of a way down. -/
def at? (t : NestedTable) (way : List (Nat × Nat)) : Option NestedTable :=
  way.foldlM (fun t step => t.child? step.1 step.2) t

theorem ofRows_eq (columns : List NestedColumn) (rows : List BlockRow) :
    ofRows options schemas columns rows = rows.map (ofRow options schemas columns) := by
  induction rows with
  | nil => rfl
  | cons r rest ih => rw [ofRows, ih, List.map_cons]

theorem ofBlocks_eq (blocks : List Block) :
    ofBlocks options schemas blocks = blocks.map (ofBlock options schemas) := by
  induction blocks with
  | nil => rfl
  | cons b rest ih => rw [ofBlocks, ih, List.map_cons]

theorem rowsToJson_eq (rows : List NestedRow) : rowsToJson rows = rows.map rowToJson := by
  induction rows with
  | nil => rfl
  | cons r rest ih => rw [rowsToJson, ih, List.map_cons]

theorem tablesToJson_eq (tables : List NestedTable) : tablesToJson tables = tables.map toJson := by
  induction tables with
  | nil => rfl
  | cons t rest ih => rw [tablesToJson, ih, List.map_cons]

theorem rows_ofBlock (b : Block) : (ofBlock options schemas b).rows =
    b.rows.map (ofRow options schemas (TableHead.ofBlock options schemas b).columns) := by
  obtain ⟨requested, entries, rows⟩ := b
  exact ofRows_eq _ _

theorem head_ofBlock (options : ShapeOptions) (schemas : List Schema) (b : Block) :
    (ofBlock options schemas b).head = TableHead.ofBlock options schemas b := by
  cases b
  rfl

/-- **A step leads from the table of a block to the table of the block that it leads to.** -/
theorem child?_ofBlock (b : Block) (row child : Nat) : (ofBlock options schemas b).child? row child =
    (b.child? row child).map (ofBlock options schemas) := by
  rw [child?, rows_ofBlock, List.getElem?_map, Block.child?]
  cases b.rows[row]? with
  | none => rfl
  | some r =>
    obtain ⟨members, children⟩ := r
    rw [Option.map_some, Option.bind_some, Option.bind_some]
    change (ofBlocks options schemas children)[child]? = (children[child]?).map _
    rw [ofBlocks_eq, List.getElem?_map]

end NestedTable

/-! ### What is written -/

namespace Json

/-- The table that a step leads to in what was written for a table. -/
def writtenChild? (w : Json) (row child : Nat) : Option Json := do
  let rows ← (w.get? "rows").bind items?
  let r ← rows[row]?
  let children ← (r.get? "children").bind items?
  children[child]?

/-- The table at the end of a way down, in what was written for a table. -/
def writtenAt? (w : Json) (way : List (Nat × Nat)) : Option Json :=
  way.foldlM (fun w step => w.writtenChild? step.1 step.2) w

end Json

namespace NestedTable

theorem get?_rows_toJson (t : NestedTable) :
    t.toJson.get? "rows" = some (.arr (t.rows.map rowToJson)) := by
  obtain ⟨head, rows⟩ := t
  rw [← rowsToJson_eq]
  rfl

/-- **A step leads in what is written to what is written for the table that it leads to.** -/
theorem writtenChild?_toJson (t : NestedTable) (row child : Nat) :
    t.toJson.writtenChild? row child = (t.child? row child).map toJson := by
  rw [Json.writtenChild?, get?_rows_toJson, child?]
  simp only [Option.bind_eq_bind, Option.bind_some, Json.items?, List.getElem?_map]
  cases t.rows[row]? with
  | none => rfl
  | some r =>
    rw [Option.map_some, Option.bind_some, Option.bind_some]
    obtain ⟨cells, children⟩ := r
    cases children with
    | nil => rfl -- Without tables under a row, no member is written for them.
    | cons t rest =>
      change (tablesToJson (t :: rest))[child]? = ((t :: rest)[child]?).map toJson
      rw [tablesToJson_eq, List.getElem?_map]

/-- **What is written for a table,** apart from the tables under its rows. -/
structure WrittenAs (t : NestedTable) (w : Json) : Prop where
  schema_eq : w.get? "schema" = some t.head.schema.toJson
  label_eq : w.get? "label" = some (.str t.head.label)
  columns_eq : w.get? "columns" = some (.arr (t.head.columns.map NestedColumn.toJson))
  rows_eq : ∃ rows, w.get? "rows" = some (.arr rows) ∧ rows.map (·.get? "cells") =
    t.rows.map fun r => some (.arr (r.cells.map (·.getD .null)))

theorem writtenAs_toJson (t : NestedTable) : t.WrittenAs t.toJson := by
  obtain ⟨head, rows⟩ := t
  refine ⟨rfl, rfl, rfl, _, get?_rows_toJson _, ?_⟩
  rw [List.map_map]
  refine List.map_congr_left fun r _ => ?_
  obtain ⟨cells, children⟩ := r
  cases children <;> rfl

/-! ### What is shown -/

variable {t : NestedTable} {rows : List (List (String × Json))}

/-- **What a table shows of rows whose schema is found:** a column for every field of the schema that is
shown, in the order of the fields, and in every row the cells of these fields. -/
structure ShowsFields (includeHidden : Bool) (found : SchemaMatch) (s : Schema)
    (rows : List (List (String × Json))) (t : NestedTable) : Prop where
  schema_eq : t.head.schema = .resolved found.index s.id found.rule
  label_eq : t.head.label = s.displayLabel
  columns_eq : t.head.columns.map (fun c => (c.field, c.label)) =
    (s.shownFields includeHidden).map fun f => (f.heading, f.displayLabel)
  cells_eq : t.rows.map (·.cells) =
    rows.map fun members => (s.shownFields includeHidden).map (·.cell members)

/-- **What a table shows of rows whose schema is not found:** a column for every member of a row but
`children`, each once, and in every row the values of its members, each in one cell. -/
structure ShowsMembers (requested : String) (rows : List (List (String × Json))) (t : NestedTable) :
    Prop where
  schema_eq : t.head.schema = .notFound requested
  label_eq : t.head.label = schemaNotFound
  labels_eq : ∀ c ∈ t.head.columns, c.label = c.field
  nodup_fields : (t.head.columns.map (·.field)).Nodup
  mem_fields : ∀ k, k ∈ t.head.columns.map (·.field) ↔
    k ≠ "children" ∧ ∃ members ∈ rows, k ∈ members.map (·.1)
  cells_eq : t.rows.map (·.cells) =
    rows.map fun members => t.head.columns.map fun c : NestedColumn => members.lookup c.field
  existsUnique_cell : ∀ (i : Nat) (members : List (String × Json)) (r : NestedRow) (k : String)
    (value : Json), rows[i]? = some members → t.rows[i]? = some r → k ≠ "children" →
      members.lookup k = some value →
      ∃! j : Nat, ∃ c : NestedColumn, t.head.columns[j]? = some c ∧ c.field = k ∧
        r.cells[j]? = some (some value)

/-- **What a table shows of a block** with the given entries. Whether the schema of the block is found
depends on what it asks for and on the schemas of the payload, and on nothing else. -/
structure Shows (options : ShapeOptions) (schemas : List Schema) (requested : String)
    (items : List Json) (t : NestedTable) : Prop where
  requested_eq : t.head.requested = requested
  entries_eq : t.head.entries = items.length
  children_eq : t.rows.map (·.children.length) =
    (Json.rowObjects items).map fun members => (Json.childBlocks members).length
  length_cells : ∀ r ∈ t.rows, r.cells.length = t.head.columns.length
  of_resolve : ∀ found, options.matcher.resolve requested schemas = some found →
    ∃ s, schemas[found.index]? = some s ∧
      t.ShowsFields options.includeHidden found s (Json.rowObjects items)
  of_not_resolve : options.matcher.resolve requested schemas = none →
    t.ShowsMembers requested (Json.rowObjects items)

/-- The rows of a block's table, laid out along its columns. -/
theorem rows_ofBlock_mk (options : ShapeOptions) (schemas : List Schema) (requested : String)
    (entries : Nat) (rows : List (List (String × Json))) :
    (ofBlock options schemas (.mk requested entries (rows.map BlockRow.ofMembers))).rows =
      rows.map fun members => .mk
        ((ofBlock options schemas
          (.mk requested entries (rows.map BlockRow.ofMembers))).head.columns.map (·.cell members))
        ((Block.childrenOf members).map (ofBlock options schemas)) := by
  rw [rows_ofBlock, Block.rows, List.map_map, head_ofBlock]
  refine List.map_congr_left fun members _ => ?_
  rw [← ofBlocks_eq]
  rfl

/-- A table whose columns are the observed members of its rows shows these members. -/
theorem showsMembers_of_observed {requested : String} {entries : Nat}
    {children : List (String × Json) → List NestedTable}
    (hhead : t.head = ⟨requested, entries, .notFound requested, schemaNotFound,
      (TableHead.observed (rows.map BlockRow.ofMembers)).map NestedColumn.ofMember⟩)
    (hrows : t.rows = rows.map fun members =>
      .mk (t.head.columns.map (·.cell members)) (children members)) :
    t.ShowsMembers requested rows := by
  -- The columns are known by their fields: each reads the member it is named after.
  have hfields : t.head.columns.map (·.field) = TableHead.observed (rows.map BlockRow.ofMembers) := by
    rw [hhead, List.map_map]
    exact List.map_id _
  have hmem (k : String) : k ∈ t.head.columns.map (·.field) ↔
      k ≠ "children" ∧ ∃ members ∈ rows, k ∈ members.map (·.1) := by
    rw [hfields, TableHead.mem_observed_iff]
    simp only [List.mem_map, exists_exists_and_eq_and]
    rfl
  have hnodup : (t.head.columns.map (·.field)).Nodup := hfields ▸ TableHead.nodup_observed _
  have hcolumns (c : NestedColumn) (hc : c ∈ t.head.columns) : c = .ofMember c.field := by
    rw [hhead] at hc
    obtain ⟨name, -, rfl⟩ := List.mem_map.mp hc
    rfl
  have hcells (members : List (String × Json)) : t.head.columns.map (·.cell members) =
      t.head.columns.map fun c : NestedColumn => members.lookup c.field := by
    refine List.map_congr_left fun c hc => ?_
    rw [hcolumns c hc]
    exact NestedColumn.cell_ofMember _ _
  refine ⟨by rw [hhead], by rw [hhead], fun c hc => by rw [hcolumns c hc]; rfl, hnodup, hmem, ?_,
    fun i members r k value hi hr hk hvalue => ?_⟩
  · rw [hrows, List.map_map]
    exact List.map_congr_left fun members _ => hcells members
  · rw [hrows, List.getElem?_map, hi, Option.map_some] at hr
    obtain rfl := Option.some.inj hr
    rw [NestedRow.cells, hcells]
    refine NestedColumn.existsUnique_cell hnodup ((hmem k).mpr ⟨hk, members, List.mem_of_getElem? hi, ?_⟩) hvalue
    obtain ⟨before, after, rfl, -⟩ := List.lookup_eq_some_iff.mp hvalue
    exact List.mem_map.mpr ⟨(k, value), List.mem_append_right _ List.mem_cons_self, rfl⟩

/-- **The table of a block shows the block.** -/
theorem shows_ofBlock (options : ShapeOptions) (schemas : List Schema) (requested : String)
    (items : List Json) : (ofBlock options schemas (.mk requested items.length
      ((Json.rowObjects items).map BlockRow.ofMembers))).Shows options schemas requested items := by
  have hrows := rows_ofBlock_mk options schemas requested items.length (Json.rowObjects items)
  have hhead := head_ofBlock options schemas
    (.mk requested items.length ((Json.rowObjects items).map BlockRow.ofMembers))
  -- Its head and its rows are all that is needed of the table.
  generalize ofBlock options schemas (.mk requested items.length
    ((Json.rowObjects items).map BlockRow.ofMembers)) = t at hrows hhead ⊢
  refine ⟨?_, ?_, ?_, fun r hr => ?_, fun found hfound => ?_, fun hnone => ?_⟩
  · rw [hhead, TableHead.requested_ofBlock]
    rfl
  · rw [hhead, TableHead.entries_ofBlock]
    rfl
  · rw [hrows, List.map_map]
    refine List.map_congr_left fun members _ => ?_
    change ((Block.childrenOf members).map _).length = _
    rw [List.length_map, Block.length_childrenOf]
  · rw [hrows] at hr
    obtain ⟨members, -, rfl⟩ := List.mem_map.mp hr
    exact List.length_map _
  · obtain ⟨s, hs, hblock⟩ := TableHead.ofBlock_of_resolve (b := .mk requested items.length
      ((Json.rowObjects items).map BlockRow.ofMembers)) hfound
    rw [hblock] at hhead
    refine ⟨s, hs, ⟨by rw [hhead], by rw [hhead], ?_, ?_⟩⟩
    · rw [hhead, List.map_map]
      refine List.map_congr_left fun f _ => ?_
      exact Prod.ext (NestedColumn.field_ofField f) (NestedColumn.label_ofField f)
    · rw [hrows, hhead, List.map_map]
      refine List.map_congr_left fun members _ => ?_
      refine List.map_map.trans (List.map_congr_left fun f _ => ?_)
      exact NestedColumn.cell_ofField f members
  · rw [TableHead.ofBlock_of_not_resolve hnone] at hhead
    exact showsMembers_of_observed hhead hrows

/-! ### Along a way -/

/-- **A value and the table that its block is laid out as.** -/
def LaysOut (options : ShapeOptions) (schemas : List Schema) (v : Json) (t : NestedTable) : Prop :=
  ∃ b, Block.ofJson? v = some b ∧ t = ofBlock options schemas b

/-- **One step:** it leads from the table of a value to the table of where it leads in the value. -/
theorem LaysOut.child? {v : Json} (h : LaysOut options schemas v t) (row child : Nat) :
    Option.Rel (LaysOut options schemas) (v.childBlock? row child) (t.child? row child) := by
  obtain ⟨b, hb, rfl⟩ := h
  rw [child?_ofBlock, Block.child?_eq hb]
  cases hw : v.childBlock? row child with
  | none => exact .none
  | some w =>
    obtain ⟨b', hb'⟩ := Option.isSome_iff_exists.mp
      ((Block.isSome_ofJson? w).trans (Json.isBlock_of_childBlock? hw))
    rw [Option.bind_some, hb', Option.map_some]
    exact .some ⟨b', hb', rfl⟩

/-- **A whole way.** -/
theorem LaysOut.at? {v : Json} (h : LaysOut options schemas v t) (way : List (Nat × Nat)) :
    Option.Rel (LaysOut options schemas) (v.blockAt? way) (t.at? way) :=
  rel_foldlM (fun _ _ step hvt => hvt.child? step.1 step.2) h way

/-- **Along a way, what is written leads to what is written for the tables.** -/
theorem writtenAt?_toJson (t : NestedTable) (way : List (Nat × Nat)) :
    Option.Rel (fun w t => w = t.toJson) (t.toJson.writtenAt? way) (t.at? way) := by
  refine rel_foldlM (R := fun (w : Json) (t : NestedTable) => w = t.toJson)
    (fun w t step hw => ?_) rfl way
  rw [hw, writtenChild?_toJson]
  cases t.child? step.1 step.2 with
  | none => exact .none
  | some next => exact .some rfl

end NestedTable

namespace NestedPayload

variable {payload : Json} {p : NestedPayload}

/-- A payload is read as its root block, with the schemas of its member `schemas`. -/
theorem ofJson?_eq_some_iff : ofJson? payload = some p ↔
    Block.ofJson? payload = some p.root ∧
      p.schemas = FlatRecord.schemasOf (payload.members?.getD []) := by
  constructor
  · intro h
    obtain ⟨root, hroot, hp⟩ := Option.bind_eq_some_iff.mp h
    obtain rfl := Option.some.inj hp
    exact ⟨hroot, rfl⟩
  · rintro ⟨hroot, hschemas⟩
    rw [ofJson?, hroot, ← hschemas]
    rfl

/-- The schemas of a payload are those of its member `schemas`, if this is a list of schemas. -/
theorem schemasOf_members? (v : Json) : FlatRecord.schemasOf (v.members?.getD []) =
    ((v.get? "schemas").bind fun w => (Schema.listOfJson w).toOption).getD [] := by
  have hmembers : (v.members?.getD []).lookup "schemas" = v.get? "schemas" := by
    cases v <;> rfl
  rw [FlatRecord.schemasOf, hmembers]
  cases v.get? "schemas" with
  | none => rfl
  | some w =>
    rw [Option.map_some, Option.bind_some]
    cases Schema.listOfJson w <;> rfl

/-- **Nested tables mirror the payload.** At the end of every way down there is a block iff there is a
table, and then the table shows the block; and there is a table iff one was written there, and then it is
this table that was written. -/
theorem mirrors_ofJson? (h : ofJson? payload = some p) (options : ShapeOptions) :
    p.schemas = ((payload.get? "schemas").bind fun w => (Schema.listOfJson w).toOption).getD [] ∧
    (∀ way, Option.Rel (fun v t => ∃ requested items, v.IsBlock requested items ∧
        t.Shows options p.schemas requested items)
      (payload.blockAt? way) ((p.table options).at? way)) ∧
    ∀ way, Option.Rel (fun w t => w = t.toJson ∧ t.WrittenAs w)
      ((p.table options).toJson.writtenAt? way) ((p.table options).at? way) := by
  obtain ⟨hroot, hschemas⟩ := ofJson?_eq_some_iff.mp h
  refine ⟨hschemas.trans (schemasOf_members? payload), fun way => ?_, fun way => ?_⟩
  · refine rel_mono (fun v t hvt => ?_) (NestedTable.LaysOut.at? ⟨p.root, hroot, rfl⟩ way)
    obtain ⟨b, hb, rfl⟩ := hvt
    obtain ⟨requested, items, hv, rfl⟩ := Block.ofJson?_eq_some_iff.mp hb
    exact ⟨requested, items, hv, NestedTable.shows_ofBlock options p.schemas requested items⟩
  · refine rel_mono (fun w t hw => ?_) (NestedTable.writtenAt?_toJson (p.table options) way)
    subst hw
    exact ⟨rfl, NestedTable.writtenAs_toJson t⟩

/-- An order with a block below it whose schema is not there, and with entries that are passed over. -/
def orderPayload : Json :=
  .obj [("data", .arr [
      .obj [("children", .arr [
        .obj [("data", .arr [.obj [("sku", .str "a")]]), ("schema", .str "Gone")], .int 7]),
        ("total", .int 3)],
      .null]),
    ("schema", .str "Order"),
    ("schemas", .arr [.obj [("fields", .arr [.obj [("id", .str "total")]]), ("id", .str "Order")]])]

/-- What `orderPayload` is read as. -/
def orderRead : NestedPayload :=
  ⟨.mk "Order" 2 [.mk [("children", .arr [
      .obj [("data", .arr [.obj [("sku", .str "a")]]), ("schema", .str "Gone")], .int 7]),
      ("total", .int 3)] [.mk "Gone" 1 [.mk [("sku", .str "a")] []]]],
    [⟨"Order", "", [⟨"total", "", "", false⟩]⟩]⟩

theorem ofJson?_orderPayload : ofJson? orderPayload = some orderRead := rfl

/-- The block below the order is laid out by what its rows bring along. -/
theorem mirrors_orderPayload : ofJson? orderPayload = some orderRead ∧
    ∃ t, (orderRead.table .standard).at? [(0, 0)] = some t ∧ t.head.schema = .notFound "Gone" ∧
      "sku" ∈ t.head.columns.map (·.field) ∧
      (orderRead.table .standard).toJson.writtenAt? [(0, 0)] = some t.toJson := by
  obtain ⟨-, hshown, hwritten⟩ := mirrors_ofJson? ofJson?_orderPayload .standard
  have hblock : orderPayload.blockAt? [(0, 0)] =
      some (.obj [("data", .arr [.obj [("sku", .str "a")]]), ("schema", .str "Gone")]) := rfl
  have hshown := hshown [(0, 0)]
  have hwritten := hwritten [(0, 0)]
  rw [hblock] at hshown
  generalize (orderRead.table .standard).at? [(0, 0)] = found at hshown hwritten ⊢
  generalize (orderRead.table .standard).toJson.writtenAt? [(0, 0)] = written at hwritten ⊢
  cases hshown with
  | some hshown =>
    cases hwritten with
    | some hwritten =>
      obtain ⟨requested, items, ⟨hschema, hdata⟩, hshown⟩ := hshown
      obtain rfl : "Gone" = requested := Json.str.inj (Option.some.inj hschema)
      obtain rfl : [Json.obj [("sku", .str "a")]] = items := Json.arr.inj (Option.some.inj hdata)
      have hmembers := hshown.of_not_resolve rfl
      refine ⟨ofJson?_orderPayload, _, rfl, hmembers.schema_eq, ?_, congrArg some hwritten.1⟩
      exact (hmembers.mem_fields "sku").mpr
        ⟨by decide, _, List.mem_cons_self, List.mem_cons_self⟩

end NestedPayload

end PatternQuery
