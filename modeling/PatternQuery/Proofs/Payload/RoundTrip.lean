import PatternQuery.Proofs.Payload.Paths
import PatternQuery.Proofs.Payload.Reserved
import PatternQuery.Proofs.Payload.Rows

/-!
# Rows written out and read back

Rows are written out with one member for each cell, under the key that spells the cell with the shortest
numerals (`KeyRole.cellKey`). Reading such a key gives the cell back, so the keys of different cells are
different, and the members give the cells that were written (`FlatRecord.filterMap_cell?_membersOf`).
Reserved members give none. As no cell is spelled twice, the rows hold exactly these cells, in whatever
order the members come.
-/

namespace PatternQuery

namespace KeyRole

open Text CellPath

variable {root : Nat} {path : CellPath}

/-- The key of a cell, written without zeros in front of the indices. -/
def cellKey (root : Nat) (path : CellPath) : String :=
  "data.data." ++ toString root ++ "." ++ path.text

theorem toList_cellKey (root : Nat) (path : CellPath) :
    (cellKey root path).toList = cellLead ++ (numeral 0 root ++ '.' :: path.text.toList) := by
  have hdot : ".".toList = ['.'] := rfl
  rw [cellKey, String.toList_append, String.toList_append, String.toList_append, toList_toString, hdot,
    List.append_assoc, List.append_assoc, List.singleton_append]
  rfl

/-- **The key that is written for a cell** spells it. -/
theorem InRange.spells_cellKey (h : InRange root path) : Spells root path (cellKey root path) :=
  spells_iff_spellsPath.mpr ⟨_, _, isNumeral_numeral 0 h.root_lt, spellsPath_text h.steps h.field,
    toList_cellKey root path⟩

theorem InRange.ofKey_cellKey (h : InRange root path) :
    ofKey (cellKey root path) = .ok (.cell root path) :=
  ofKey_eq_cell_iff.mpr h.spells_cellKey

end KeyRole

namespace FlatRecord

variable {rows : List FlatRow} {members : List (String × Json)} {c : Cell} {root : Nat} {row row' : FlatRow}
  {path : CellPath}

/-- The members that rows are written out with. -/
def membersOf (rows : List FlatRow) : List (String × Json) :=
  rows.flatMap fun row => row.cells.map fun cell => (KeyRole.cellKey row.root cell.1, cell.2)

/-- The cells of rows. -/
def cellsOf (rows : List FlatRow) : List Cell :=
  rows.flatMap fun row => row.cells.map fun cell => ⟨row.root, cell.1, cell.2⟩

/-- **Rows that can be written out:** one row for an index, one cell for a path, no row without a cell,
and every cell in range. -/
structure Spellable (rows : List FlatRow) : Prop where
  roots : (rows.map (·.root)).Nodup
  ne_nil : ∀ row ∈ rows, row.cells ≠ []
  paths : ∀ row ∈ rows, (row.cells.map (·.1)).Nodup
  inRange : ∀ row ∈ rows, ∀ cell ∈ row.cells, KeyRole.InRange row.root cell.1

/-- **What a flattened result says that holds given rows:** these rows in the order of their indices, each
with its cells in the order of their paths, a column for each path that occurs in some row, in order, and
no key that could not be read. -/
structure Holds (r : FlatRecord) (rows : List FlatRow) : Prop where
  roots_ascend : (r.rows.map (·.root)).Pairwise (· < ·)
  roots_perm : (r.rows.map (·.root)).Perm (rows.map (·.root))
  paths_ascend : ∀ row ∈ r.rows, row.cells.Pairwise fun a b => a.1.compare b.1 = .lt
  cells_perm : ∀ row ∈ r.rows, ∀ row' ∈ rows, row.root = row'.root → row.cells.Perm row'.cells
  columns_ascend : r.columns.Pairwise fun p q => p.compare q = .lt
  mem_columns : ∀ path, path ∈ r.columns ↔ ∃ row ∈ rows, path ∈ row.cells.map (·.1)
  skipped : r.skipped = []

/-! ### The cells of rows -/

theorem mem_cellsOf : c ∈ cellsOf rows ↔
    ∃ row ∈ rows, row.root = c.root ∧ (c.path, c.value) ∈ row.cells := by
  rw [cellsOf, List.mem_flatMap]
  constructor
  · rintro ⟨row, hrow, hc⟩
    obtain ⟨cell, hcell, rfl⟩ := List.mem_map.mp hc
    exact ⟨row, hrow, rfl, hcell⟩
  · rintro ⟨row, hrow, hroot, hcell⟩
    refine ⟨row, hrow, List.mem_map.mpr ⟨_, hcell, ?_⟩⟩
    rw [hroot]

/-- No cell is there twice. -/
theorem Spellable.nodup_cellsOf (h : Spellable rows) :
    ((cellsOf rows).map fun c => (c.root, c.path)).Nodup := by
  have hmap : ((cellsOf rows).map fun c => (c.root, c.path)) =
      rows.flatMap fun row => (row.cells.map (·.1)).map (Prod.mk row.root) := by
    rw [cellsOf, List.map_flatMap]
    simp only [List.map_map]
    rfl
  rw [hmap, List.nodup_flatMap]
  constructor
  · intro row hrow
    exact (h.paths row hrow).map (Prod.mk_right_injective row.root)
  · refine (List.pairwise_map.mp h.roots).imp fun {row row'} hne => ?_
    intro entry hentry hentry'
    obtain ⟨path, -, rfl⟩ := List.mem_map.mp hentry
    obtain ⟨path', -, heq⟩ := List.mem_map.mp hentry'
    exact hne (congrArg Prod.fst heq).symm

theorem Spellable.mem_cellsOf_iff (h : Spellable rows) (hrow : row ∈ rows) {value : Json} :
    ⟨row.root, path, value⟩ ∈ cellsOf rows ↔ (path, value) ∈ row.cells := by
  rw [mem_cellsOf]
  constructor
  · rintro ⟨row', hrow', hroot, hcell⟩
    obtain rfl := List.inj_on_of_nodup_map h.roots hrow' hrow hroot
    exact hcell
  · intro hcell
    exact ⟨row, hrow, rfl, hcell⟩

/-- The members that are written give the cells. -/
theorem Spellable.filterMap_cell?_membersOf (h : Spellable rows) :
    (membersOf rows).filterMap cell? = cellsOf rows := by
  rw [membersOf, cellsOf, List.filterMap_flatMap]
  refine List.flatMap_congr fun row hrow => ?_
  rw [List.filterMap_map, ← List.filterMap_eq_map']
  refine List.filterMap_congr fun cell hcell => ?_
  exact cell?_eq_some_iff.mpr ⟨(h.inRange row hrow cell hcell).ofKey_cellKey, rfl⟩

/-- **Different cells have different keys,** as reading the keys gives the cells back. -/
theorem Spellable.nodup_names (h : Spellable rows) : ((membersOf rows).map (·.1)).Nodup := by
  have hread : ((membersOf rows).map (·.1)).map KeyRole.ofKey =
      ((cellsOf rows).map fun c => (c.root, c.path)).map fun entry =>
        .ok (.cell entry.1 entry.2) := by
    rw [membersOf, cellsOf, List.map_flatMap, List.map_flatMap, List.map_flatMap, List.map_flatMap]
    refine List.flatMap_congr fun row hrow => ?_
    simp only [List.map_map]
    refine List.map_congr_left fun cell hcell => ?_
    exact (h.inRange row hrow cell hcell).ofKey_cellKey
  refine List.Nodup.of_map KeyRole.ofKey ?_
  rw [hread]
  refine h.nodup_cellsOf.map fun entry entry' heq => ?_
  obtain ⟨hroot, hpath⟩ := KeyRole.cell.inj (Except.ok.inj heq)
  exact Prod.ext hroot hpath

/-! ### Reading the members -/

variable {reserved : List (String × Json)}

theorem cell?_eq_none_of_isReserved {m : String × Json} (h : KeyRole.IsReserved m.1) : cell? m = none := by
  have hread : KeyRole.ofKey m.1 = .ok .reserved := KeyRole.ofKey_eq_reserved_iff.mpr (.inl h)
  rw [Option.eq_none_iff_forall_ne_some]
  intro c hc
  obtain ⟨hcell, -⟩ := cell?_eq_some_iff.mp hc
  exact absurd (hcell.symm.trans hread) nofun

/-- Reserved members add nothing to the cells. -/
theorem Spellable.filterMap_cell?_perm (h : Spellable rows)
    (hreserved : ∀ m ∈ reserved, KeyRole.IsReserved m.1)
    (hmembers : members.Perm (membersOf rows ++ reserved)) :
    (members.filterMap cell?).Perm (cellsOf rows) := by
  have hnone : reserved.filterMap cell? = [] :=
    List.filterMap_eq_nil_iff.mpr fun m hm => cell?_eq_none_of_isReserved (hreserved m hm)
  have hperm := hmembers.filterMap cell?
  rwa [List.filterMap_append, hnone, List.append_nil, h.filterMap_cell?_membersOf] at hperm

theorem Spellable.skipped_eq_nil (h : Spellable rows)
    (hreserved : ∀ m ∈ reserved, KeyRole.IsReserved m.1)
    (hmembers : members.Perm (membersOf rows ++ reserved)) : (ofMembers members).skipped = [] := by
  refine List.filter_eq_nil_iff.mpr fun key hkey hskipped => ?_
  obtain ⟨hcell, hread⟩ := isSkipped_iff.mp hskipped
  obtain ⟨m, hm, rfl⟩ := List.mem_map.mp hkey
  rcases List.mem_append.mp (hmembers.mem_iff.mp hm) with hm | hm
  · obtain ⟨row, hrow, hm⟩ := List.mem_flatMap.mp hm
    obtain ⟨cell, hcellMem, rfl⟩ := List.mem_map.mp hm
    exact hcell ⟨_, _, (h.inRange row hrow cell hcellMem).spells_cellKey⟩
  · exact hread (KeyRole.ofKey_eq_reserved_iff.mpr (.inl (hreserved m hm)))

/-- There are cells of a row for every index. -/
theorem Spellable.exists_cell_iff (h : Spellable rows) :
    (∃ c ∈ cellsOf rows, c.root = root) ↔ root ∈ rows.map (·.root) := by
  rw [List.mem_map]
  constructor
  · rintro ⟨c, hc, rfl⟩
    obtain ⟨row, hrow, hroot, -⟩ := mem_cellsOf.mp hc
    exact ⟨row, hrow, hroot⟩
  · rintro ⟨row, hrow, rfl⟩
    obtain ⟨cell, hcell⟩ := List.exists_mem_of_ne_nil _ (h.ne_nil row hrow)
    exact ⟨⟨row.root, cell.1, cell.2⟩, (h.mem_cellsOf_iff hrow).mpr hcell, rfl⟩

/-- A row that is read back holds the cells of the row that was written. -/
theorem Spellable.cells_perm (h : Spellable rows) {cells : List Cell} (hcells : cells.Perm (cellsOf rows))
    (hread : row ∈ rowsOf cells) (hrow : row' ∈ rows) (hroot : row.root = row'.root) :
    row.cells.Perm row'.cells := by
  have hdistinct : (cells.map fun c => (c.root, c.path)).Nodup :=
    (hcells.map _).nodup_iff.mpr h.nodup_cellsOf
  have hnodup : row.cells.Nodup := (paths_ascend hread).nodup.of_map
  have hnodup' : row'.cells.Nodup := (h.paths row' hrow).of_map
  refine (List.perm_ext_iff_of_nodup hnodup hnodup').mpr fun cell => ?_
  rw [mem_cells_iff hread, cellAt_foldl_eq_some_iff hdistinct, hcells.mem_iff, hroot,
    h.mem_cellsOf_iff hrow]

/-- **Rows that were written out are read back.** The members have different names, and whatever reserved
members come along, and in whatever order, the result holds the rows: each once, in the order of their
indices, with its cells, and nothing that could not be read. -/
theorem holds_of_spellable (rows : List FlatRow) (hrows : Spellable rows)
    (reserved : List (String × Json)) (hreserved : ∀ m ∈ reserved, KeyRole.IsReserved m.1)
    (members : List (String × Json)) (hmembers : members.Perm (membersOf rows ++ reserved)) :
    ((membersOf rows).map (·.1)).Nodup ∧ (ofMembers members).Holds rows := by
  have hcells := hrows.filterMap_cell?_perm hreserved hmembers
  refine ⟨hrows.nodup_names, ?_, ?_, ?_, ?_, ?_, ?_, hrows.skipped_eq_nil hreserved hmembers⟩
  · exact roots_ascend _
  · have hnodup := (roots_ascend (members.filterMap cell?)).imp fun hlt => Nat.ne_of_lt hlt
    refine (List.perm_ext_iff_of_nodup hnodup hrows.roots).mpr fun root => ?_
    rw [mem_map_root_rowsOf, ← hrows.exists_cell_iff]
    simp only [hcells.mem_iff]
  · exact fun row hrow => paths_ascend hrow
  · exact fun row hread row' hrow hroot => hrows.cells_perm hcells hread hrow hroot
  · exact columns_ascend _
  · intro path
    rw [show path ∈ (ofMembers members).columns ↔ _ from mem_columnsOf]
    constructor
    · rintro ⟨c, hc, rfl⟩
      obtain ⟨row, hrow, -, hcell⟩ := mem_cellsOf.mp (hcells.mem_iff.mp hc)
      exact ⟨row, hrow, List.mem_map_of_mem hcell⟩
    · rintro ⟨row, hrow, hpath⟩
      obtain ⟨cell, hcell, rfl⟩ := List.mem_map.mp hpath
      exact ⟨_, hcells.mem_iff.mpr ((hrows.mem_cellsOf_iff hrow).mpr hcell), rfl⟩

/-- Two rows, of which the second has a cell of a child block. -/
def orderRows : List FlatRow :=
  [⟨10, [(⟨[], "name"⟩, .str "c")]⟩,
    ⟨2, [(⟨[⟨0, 3⟩], "schema.data"⟩, .int 5), (⟨[], "name."⟩, .null)]⟩]

/-- A schema marker and an entry of the list of schemas. -/
def orderSchemas : List (String × Json) :=
  [("data.data.2.children.0.schema", .str "Item"), ("schemas.0", .null)]

/-- The members of both, in the order of their names. -/
def orderMembers : List (String × Json) :=
  [("data.data.10.name", .str "c"), ("data.data.2.children.0.data.3.schema.data", .int 5),
    ("data.data.2.children.0.schema", .str "Item"), ("data.data.2.name.", .null), ("schemas.0", .null)]

theorem holds_orderRows : Spellable orderRows ∧ (∀ m ∈ orderSchemas, KeyRole.IsReserved m.1) ∧
    orderMembers.Perm (membersOf orderRows ++ orderSchemas) ∧
    ((membersOf orderRows).map (·.1)).Nodup ∧ (ofMembers orderMembers).Holds orderRows := by
  have hinRange : ∀ row ∈ orderRows, ∀ cell ∈ row.cells, KeyRole.InRange row.root cell.1 := by
    simp only [orderRows, List.forall_mem_cons]
    refine ⟨⟨?_, by simp⟩, ⟨?_, ?_, by simp⟩, by simp⟩
    · exact ⟨by decide, by simp, by decide, by decide, by decide⟩
    · exact ⟨by decide, by simp [CellPath.StepInRange, CellPath.indexLimit], by decide, by decide, by decide⟩
    · exact ⟨by decide, by simp, by decide, by decide, by decide⟩
  have hspellable : Spellable orderRows := by
    refine ⟨by decide, ?_, ?_, hinRange⟩
    · simp [orderRows]
    · simp only [orderRows, List.forall_mem_cons]
      exact ⟨by decide, by decide, by simp⟩
  have hreserved : ∀ m ∈ orderSchemas, KeyRole.IsReserved m.1 := by
    have hroot : Text.IsNumeral CellPath.rootLimit 2 ['2'] := Text.isNumeral_numeral 0 (by decide)
    have hblock : Text.IsNumeral CellPath.indexLimit 0 ['0'] := Text.isNumeral_numeral 0 (by decide)
    have hmarker : KeyRole.SpellsMarker "data.data.2.children.0.schema" :=
      ⟨2, ['2'], _, hroot, ⟨[], [], 0, ['0'], .nil, hblock, rfl⟩, by decide⟩
    have hentry : "schemas.".toList <+: "schemas.0".toList := by decide
    simp only [orderSchemas, List.forall_mem_cons]
    exact ⟨.inr hmarker, .inl (.inr (.inl hentry)), by simp⟩
  have hmembers : orderMembers.Perm (membersOf orderRows ++ orderSchemas) :=
    .cons _ (.cons _ (.swap _ _ _))
  exact ⟨hspellable, hreserved, hmembers,
    holds_of_spellable orderRows hspellable orderSchemas hreserved orderMembers hmembers⟩

end FlatRecord

end PatternQuery
