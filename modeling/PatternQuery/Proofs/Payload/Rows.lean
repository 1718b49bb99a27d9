import PatternQuery.Proofs.Payload.Cells

/-!
# The rows and columns of a flattened result

Whatever the members are, the rows of a flattened result ascend by their indices, the cells of a row by
their paths, and so do the columns (`FlatRecord.InOrder`, `FlatRecord.columns_ascend`). There is a row for
every index and a column for every path that some member spells.

Where no cell is spelled twice, the rows hold the cells as they were spelled
(`FlatRecord.cellAt_foldl_eq_some_iff`, `FlatRecord.mem_cells_iff`).
-/

namespace PatternQuery.FlatRecord

open Std

open Ordered (Sorted)

variable {members : List (String × Json)} {cells : List Cell} {c : Cell} {root : Nat} {path : CellPath}
  {value : Json} {row : FlatRow}

/-! ### Rows -/

theorem map_root_rowsOf (cells : List Cell) :
    (rowsOf cells).map (·.root) = (cells.foldl addCell []).map (·.1) := by
  rw [rowsOf, List.map_map]
  rfl

/-- There is a row for every index of a cell. -/
theorem mem_map_root_rowsOf : root ∈ (rowsOf cells).map (·.root) ↔ ∃ c ∈ cells, c.root = root := by
  rw [map_root_rowsOf]
  refine (Ordered.mem_keys_foldl_alter cells).trans ?_
  rw [List.map_nil, or_iff_right List.not_mem_nil]

/-- **The rows ascend by their indices.** -/
theorem roots_ascend (cells : List Cell) : ((rowsOf cells).map (·.root)).Pairwise (· < ·) := by
  have hsorted := (inOrder_nil.foldl_addCell cells).roots
  rw [map_root_rowsOf, List.pairwise_map]
  exact hsorted.imp fun hlt => Nat.compare_eq_lt.mp hlt

theorem mem_rowsOf_iff : row ∈ rowsOf cells ↔ (cells.foldl addCell []).lookup row.root = some row.cells := by
  have hroots := (inOrder_nil.foldl_addCell cells).roots.nodup
  rw [lookup_eq_some_iff_mem hroots, rowsOf, List.mem_map]
  constructor
  · rintro ⟨entry, hentry, rfl⟩
    exact hentry
  · intro hentry
    exact ⟨_, hentry, rfl⟩

/-- **The cells of a row ascend by their paths.** -/
theorem paths_ascend (hrow : row ∈ rowsOf cells) : Sorted CellPath.compare row.cells :=
  (inOrder_nil.foldl_addCell cells).paths row.root row.cells (mem_rowsOf_iff.mp hrow)

/-- A row holds what is found at its index. -/
theorem mem_cells_iff (hrow : row ∈ rowsOf cells) :
    (path, value) ∈ row.cells ↔ cellAt (cells.foldl addCell []) row.root path = some value := by
  rw [cellAt, mem_rowsOf_iff.mp hrow, Option.bind_some, lookup_eq_some_iff_mem (paths_ascend hrow).nodup]

/-- **Where no cell is spelled twice,** every cell is found with its value. -/
theorem cellAt_foldl_eq_some_iff (hcells : (cells.map fun c => (c.root, c.path)).Nodup) :
    cellAt (cells.foldl addCell []) root path = some value ↔ ⟨root, path, value⟩ ∈ cells := by
  have hfound {c : Cell} (hc : c ∈ cells) :
      cellAt (cells.foldl addCell []) c.root c.path = some c.value := by
    obtain ⟨earlier, later, rfl⟩ := List.append_of_mem hc
    refine cellAt_foldl fun c' hc' heq => ?_
    rw [List.map_append, List.map_cons] at hcells
    have hnot := (List.nodup_cons.mp (List.nodup_append.mp hcells).2.1).1
    exact hnot (List.mem_map.mpr ⟨c', hc', Prod.ext heq.1.symm heq.2.symm⟩)
  constructor
  · intro h
    by_cases hsome : ∃ c ∈ cells, root = c.root ∧ path = c.path
    · obtain ⟨c, hc, rfl, rfl⟩ := hsome
      obtain rfl : c.value = value := Option.some.inj ((hfound hc).symm.trans h)
      exact hc
    · -- A cell that no member spells is not found.
      have hne : ∀ c ∈ cells, ¬ (root = c.root ∧ path = c.path) := fun c hc heq => hsome ⟨c, hc, heq⟩
      have hnone := inOrder_nil.cellAt_foldl_of_forall_ne hne
      exact absurd (hnone.symm.trans h) nofun
  · intro hc
    exact hfound hc

/-! ### Columns -/

/-- **The columns ascend.** -/
theorem columns_ascend (cells : List Cell) :
    (columnsOf cells).Pairwise fun p q => p.compare q = .lt := by
  have hsorted : Sorted CellPath.compare
      (cells.foldl (fun paths c => Ordered.insert CellPath.compare c.path () paths) []) :=
    Ordered.sorted_nil.foldl_alter cells
  exact List.pairwise_map.mpr hsorted

theorem nodup_columnsOf (cells : List Cell) : (columnsOf cells).Nodup :=
  (columns_ascend cells).imp fun hlt => Ordered.ne_of_lt hlt

/-- There is a column for every path of a cell. -/
theorem mem_columnsOf : path ∈ columnsOf cells ↔ ∃ c ∈ cells, c.path = path := by
  refine (Ordered.mem_keys_foldl_alter cells).trans ?_
  rw [List.map_nil, or_iff_right List.not_mem_nil]

end PatternQuery.FlatRecord
