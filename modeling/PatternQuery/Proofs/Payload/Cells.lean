import PatternQuery.Payload.FlatRecord
import PatternQuery.Proofs.Ordered
import PatternQuery.Proofs.Payload.Grammar

/-!
# Where the cells of a flattened result end up

The members of a flattened result are put into rows one after another. The rows are kept by their
indices and the cells of a row by their paths (`FlatRecord.InOrder`), for which the orders of indices
and of paths have to be orders. So one more cell is found where it belongs and changes no other
(`FlatRecord.InOrder.cellAt_addCell`), and of several values for one cell the last one counts
(`FlatRecord.cellAt_foldl`).

Two members belong to one cell iff their keys spell the same cell, and such keys differ only in zeros
in front of indices (`KeyRole.spells_iff`).
-/

namespace PatternQuery

open Std

/-- Where some member of a list has a property, there is a last one. -/
theorem exists_last {α : Type} {p : α → Prop} {l : List α} (h : ∃ a ∈ l, p a) :
    ∃ earlier a later, l = earlier ++ a :: later ∧ p a ∧ ∀ b ∈ later, ¬ p b := by
  induction l using List.reverseRecOn with
  | nil => exact absurd h (by simp)
  | append_singleton l last ih =>
    by_cases hlast : p last
    · exact ⟨l, last, [], rfl, hlast, by simp⟩
    · obtain ⟨a, ha, hpa⟩ := h
      have hmem : a ∈ l := by
        rcases List.mem_append.mp ha with hmem | hmem
        · exact hmem
        · exact absurd (List.mem_singleton.mp hmem ▸ hpa) hlast
      obtain ⟨earlier, a', later, rfl, hpa', hlater⟩ := ih ⟨a, hmem, hpa⟩
      refine ⟨earlier, a', later ++ [last], by simp, hpa', fun b hb => ?_⟩
      rcases List.mem_append.mp hb with hb | hb
      · exact hlater b hb
      · rwa [List.mem_singleton.mp hb]

/-! ### The order of paths -/

namespace Nesting

instance : TransCmp compare :=
  inferInstanceAs (TransCmp (compareLex (compareOn Nesting.block) (compareOn Nesting.row)))

instance : LawfulEqCmp compare where
  compare_self := ReflCmp.compare_self
  eq_of_compare {a b} h := by
    obtain ⟨hblock, hrow⟩ := Ordering.then_eq_eq.mp h
    obtain ⟨block, row⟩ := a
    obtain ⟨block', row'⟩ := b
    obtain rfl : block = block' := LawfulEqCmp.eq_of_compare hblock
    obtain rfl : row = row' := LawfulEqCmp.eq_of_compare hrow
    rfl

end Nesting

namespace CellPath

theorem compareSteps_eq : compareSteps = List.compareLex Nesting.compare := by
  funext as bs
  induction as generalizing bs with
  | nil => cases bs <;> rfl
  | cons a as ih =>
    cases bs with
    | nil => rfl
    | cons b bs => rw [compareSteps, ih, List.compareLex_cons_cons]

instance : TransCmp compareSteps := compareSteps_eq ▸ inferInstance

instance : LawfulEqCmp compareSteps := compareSteps_eq ▸ inferInstance

instance : TransCmp fun a b : CellPath => compareSteps a.steps b.steps where
  eq_swap := OrientedCmp.eq_swap
  isLE_trans := TransCmp.isLE_trans

instance : TransCmp compare := inferInstanceAs
  (TransCmp (compareLex (fun a b => compareSteps a.steps b.steps) (compareOn CellPath.field)))

instance : LawfulEqCmp compare where
  compare_self := ReflCmp.compare_self
  eq_of_compare {a b} h := by
    obtain ⟨hsteps, hfield⟩ := Ordering.then_eq_eq.mp h
    obtain ⟨steps, field⟩ := a
    obtain ⟨steps', field'⟩ := b
    obtain rfl : steps = steps' := LawfulEqCmp.eq_of_compare hsteps
    obtain rfl : field = field' := LawfulEqCmp.eq_of_compare hfield
    rfl

end CellPath

/-! ### Rows -/

namespace FlatRecord

open Ordered (Sorted)

variable {rows : List (Nat × List (CellPath × Json))} {c : Cell} {cells : List Cell} {root : Nat}
  {path : CellPath}

/-- **Rows in order:** the rows by their indices, and the cells of every row by their paths. -/
structure InOrder (rows : List (Nat × List (CellPath × Json))) : Prop where
  roots : Sorted compare rows
  paths : ∀ root cells, rows.lookup root = some cells → Sorted CellPath.compare cells

/-- The value in the row of a root, under a path. -/
def cellAt (rows : List (Nat × List (CellPath × Json))) (root : Nat) (path : CellPath) : Option Json :=
  (rows.lookup root).bind (·.lookup path)

theorem inOrder_nil : InOrder [] := ⟨Ordered.sorted_nil, by simp⟩

/-- The cells of a row, which are none where there is no row, are in order. -/
theorem InOrder.sorted_getD (h : InOrder rows) (root : Nat) :
    Sorted CellPath.compare ((rows.lookup root).getD []) := by
  cases hrow : rows.lookup root with
  | none => exact Ordered.sorted_nil
  | some cells => exact h.paths root cells hrow

/-- **One cell** keeps the rows in order. -/
theorem InOrder.addCell (h : InOrder rows) (c : Cell) : InOrder (addCell rows c) where
  roots := h.roots.alter
  paths root cells hcells := by
    rw [FlatRecord.addCell, h.roots.lookup_alter] at hcells
    split_ifs at hcells
    · obtain rfl := Option.some.inj hcells
      exact (h.sorted_getD c.root).alter
    · exact h.paths root cells hcells

/-- **One cell** is put where it belongs, and the other cells stay as they are. -/
theorem InOrder.cellAt_addCell (h : InOrder rows) (c : Cell) (root : Nat) (path : CellPath) :
    cellAt (FlatRecord.addCell rows c) root path =
      if root = c.root ∧ path = c.path then some c.value else cellAt rows root path := by
  rw [cellAt, FlatRecord.addCell, h.roots.lookup_alter]
  by_cases hroot : root = c.root
  · subst hroot
    rw [if_pos (beq_self_eq_true _), Option.bind_some, Ordered.insert,
      (h.sorted_getD c.root).lookup_alter]
    by_cases hpath : path = c.path
    · rw [if_pos (beq_iff_eq.mpr hpath), if_pos ⟨rfl, hpath⟩]
    · rw [if_neg (mt beq_iff_eq.mp hpath), if_neg fun h => hpath h.2, cellAt]
      cases rows.lookup c.root <;> rfl
  · rw [if_neg (mt beq_iff_eq.mp hroot), if_neg fun h => hroot h.1, cellAt]

/-- **A run:** so do any number of cells. -/
theorem InOrder.foldl_addCell (h : InOrder rows) (cells : List Cell) :
    InOrder (cells.foldl FlatRecord.addCell rows) := by
  induction cells generalizing rows with
  | nil => exact h
  | cons c cells ih => exact ih (h.addCell c)

theorem InOrder.cellAt_foldl_of_forall_ne (h : InOrder rows)
    (hne : ∀ c ∈ cells, ¬ (root = c.root ∧ path = c.path)) :
    cellAt (cells.foldl FlatRecord.addCell rows) root path = cellAt rows root path := by
  induction cells generalizing rows with
  | nil => rfl
  | cons c cells ih =>
    rw [List.foldl_cons, ih (h.addCell c) fun c' hc' => hne c' (List.mem_cons_of_mem _ hc'),
      h.cellAt_addCell, if_neg (hne c List.mem_cons_self)]

/-- **Of several values for one cell the last one counts.** -/
theorem cellAt_foldl {earlier later : List Cell}
    (hlater : ∀ c' ∈ later, ¬ (c.root = c'.root ∧ c.path = c'.path)) :
    cellAt ((earlier ++ c :: later).foldl FlatRecord.addCell []) c.root c.path = some c.value := by
  have hearlier : InOrder (earlier.foldl FlatRecord.addCell []) := inOrder_nil.foldl_addCell earlier
  rw [List.foldl_append, List.foldl_cons, (hearlier.addCell c).cellAt_foldl_of_forall_ne hlater,
    hearlier.cellAt_addCell, if_pos ⟨rfl, rfl⟩]

/-! ### Members -/

variable {members : List (String × Json)} {key : String} {value : Json}

theorem cell?_eq_some_iff {m : String × Json} : cell? m = some c ↔
    KeyRole.ofKey m.1 = .ok (.cell c.root c.path) ∧ m.2 = c.value := by
  obtain ⟨key, value⟩ := m
  obtain ⟨root, path, value'⟩ := c
  rw [cell?]
  split
  · next root' path' hkey =>
    rw [hkey]
    constructor
    · intro h
      cases h
      exact ⟨rfl, rfl⟩
    · rintro ⟨h, rfl⟩
      cases h
      rfl
  · next hkey => exact ⟨fun h => absurd h (by simp), fun h => absurd h.1 (hkey _ _)⟩

/-- A row with a given cell is the only one with its index. -/
theorem exists_row_of_cellAt (h : cellAt (cells.foldl FlatRecord.addCell []) root path = some value) :
    ∃ row, (rowsOf cells).filter (·.root == root) = [row] ∧ row.cells.lookup path = some value := by
  obtain ⟨rowCells, hrow, hcell⟩ := Option.bind_eq_some_iff.mp h
  -- The rows ascend by their indices, so no index is there twice.
  have hroots := (inOrder_nil.foldl_addCell cells).roots.nodup
  refine ⟨⟨root, rowCells⟩, ?_, hcell⟩
  have hfilter := congrArg (List.map fun entry => (⟨entry.1, entry.2⟩ : FlatRow))
    (filter_key_eq_singleton hroots hrow)
  rw [rowsOf, List.filter_map]
  exact hfilter

/-- **A cell holds the value of the last member that spells it.** -/
theorem exists_row_of_last (earlier : List (String × Json)) (last : String × Json)
    (later : List (String × Json)) (hlast : KeyRole.Spells root path last.1)
    (hlater : ∀ m ∈ later, ¬ KeyRole.Spells root path m.1) :
    ∃ row, (ofMembers (earlier ++ last :: later)).rows.filter (·.root == root) = [row] ∧
      row.cells.lookup path = some last.2 := by
  have hcell : cell? last = some ⟨root, path, last.2⟩ :=
    cell?_eq_some_iff.mpr ⟨KeyRole.ofKey_eq_cell_iff.mpr hlast, rfl⟩
  have hcells : (earlier ++ last :: later).filterMap cell? =
      earlier.filterMap cell? ++ ⟨root, path, last.2⟩ :: later.filterMap cell? := by
    rw [List.filterMap_append, List.filterMap_cons_some hcell]
  refine exists_row_of_cellAt ?_
  rw [hcells]
  refine cellAt_foldl fun c hc heq => ?_
  obtain ⟨m, hm, hmc⟩ := List.mem_filterMap.mp hc
  obtain ⟨hkey, -⟩ := cell?_eq_some_iff.mp hmc
  obtain ⟨rfl, rfl⟩ := heq
  exact hlater m hm (KeyRole.ofKey_eq_cell_iff.mp hkey)

theorem not_mem_skipped {role : KeyRole} (h : KeyRole.ofKey key = .ok role) :
    key ∉ (ofMembers members).skipped := by
  intro hmem
  have hskipped : isSkipped key = true := (List.mem_filter.mp hmem).2
  rw [isSkipped, h] at hskipped
  exact absurd hskipped nofun

theorem count_skipped {e : CellPathError} (hnames : (members.map (·.1)).Nodup)
    (hmem : (key, value) ∈ members) (h : KeyRole.ofKey key = .error e) :
    (ofMembers members).skipped.count key = 1 := by
  have hskipped : isSkipped key = true := by rw [isSkipped, h]
  have hname : key ∈ members.map (·.1) := List.mem_map_of_mem hmem
  exact (List.count_filter hskipped).trans (List.count_eq_one_of_mem hnames hname)

end FlatRecord

/-- **What becomes of a member of a flattened result.** If its key is the key of a cell, there is one row
with the index of the root row, and the cell of this row holds the value of the last member whose key
spells the same cell. That is the value of this member unless there is another key for the cell, and such
keys differ only in zeros in front of indices. Reserved keys are passed over, and every other key is
reported once. -/
theorem cell_of_member (members : List (String × Json)) (hnames : (members.map (·.1)).Nodup)
    (key : String) (value : Json) (hmem : (key, value) ∈ members) :
    (∀ root path, KeyRole.ofKey key = .ok (.cell root path) →
      key ∉ (FlatRecord.ofMembers members).skipped ∧
      (∃ row, (FlatRecord.ofMembers members).rows.filter (·.root == root) = [row] ∧
        (∃ earlier last later, members = earlier ++ last :: later ∧
          KeyRole.ofKey last.1 = .ok (.cell root path) ∧
          (∀ m ∈ later, KeyRole.ofKey m.1 ≠ .ok (.cell root path)) ∧
          row.cells.lookup path = some last.2) ∧
        ((∀ m ∈ members, KeyRole.ofKey m.1 = .ok (.cell root path) → m.1 = key) →
          row.cells.lookup path = some value)) ∧
      ∀ m ∈ members, KeyRole.ofKey m.1 = .ok (.cell root path) → ∃ zeros stepZeros,
        stepZeros.length = path.depth ∧
          m.1.toList = KeyRole.paddedKey zeros stepZeros root path) ∧
    (KeyRole.ofKey key = .ok .reserved → key ∉ (FlatRecord.ofMembers members).skipped) ∧
    ∀ e, KeyRole.ofKey key = .error e → (FlatRecord.ofMembers members).skipped.count key = 1 := by
  refine ⟨fun root path hkey => ⟨FlatRecord.not_mem_skipped hkey, ?_, fun m _ hm => ?_⟩,
    FlatRecord.not_mem_skipped, fun e hkey => FlatRecord.count_skipped hnames hmem hkey⟩
  · obtain ⟨earlier, last, later, hsplit, hlast, hlater⟩ :=
      exists_last (p := fun m : String × Json => KeyRole.Spells root path m.1)
        ⟨_, hmem, KeyRole.ofKey_eq_cell_iff.mp hkey⟩
    obtain ⟨row, hrow, hcell⟩ := FlatRecord.exists_row_of_last earlier last later hlast hlater
    rw [← hsplit] at hrow
    simp only [KeyRole.ofKey_eq_cell_iff, ne_eq]
    refine ⟨row, hrow, ⟨earlier, last, later, hsplit, hlast, hlater, hcell⟩, fun honly => ?_⟩
    have hlastMem : last ∈ members := by rw [hsplit]; simp
    -- The last member that spells the cell has this key, and no key is there twice.
    have hsame : last = (key, value) :=
      List.inj_on_of_nodup_map hnames hlastMem hmem (honly last hlastMem hlast)
    rw [hcell, hsame]
  · have hspells : KeyRole.Spells root path m.1 := KeyRole.ofKey_eq_cell_iff.mp hm
    exact (KeyRole.spells_iff.mp hspells).2

/-- The cells of two rows. -/
def twoRows : List (String × Json) :=
  [("data.data.0.name", .str "a"), ("data.data.1.name", .str "b")]

theorem cell_of_twoRows : (twoRows.map (·.1)).Nodup ∧ ("data.data.0.name", .str "a") ∈ twoRows ∧
    ∃ row, (FlatRecord.ofMembers twoRows).rows.filter (·.root == 0) = [row] ∧
      row.cells.lookup ⟨[], "name"⟩ = some (.str "a") := by
  have hnames : (twoRows.map (·.1)).Nodup := by decide
  have hmem : ("data.data.0.name", .str "a") ∈ twoRows := List.mem_cons_self
  have hfield : CellPath.IsField "name".toList := ⟨by decide, by decide, by decide⟩
  have hfirst : KeyRole.ofKey "data.data.0.name" = .ok (.cell 0 ⟨[], "name"⟩) :=
    KeyRole.ofKey_eq_cell_iff.mpr (KeyRole.spells_iff.mpr
      ⟨⟨by decide, by simp, hfield⟩, 0, [], rfl, by decide⟩)
  have hsecond : KeyRole.ofKey "data.data.1.name" = .ok (.cell 1 ⟨[], "name"⟩) :=
    KeyRole.ofKey_eq_cell_iff.mpr (KeyRole.spells_iff.mpr
      ⟨⟨by decide, by simp, hfield⟩, 0, [], rfl, by decide⟩)
  obtain ⟨hcell, -, -⟩ := cell_of_member twoRows hnames _ _ hmem
  obtain ⟨-, ⟨row, hrow, -, honly⟩, -⟩ := hcell _ _ hfirst
  have hother (m : String × Json) (hm : m ∈ twoRows)
      (hspells : KeyRole.ofKey m.1 = .ok (.cell 0 ⟨[], "name"⟩)) : m.1 = "data.data.0.name" := by
    rcases List.mem_cons.mp hm with rfl | hm
    · rfl
    · obtain rfl := List.mem_singleton.mp hm
      exact absurd (hsecond.symm.trans hspells) (by simp)
  exact ⟨hnames, hmem, row, hrow, honly hother⟩

/-- Two keys for one cell. -/
def oneCellTwice : List (String × Json) :=
  [("data.data.0.children.0.data.0.x", .str "a"), ("data.data.0.children.0.data.00.x", .str "b")]

/-- **Not every member of a flattened result keeps its cell.** -/
theorem not_cell_of_member : ¬ ∀ (members : List (String × Json)) (key : String) (value : Json),
    (members.map (·.1)).Nodup → (key, value) ∈ members → ∀ root path,
      KeyRole.ofKey key = .ok (.cell root path) →
        ∃ row, (FlatRecord.ofMembers members).rows.filter (·.root == root) = [row] ∧
          row.cells.lookup path = some value := by
  intro hkeeps
  have hrange : KeyRole.InRange 0 ⟨[⟨0, 0⟩], "x"⟩ :=
    ⟨by decide, by simp [CellPath.StepInRange, CellPath.indexLimit], by decide, by decide, by decide⟩
  have hfirst : KeyRole.Spells 0 ⟨[⟨0, 0⟩], "x"⟩ "data.data.0.children.0.data.0.x" :=
    KeyRole.spells_iff.mpr ⟨hrange, 0, [(0, 0)], rfl, by decide⟩
  have hsecond : KeyRole.Spells 0 ⟨[⟨0, 0⟩], "x"⟩ "data.data.0.children.0.data.00.x" :=
    KeyRole.spells_iff.mpr ⟨hrange, 0, [(0, 1)], rfl, by decide⟩
  obtain ⟨row, hrow, hcell⟩ := hkeeps oneCellTwice "data.data.0.children.0.data.0.x" (.str "a")
    (by decide) List.mem_cons_self _ _ (KeyRole.ofKey_eq_cell_iff.mpr hfirst)
  -- The second key takes the cell.
  obtain ⟨row', hrow', hcell'⟩ := FlatRecord.exists_row_of_last
    [("data.data.0.children.0.data.0.x", .str "a")] ("data.data.0.children.0.data.00.x", .str "b") []
    hsecond (by simp)
  obtain rfl : row = row' := List.singleton_inj.mp (hrow.symm.trans hrow')
  have hvalue : Json.str "a" = Json.str "b" := Option.some.inj (hcell.symm.trans hcell')
  exact absurd (Json.str.inj hvalue) (by decide)

end PatternQuery
