import Mathlib.Data.List.Forall2
import PatternQuery.Proofs.Payload.Attribution
import PatternQuery.Proofs.Payload.ColumnOrder

/-!
# Grouping does not depend on the order of the paths

The groups are made of the paths that are shown at each position of the list of schemas
(`Attribution.groups_eq_range`), and each of them is sorted. Columns of one group that have one path are
equal, so sorting leaves no choice (`ShapedColumn.eq_sort_of_perm`): what the groups are depends on the
paths and how often they occur only. What is in them, and in which order, is said in
`Attribution.Partitions`.
-/

namespace PatternQuery

open Std

/-! ### Sorting columns -/

namespace ShapedColumn

/-- The columns in order. -/
def sort (columns : List ShapedColumn) : List ShapedColumn :=
  columns.mergeSort fun a b => (a.compare b).isLE

variable {columns sorted : List ShapedColumn}

theorem sort_perm (columns : List ShapedColumn) : (sort columns).Perm columns :=
  List.mergeSort_perm _ _

theorem sort_eq_nil_iff : sort columns = [] ↔ columns = [] := by
  rw [← List.length_eq_zero_iff, (sort_perm columns).length_eq, List.length_eq_zero_iff]

theorem pairwise_sort (columns : List ShapedColumn) :
    (sort columns).Pairwise fun a b => (a.compare b).isLE := by
  refine List.pairwise_mergeSort (fun a b c => TransCmp.isLE_trans) (fun a b => ?_) columns
  rw [Bool.or_eq_true, or_iff_not_imp_left]
  intro hab
  exact Ordering.isLE_of_eq_lt (OrientedCmp.lt_of_not_isLE hab)

/-- **Columns that are told apart by their paths have one order only.** -/
theorem eq_sort_of_perm (hperm : sorted.Perm columns)
    (hsorted : sorted.Pairwise fun a b => (a.compare b).isLE)
    (hpaths : ∀ a ∈ columns, ∀ b ∈ columns, a.path = b.path → a = b) : sorted = sort columns := by
  refine List.Perm.eq_of_pairwise (fun a b ha hb hab hba => ?_) hsorted (pairwise_sort columns)
    (hperm.trans (sort_perm columns).symm)
  have hpath := path_eq_of_compare_eq (OrientedCmp.isLE_antisymm hab hba)
  exact hpaths a (hperm.mem_iff.mp ha) b ((sort_perm columns).mem_iff.mp hb) hpath

end ShapedColumn

/-! ### The place of a field -/

/-- **The place of the field that answers to a text:** the position of the first one that does, or unresolved
if none does. -/
def FieldOrder.IsPlaceOf (schema : Option Schema) (text : String) : FieldOrder → Prop
  | resolved i => ∃ s f, schema = some s ∧ s.fields[i]? = some f ∧ (f.id = text ∨ f.name = text) ∧
      ∀ j g, j < i → s.fields[j]? = some g → g.id ≠ text ∧ g.name ≠ text
  | unresolved => ∀ s, schema = some s → ∀ f ∈ s.fields, f.id ≠ text ∧ f.name ≠ text

namespace Attribution

variable {schemas : List Schema} {includeHidden : Bool} {paths paths' : List CellPath} {path : CellPath}
  {schema : Option Schema} {k : Nat} {g : ColumnGroup}

theorem isPlaceOf_order_column (schema : Option Schema) (path : CellPath) :
    (column schema path).order.IsPlaceOf schema path.field := by
  have hnot {f : Field} (h : f.answersTo path.field ≠ true) : f.id ≠ path.field ∧ f.name ≠ path.field :=
    not_or.mp fun hor => h (Field.answersTo_iff.mpr hor)
  cases schema with
  | none => exact nofun
  | some s =>
    change (fieldOrder s path.field).IsPlaceOf (some s) path.field
    unfold fieldOrder Schema.fieldIndex?
    cases hindex : s.fields.findIdx? (·.answersTo path.field) with
    | none =>
      intro s' hs f hf
      obtain rfl := Option.some.inj hs
      exact hnot (ne_true_of_eq_false (List.findIdx?_eq_none_iff.mp hindex f hf))
    | some i =>
      obtain ⟨hlt, hat, hfirst⟩ := List.findIdx?_eq_some_iff_getElem.mp hindex
      refine ⟨s, s.fields[i], rfl, List.getElem?_eq_getElem hlt, Field.answersTo_iff.mp hat, ?_⟩
      intro j g hj hg
      obtain ⟨hj', rfl⟩ := List.getElem?_eq_some_iff.mp hg
      exact hnot (hfirst j hj)

/-! ### One group -/

/-- A group is made of the paths that are left, in whatever way the others were left out. -/
theorem group?_eq : group? includeHidden schema paths =
    group? true schema (paths.filter fun p => includeHidden || !isHidden schema p) := by
  simp only [group?, Bool.true_or, List.filter_true]

theorem group?_eq_none_iff : group? true schema paths = none ↔ paths = [] := by
  simp only [group?, Bool.true_or, List.filter_true]
  split_ifs with hempty
  · exact iff_of_true rfl (List.isEmpty_iff.mp hempty)
  · exact iff_of_false nofun fun hnil => hempty (List.isEmpty_iff.mpr hnil)

theorem group?_of_ne_nil (h : paths ≠ []) : group? true schema paths = some
    ⟨schema.map (·.id), (schema.map Schema.displayLabel).getD schemaNotFound,
      ShapedColumn.sort (paths.map (column schema))⟩ := by
  simp only [group?, Bool.true_or, List.filter_true]
  rw [if_neg fun hempty => h (List.isEmpty_iff.mp hempty)]
  rfl

/-- The columns of one schema are told apart by their paths. -/
theorem eq_of_path_eq {a b : ShapedColumn} (ha : a ∈ paths.map (column schema))
    (hb : b ∈ paths.map (column schema)) (hpath : a.path = b.path) : a = b := by
  obtain ⟨p, -, rfl⟩ := List.mem_map.mp ha
  obtain ⟨q, -, rfl⟩ := List.mem_map.mp hb
  exact congrArg (column schema) hpath

/-- **The order of the paths makes no difference to a group.** -/
theorem group?_of_perm (h : paths.Perm paths') : group? true schema paths = group? true schema paths' := by
  by_cases hnil : paths = []
  · subst hnil
    rw [h.nil_eq]
  · have hnil' : paths' ≠ [] := fun hnil' => hnil (List.perm_nil.mp (hnil' ▸ h))
    have hsort := ShapedColumn.eq_sort_of_perm
      ((ShapedColumn.sort_perm _).trans (h.map (column schema)))
      (ShapedColumn.pairwise_sort _) (fun a ha b hb => eq_of_path_eq ha hb)
    rw [group?_of_ne_nil hnil, group?_of_ne_nil hnil', hsort]

/-! ### The paths of a group -/

/-- The paths that are shown at a position of the list of schemas. -/
def shownAt (schemas : List Schema) (includeHidden : Bool) (paths : List CellPath) (k : Nat) :
    List CellPath :=
  paths.filter fun p => min p.depth (schemas.length - 1) == k && isShown schemas includeHidden p

theorem mem_shownAt_iff : path ∈ shownAt schemas includeHidden paths k ↔ path ∈ paths ∧
    min path.depth (schemas.length - 1) = k ∧ Shown schemas includeHidden path := by
  rw [shownAt, List.mem_filter, Bool.and_eq_true, beq_iff_eq, isShown_iff]

/-- A path is shown at its own position as often as it is there, and nowhere else. -/
theorem count_shownAt (paths : List CellPath) : (shownAt schemas includeHidden paths k).count path =
    if min path.depth (schemas.length - 1) = k ∧ Shown schemas includeHidden path
      then paths.count path else 0 := by
  split_ifs with hshown
  · refine List.count_filter ?_
    rwa [Bool.and_eq_true, beq_iff_eq, isShown_iff]
  · exact List.count_eq_zero.mpr fun hmem => hshown (mem_shownAt_iff.mp hmem).2

/-- The group of a place is that of a position, if the place has the depths and the schema of it. -/
theorem group?_place {place : Option Nat} (hschema : schemaAt schemas place = schemas[k]?)
    (hdepth : ∀ depth, indexForDepth schemas depth = place ↔ min depth (schemas.length - 1) = k) :
    group? includeHidden (schemaAt schemas place)
        (paths.filter fun p => indexForDepth schemas p.depth == place) =
      group? true schemas[k]? (shownAt schemas includeHidden paths k) := by
  rw [group?_eq, hschema, shownAt, List.filter_filter]
  refine congrArg _ (List.filter_congr fun p _ => ?_)
  by_cases hk : min p.depth (schemas.length - 1) = k
  · rw [beq_iff_eq.mpr ((hdepth p.depth).mpr hk), isShown, schemaForDepth_eq, hk, beq_self_eq_true,
      Bool.and_true, Bool.true_and]
  · rw [beq_eq_false_iff_ne.mpr (mt (hdepth p.depth).mp hk), beq_eq_false_iff_ne.mpr hk, Bool.and_false,
      Bool.false_and]

/-- **The groups are those of the positions** at which some path is shown. -/
theorem groups_eq_range : groups schemas includeHidden paths =
    (List.range (max 1 schemas.length)).filterMap fun k =>
      group? true schemas[k]? (shownAt schemas includeHidden paths k) := by
  rw [groups_eq]
  cases schemas with
  | nil =>
    -- Without schemas all paths are at the first position, where there is none.
    have hgroup : group? includeHidden (schemaAt [] none)
          (paths.filter fun p => indexForDepth [] p.depth == none) =
        group? true ([] : List Schema)[0]? (shownAt [] includeHidden paths 0) :=
      group?_place rfl fun depth => iff_of_true rfl (Nat.min_zero depth)
    change [none].filterMap _ = [0].filterMap _
    rw [List.filterMap_cons, List.filterMap_cons, hgroup]
    rfl
  | cons s rest =>
    have hlength : max 1 (s :: rest).length = (s :: rest).length :=
      max_eq_right (Nat.succ_le_succ (Nat.zero_le _))
    have hplaces : places (s :: rest) = (List.range (s :: rest).length).map some := rfl
    rw [hlength, hplaces, List.filterMap_map]
    refine List.filterMap_congr fun k hk => group?_place rfl fun depth => ?_
    exact Option.some_inj

/-- A run of partial results, with what each of them comes from. -/
theorem forall₂_filterMap {α β : Type} (f : α → Option β) (l : List α) :
    List.Forall₂ (fun a b => f a = some b) (l.filter fun a => (f a).isSome) (l.filterMap f) := by
  induction l with
  | nil => exact .nil
  | cons a l ih =>
    cases ha : f a with
    | none => rwa [List.filter_cons_of_neg (by simp [ha]), List.filterMap_cons_none ha]
    | some b =>
      rw [List.filter_cons_of_pos (by simp [ha]), List.filterMap_cons_some ha]
      exact .cons ha ih

/-! ### The partition -/

/-- **A group holds the paths that are shown at a position of the list of schemas,** each as often as it is
there, in the order of the columns. -/
structure IsGroupAt (schemas : List Schema) (includeHidden : Bool) (paths : List CellPath) (k : Nat)
    (g : ColumnGroup) : Prop where
  schema_eq : g.schema = schemas[k]?.map (·.id)
  label_eq : g.label = (schemas[k]?.map Schema.displayLabel).getD schemaNotFound
  columns_ne_nil : g.columns ≠ []
  count_path : ∀ path, (g.columns.map (·.path)).count path =
    if min path.depth (schemas.length - 1) = k ∧ Shown schemas includeHidden path
      then paths.count path else 0
  order : ∀ c ∈ g.columns, c.order.IsPlaceOf schemas[k]? c.path.field
  sorted : g.columns.Pairwise fun a b => a.Before b ∨ a = b

theorem isGroupAt_of_group? (h : group? true schemas[k]? (shownAt schemas includeHidden paths k) = some g) :
    IsGroupAt schemas includeHidden paths k g := by
  have hne : shownAt schemas includeHidden paths k ≠ [] := fun hnil =>
    Option.some_ne_none g (h.symm.trans (group?_eq_none_iff.mpr hnil))
  obtain rfl := Option.some.inj ((group?_of_ne_nil hne).symm.trans h)
  have hperm := ShapedColumn.sort_perm ((shownAt schemas includeHidden paths k).map (column schemas[k]?))
  constructor
  case schema_eq => rfl
  case label_eq => rfl
  case columns_ne_nil =>
    intro hnil
    exact hne (List.map_eq_nil_iff.mp (ShapedColumn.sort_eq_nil_iff.mp hnil))
  case count_path =>
    intro path
    have hpaths := hperm.map (·.path)
    rw [List.map_map] at hpaths
    rw [← count_shownAt paths, hpaths.count_eq]
    exact congrArg (List.count path) (List.map_id _)
  case order =>
    intro c hc
    obtain ⟨path, -, rfl⟩ := List.mem_map.mp (hperm.mem_iff.mp hc)
    exact isPlaceOf_order_column _ path
  case sorted =>
    -- Columns that compare as equal have one path, and so they are one column.
    refine (ShapedColumn.pairwise_sort _).imp_of_mem fun {a b} ha hb hle => ?_
    refine (Ordering.isLE_iff_eq_lt_or_eq_eq.mp hle).imp ShapedColumn.compare_eq_lt_iff.mp fun heq => ?_
    exact eq_of_path_eq (hperm.mem_iff.mp ha) (hperm.mem_iff.mp hb)
      (ShapedColumn.path_eq_of_compare_eq heq)

/-- **How paths are partitioned into groups:** there is one for every position at which some path is shown,
and the positions ascend. Without schemas there is a single one, which belongs to none. -/
structure Partitions (schemas : List Schema) (includeHidden : Bool) (paths : List CellPath)
    (gs : List ColumnGroup) : Prop where
  exists_positions : ∃ positions : List Nat, positions.Pairwise (· < ·) ∧
    List.Forall₂ (IsGroupAt schemas includeHidden paths) positions gs ∧
    ∀ k, k ∈ positions ↔
      ∃ path ∈ paths, min path.depth (schemas.length - 1) = k ∧ Shown schemas includeHidden path
  without_schemas : schemas = [] → paths ≠ [] → ∃ columns, gs = [⟨none, schemaNotFound, columns⟩]
  /-- The order in which the paths come makes no difference. -/
  eq_of_perm : ∀ paths', paths.Perm paths' → groups schemas includeHidden paths' = gs

/-- **Grouping partitions the paths that are shown,** in whatever order they come. -/
theorem partitions_groups (schemas : List Schema) (includeHidden : Bool) (paths : List CellPath) :
    Partitions schemas includeHidden paths (groups schemas includeHidden paths) where
  exists_positions := by
    rw [groups_eq_range]
    have hgroups := (forall₂_filterMap
      (fun k => group? true schemas[k]? (shownAt schemas includeHidden paths k))
      (List.range (max 1 schemas.length))).imp fun k g => isGroupAt_of_group?
    refine ⟨_, List.pairwise_lt_range.filter _, hgroups, fun k => ?_⟩
    rw [List.mem_filter, List.mem_range, Option.isSome_iff_ne_none, ne_eq, group?_eq_none_iff]
    constructor
    · rintro ⟨-, hne⟩
      obtain ⟨path, hpath⟩ := List.exists_mem_of_ne_nil _ hne
      exact ⟨path, mem_shownAt_iff.mp hpath⟩
    · rintro ⟨path, hpath, hk, hshown⟩
      -- The position of a path is bounded by the number of schemas, as its depth is cut down.
      refine ⟨by omega, List.ne_nil_of_mem (mem_shownAt_iff.mpr ⟨hpath, hk, hshown⟩)⟩
  without_schemas := by
    rintro rfl hpaths
    have hall : paths.filter (fun p => includeHidden || !isHidden none p) = paths :=
      List.filter_eq_self.mpr fun p _ => Bool.or_true includeHidden
    change ∃ columns, (group? includeHidden none paths).toList = _
    rw [group?_eq, hall, group?_of_ne_nil hpaths]
    exact ⟨_, rfl⟩
  eq_of_perm paths' hperm := by
    rw [groups_eq_range, groups_eq_range]
    exact List.filterMap_congr fun k _ => group?_of_perm (hperm.symm.filter _)

end Attribution

end PatternQuery
